/-
  DiyDdmin.Range.Calls — the calls of `_range` and their rounds.

  `Working` is what holds during a round: every worker has its own copy of the input and is
  at some stage of its job, what was tried is the cut of the job with its verdict, and
  every entry of `fail_arr` below `fail_n` is either still to be stored by the worker that
  reserved it or names a file that holds a failing candidate and is written no more.
  `CallAt` says what holds elsewhere in a call.

  Proved: both hold in every state of every run, whatever the input is named and whatever
  was in the directory (`reach_sound`).
-/

import DiyDdmin.Range.Jobs
import DiyDdmin.Range.Protocol

namespace DiyDdmin.Range

open Posix Tester Numeric Systems Reduction WorkPool

/-- The entry of `fail_arr` a worker has reserved and not stored yet. -/
def reserved : WorkerPc → Option Nat
  | .checking _ j => some j
  | .doubling _ j => some j
  | .reallocating _ j => some j
  | .storing _ j => some j
  | _ => none

section

variable (E : Env)

/-- The file `p` holds a failing candidate, and no worker writes to it any more. -/
def Stored (T : Bytes) (n r : Nat) (s : St) (p : Path) : Prop :=
  ∃ (th : Worker) (k b : Nat), p = outName th k ∧
    (k < s.g.failStack th ∨ k = s.g.failStack th ∧ ∃ d, s.workers th = .naming d) ∧ b + r ≤ n ∧
    s.w.fs (E.key p) = some (cutOf n r b T) ∧ Condemned E (cutOf n r b T)

structure Working (s : St) (T : Bytes) (n r : Nat) : Prop where
  size : s.g.inputSize = n
  rs : s.g.rs = r
  le : n ≤ T.length
  small : n < 2 ^ 31
  copies : ∀ th : Worker, s.w.fs (E.key (originFile th)) = some T
  stage : ∀ th, Stage E T n r th (s.g.outFiles th) s.w.fs (s.workers th)
  tried : ∀ t ∈ s.g.log.tried, Right E T n r t
  found : ∀ t ∈ s.g.log.tried, t.failed = true → 0 < s.g.failN ∨ ∃ d, s.workers t.worker = .reserving d
  stored : ∀ j < s.g.failN, (∃ th, reserved (s.workers th) = some j) ∨ Stored E T n r s (s.g.failArr j)

def Named (g : Globals) : Prop := ∀ th, g.outFiles th = outName th (g.failStack th)

/-! ## A worker's step in a round -/

variable {E} {T : Bytes} {n r : Nat}

theorem own_outName {th th' : Worker} {k k' : Nat} (h : Own E th (outName th k) (E.key (outName th' k'))) :
    th' = th ∧ k' = k := by
  rcases h with h | h | h
  · exact outName_inj E h
  · exact absurd h (outName_ne_dummyOut E _ _ _)
  · exact absurd h (outName_ne_dummyErr E _ _ _)

theorem not_own_origin {th : Worker} {k i : Nat} : ¬ Own E th (outName th k) (E.key (originFile i)) := by
  rintro (h | h | h)
  · exact outName_ne_origin E _ _ _ h.symm
  · exact originFile_ne_dummyOut E _ _ h
  · exact originFile_ne_dummyErr E _ _ h

theorem move_named {th : Worker} {g g' : Globals} {pc pc' : WorkerPc} (h : Named g) (hm : WorkerMove th g pc pc' g') :
    Named g' := by
  cases hm with
  | name d =>
    intro th'
    simp only [Globals.rename, Function.update_apply]
    split
    · subst_vars; simp [outName]
    · exact h th'
  | _ => exact h

theorem move_input {th : Worker} {g g' : Globals} {pc pc' : WorkerPc} (h : WorkerMove th g pc pc' g') :
    g'.log.input = g.log.input := by cases h <;> rfl

/-- A worker goes on with the same candidate file, or has stored it. -/
theorem move_out {th : Worker} {g g' : Globals} {pc pc' : WorkerPc} (hm : WorkerMove th g pc pc' g') :
    (g'.outFiles = g.outFiles ∧ g'.failStack = g.failStack) ∨
      ((∃ d, pc = .naming d ∧ pc' = .closing d) ∧ (∀ th', th' ≠ th → g'.outFiles th' = g.outFiles th') ∧
        g'.failStack = Function.update g.failStack th (g.failStack th + 1)) := by
  cases hm with
  | name d =>
    exact Or.inr ⟨⟨d, rfl, rfl⟩, fun th' h => by simp only [Globals.rename, Function.update_of_ne h], rfl⟩
  | _ => exact Or.inl ⟨rfl, rfl⟩

/-- The candidate file that worker `th` used after `k` failing candidates holds `c`, and the
    worker writes to it no more. -/
def Shelved (E : Env) (s : St) (th : Worker) (k : Nat) (c : Bytes) : Prop :=
  (k < s.g.failStack th ∨ k = s.g.failStack th ∧ ∃ d, s.workers th = .naming d) ∧ s.w.fs (E.key (outName th k)) = some c

theorem Shelved.keep {s : St} {th th' : Worker} {pc : WorkerPc} {g : Globals} {w : World Vars} {k : Nat} {c : Bytes}
    (hm : WorkerMove th s.g (s.workers th) pc g) (hfr : ∀ k, ¬ Own E th (outName th (s.g.failStack th)) k → w.fs k = s.w.fs k)
    (hstill : (∃ d, s.workers th = .naming d) → w = s.w) (h : Shelved E s th' k c) :
    Shelved E ⟨s.main, Function.update s.workers th pc, g, w⟩ th' k c := by
  obtain ⟨hk, hfile⟩ := h
  by_cases hth : th' = th
  · subst hth
    rcases hk with hk | ⟨rfl, d, hd⟩
    · have hlt : k < g.failStack th' := by
        rcases move_out hm with ⟨-, e⟩ | ⟨-, -, e⟩ <;> rw [e]
        · exact hk
        · rw [Function.update_self]; omega
      refine ⟨Or.inl hlt, ?_⟩
      rw [hfr _ fun ho => by have := (own_outName ho).2; omega]
      exact hfile
    · rcases move_out hm with ⟨e1, e2⟩ | ⟨-, -, e⟩
      · rw [hd] at hm
        cases hm
        have := congrFun e2 th'
        simp [Globals.rename] at this
      · refine ⟨Or.inl (by simp only [e, Function.update_self]; omega), ?_⟩
        rw [hstill ⟨d, hd⟩]; exact hfile
  · have hstack : g.failStack th' = s.g.failStack th' := by
      rcases move_out hm with ⟨-, e⟩ | ⟨-, -, e⟩ <;> rw [e]
      rw [Function.update_of_ne hth]
    constructor
    · simp only [hstack, Function.update_of_ne hth]; exact hk
    · rw [hfr _ fun ho => hth (own_outName ho).1]; exact hfile

/-- What is stored stays so. -/
theorem Stored.keep {s : St} {th : Worker} {pc : WorkerPc} {g : Globals} {w : World Vars} {p : Path}
    (hm : WorkerMove th s.g (s.workers th) pc g) (hfr : ∀ k, ¬ Own E th (outName th (s.g.failStack th)) k → w.fs k = s.w.fs k)
    (hstill : (∃ d, s.workers th = .naming d) → w = s.w) (h : Stored E T n r s p) :
    Stored E T n r ⟨s.main, Function.update s.workers th pc, g, w⟩ p := by
  obtain ⟨th', k, b, rfl, hk, hb, hfile, hc⟩ := h
  obtain ⟨hk', hfile'⟩ := Shelved.keep hm hfr hstill ⟨hk, hfile⟩
  exact ⟨th', k, b, rfl, hk', hb, hfile', hc⟩

/-- Every failing test has been counted, or its worker is about to. -/
theorem move_found {th : Worker} {g g' : Globals} {ws : Worker → WorkerPc} {pc' : WorkerPc} (hm : WorkerMove th g (ws th) pc' g')
    (h : ∀ t ∈ g.log.tried, t.failed = true → 0 < g.failN ∨ ∃ d, ws t.worker = .reserving d) :
    ∀ t ∈ g'.log.tried, t.failed = true → 0 < g'.failN ∨ ∃ d, Function.update ws th pc' t.worker = .reserving d := by
  intro t ht hf
  -- a test recorded before, by a worker that is not at `reserving` now or stays there
  have old : t ∈ g.log.tried → (∀ d, ws th ≠ .reserving d) → g.failN ≤ g'.failN →
      0 < g'.failN ∨ ∃ d, Function.update ws th pc' t.worker = .reserving d := fun ht hne hle => by
    rcases h t ht hf with hpos | ⟨d, hd⟩
    · exact Or.inl (by omega)
    · refine Or.inr ⟨d, ?_⟩
      rw [Function.update_of_ne fun e => hne d (by rw [← e, hd])]
      exact hd
  generalize hpc : ws th = pc at hm old
  cases hm with
  | test d bytes eCode =>
    simp only [List.mem_append, List.mem_singleton] at ht
    rcases ht with ht | rfl
    · exact old ht nofun (Nat.le_refl _)
    · exact Or.inr ⟨d, by simp only [Function.update_self]; rw [show eCode = true from hf]; rfl⟩
  | reserve d => exact Or.inl (by simp only; omega)
  | _ => exact old ht nofun (Nat.le_refl _)

/-- Every entry below `fail_n` is stored or still to be. -/
theorem move_stored {s : St} {th : Worker} {pc : WorkerPc} {g : Globals} {w : World Vars}
    (hm : WorkerMove th s.g (s.workers th) pc g) (hnamed : Named s.g) (hst : Stage E T n r th (s.g.outFiles th) s.w.fs (s.workers th))
    (hfr : ∀ k, ¬ Own E th (outName th (s.g.failStack th)) k → w.fs k = s.w.fs k)
    (hstill : reserved (s.workers th) ≠ none ∨ (∃ d, s.workers th = .naming d) → w = s.w)
    (h : ∀ j < s.g.failN, (∃ th', reserved (s.workers th') = some j) ∨ Stored E T n r s (s.g.failArr j)) :
    ∀ j < g.failN, (∃ th', reserved (Function.update s.workers th pc th') = some j) ∨
      Stored E T n r ⟨s.main, Function.update s.workers th pc, g, w⟩ (g.failArr j) := by
  intro j hj
  have keep : ∀ {p}, Stored E T n r s p → Stored E T n r ⟨s.main, Function.update s.workers th pc, g, w⟩ p :=
    Stored.keep hm hfr fun hd => hstill (Or.inr hd)
  -- another worker's reservation stays
  have other : ∀ {th'}, th' ≠ th → reserved (s.workers th') = some j →
      ∃ th', reserved (Function.update s.workers th pc th') = some j := fun hne hr =>
    ⟨_, by rw [Function.update_of_ne hne]; exact hr⟩
  have same : j < s.g.failN → (∀ i, reserved (s.workers th) = some i → reserved pc = some i) → g.failArr j = s.g.failArr j →
      (∃ th', reserved (Function.update s.workers th pc th') = some j) ∨
        Stored E T n r ⟨s.main, Function.update s.workers th pc, g, w⟩ (g.failArr j) := fun hj hres harr => by
    rcases h j hj with ⟨th', hr⟩ | hs
    · by_cases hne : th' = th
      · subst hne; exact Or.inl ⟨th', by rw [Function.update_self]; exact hres j hr⟩
      · exact Or.inl (other hne hr)
    · exact Or.inr (harr ▸ keep hs)
  generalize hpc : s.workers th = pc0 at hm hst hstill same
  cases hm with
  | reserve d =>
    simp only at hj
    by_cases hlast : j = s.g.failN
    · exact Or.inl ⟨th, by rw [Function.update_self, hlast]; rfl⟩
    · exact same (by omega) (fun i e => by cases e) rfl
  | store d i =>
    obtain ⟨⟨hb, hfile⟩, hc⟩ := hst
    by_cases hji : j = i
    · right
      subst hji
      refine ⟨th, s.g.failStack th, d.begin, by simp [hnamed th], Or.inr ⟨rfl, d, by simp⟩, hb, ?_, hc⟩
      rw [hstill (Or.inl nofun)]
      simpa using hfile
    · simp only at hj
      rcases h j hj with ⟨th', hr⟩ | hs
      · refine Or.inl (other ?_ hr)
        intro e
        rw [e, hpc] at hr
        exact hji (Option.some.inj hr).symm
      · simp only [Function.update_of_ne hji]
        exact Or.inr (keep hs)
  | check d i => exact same hj (fun k e => by split <;> exact e) rfl
  | double d i => exact same hj (fun k e => e) rfl
  | reallocate d i => exact same hj (fun k e => e) rfl
  | _ => exact same hj (fun k e => by cases e) rfl

theorem tried_of_reserved {pc : WorkerPc} (h : reserved pc ≠ none) : ∃ j, hand pc = .tried j := by
  cases pc <;> first | exact ⟨_, rfl⟩ | exact absurd rfl h

/-- A worker's step in a round is a move to the next stage; once its job is tried it makes
    no call on files. -/
theorem round_worker {s t : St} {th : Worker} (h : Working E s T n r) (hnamed : Named s.g)
    (hqueue : ∀ d ∈ s.g.queue, d.begin + r ≤ n) (hpop : s.workers th = .popping → s.g.queue ≠ [])
    (hst : step E (.worker th) s = some t) :
    ∃ pc' g' w', t = ⟨s.main, Function.update s.workers th pc', g', w'⟩ ∧ WorkerMove th s.g (s.workers th) pc' g' ∧
      Ran E T n r th (outName th (s.g.failStack th)) s.w w' s.g g' pc' ∧
      ((∃ j, hand (s.workers th) = .tried j) → w' = s.w) := by
  obtain ⟨-, x, hx, rfl⟩ := step_worker hst
  obtain ⟨pc', g', w', hrun, hran⟩ := worker_runs (w := s.w) (h.copies th) h.le h.small h.size h.rs (hnamed th) hqueue hpop
    (hnamed th ▸ h.stage th) hx
  have hm : WorkerMove th s.g (s.workers th) pc' g' := workerTurn_move hx hrun
  refine ⟨pc', g', w', by rw [hrun]; rfl, hm, hran, ?_⟩
  rintro ⟨j, hj⟩
  have hns : ∀ pc, s.workers th ≠ .stuck pc := fun pc e => by
    have := h.stage th
    rw [e] at this
    exact this
  generalize s.workers th = pc at hx hj hns
  cases pc with
  | closing d =>
    simp only [workerTurn, Option.ite_none_right_eq_some, Option.some.injEq] at hx
    obtain ⟨-, rfl⟩ := hx
    cases hrun; rfl
  | stuck pc => exact absurd rfl (hns pc)
  | _ => first | (cases hj; done) | (cases hx; cases hrun; rfl)

/-- A worker's step keeps the round. -/
theorem working_worker {s t : St} {th : Worker} (h : Working E s T n r) (hnamed : Named s.g)
    (hqueue : ∀ d ∈ s.g.queue, d.begin + r ≤ n) (hpop : s.workers th = .popping → s.g.queue ≠ [])
    (hst : step E (.worker th) s = some t) : Working E t T n r ∧ Named t.g ∧ t.main = s.main ∧ t.g.log.input = s.g.log.input := by
  obtain ⟨pc', g', w', rfl, hm, hran, hstill⟩ := round_worker h hnamed hqueue hpop hst
  have hsizes := worker_sizes hm
  refine ⟨⟨hsizes.1.trans h.size, hsizes.2.trans h.rs, h.le, h.small, ?_, ?_, ?_, ?_, ?_⟩,
    move_named hnamed hm, rfl, move_input hm⟩
  · intro th'
    exact (hran.frame _ not_own_origin).1.trans (h.copies th')
  · intro th'
    by_cases hth : th' = th
    · subst hth
      simp only [Function.update_self]
      rcases move_out hm with ⟨e, -⟩ | ⟨⟨d, -, hd⟩, -⟩
      · rw [e, hnamed th']; exact hran.stage
      · rw [hd]; trivial
    · simp only [Function.update_of_ne hth]
      have hout : g'.outFiles th' = s.g.outFiles th' := by
        rcases move_out hm with ⟨e, -⟩ | ⟨-, e, -⟩
        · rw [e]
        · exact e th' hth
      rw [hout]
      refine (h.stage th').congr (hran.frame _ ?_).1 (hran.frame _ not_own_origin)
      rw [hnamed th']
      exact fun ho => hth (own_outName ho).1
  · intro t ht
    exact (hran.tried t ht).elim (h.tried t) id
  · exact move_found hm h.found
  · refine move_stored hm hnamed (h.stage th) (fun k hk => (hran.frame k hk).1) (fun hres => hstill ?_) h.stored
    rcases hres with hres | ⟨d, hd⟩
    · exact tried_of_reserved hres
    · exact ⟨d.begin, by rw [hd]; rfl⟩

end

/-! ## Calls -/

section

variable (E : Env)

/-- Every worker has its own copy of the input. -/
def Copied (s : St) : Prop :=
  s.g.inputSize = toInt s.g.log.input.length ∧ ∀ th : Worker, s.w.fs (E.key (originFile th)) = some s.g.log.input

def InRounds (s : St) : Prop := Copied E s ∧ Working E s s.g.log.input s.g.inputSize.toNat s.g.rs.toNat

/-- `p` holds an accepted candidate of the round just over. -/
def Accepted (s : St) (p : Path) : Prop :=
  s.g.inputSize = toInt s.g.log.input.length ∧
  ∃ c, s.w.fs (E.key p) = some c ∧ (c.length : Int) = s.g.inputSize - s.g.rs ∧ c.length < 2 ^ 31 ∧ Condemned E c ∧
    c.Sublist s.g.log.input ∧ c.length < s.g.log.input.length

def CallAt (s : St) : MainPc → Prop
  | .enter size _ => ∃ c, s.w.fs (E.key s.w.own.held) = some c ∧ size = toInt c.length
  | .copying i _ => s.w.fs (E.key s.w.own.held) = some s.g.log.input ∧ s.g.inputSize = toInt s.g.log.input.length ∧
      ∀ th : Worker, th < i → s.w.fs (E.key (originFile th)) = some s.g.log.input
  | .round _ => Copied E s
  | .settingRs _ => Copied E s ∧ s.g.failN = 0
  | .settingExisting _ => Copied E s ∧ s.g.failN = 0
  | .pushing _ _ => InRounds E s
  | .posting _ _ => InRounds E s
  | .waiting _ => InRounds E s
  | .selecting _ => InRounds E s
  | .renamingPart k => Accepted E s (s.g.failArr k) ∧ ∃ th j, s.g.failArr k = outName th j
  | .removing _ p => Accepted E s p ∧ ∃ j, p = failFile j
  | .recursing p => Accepted E s p ∧ ∃ j, p = failFile j
  | _ => True

structure Sound (s : St) : Prop where
  named : Named s.g
  alive : ∀ th pc, s.workers th ≠ .stuck pc
  call : CallAt E s s.main

variable {E}

/-- Of a round's invariant, what depends on the main thread stays with these variables. -/
theorem Working.congr {T : Bytes} {n r : Nat} {s t : St} (h : Working E s T n r) (h1 : t.g.inputSize = s.g.inputSize)
    (h2 : t.g.rs = s.g.rs) (h3 : t.g.outFiles = s.g.outFiles) (h4 : t.g.failStack = s.g.failStack)
    (h5 : t.g.failArr = s.g.failArr) (h6 : t.g.failN = s.g.failN) (h7 : t.g.log.tried = s.g.log.tried)
    (h8 : t.workers = s.workers) (h9 : t.w = s.w) : Working E t T n r := by
  refine ⟨h1.trans h.size, h2.trans h.rs, h.le, h.small, ?_, ?_, ?_, ?_, ?_⟩
  · rw [h9]; exact h.copies
  · rw [h3, h8, h9]; exact h.stage
  · rw [h7]; exact h.tried
  · rw [h6, h7, h8]; exact h.found
  · rw [h5, h6, h8]
    unfold Stored
    rw [h4, h8, h9]
    exact h.stored

theorem InRounds.congr {s t : St} (h : InRounds E s) (h1 : t.g.inputSize = s.g.inputSize)
    (h2 : t.g.rs = s.g.rs) (h3 : t.g.outFiles = s.g.outFiles) (h4 : t.g.failStack = s.g.failStack)
    (h5 : t.g.failArr = s.g.failArr) (h6 : t.g.failN = s.g.failN) (h7 : t.g.log.tried = s.g.log.tried)
    (h8 : t.workers = s.workers) (h9 : t.w = s.w) (h10 : t.g.log.input = s.g.log.input) : InRounds E t := by
  constructor
  · unfold Copied; rw [h1, h9, h10]; exact h.1
  · rw [h1, h2, h10]; exact h.2.congr h1 h2 h3 h4 h5 h6 h7 h8 h9

/-- A worker that has no job is at no stage of one. -/
theorem stage_quiet {T : Bytes} {n r : Nat} {th : Worker} {out : Path} {fs : Fs} {pc : WorkerPc}
    (h : hand pc = .free ∨ hand pc = .late) (hns : ∀ pc', pc ≠ .stuck pc') : Stage E T n r th out fs pc := by
  cases pc with
  | idle => trivial
  | unlocking d => trivial
  | stuck pc => exact absurd rfl (hns pc)
  | _ => rcases h with h | h <;> cases h

theorem quiet_pc {pc : WorkerPc} (h : hand pc = .free ∨ hand pc = .late) (hns : ∀ pc', pc ≠ .stuck pc') :
    pc = .idle ∨ ∃ d, pc = .unlocking d := by
  cases pc with
  | idle => exact Or.inl rfl
  | unlocking d => exact Or.inr ⟨d, rfl⟩
  | stuck pc => exact absurd rfl (hns pc)
  | _ => rcases h with h | h <;> cases h

theorem reserved_quiet {pc : WorkerPc} (h : hand pc = .free ∨ hand pc = .late) (hns : ∀ pc', pc ≠ .stuck pc') :
    reserved pc = none := by
  cases pc with
  | stuck pc => exact absurd rfl (hns pc)
  | _ => first | rfl | (rcases h with h | h <;> cases h)

section

variable {s : St} {r : Int} (hnamed : Named s.g) (halive : ∀ th pc, s.workers th ≠ .stuck pc)
include hnamed halive

/-- A copy is made, or its name is taken and the process ends. -/
theorem copying_sound {i : Nat} (hcall : CallAt E s (.copying i r)) :
    (afterMain s (copyingTurn E s.g i r s.w)).main.over = true ∨ Sound E (afterMain s (copyingTurn E s.g i r s.w)) := by
  obtain ⟨hheld, hsize, hdone⟩ := hcall
  simp only [copyingTurn, look_bind]
  cases hd : s.w.fs (E.key (originFile i)) with
  | some c =>
    left
    have hrun : copy E s.w.own.held (originFile i) s.w = .exit .copyExists s.w := by
      simp only [copy, access, look_bind, hheld, hd]; rfl
    rw [bind_run, hrun]; rfl
  | none =>
    right
    obtain ⟨w', hrun, hown, hdst, hfr⟩ := Tester.copy_run (E := E) hheld hd
    rw [bind_ok hrun]
    have hne : E.key s.w.own.held ≠ E.key (originFile i) := fun e => by rw [e, hd] at hheld; cases hheld
    have hcopied : ∀ th : Worker, (th : Nat) < i + 1 → w'.fs (E.key (originFile th)) = some s.g.log.input := fun th hth => by
      by_cases hi : (th : Nat) = i
      · rw [hi]; exact hdst
      · rw [(hfr _ fun e => hi (originFile_inj E e)).1]
        exact hdone th (by omega)
    simp only [afterMain, pure_run]
    refine ⟨hnamed, halive, ?_⟩
    split_ifs with hi
    · exact ⟨by rw [hown, (hfr _ hne).1]; exact hheld, hsize, hcopied⟩
    · refine ⟨hsize, fun th => hcopied th ?_⟩
      have := th.isLt
      omega

/-- A round begins, with every worker waiting, or `existing` overflows. -/
theorem settingExisting_sound (hcall : CallAt E s (.settingExisting r)) (hsized : SizedAt s.g (.settingExisting r))
    (hquiet : Quiet (pool s)) :
    (afterMain s (settingExistingTurn s.g r s.w)).main.over = true ∨ Sound E (afterMain s (settingExistingTurn s.g r s.w)) := by
  simp only [settingExistingTurn]
  split_ifs with hov
  · exact Or.inl rfl
  · right
    obtain ⟨⟨hsize, hcopies⟩, hfail⟩ := hcall
    obtain ⟨hr, hbelow, hrs⟩ := hsized
    have hlt : r < s.g.inputSize := (hbelow hr).resolve_left (by omega)
    have hle := toInt_le (x := s.g.log.input.length) (by omega)
    have hsm := toInt_lt s.g.log.input.length
    simp only [afterMain, pure_run]
    refine ⟨hnamed, halive, ⟨hsize, hcopies⟩, ?_⟩
    refine ⟨by simp only; omega, by simp only; omega, by simp only; omega, by simp only; omega, hcopies,
      fun th => stage_quiet (hquiet.hands th) (halive th), (by simp), (by simp), ?_⟩
    intro j hj
    simp only [hfail] at hj
    omega

omit hnamed in
/-- The entry selected names an accepted candidate. -/
theorem selected_accepted {k : Nat} (hcall : InRounds E s) (hsized : SizedAt s.g (.selecting r)) (hquiet : Quiet (pool s))
    (hk : k < s.g.failN) : CallAt E s (.renamingPart k) := by
  obtain ⟨hcopied, hw⟩ := hcall
  obtain ⟨hr, hlt, hrs⟩ := hsized
  -- no worker has an entry reserved any more
  have hno : ¬ ∃ th, reserved (s.workers th) = some k := by
    rintro ⟨th, hth⟩
    rw [reserved_quiet (hquiet.hands th) (halive th)] at hth
    cases hth
  obtain ⟨th, j, b, hp, -, hb, hfile, hc⟩ := (hw.stored k hk).resolve_left hno
  have hlen := length_cutOf hw.le hb
  have hle := hw.le
  have hsmall := hw.small
  exact ⟨⟨hcopied.1, _, hfile, by omega, by omega, hc, cutOf_sublist _ _ _ _, by omega⟩, th, j, hp⟩

end

/-- The main thread's step keeps the call. -/
theorem sound_main {s t : St} {rand : Nat} (h : Sound E s) (hsized : Sized s) (hinv : Inv (pool s))
    (hst : step E (.main rand) s = some t) : t.main.over = true ∨ Sound E t := by
  obtain ⟨hnamed, halive, hcall⟩ := h
  obtain ⟨-, x, hx, rfl⟩ := step_main hst
  have hround := hinv.round
  unfold InRound at hround
  unfold Sized at hsized
  generalize hpc : s.main = pc at hx hcall hsized
  have hboss : (pool s).boss = boss s.g pc := by rw [pool, hpc]
  rw [hboss] at hround
  cases pc with
  | entry =>
    cases hx
    simp only [entryTurn, look_bind]
    cases hf : s.w.fs (E.key s.w.own.held) with
    | none =>
      left
      have hrun : byteCountFile E s.w.own.held s.w = .exit (.stat s.w.own.held) s.w := by
        simp only [byteCountFile, stat, look_bind, hf]; rfl
      rw [bind_run, hrun]; rfl
    | some c =>
      right
      rw [bind_ok (byteCountFile_run hf)]
      exact ⟨hnamed, halive, c, hf, rfl⟩
  | enter size r =>
    cases hx
    obtain ⟨c, hc, hsize⟩ := hcall
    right
    have hg : (s.w.fs (E.key s.w.own.held)).getD [] = c := by rw [hc]; rfl
    refine ⟨hnamed, halive, ?_, ?_, fun th hth => absurd hth (Nat.not_lt_zero _)⟩
    · exact hc.trans (congrArg some hg.symm)
    · exact hsize.trans (congrArg (fun c : Bytes => toInt c.length) hg.symm)
  | copying i r => cases hx; exact copying_sound hnamed halive hcall
  | round r =>
    cases hx
    right
    split_ifs
    · exact ⟨hnamed, halive, hcall, rfl⟩
    · exact ⟨hnamed, halive, trivial⟩
  | settingRs r => cases hx; exact Or.inr ⟨hnamed, halive, hcall⟩
  | settingExisting r => cases hx; exact settingExisting_sound hnamed halive hcall hsized hround
  | pushing r b =>
    cases hx
    right
    split_ifs
    · exact ⟨hnamed, halive, hcall.congr rfl rfl rfl rfl rfl rfl rfl rfl rfl rfl⟩
    · exact ⟨hnamed, halive, hcall.congr rfl rfl rfl rfl rfl rfl rfl rfl rfl rfl⟩
  | posting r b =>
    cases hx
    exact Or.inr ⟨hnamed, halive, hcall.congr rfl rfl rfl rfl rfl rfl rfl rfl rfl rfl⟩
  | waiting r =>
    simp only [mainTurn, Option.ite_none_right_eq_some, Option.some.injEq] at hx
    obtain ⟨-, rfl⟩ := hx
    exact Or.inr ⟨hnamed, halive, hcall.congr rfl rfl rfl rfl rfl rfl rfl rfl rfl rfl⟩
  | selecting r =>
    cases hx
    right
    simp only [afterMain, pure_run]
    refine ⟨hnamed, halive, ?_⟩
    split_ifs with hf
    · exact selected_accepted halive hcall hsized hround.1 (Nat.mod_lt rand hf)
    · exact hcall.1
  | renamingPart k =>
    cases hx
    right
    obtain ⟨⟨hsize, c, hc, hacc⟩, th, j, hp⟩ := hcall
    simp only [renamingTurn]
    rw [bind_ok (rename_run hc)]
    exact ⟨hnamed, halive, ⟨hsize, c, Fs.put_same _ _ _, hacc⟩, _, rfl⟩
  | removing i p =>
    cases hx
    right
    obtain ⟨⟨hsize, c, hc, hacc⟩, j, rfl⟩ := hcall
    have hkeep : (s.w.fs.put (E.key (originFile i)) none) (E.key (failFile j)) = some c :=
      (Fs.put_ne _ _ (originFile_ne_failFile E i j).symm).trans hc
    simp only [remove, act_bind, afterMain, pure_run]
    refine ⟨hnamed, halive, ?_⟩
    split_ifs
    · exact ⟨⟨hsize, c, hkeep, hacc⟩, j, rfl⟩
    · exact ⟨⟨hsize, c, hkeep, hacc⟩, j, rfl⟩
  | recursing p =>
    cases hx
    right
    obtain ⟨⟨-, c, hc, hlen, hsm, -⟩, -⟩ := hcall
    refine ⟨hnamed, halive, c, hc, ?_⟩
    rw [toInt_of_lt (by omega) (by omega), hlen]
  | finishing i =>
    cases hx
    right
    simp only [remove, act_bind, look_bind, afterMain, pure_run]
    refine ⟨hnamed, halive, ?_⟩
    split_ifs <;> trivial
  | ret p => cases hx
  | exited e => cases hx
  | hung => cases hx
  | undefined => cases hx

/-- Between rounds a worker can only release the lock. -/
theorem away_worker {s t : St} {th : Worker} (halive : ∀ th pc, s.workers th ≠ .stuck pc) (hq : Quiet (pool s))
    (hst : step E (.worker th) s = some t) :
    t = ⟨s.main, Function.update s.workers th .idle, { s.g with endMt := none }, s.w⟩ := by
  obtain ⟨-, x, hx, rfl⟩ := step_worker hst
  have hh : hand (s.workers th) = .free ∨ hand (s.workers th) = .late := hq.hands th
  have hns := halive th
  have hp : s.g.qSem = 0 := hq.permits
  generalize s.workers th = pc at hx hh hns
  cases pc with
  | idle =>
    simp only [workerTurn, Option.ite_none_right_eq_some] at hx
    omega
  | unlocking d => cases hx; rfl
  | stuck pc => exact absurd rfl (hns pc)
  | _ => rcases hh with h | h <;> cases h

/-- What is queued lies within the input, and a worker that is to pop finds something. -/
theorem round_queue {s : St} {q : Int} (hinv : Inv (pool s)) (hq : s.g.rs = q ∧ 0 < q ∧ q < s.g.inputSize)
    (hb : (boss s.g s.main).total = jobs s.g q) :
    (∀ d ∈ s.g.queue, d.begin + s.g.rs.toNat ≤ s.g.inputSize.toNat) ∧ ∀ th, s.workers th = .popping → s.g.queue ≠ [] := by
  constructor
  · intro d hd
    have := queue_lt hinv (j := d.begin) (List.mem_map_of_mem hd)
    rw [show (pool s).boss = boss s.g s.main from rfl, hb] at this
    unfold jobs at this
    omega
  · intro th hp e
    apply granted_queue hinv (i := th) (congrArg hand hp)
    simp only [pool, e, List.map_nil]

theorem inRounds_worker {s t : St} {th : Worker} {q : Int} (h : InRounds E s) (hnamed : Named s.g) (hinv : Inv (pool s))
    (hq : s.g.rs = q ∧ 0 < q ∧ q < s.g.inputSize) (hb : (boss s.g s.main).total = jobs s.g q)
    (hst : step E (.worker th) s = some t) :
    InRounds E t ∧ Named t.g ∧ t.main = s.main ∧ ∀ th pc, t.workers th ≠ .stuck pc := by
  obtain ⟨⟨hsize, -⟩, hw⟩ := h
  obtain ⟨hqueue, hpop⟩ := round_queue hinv hq hb
  obtain ⟨hwt, hnt, hmt, hit⟩ := working_worker hw hnamed hqueue (hpop th) hst
  have h1 := hwt.size
  have h2 := hwt.rs
  have h1' := hw.size
  have h2' := hw.rs
  have e1 : t.g.inputSize = s.g.inputSize := h1.trans h1'.symm
  have e2 : t.g.rs = s.g.rs := h2.trans h2'.symm
  refine ⟨⟨⟨?_, ?_⟩, ?_⟩, hnt, hmt, ?_⟩
  · rw [e1, hit]; exact hsize
  · rw [hit]; exact hwt.copies
  · rw [hit, e1, e2]; exact hwt
  · intro th' pc e
    have := hwt.stage th'
    rw [e] at this
    exact this

/-- A worker's step keeps the call. -/
theorem sound_worker {s t : St} {th : Worker} (h : Sound E s) (hsized : Sized s) (hinv : Inv (pool s))
    (hst : step E (.worker th) s = some t) : Sound E t := by
  obtain ⟨hnamed, halive, hcall⟩ := h
  unfold Sized at hsized
  have away : boss s.g s.main = .away → (∀ t : St, t.g.inputSize = s.g.inputSize → t.g.rs = s.g.rs → t.g.log = s.g.log →
      t.g.failN = s.g.failN → t.g.failArr = s.g.failArr → t.w = s.w → CallAt E t s.main) → Sound E t := fun hb hc => by
    have hr := hinv.round
    unfold InRound at hr
    rw [show (pool s).boss = .away from hb] at hr
    obtain rfl := away_worker halive hr hst
    refine ⟨hnamed, ?_, hc _ rfl rfl rfl rfl rfl rfl⟩
    intro th' pc e
    simp only [Function.update_apply] at e
    split at e
    · cases e
    · exact halive th' pc e
  have rounds : ∀ {q : Int}, InRounds E s → s.g.rs = q ∧ 0 < q ∧ q < s.g.inputSize → (boss s.g s.main).total = jobs s.g q →
      (InRounds E t → CallAt E t s.main) → Sound E t := fun hr hq hb hc => by
    obtain ⟨h1, h2, h3, h4⟩ := inRounds_worker hr hnamed hinv hq hb hst
    exact ⟨h2, h4, by rw [h3]; exact hc h1⟩
  generalize s.main = pc at hcall hsized away rounds
  cases pc with
  | pushing r b => exact rounds hcall ⟨hsized.2.2, hsized.1, hsized.2.1⟩ rfl id
  | posting r b => exact rounds hcall ⟨hsized.2.2, hsized.1, hsized.2.1⟩ rfl id
  | waiting r => exact rounds hcall ⟨hsized.2.2, hsized.1, hsized.2.1⟩ rfl id
  | selecting r => exact rounds hcall ⟨hsized.2.2, hsized.1, hsized.2.1⟩ rfl id
  | _ =>
    apply away rfl
    intro t h1 h2 h3 h4 h5 h6
    simp only [CallAt, Copied, Accepted, h1, h2, h3, h4, h5, h6] at hcall ⊢ <;> exact hcall

/-- Run lemma. -/
theorem reach_sound {inputPath : Path} {fs : Fs} {s : St} (hs : (system E inputPath fs).Reach s) (ho : s.main.over = false) :
    Sound E s := by
  refine System.Reach.invariant (T := system E inputPath fs) (P := fun s => s.main.over = false → Sound E s) ?_ ?_ hs ho
  · intro s h _
    subst h
    exact ⟨fun th => rfl, nofun, trivial⟩
  · intro s t hr hi hst ho
    obtain ⟨m, hst⟩ := hst
    have hlive := (step_cases hst).1
    obtain ⟨hinv, hsized⟩ := reach_pool hr hlive
    cases m with
    | main rand => exact (sound_main (hi hlive) hsized hinv hst).resolve_left fun e => nomatch ho.symm.trans e
    | worker th => exact sound_worker (hi hlive) hsized hinv hst

/-! ## Steps of a run -/

/-- The range length of the round the main thread is in. -/
def MainPc.inRound : MainPc → Option Int
  | .pushing r _ => some r
  | .posting r _ => some r
  | .waiting r => some r
  | .selecting r => some r
  | _ => none

variable {inputPath : Path} {fs : Fs} {s t : St}

theorem reach_round (hs : (system E inputPath fs).Reach s) {r : Int} (hr : s.main.inRound = some r) :
    InRounds E s ∧ (s.g.rs = r ∧ 0 < r ∧ r < s.g.inputSize) ∧ (boss s.g s.main).total = jobs s.g r := by
  have hlive : s.main.over = false := by cases hm : s.main <;> rw [hm] at hr <;> first | rfl | cases hr
  have hsized := (reach_pool hs hlive).2
  have hcall := (reach_sound hs hlive).call
  unfold Sized at hsized
  cases hm : s.main <;> rw [hm] at hr hsized hcall <;> cases hr <;> exact ⟨hcall, ⟨hsized.2.2, hsized.1, hsized.2.1⟩, rfl⟩

/-- A worker's step in a round. -/
theorem round_step (hs : (system E inputPath fs).Reach s) {r : Int} (hr : s.main.inRound = some r) {th : Worker}
    (hst : step E (.worker th) s = some t) :
    ∃ pc' g' w', t = ⟨s.main, Function.update s.workers th pc', g', w'⟩ ∧ WorkerMove th s.g (s.workers th) pc' g' ∧
      Ran E s.g.log.input s.g.inputSize.toNat s.g.rs.toNat th (outName th (s.g.failStack th)) s.w w' s.g g' pc' ∧
      ((∃ j, hand (s.workers th) = .tried j) → w' = s.w) := by
  obtain ⟨⟨-, hw⟩, hq, hb⟩ := reach_round hs hr
  have hlive := (step_cases hst).1
  obtain ⟨hqueue, hpop⟩ := round_queue (reach_pool hs hlive).1 hq hb
  exact round_worker hw (reach_sound hs hlive).named hqueue (hpop th) hst

/-- A worker's step between rounds. -/
theorem away_step (hs : (system E inputPath fs).Reach s) (hr : s.main.inRound = none) {th : Worker}
    (hst : step E (.worker th) s = some t) :
    t = ⟨s.main, Function.update s.workers th .idle, { s.g with endMt := none }, s.w⟩ := by
  have hlive := (step_cases hst).1
  have haway : boss s.g s.main = .away := by cases hm : s.main <;> rw [hm] at hr <;> first | rfl | cases hr
  exact away_worker (reach_sound hs hlive).alive (away_quiet hs hlive haway) hst

end

end DiyDdmin.Range
