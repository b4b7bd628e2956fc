/-
  DiyDdmin.Range.Ends — `range` comes to an end.

  A step lowers, in this order: the size of the input of the call, the range length, and
  what is left of the round (ranges not pushed yet, permits, and where the threads are).

  Proved: no run goes on for ever, for every interleaving, every program and every choice
  of `rand` (`range_ends`); and where the input exists under a name of its own, the copies'
  names are free and the size is none that overflows, nothing ends the process, so a run
  that cannot go on has returned (`range_returns`).
-/

import DiyDdmin.Range.Rounds
import Mathlib.Data.Prod.Lex

namespace DiyDdmin.Range

open Posix Tester Numeric Systems Reduction WorkPool

/-! ## The measure -/

def workerRank : WorkerPc → Nat
  | .idle => 1
  | .popping => 18
  | .opening _ => 17
  | .prefixing _ _ _ => 16
  | .skipping _ _ _ => 15
  | .postfixing _ _ _ => 14
  | .flushing _ _ => 13
  | .fitting _ => 12
  | .testing _ => 11
  | .reserving _ => 10
  | .checking _ _ => 9
  | .doubling _ _ => 8
  | .reallocating _ _ => 7
  | .storing _ _ => 6
  | .naming _ => 5
  | .closing _ => 4
  | .unlocking _ => 3
  | .stuck _ => 0

/-- Ranges not pushed yet, and where the main thread is in the call. -/
def mainRank (g : Globals) : MainPc → Nat
  | .enter size r => 40 * ((size - r + 1).toNat + 1) + 30
  | .copying i r => 40 * (jobs g r + 1) + 4 + (threadN - i)
  | .round r => 40 * (jobs g r + 1) + 3
  | .settingRs r => 40 * (jobs g r + 1) + 2
  | .settingExisting r => 40 * (jobs g r + 1) + 1
  | .pushing r b => 40 * (jobs g r + 1 - b)
  | .posting r b => 40 * (jobs g r + 1 - b) - 1
  | .waiting _ => 30
  | .selecting _ => 29
  | .renamingPart _ => 28
  | .removing i _ => 21 + (threadN - i)
  | .recursing _ => 20
  | .finishing i => 1 + (threadN - i)
  | _ => 0

/-- The size of the call's input and the range length. -/
def sizes (g : Globals) : MainPc → Nat × Nat
  | .enter size r => (size.toNat, r.toNat)
  | .copying _ r => (g.inputSize.toNat, r.toNat)
  | .round r => (g.inputSize.toNat, r.toNat)
  | .settingRs r => (g.inputSize.toNat, r.toNat)
  | .settingExisting r => (g.inputSize.toNat, r.toNat)
  | .pushing r _ => (g.inputSize.toNat, r.toNat)
  | .posting r _ => (g.inputSize.toNat, r.toNat)
  | .waiting r => (g.inputSize.toNat, r.toNat)
  | .selecting r => (g.inputSize.toNat, r.toNat)
  | .renamingPart _ => (g.inputSize.toNat, g.rs.toNat)
  | .removing _ _ => (g.inputSize.toNat, g.rs.toNat)
  | .recursing _ => (g.inputSize.toNat, g.rs.toNat)
  | _ => (0, 0)

/-- 2 before the input's size is known, 0 once the process is gone. -/
def era : MainPc → Nat
  | .entry => 2
  | .exited _ => 0
  | .undefined => 0
  | _ => 1

theorem era_over {pc : MainPc} (h : pc.over = true) : era pc = 0 := by
  cases pc <;> first | rfl | cases h

theorem era_live {pc : MainPc} (h : pc.over = false) : 0 < era pc := by
  cases pc <;> first | exact Nat.succ_pos _ | cases h

def rest (s : St) : Nat := mainRank s.g s.main + ∑ th, workerRank (s.workers th) + 18 * s.g.qSem

def rank (s : St) : ℕ ×ₗ ℕ ×ₗ ℕ ×ₗ ℕ := toLex (era s.main, toLex ((sizes s.g s.main).1, toLex ((sizes s.g s.main).2, rest s)))

theorem rank_lt_of_rest {s t : St} (h1 : era t.main = era s.main) (h2 : sizes t.g t.main = sizes s.g s.main) (h3 : rest t < rest s) :
    rank t < rank s := by
  unfold rank
  rw [h1, h2]
  exact Prod.Lex.toLex_lt_toLex.mpr (Or.inr ⟨rfl, Prod.Lex.toLex_lt_toLex.mpr (Or.inr ⟨rfl,
    Prod.Lex.toLex_lt_toLex.mpr (Or.inr ⟨rfl, h3⟩)⟩)⟩)

theorem rank_lt_of_era {s t : St} (h : era t.main < era s.main) : rank t < rank s :=
  Prod.Lex.toLex_lt_toLex.mpr (Or.inl h)

theorem rank_lt_of_size {s t : St} (h1 : era t.main = era s.main) (h2 : (sizes t.g t.main).1 < (sizes s.g s.main).1) :
    rank t < rank s :=
  Prod.Lex.toLex_lt_toLex.mpr (Or.inr ⟨h1, Prod.Lex.toLex_lt_toLex.mpr (Or.inl h2)⟩)

theorem rank_lt_of_length {s t : St} (h1 : era t.main = era s.main) (h2 : (sizes t.g t.main).1 = (sizes s.g s.main).1)
    (h3 : (sizes t.g t.main).2 < (sizes s.g s.main).2) : rank t < rank s := by
  unfold rank
  rw [h1, h2]
  exact Prod.Lex.toLex_lt_toLex.mpr (Or.inr ⟨rfl, Prod.Lex.toLex_lt_toLex.mpr (Or.inr ⟨rfl,
    Prod.Lex.toLex_lt_toLex.mpr (Or.inl h3)⟩)⟩)

theorem worker_rank {th : Worker} {g g' : Globals} {pc pc' : WorkerPc} (h : WorkerMove th g pc pc' g') :
    workerRank pc' + 18 * g'.qSem < workerRank pc + 18 * g.qSem := by
  cases h with
  | wait hq => simp only [workerRank]; omega
  | test d bytes v => split_ifs <;> simp [workerRank]
  | check d j => split_ifs <;> simp [workerRank]
  | close d hl => simp [workerRank, Globals.finish]
  | name d => simp [workerRank, Globals.rename]
  | _ => simp [workerRank]

theorem sizes_congr {g g' : Globals} (h1 : g'.inputSize = g.inputSize) (h2 : g'.rs = g.rs) (pc : MainPc) :
    sizes g' pc = sizes g pc := by
  cases pc <;> simp only [sizes, h1, h2]

theorem mainRank_congr {g g' : Globals} (h : g'.inputSize = g.inputSize) (pc : MainPc) : mainRank g' pc = mainRank g pc := by
  cases pc <;> simp only [mainRank, jobs, h]

/-- A worker's move lowers what is left of the round. -/
theorem rank_worker {s : St} {th : Worker} {pc : WorkerPc} {g : Globals} (w : World Vars)
    (h : workerRank pc + 18 * g.qSem < workerRank (s.workers th) + 18 * s.g.qSem) (h1 : g.inputSize = s.g.inputSize)
    (h2 : g.rs = s.g.rs) : rank ⟨s.main, Function.update s.workers th pc, g, w⟩ < rank s := by
  refine rank_lt_of_rest rfl (sizes_congr h1 h2 _) ?_
  have := sum_update workerRank s.workers th pc
  simp only [rest, mainRank_congr h1]
  omega

/-- What the main thread's move lowers. -/
structure Lowers (g g' : Globals) (pc pc' : MainPc) : Prop where
  eraLe : era pc' ≤ era pc
  sizeLe : era pc' = era pc → (sizes g' pc').1 ≤ (sizes g pc).1
  lengthLe : era pc' = era pc → (sizes g' pc').1 = (sizes g pc).1 → (sizes g' pc').2 ≤ (sizes g pc).2
  restLt : era pc' = era pc → sizes g' pc' = sizes g pc → mainRank g' pc' + 18 * g'.qSem < mainRank g pc + 18 * g.qSem

theorem Lowers.same {g g' : Globals} {pc pc' : MainPc} (h1 : era pc' = era pc) (h2 : sizes g' pc' = sizes g pc)
    (h3 : mainRank g' pc' + 18 * g'.qSem < mainRank g pc + 18 * g.qSem) : Lowers g g' pc pc' :=
  ⟨h1.le, fun _ => by rw [h2], fun _ _ => by rw [h2], fun _ _ => h3⟩

theorem main_lowers {rand : Nat} {held : Path} {cur : Bytes} {g g' : Globals} {pc pc' : MainPc} (hs : SizedAt g pc)
    (hpushing : ∀ r b, pc = .pushing r b → b ≤ jobs g r) (hposting : ∀ r b, pc = .posting r b → b < jobs g r)
    (h : MainMove rand held cur g pc pc' g') : Lowers g g' pc pc' := by
  cases h with
  | begin => exact ⟨Nat.le_succ 1, nofun, nofun, nofun⟩
  | enter size r =>
    refine .same rfl rfl ?_
    simp only [mainRank, jobs, threadN]
    omega
  | copy i r =>
    split_ifs with hi
    · refine .same rfl rfl ?_
      simp only [mainRank]
      omega
    · refine .same rfl rfl ?_
      simp only [mainRank]
      omega
  | round r hr => exact .same rfl rfl (by simp only [mainRank, jobs]; omega)
  | finish r hr =>
    refine ⟨Nat.le_refl _, fun _ => Nat.zero_le _, fun _ _ => Nat.zero_le _, ?_⟩
    intro _ _
    simp only [mainRank, threadN]
    omega
  | setRs r => exact .same rfl rfl (by simp only [mainRank, jobs]; omega)
  | setExisting r hle => exact .same rfl rfl (by simp only [mainRank, jobs]; omega)
  | push r b hle =>
    have := hpushing r b rfl
    exact .same rfl rfl (by simp only [mainRank, jobs, Globals.push] at this ⊢; omega)
  | pushed r b hgt =>
    have := hpushing r b rfl
    exact .same rfl rfl (by simp only [mainRank] at this ⊢; omega)
  | post r b =>
    have := hposting r b rfl
    exact .same rfl rfl (by simp only [mainRank, jobs] at this ⊢; omega)
  | wait r hsig => exact .same rfl rfl (by simp only [mainRank]; omega)
  | select r hf =>
    obtain ⟨-, -, hrs⟩ := hs
    exact .same rfl (by simp only [sizes, hrs]) (by simp only [mainRank]; omega)
  | next r hf =>
    obtain ⟨hr, -, -⟩ := hs
    refine ⟨Nat.le_refl _, fun _ => Nat.le_refl _, ?_, ?_⟩
    · intro _ _
      simp only [sizes]; omega
    · intro _ e
      simp only [sizes, Prod.mk.injEq] at e; omega
  | rename k => exact .same rfl rfl (by simp only [mainRank, threadN]; omega)
  | remove i p =>
    split_ifs with hi
    · exact .same rfl rfl (by simp only [mainRank]; omega)
    · exact .same rfl rfl (by simp only [mainRank]; omega)
  | recurse p =>
    obtain ⟨h1, h2⟩ := hs
    have hlt : (g.inputSize - g.rs).toNat < g.inputSize.toNat := by omega
    refine ⟨Nat.le_refl _, fun _ => hlt.le, fun _ e => absurd e hlt.ne, fun _ e => absurd (congrArg Prod.fst e) hlt.ne⟩
  | clear i =>
    split_ifs with hi
    · exact .same rfl rfl (by simp only [mainRank]; omega)
    · exact .same rfl rfl (by simp only [mainRank]; omega)

theorem rank_main {s : St} {rand : Nat} {held : Path} {cur : Bytes} {pc : MainPc} {g : Globals} (w : World Vars) (hs : Sized s)
    (hinv : Inv (pool s)) (h : MainMove rand held cur s.g s.main pc g) : rank ⟨pc, s.workers, g, w⟩ < rank s := by
  have hr := hinv.round
  unfold InRound at hr
  rw [show (pool s).boss = boss s.g s.main from rfl] at hr
  have hl := main_lowers hs (fun r b e => by rw [e] at hr; exact hr.2.1) (fun r b e => by rw [e] at hr; exact hr.1) h
  rcases hl.eraLe.lt_or_eq with hlt | he
  · exact rank_lt_of_era hlt
  rcases (hl.sizeLe he).lt_or_eq with hlt | h1
  · exact rank_lt_of_size he hlt
  rcases (hl.lengthLe he h1).lt_or_eq with hlt | h2
  · exact rank_lt_of_length he h1 hlt
  have e : sizes g pc = sizes s.g s.main := Prod.ext h1 h2
  apply rank_lt_of_rest he e
  have := hl.restLt he e
  simp only [rest]
  omega

/-- Step lemma. -/
theorem rank_next {E : Env} {inputPath : Path} {fs : Fs} {s t : St} {m : Move} (hs : (system E inputPath fs).Reach s)
    (hst : step E m s = some t) : rank t < rank s := by
  obtain ⟨hlive, hm⟩ := step_cases hst
  obtain ⟨hinv, hsized⟩ := reach_pool hs hlive
  rcases hm with hover | hm
  · exact rank_lt_of_era (by rw [era_over hover]; exact era_live hlive)
  cases hm with
  | main rand w h => exact rank_main w hsized hinv h
  | worker th w h => exact rank_worker w (worker_rank h) (worker_sizes h).1 (worker_sizes h).2
  | stuck th w hns =>
    refine rank_worker w ?_ rfl rfl
    cases hpc : s.workers th with
    | stuck pc => exact absurd hpc (hns pc)
    | _ => simp [workerRank]

/-- No run goes on for ever: `range` stops after finitely many steps, and so after finitely
    many tests. -/
theorem range_ends (E : Env) (inputPath : Path) (fs : Fs) : ¬ (system E inputPath fs).Endless :=
  System.not_endless wellFounded_lt rank fun _ _ hs ⟨_, hst⟩ => rank_next hs hst

/-- To show that some run gets to `Q`, give a step that gets nearer. -/
theorem range_leads {E : Env} {inputPath : Path} {fs : Fs} {P Q : St → Prop}
    (hmove : ∀ s, (system E inputPath fs).Reach s → P s → ∃ m t, step E m s = some t ∧ (P t ∨ Q t)) {s : St}
    (hs : (system E inputPath fs).Reach s) (hP : P s) : ∃ t, (system E inputPath fs).Reach t ∧ Q t := by
  refine System.Reach.leads (T := system E inputPath fs) wellFounded_lt rank (fun _ _ hs ⟨_, hst⟩ => rank_next hs hst) ?_ hs hP
  intro s hs hP
  obtain ⟨m, t, hst, h⟩ := hmove s hs hP
  exact ⟨t, ⟨m, hst⟩, h⟩

/-! ## How it ends -/

section

variable {E : Env} {inputPath : Path} {fs : Fs}

/-- The names of the copies `i` and up are free. -/
def FreeFrom (E : Env) (fs : Fs) (i : Nat) : Prop := ∀ th : Worker, i ≤ th → fs (E.key (originFile th)) = none

/-- What keeps the process alive. `bad` is whether the one size that overflows is let in. -/
def FitAt (E : Env) (bad : Prop) (s : St) : MainPc → Prop
  | .entry => (∃ c, s.w.fs (E.key s.w.own.held) = some c ∧ (toInt c.length = -2 ^ 31 → bad)) ∧ FreeFrom E s.w.fs 0
  | .enter size _ => (size = -2 ^ 31 → bad) ∧ FreeFrom E s.w.fs 0
  | .copying i _ => (s.g.inputSize = -2 ^ 31 → bad) ∧ i < threadN ∧ FreeFrom E s.w.fs i
  | .round _ => s.g.inputSize = -2 ^ 31 → bad
  | .settingRs _ => s.g.inputSize = -2 ^ 31 → bad
  | .settingExisting _ => s.g.inputSize = -2 ^ 31 → bad
  | .removing i _ => ∀ th : Worker, th < i → s.w.fs (E.key (originFile th)) = none
  | .recursing _ => FreeFrom E s.w.fs 0
  | .exited _ => False
  | .hung => False
  | .undefined => bad
  | _ => True

variable {bad : Prop}

theorem fit_main {s t : St} {rand : Nat} (h : FitAt E bad s s.main) (hsound : Sound E s) (hsized : Sized s)
    (hst : step E (.main rand) s = some t) : FitAt E bad t t.main := by
  obtain ⟨-, -, hcall⟩ := hsound
  obtain ⟨-, x, hx, rfl⟩ := step_main hst
  unfold Sized at hsized
  generalize s.main = pc at h hx hcall hsized
  cases pc with
  | entry =>
    cases hx
    obtain ⟨⟨c, hc, hne⟩, hfree⟩ := h
    simp only [entryTurn, look_bind]
    rw [bind_ok (byteCountFile_run hc)]
    exact ⟨hne, hfree⟩
  | enter size r => cases hx; exact ⟨h.1, Nat.succ_pos _, h.2⟩
  | copying i r =>
    cases hx
    obtain ⟨hne, hi, hfree⟩ := h
    obtain ⟨hheld, -, -⟩ := hcall
    simp only [copyingTurn, look_bind]
    obtain ⟨w', hrun, -, -, hfr⟩ := Tester.copy_run (E := E) hheld (hfree ⟨i, hi⟩ (Nat.le_refl _))
    rw [bind_ok hrun]
    simp only [afterMain, pure_run]
    split_ifs with hlt
    · refine ⟨hne, hlt, ?_⟩
      intro th hth
      rw [(hfr (E.key (originFile th)) fun e => absurd (originFile_inj E e) (by simp only; omega)).1]
      exact hfree th (by omega)
    · exact hne
  | round r =>
    cases hx
    split_ifs
    · exact h
    · trivial
  | settingRs r => cases hx; exact h
  | settingExisting r =>
    cases hx
    obtain ⟨hr, hbelow, -⟩ := hsized
    simp only [settingExistingTurn]
    split_ifs with hov
    · exact h ((hbelow hr).resolve_right (by omega))
    · trivial
  | pushing r b => cases hx; split_ifs <;> trivial
  | posting r b => cases hx; trivial
  | waiting r =>
    simp only [mainTurn, Option.ite_none_right_eq_some, Option.some.injEq] at hx
    obtain ⟨-, rfl⟩ := hx
    trivial
  | selecting r =>
    cases hx
    simp only [afterMain, pure_run]
    split_ifs
    · trivial
    · have := hsized.2.1
      have := hsized.1
      exact fun (e : s.g.inputSize = -2 ^ 31) => by omega
  | renamingPart k =>
    cases hx
    obtain ⟨⟨-, c, hc, -⟩, -⟩ := hcall
    simp only [renamingTurn]
    rw [bind_ok (rename_run hc)]
    exact fun th hth => absurd hth (Nat.not_lt_zero _)
  | removing i p =>
    cases hx
    have hgone : ∀ th : Worker, th < i + 1 → (s.w.fs.put (E.key (originFile i)) none) (E.key (originFile th)) = none := by
      intro th hth
      by_cases e : (th : Nat) = i
      · rw [e]; exact Fs.put_same _ _ _
      · rw [Fs.put_ne _ _ fun e' => e (originFile_inj E e')]
        exact h th (by omega)
    simp only [remove, act_bind, afterMain, pure_run]
    split_ifs with hlt
    · exact hgone
    · exact fun th _ => hgone th (by have := th.isLt; omega)
  | recursing p =>
    cases hx
    have h1 := hsized.1
    have h2 := hsized.2
    exact ⟨fun e => by omega, h⟩
  | finishing i =>
    cases hx
    simp only [remove, act_bind, look_bind, afterMain, pure_run]
    split_ifs <;> trivial
  | ret p => cases hx
  | exited e => cases hx
  | hung => cases hx
  | undefined => cases hx

theorem fit_worker {s t : St} {th : Worker} (h : FitAt E bad s s.main) (hsound : Sound E s) (hsized : Sized s) (hinv : Inv (pool s))
    (hst : step E (.worker th) s = some t) : FitAt E bad t t.main := by
  obtain ⟨hnamed, halive, hcall⟩ := hsound
  unfold Sized at hsized
  have away : boss s.g s.main = .away → FitAt E bad t t.main := fun hb => by
    have hr := hinv.round
    unfold InRound at hr
    rw [show (pool s).boss = .away from hb] at hr
    obtain rfl := away_worker halive hr hst
    exact h
  have rounds : ∀ {q : Int}, InRounds E s → s.g.rs = q ∧ 0 < q ∧ q < s.g.inputSize → (boss s.g s.main).total = jobs s.g q →
      t.main = s.main := fun hr hq hb => (inRounds_worker hr hnamed hinv hq hb hst).2.2.1
  generalize s.main = pc at hcall hsized h away rounds
  cases pc with
  | pushing r b => rw [rounds hcall ⟨hsized.2.2, hsized.1, hsized.2.1⟩ rfl]; trivial
  | posting r b => rw [rounds hcall ⟨hsized.2.2, hsized.1, hsized.2.1⟩ rfl]; trivial
  | waiting r => rw [rounds hcall ⟨hsized.2.2, hsized.1, hsized.2.1⟩ rfl]; trivial
  | selecting r => rw [rounds hcall ⟨hsized.2.2, hsized.1, hsized.2.1⟩ rfl]; trivial
  | _ => exact away rfl

variable {X : Bytes} (hX : fs (E.key inputPath) = some X) (hfree : ∀ th : Worker, fs (E.key (originFile th)) = none)
include hX hfree

theorem reach_fit {s : St} (hs : (system E inputPath fs).Reach s) : FitAt E (toInt X.length = -2 ^ 31) s s.main := by
  refine System.Reach.invariant (T := system E inputPath fs) (P := fun s => FitAt E _ s s.main) ?_ ?_ hs
  · intro s h
    subst h
    exact ⟨⟨X, hX, id⟩, fun th _ => hfree th⟩
  · intro s t hr hi hst
    obtain ⟨m, hst⟩ := hst
    have hlive := (step_cases hst).1
    obtain ⟨hinv, hsized⟩ := reach_pool hr hlive
    have hsound := reach_sound hr hlive
    cases m with
    | main rand => exact fit_main hi hsound hsized hst
    | worker th => exact fit_worker hi hsound hsized hinv hst

/-- Where the input exists and leaves the copies' names free, a run that cannot go on has
    returned, but for the one size that overflows. -/
theorem final_cases {s : St} (hs : (system E inputPath fs).Reach s) (hend : ∀ m, step E m s = none) :
    (∃ q, s.main = .ret q) ∨ s.main = .undefined ∧ toInt X.length = -2 ^ 31 := by
  have hfit := reach_fit hX hfree hs
  have going : ∀ {x}, s.main.over = false → mainTurn E 0 s.g s.main = some x → False := fun hlive hx => by
    have := hend (.main 0)
    simp only [step, hlive, Bool.false_eq_true, if_false, hx, Option.map_some, reduceCtorEq] at this
  cases hm : s.main with
  | ret q => exact Or.inl ⟨q, rfl⟩
  | undefined => rw [hm] at hfit; exact Or.inr ⟨rfl, hfit⟩
  | waiting r =>
    obtain ⟨m, t, ht⟩ := (round_protocol hs).2.2 r hm
    cases (hend m).symm.trans ht
  | hung => rw [hm] at hfit; cases hfit
  | exited e => rw [hm] at hfit; cases hfit
  | _ => rw [hm] at going; exact (going rfl rfl).elim

theorem range_returns (hsize : toInt X.length ≠ -2 ^ 31) {s : St} (hs : (system E inputPath fs).Reach s)
    (hend : ∀ m, step E m s = none) : ∃ q, s.main = .ret q :=
  (final_cases hX hfree hs hend).resolve_right fun h => hsize h.2

/-! ## The size that overflows -/

/-- On the way to `existing = input_size - r_size + 1`. -/
def Doomed (E : Env) (X : Bytes) (s : St) : MainPc → Prop
  | .entry => s.w.fs (E.key s.w.own.held) = some X
  | .enter size r => size = -2 ^ 31 ∧ 0 < r
  | .copying _ r => s.g.inputSize = -2 ^ 31 ∧ 0 < r
  | .round r => s.g.inputSize = -2 ^ 31 ∧ 0 < r
  | .settingRs r => s.g.inputSize = -2 ^ 31 ∧ 0 < r
  | .settingExisting r => s.g.inputSize = -2 ^ 31 ∧ 0 < r
  | _ => False

omit hX hfree in
theorem doomed_next {s t : St} {m : Move} (hs : (system E inputPath fs).Reach s) (hsize : toInt X.length = -2 ^ 31)
    (h : Doomed E X s s.main) (hst : step E m s = some t) : t.main.over = true ∨ Doomed E X t t.main := by
  obtain ⟨hlive, hm⟩ := step_cases hst
  apply hm.imp id
  intro hm
  have halive := (reach_sound hs hlive).alive
  have haway : boss s.g s.main = .away := by
    cases hmain : s.main <;> rw [hmain] at h <;> first | rfl | cases h
  have hquiet := away_quiet hs hlive haway
  cases m with
  | worker th =>
    obtain rfl := away_worker halive hquiet hst
    exact h
  | main rand =>
    generalize hmain : s.main = pc at h
    cases hm with
    | main _ w hmove =>
      rw [hmain] at hmove
      cases hmove with
      | begin =>
        have hfile : s.w.fs (E.key s.w.own.held) = some X := h
        rw [hfile, Option.getD_some]
        exact ⟨hsize, by rw [toInt_pred_min hsize]; decide⟩
      | copy i r => split_ifs <;> exact h
      | finish r hr => exact absurd h.2 (by omega)
      | setExisting r hle =>
        have h1 := h.1
        have h2 := h.2
        omega
      | enter size r => exact h
      | round r hr => exact h
      | setRs r => exact h
      | _ => exact h.elim

/-- At a size of 2^31 modulo 2^32 `range` returns nothing: `existing` overflows. -/
theorem range_overflows (hsize : toInt X.length = -2 ^ 31) :
    (∀ s, (system E inputPath fs).Reach s → ∀ q, s.main ≠ .ret q) ∧ ∃ s, (system E inputPath fs).Reach s ∧ s.main = .undefined := by
  have hdoomed : ∀ s, (system E inputPath fs).Reach s → s.main.over = true ∨ Doomed E X s s.main := fun s hs => by
    refine System.Reach.invariant (T := system E inputPath fs) (P := fun s => s.main.over = true ∨ Doomed E X s s.main) ?_ ?_ hs
    · intro s h
      subst h
      exact Or.inr hX
    · intro s t hr hi hst
      obtain ⟨m, hst⟩ := hst
      exact doomed_next hr hsize (hi.resolve_left fun e => nomatch e.symm.trans (step_cases hst).1) hst
  have hnever : ∀ s, (system E inputPath fs).Reach s → ∀ q, s.main ≠ .ret q := fun s hs q hq => by
    have := hdoomed s hs
    rw [hq] at this
    rcases this with h | h <;> cases h
  obtain ⟨s, hs, hend⟩ := System.exists_final (range_ends E inputPath fs) rfl
  rcases final_cases hX hfree hs fun m => Option.eq_none_iff_forall_ne_some.mpr fun t ht => hend t ⟨m, ht⟩ with ⟨q, hq⟩ | ⟨hu, -⟩
  · exact absurd hq (hnever s hs q)
  · exact ⟨hnever, s, hs, hu⟩

end

end DiyDdmin.Range
