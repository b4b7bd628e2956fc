/-
  DiyDdmin.Range.Capacity — the size of the table of failing candidates.

  `fail_max` is raised in one step and `fail_arr` allocated anew in another, outside any
  lock. A worker that has reserved an index and is not past the test counts as `ahead`:
  with it the table keeps `THREAD_N` entries to spare (`Room`), whatever pauses the others
  make. But the test goes by `fail_max`, and while a worker stands between the doubling and
  the reallocation, the entries that `fail_max` promises are not there.

  Proved: in every run where no test finds room that is not allocated (`Backed`), every
  store is inside the table (`stores_inside`). For every input of 17 bytes or more of which
  single bytes can be cut and no longer range, some run has a store that is not: a worker
  alone does job after job (`solo_jobs`), pauses before the reallocation, and another goes
  by the raised `fail_max` (`stores_outside`).
-/

import DiyDdmin.Range.Failures
import DiyDdmin.Range.Results

namespace DiyDdmin.Range

open Posix Tester Numeric Systems Reduction WorkPool

/-! ## Room -/

/-- 1 for a worker with an index that is not past the test and the doubling. -/
def ahead : WorkerPc → Nat
  | .checking _ _ => 1
  | .doubling _ _ => 1
  | _ => 0

/-- `fail_max` is raised and `fail_arr` not allocated for it yet. -/
def Reallocating (s : St) : Prop := ∃ th d j, s.workers th = .reallocating d j

structure Room (s : St) : Prop where
  base : 16 ≤ s.g.failMax
  allocated : s.g.failLen ≤ s.g.failMax
  even : ¬ Reallocating s → s.g.failLen = s.g.failMax
  index : ∀ th j, reserved (s.workers th) = some j → j < s.g.failN
  slack : s.g.failN + threadN ≤ s.g.failMax + ∑ th, ahead (s.workers th)

theorem ahead_le_one (pc : WorkerPc) : ahead pc ≤ 1 := by
  cases pc <;> first | exact Nat.le_refl 1 | exact Nat.zero_le 1

/-- A worker that is not ahead leaves at most three that are. -/
theorem sum_ahead_lt {ws : Worker → WorkerPc} {th : Worker} (h : ahead (ws th) = 0) : ∑ i, ahead (ws i) < threadN := by
  have hsum := sum_update ahead ws th (.checking ⟨0, 0⟩ 0)
  have hle : ∑ i, ahead (Function.update ws th (.checking ⟨0, 0⟩ 0) i) ≤ ∑ _i : Worker, 1 :=
    Finset.sum_le_sum fun i _ => ahead_le_one _
  rw [← Finset.card_eq_sum_ones, Finset.card_univ, Fintype.card_fin] at hle
  rw [h, show ahead (.checking ⟨0, 0⟩ 0) = 1 from rfl] at hsum
  omega

/-- An index that its worker may store at is below `fail_max`. -/
theorem Room.index_lt {s : St} (h : Room s) {th : Worker} {j : Nat} (hj : reserved (s.workers th) = some j)
    (ha : ahead (s.workers th) = 0) : j < s.g.failMax := by
  have h1 := h.index th j hj
  have h2 := h.slack
  have h3 := sum_ahead_lt ha
  omega

theorem room_start (inputPath : Path) (fs : Fs) : Room (start inputPath fs) := by
  refine ⟨Nat.le_refl _, Nat.le_refl _, fun _ => rfl, ?_, ?_⟩
  · intro th j hj
    cases hj
  · exact Nat.le_trans (show 0 + threadN ≤ 16 by decide) (Nat.le_add_right _ _)

/-! ## Steps -/

/-- What a worker's move has to keep. -/
theorem room_update {s : St} {th : Worker} {pc : WorkerPc} {g : Globals} (w : World Vars) (h : Room s)
    (hmax : s.g.failMax ≤ g.failMax) (halloc : g.failLen ≤ g.failMax)
    (heven : (∀ d j, pc ≠ .reallocating d j) → g.failLen = g.failMax ∨
      (∀ d j, s.workers th ≠ .reallocating d j) ∧ g.failLen = s.g.failLen ∧ g.failMax = s.g.failMax)
    (hn : s.g.failN ≤ g.failN) (hindex : ∀ j, reserved pc = some j → j < g.failN)
    (hslack : g.failN + s.g.failMax + ahead (s.workers th) ≤ g.failMax + s.g.failN + ahead pc ∨ g.failN + threadN ≤ g.failMax) :
    Room ⟨s.main, Function.update s.workers th pc, g, w⟩ := by
  refine ⟨h.base.trans hmax, halloc, ?_, ?_, ?_⟩
  · intro hno
    have other : ∀ th' d j, th' ≠ th → s.workers th' ≠ .reallocating d j := fun th' d j hne e =>
      hno ⟨th', d, j, by simp only [Function.update_of_ne hne]; exact e⟩
    rcases heven fun d j e => hno ⟨th, d, j, by simp only [Function.update_self]; exact e⟩ with he | ⟨hold, hlen, hmax⟩
    · exact he
    · refine hlen.trans ((h.even ?_).trans hmax.symm)
      rintro ⟨th', d, j, e⟩
      by_cases hne : th' = th
      · exact hold d j (hne ▸ e)
      · exact other th' d j hne e
  · intro th' j hj
    by_cases hne : th' = th
    · simp only [hne, Function.update_self] at hj
      exact hindex j hj
    · simp only [Function.update_of_ne hne] at hj
      exact (h.index th' j hj).trans_le hn
  · have h1 := sum_update ahead s.workers th pc
    have h2 := h.slack
    simp only
    rcases hslack with h3 | h3 <;> omega

/-- A worker's move keeps the room. -/
theorem room_worker {s : St} {th : Worker} {pc : WorkerPc} {g : Globals} (w : World Vars) (h : Room s)
    (hm : WorkerMove th s.g (s.workers th) pc g) : Room ⟨s.main, Function.update s.workers th pc, g, w⟩ := by
  have hbase := h.base
  have hindex := h.index th
  have hlt := @Room.index_lt s h th
  have update := @room_update s th pc g w h
  generalize s.workers th = pc0 at hm hindex hlt update
  -- a move that gives no index and leaves the table's size as it is
  have same : (∀ d j, pc0 ≠ .reallocating d j) → g.failN = s.g.failN → g.failMax = s.g.failMax → g.failLen = s.g.failLen →
      (∀ j, reserved pc = some j → reserved pc0 = some j) → ahead pc0 ≤ ahead pc →
      Room ⟨s.main, Function.update s.workers th pc, g, w⟩ := by
    intro hr hn hm hl hi ha
    refine update hm.ge (by rw [hl, hm]; exact h.allocated) (fun _ => Or.inr ⟨hr, hl, hm⟩) hn.ge ?_ (Or.inl (by omega))
    intro j hj
    rw [hn]
    exact hindex j (hi j hj)
  cases hm with
  | test d bytes eCode =>
    refine same nofun rfl rfl rfl ?_ (Nat.zero_le _)
    intro j hj
    cases eCode <;> cases hj
  | reserve d =>
    refine update (Nat.le_refl _) h.allocated (fun _ => Or.inr ⟨nofun, rfl, rfl⟩) (Nat.le_succ _) ?_ (Or.inl ?_)
    · intro j hj
      cases hj
      exact Nat.lt_succ_self _
    · simp only [ahead]
      omega
  | check d j =>
    by_cases hroom : s.g.failMax - threadN ≤ s.g.failN
    · rw [if_pos hroom] at same ⊢
      exact same nofun rfl rfl rfl (fun _ e => e) (Nat.le_refl _)
    · rw [if_neg hroom] at update ⊢
      -- there are `THREAD_N` to spare without counting this worker
      refine update (Nat.le_refl _) h.allocated (fun _ => Or.inr ⟨nofun, rfl, rfl⟩) (Nat.le_refl _) (fun j hj => hindex j hj)
        (Or.inr ?_)
      simp only [threadN] at hroom ⊢
      omega
  | double d j =>
    have halloc := h.allocated
    refine update ?_ ?_ (fun hno => absurd rfl (hno d j)) (Nat.le_refl _) (fun j hj => hindex j hj) (Or.inl ?_)
    · simp only
      omega
    · simp only
      omega
    · simp only [ahead]
      omega
  | reallocate d j =>
    refine update (Nat.le_refl _) (Nat.le_refl _) (fun _ => Or.inl rfl) (Nat.le_refl _) (fun j hj => hindex j hj) (Or.inl ?_)
    simp only [ahead]
    omega
  | _ => exact same nofun rfl rfl rfl (fun _ e => by cases e) (Nat.le_refl _)

/-- The main thread leaves the table's size as it is, and empties it between rounds. -/
theorem main_table {rand : Nat} {held : Path} {cur : Bytes} {g g' : Globals} {pc pc' : MainPc}
    (h : MainMove rand held cur g pc pc' g') :
    g'.failMax = g.failMax ∧ g'.failLen = g.failLen ∧ (g'.failN = g.failN ∨ (∃ r, pc = .round r) ∧ g'.failN = 0) := by
  cases h with
  | round r hr => exact ⟨rfl, rfl, Or.inr ⟨⟨r, rfl⟩, rfl⟩⟩
  | _ => exact ⟨rfl, rfl, Or.inl rfl⟩

section

variable {E : Env} {inputPath : Path} {fs : Fs}

theorem room_step {s t : St} {m : Move} (hs : (system E inputPath fs).Reach s) (h : s.main.over = false → Room s)
    (hst : step E m s = some t) (ho : t.main.over = false) : Room t := by
  obtain ⟨hlive, hm⟩ := step_cases hst
  have h := h hlive
  replace hm := hm.resolve_left (by rw [ho]; decide)
  cases hm with
  | worker th w hm => exact room_worker w h hm
  | main rand w hm =>
    obtain ⟨hmax, hlen, hn⟩ := main_table hm
    have hbase := h.base
    refine ⟨hmax ▸ hbase, by rw [hlen, hmax]; exact h.allocated, ?_, ?_, ?_⟩
    · intro hno
      rw [hlen, hmax]
      exact h.even hno
    · intro th j hj
      rcases hn with hn | ⟨⟨r, hpc⟩, -⟩
      · rw [hn]
        exact h.index th j hj
      · have hquiet := away_quiet hs hlive (by rw [hpc]; rfl)
        rw [reserved_quiet (hquiet.hands th) ((reach_sound hs hlive).alive th)] at hj
        cases hj
    · have hslack := h.slack
      simp only [hmax]
      rcases hn with hn | ⟨-, hn⟩
      · rw [hn]
        exact hslack
      · rw [hn]
        simp only [threadN]
        omega
  | stuck th w hns =>
    have halive := (reach_sound (hs.step ⟨_, hst⟩) ho).alive th (s.workers th)
    exact absurd (Function.update_self _ _ _) halive

/-- Run lemma. -/
theorem reach_room {s : St} (hs : (system E inputPath fs).Reach s) (ho : s.main.over = false) : Room s := by
  refine System.Reach.invariant (T := system E inputPath fs) (P := fun s => s.main.over = false → Room s) ?_ ?_ hs ho
  · intro s h _
    subst h
    exact room_start inputPath fs
  · intro s t hr hi hst ho
    obtain ⟨m, hst⟩ := hst
    exact room_step hr hi hst ho

/-! ## Stores -/

/-- A test that finds room (`fail_n < fail_max - THREAD_N`) finds it in what is allocated:
    nobody is about to reallocate, or no more failures have been counted than there are
    entries. -/
def Backed (s t : St) : Prop := ∀ th d j, s.workers th = .checking d j → t.workers th = .storing d j →
  ¬ Reallocating s ∨ s.g.failN ≤ s.g.failLen

def Inside (s : St) : Prop := ∀ th d j, s.workers th = .storing d j → j < s.g.failLen

/-- `fail_arr` never gets smaller. -/
theorem move_length {s : St} {th : Worker} {pc pc' : WorkerPc} {g : Globals} (h : Room s) (hm : WorkerMove th s.g pc pc' g) :
    s.g.failLen ≤ g.failLen := by
  cases hm with
  | reallocate d j => exact h.allocated
  | _ => exact Nat.le_refl _

/-- After a worker's move the entry it is to store at is allocated. -/
theorem inside_worker {s : St} {th : Worker} {pc : WorkerPc} {g : Globals} {w : World Vars} (h : Room s) (hin : Inside s)
    (hb : Backed s ⟨s.main, Function.update s.workers th pc, g, w⟩) (hm : WorkerMove th s.g (s.workers th) pc g) :
    Inside ⟨s.main, Function.update s.workers th pc, g, w⟩ := by
  have hgrow := move_length h hm
  intro th' d j hj
  by_cases hth : th' = th
  · subst hth
    have hback := hb th' d j
    have hindex := h.index th'
    have hlt := @Room.index_lt s h th'
    simp only [Function.update_self] at hj hback
    generalize s.workers th' = pc0 at hm hback hindex hlt
    cases hm with
    | check e i =>
      have hroom : ¬ s.g.failMax - threadN ≤ s.g.failN := fun hfull => by
        rw [if_pos hfull] at hj
        cases hj
      rw [if_neg hroom] at hj
      obtain ⟨rfl, rfl⟩ := WorkerPc.storing.inj hj
      have hi := hindex i rfl
      rcases hback rfl (if_neg hroom) with hno | hle
      · rw [h.even hno]
        simp only [threadN] at hroom
        omega
      · exact hi.trans_le hle
    | reallocate e i =>
      obtain ⟨rfl, rfl⟩ := WorkerPc.storing.inj hj
      exact hlt rfl rfl
    | test e bytes eCode => cases eCode <;> cases hj
    | _ => cases hj
  · simp only [Function.update_of_ne hth] at hj
    exact (hin th' d j hj).trans_le hgrow

/-- In every run whose tests find room only where it is allocated, for any number of rounds
    and calls and every interleaving, every store is inside the table. -/
theorem stores_inside {s : St} (hs : ((system E inputPath fs).restrict Backed).Reach s) {th : Worker} {d : Node} {j : Nat}
    (hpc : s.workers th = .storing d j) {t : St} (hst : step E (.worker th) s = some t) : j < s.g.failLen := by
  have inside : s.main.over = false → Inside s := by
    refine System.Reach.invariant (T := (system E inputPath fs).restrict Backed) (P := fun s => s.main.over = false → Inside s)
      ?_ ?_ hs
    · intro s h _ th d j hj
      have h : s = start inputPath fs := h
      subst h
      cases hj
    · intro s t hr hi hst ho
      obtain ⟨hb, m, hst⟩ := hst
      obtain ⟨hlive, hm⟩ := step_cases hst
      have hr := hr.of_restrict
      have hin := hi hlive
      replace hm := hm.resolve_left (by rw [ho]; decide)
      cases hm with
      | worker th w hm => exact inside_worker (reach_room hr hlive) hin hb hm
      | main rand w hm =>
        intro th d j hj
        rw [(main_table hm).2.1]
        exact hin th d j hj
      | stuck th w hns =>
        have halive := (reach_sound (hr.step ⟨_, hst⟩) ho).alive th (s.workers th)
        exact absurd (Function.update_self _ _ _) halive
  exact inside (step_cases hst).1 th d j hpc

/-- Two bytes of which the first is enough, up to the one store. -/
theorem stores_inside_two :
    ∃ s th d t, ((system (judging fun c => c.contains 1) "in".toList (soleInput "in".toList [1, 2])).restrict Backed).Reach s ∧
      s.workers th = .storing d 0 ∧ step (judging fun c => c.contains 1) (.worker th) s = some t ∧ 0 < s.g.failLen := by
  let E := judging fun c => c.contains 1
  let fs := soleInput "in".toList [1, 2]
  -- as long as no more failures are counted than entries allocated
  let careful : Move → St → Option St := fun m s => if s.g.failN ≤ s.g.failLen then step E m s else none
  have hstep : ∀ m s t, careful m s = some t → ((system E "in".toList fs).restrict Backed).step s t := fun m s t h => by
    obtain ⟨hle, h⟩ := Option.ite_none_right_eq_some.mp h
    exact ⟨fun _ _ _ _ _ => Or.inr hle, m, h⟩
  have hrun : (System.follow careful (List.replicate 14 (.main 0) ++ List.replicate 11 (.worker 2) ++ List.replicate 11 (.worker 0))
      (start "in".toList fs)).map (fun s => (workerRank (s.workers 0), reserved (s.workers 0), s.main.over)) =
      some (6, some 0, false) := by decide +kernel
  obtain ⟨s, hs, he⟩ := Option.map_eq_some_iff.mp hrun
  have hreach : ((system E "in".toList fs).restrict Backed).Reach s := System.Reach.follow (fun m _ => hstep m) (.init rfl) hs
  have hrank := (Prod.mk.inj he).1
  obtain ⟨hres, ho⟩ := Prod.mk.inj (Prod.mk.inj he).2
  obtain ⟨d, hd⟩ : ∃ d, s.workers 0 = .storing d 0 := by
    cases hpc : s.workers 0 with
    | storing d j =>
      rw [hpc] at hres
      exact ⟨d, congrArg _ (Option.some.inj hres)⟩
    | _ => rw [hpc] at hrank; cases hrank
  obtain ⟨t, ht⟩ : ∃ t, step E (.worker 0) s = some t :=
    ⟨_, by simp only [step, ho, Bool.false_eq_true, if_false, hd, workerTurn, Option.map_some]; rfl⟩
  exact ⟨s, 0, d, t, hreach, hd, ht, stores_inside hreach hd ht⟩

/-! ## Runs of one worker -/

/-- What worker `th` leaves alone while it stores no entry out of room. -/
structure Steady (th : Worker) (s t : St) : Prop where
  main : t.main = s.main
  others : ∀ th', th' ≠ th → t.workers th' = s.workers th'
  size : t.g.inputSize = s.g.inputSize
  rs : t.g.rs = s.g.rs
  max : t.g.failMax = s.g.failMax
  len : t.g.failLen = s.g.failLen

theorem Steady.refl (th : Worker) (s : St) : Steady th s s := ⟨rfl, fun _ _ => rfl, rfl, rfl, rfl, rfl⟩

theorem Steady.trans {th : Worker} {s t u : St} (h : Steady th s t) (h' : Steady th t u) : Steady th s u :=
  ⟨h'.main.trans h.main, fun th' hne => (h'.others th' hne).trans (h.others th' hne), h'.size.trans h.size, h'.rs.trans h.rs,
    h'.max.trans h.max, h'.len.trans h.len⟩

theorem Steady.worker {th : Worker} {s : St} {pc : WorkerPc} {g : Globals} (w : World Vars)
    (hm : WorkerMove th s.g (s.workers th) pc g) (hmax : g.failMax = s.g.failMax) (hlen : g.failLen = s.g.failLen) :
    Steady th s ⟨s.main, Function.update s.workers th pc, g, w⟩ :=
  ⟨rfl, fun _ hne => Function.update_of_ne hne _ _, (worker_sizes hm).1, (worker_sizes hm).2, hmax, hlen⟩

variable {s : St} {r : Int} (th : Worker)

/-- A worker that can move in a round does. -/
theorem solo_step (hs : (system E inputPath fs).Reach s) (hr : s.main.inRound = some r) (hmove : CanMove (pool s) th) :
    ∃ pc g w, step E (.worker th) s = some ⟨s.main, Function.update s.workers th pc, g, w⟩ ∧
      WorkerMove th s.g (s.workers th) pc g ∧
      Ran E s.g.log.input s.g.inputSize.toNat s.g.rs.toNat th (outName th (s.g.failStack th)) s.w w s.g g pc := by
  have hlive : s.main.over = false := by cases hm : s.main <;> rw [hm] at hr <;> first | rfl | cases hr
  obtain ⟨t, hst⟩ := worker_enabled (E := E) hlive ((reach_sound hs hlive).alive th) hmove
  obtain ⟨pc, g, w, rfl, hm, hran, -⟩ := round_step hs hr hst
  exact ⟨pc, g, w, hst, hm, hran⟩

/-- From its job's begin to the index of its failing candidate. -/
theorem solo_reserve {D : Bytes → Bool} (hD : Judges E D) (hs : (system E inputPath fs).Reach s) (hr : s.main.inRound = some r)
    (hfail : ∀ c : Bytes, c.length = s.g.inputSize.toNat - s.g.rs.toNat → D c = true)
    (hlock : s.g.endMt = none) (hpc : 10 ≤ workerRank (s.workers th)) :
    ∃ t, (system E inputPath fs).Reach t ∧ Steady th s t ∧ t.g.endMt = none ∧ t.g.qSem = s.g.qSem ∧
      t.g.failN = s.g.failN + 1 ∧ ∃ d, t.workers th = .checking d s.g.failN := by
  refine range_leads (P := fun t => Steady th s t ∧ t.g.endMt = none ∧ t.g.qSem = s.g.qSem ∧ t.g.failN = s.g.failN ∧
    10 ≤ workerRank (t.workers th)) ?_ hs ⟨.refl th s, hlock, rfl, rfl, hpc⟩
  rintro t ht ⟨hst, hl, hq, hn, hpc⟩
  have hr' : t.main.inRound = some r := by rw [hst.main]; exact hr
  have hmove : CanMove (pool t) th := by
    unfold CanMove
    have hlock : (pool t).lock = none := hl
    rw [show (pool t).hands th = hand (t.workers th) from rfl]
    cases hw : t.workers th <;> rw [hw] at hpc <;> trivial
  obtain ⟨pc, g, w, hnext, hm, hran⟩ := solo_step th ht hr' hmove
  refine ⟨_, _, hnext, ?_⟩
  have steady : g.failMax = t.g.failMax → g.failLen = t.g.failLen →
      Steady th s ⟨t.main, Function.update t.workers th pc, g, w⟩ := fun h1 h2 => hst.trans (.worker w hm h1 h2)
  simp only [Function.update_self]
  -- a candidate of the round has the length that fails
  have failing : ∀ d bytes v, (⟨th, d, bytes, v⟩ : Tried) ∈ g.log.tried → v = true := fun d bytes v hmem => by
    obtain ⟨⟨-, hw⟩, -⟩ := reach_round ht hr'
    have hright : Right E t.g.log.input t.g.inputSize.toNat t.g.rs.toNat ⟨th, d, bytes, v⟩ :=
      (hran.tried _ hmem).elim (hw.tried _) id
    refine (hright.verdict D hD).trans (hfail _ ?_)
    rw [hright.bytes, length_cutOf hw.le hright.inside, hst.size, hst.rs]
  generalize t.workers th = pc0 at hm hpc
  cases hm with
  | test d bytes eCode =>
    obtain rfl := failing d.begin bytes eCode (by simp)
    exact Or.inl ⟨steady rfl rfl, hl, hq, hn, Nat.le_refl _⟩
  | reserve d => exact Or.inr ⟨steady rfl rfl, hl, hq, congrArg Nat.succ hn, d, congrArg _ hn⟩
  | wait hpos => exact absurd hpc (by decide)
  | pop hqueue => exact Or.inl ⟨steady rfl rfl, hl, hq, hn, by simp only [workerRank]; decide⟩
  | openFiles d i o => exact Or.inl ⟨steady rfl rfl, hl, hq, hn, by simp only [workerRank]; decide⟩
  | copyPrefix d i o => exact Or.inl ⟨steady rfl rfl, hl, hq, hn, by simp only [workerRank]; decide⟩
  | skip d i => exact Or.inl ⟨steady rfl rfl, hl, hq, hn, by simp only [workerRank]; decide⟩
  | copyPostfix d o => exact Or.inl ⟨steady rfl rfl, hl, hq, hn, by simp only [workerRank]; decide⟩
  | flush d => exact Or.inl ⟨steady rfl rfl, hl, hq, hn, by simp only [workerRank]; decide⟩
  | fit d => exact Or.inl ⟨steady rfl rfl, hl, hq, hn, by simp only [workerRank]; decide⟩
  | _ => exact absurd hpc (by simp only [workerRank]; decide)

/-- From the test, which finds room, to the end of the job. -/
theorem solo_finish (hs : (system E inputPath fs).Reach s) (hr : s.main.inRound = some r) (hlock : s.g.endMt = none)
    {d : Node} {j : Nat} (hpc : s.workers th = .checking d j) (hroom : s.g.failN + threadN < s.g.failMax) :
    ∃ t, (system E inputPath fs).Reach t ∧ Steady th s t ∧ t.g.qSem = s.g.qSem ∧ t.g.failN = s.g.failN ∧
      t.g.endMt = none ∧ t.workers th = .idle := by
  -- at the test or past the table, or with the lock in hand
  refine range_leads (P := fun t => Steady th s t ∧ t.g.qSem = s.g.qSem ∧ t.g.failN = s.g.failN ∧
    (t.g.endMt = none ∧ 4 ≤ workerRank (t.workers th) ∧ workerRank (t.workers th) ≠ 7 ∧ workerRank (t.workers th) ≠ 8 ∧
      workerRank (t.workers th) ≤ 9 ∨ workerRank (t.workers th) = 3)) ?_ hs
    ⟨.refl th s, rfl, rfl, Or.inl ⟨hlock, by rw [hpc]; simp only [workerRank]; decide⟩⟩
  rintro t ht ⟨hst, hq, hn, hpc⟩
  have hr' : t.main.inRound = some r := by rw [hst.main]; exact hr
  have hmove : CanMove (pool t) th := by
    unfold CanMove
    rw [show (pool t).hands th = hand (t.workers th) from rfl]
    rcases hpc with ⟨hl, hpc⟩ | hpc
    · have hl : (pool t).lock = none := hl
      cases hw : t.workers th <;> rw [hw] at hpc <;> first | exact hl | (simp only [workerRank] at hpc; omega)
    · cases hw : t.workers th <;> rw [hw] at hpc <;> first | trivial | (simp only [workerRank] at hpc; omega)
  obtain ⟨pc, g, w, hnext, hm, -⟩ := solo_step th ht hr' hmove
  refine ⟨_, _, hnext, ?_⟩
  have steady : g.failMax = t.g.failMax → g.failLen = t.g.failLen →
      Steady th s ⟨t.main, Function.update t.workers th pc, g, w⟩ := fun h1 h2 => hst.trans (.worker w hm h1 h2)
  simp only [Function.update_self]
  generalize t.workers th = pc0 at hm hpc
  cases hm with
  | check d j =>
    obtain ⟨hl, -⟩ := hpc.resolve_right (by simp only [workerRank]; decide)
    have hfull : ¬ t.g.failMax - threadN ≤ t.g.failN := by
      have := hst.max
      simp only [threadN] at hroom ⊢
      omega
    rw [if_neg hfull] at steady ⊢
    exact Or.inl ⟨steady rfl rfl, hq, hn, Or.inl ⟨hl, by simp only [workerRank]; decide⟩⟩
  | store d j =>
    obtain ⟨hl, -⟩ := hpc.resolve_right (by simp only [workerRank]; decide)
    exact Or.inl ⟨steady rfl rfl, hq, hn, Or.inl ⟨hl, by simp only [workerRank]; decide⟩⟩
  | name d =>
    obtain ⟨hl, -⟩ := hpc.resolve_right (by simp only [workerRank]; decide)
    exact Or.inl ⟨steady rfl rfl, hq, hn, Or.inl ⟨hl, by simp only [workerRank]; decide⟩⟩
  | close d hl => exact Or.inl ⟨steady rfl rfl, hq, hn, Or.inr rfl⟩
  | unlock d => exact Or.inr ⟨steady rfl rfl, hq, hn, rfl, rfl⟩
  | _ => simp only [workerRank] at hpc; omega

/-- A worker that takes one job whose candidate fails, up to its test of the table. -/
theorem solo_take {D : Bytes → Bool} (hD : Judges E D) (hs : (system E inputPath fs).Reach s) (hr : s.main.inRound = some r)
    (hfail : ∀ c : Bytes, c.length = s.g.inputSize.toNat - s.g.rs.toNat → D c = true)
    (hlock : s.g.endMt = none) (hidle : s.workers th = .idle) (hq : 0 < s.g.qSem) :
    ∃ t, (system E inputPath fs).Reach t ∧ Steady th s t ∧ t.g.endMt = none ∧ t.g.qSem + 1 = s.g.qSem ∧
      t.g.failN = s.g.failN + 1 ∧ ∃ d, t.workers th = .checking d s.g.failN := by
  have hmove : CanMove (pool s) th := by
    unfold CanMove
    rw [show (pool s).hands th = hand (s.workers th) from rfl, hidle]
    exact hq
  obtain ⟨pc, g, w, hnext, hm, -⟩ := solo_step th hs hr hmove
  have steady : g.failMax = s.g.failMax → g.failLen = s.g.failLen →
      Steady th s ⟨s.main, Function.update s.workers th pc, g, w⟩ := fun h1 h2 => .worker w hm h1 h2
  rw [hidle] at hm
  cases hm with
  | wait hpos =>
    obtain ⟨t, ht, hst, hl, hq', hn, hd⟩ := solo_reserve th hD (hs.step ⟨_, hnext⟩) hr hfail hlock
      (by simp only [Function.update_self, workerRank]; decide)
    refine ⟨t, ht, (steady rfl rfl).trans hst, hl, ?_, hn, hd⟩
    simp only at hq'
    omega

/-- A worker that does `k` such jobs while there is room for them. -/
theorem solo_jobs {D : Bytes → Bool} (hD : Judges E D) (hs : (system E inputPath fs).Reach s) (hr : s.main.inRound = some r)
    (hfail : ∀ c : Bytes, c.length = s.g.inputSize.toNat - s.g.rs.toNat → D c = true)
    (hlock : s.g.endMt = none) (hidle : s.workers th = .idle) {k : Nat} (hq : k ≤ s.g.qSem)
    (hroom : s.g.failN + k + threadN < s.g.failMax) :
    ∃ t, (system E inputPath fs).Reach t ∧ Steady th s t ∧ t.g.endMt = none ∧ t.g.qSem + k = s.g.qSem ∧
      t.g.failN = s.g.failN + k ∧ t.workers th = .idle := by
  induction k with
  | zero => exact ⟨s, hs, .refl th s, hlock, rfl, rfl, hidle⟩
  | succ k ih =>
    obtain ⟨t, ht, hst, hl, hqt, hnt, hi⟩ := ih (by omega) (by omega)
    have hrt : t.main.inRound = some r := by rw [hst.main]; exact hr
    obtain ⟨u, hu, hsu, hlu, hqu, hnu, d, hd⟩ := solo_take th hD ht hrt (by rw [hst.size, hst.rs]; exact hfail) hl hi (by omega)
    have hru : u.main.inRound = some r := by rw [hsu.main]; exact hrt
    obtain ⟨v, hv, hsv, hqv, hnv, hlv, hiv⟩ := solo_finish th hu hru hlu hd (by rw [hnu, hnt, hsu.max, hst.max]; omega)
    exact ⟨v, hv, hst.trans (hsu.trans hsv), hlv, by omega, by omega, hiv⟩

/-! ## Into a round -/

/-- Between rounds the lock can be released, and then every worker waits. -/
theorem away_idle (hs : (system E inputPath fs).Reach s) (ho : s.main.over = false) (hr : s.main.inRound = none) :
    ∃ t, (system E inputPath fs).Reach t ∧ t.main = s.main ∧ t.g = { s.g with endMt := none } ∧ ∀ th, t.workers th = .idle := by
  have haway : boss s.g s.main = .away := by cases hm : s.main <;> rw [hm] at hr <;> first | rfl | cases hr
  have hquiet := away_quiet hs ho haway
  have halive := (reach_sound hs ho).alive
  have hlock : ∀ i, s.g.endMt = some i ↔ hand (s.workers i) = .late := (reach_pool hs ho).1.lock
  have idle : ∀ th, s.g.endMt ≠ some th → s.workers th = .idle := fun th hne => by
    have hh : hand (s.workers th) = .free ∨ hand (s.workers th) = .late := hquiet.hands th
    replace hh := hh.resolve_right fun e => hne ((hlock th).mpr e)
    have hns := halive th
    generalize s.workers th = pc at hh hns
    cases pc with
    | idle => rfl
    | stuck pc => exact absurd rfl (hns pc)
    | _ => cases hh
  cases hl : s.g.endMt with
  | none =>
    refine ⟨s, hs, rfl, ?_, fun th => idle th (by rw [hl]; nofun)⟩
    rw [← hl]
  | some i =>
    have hmove : CanMove (pool s) i := by
      unfold CanMove
      rw [show (pool s).hands i = hand (s.workers i) from rfl, (hlock i).mp hl]
      trivial
    obtain ⟨t, hst⟩ := worker_enabled (E := E) ho (halive i) hmove
    obtain rfl := away_step hs hr hst
    refine ⟨_, hs.step ⟨_, hst⟩, rfl, rfl, ?_⟩
    intro th
    by_cases hth : th = i
    · simp only [hth, Function.update_self]
    · simp only [Function.update_of_ne hth]
      exact idle th fun e => hth (Option.some.inj (e.symm.trans hl))

theorem main_next (rand : Nat) {pc : MainPc} {g : Globals} {w : World Vars} {x : Code (MainPc × Globals)}
    (ho : s.main.over = false) (hx : mainTurn E rand s.g s.main = some x) (hrun : x s.w = .ok (pc, g) w) :
    step E (.main rand) s = some ⟨pc, s.workers, g, w⟩ := by
  simp only [step, ho, Bool.false_eq_true, if_false, hx, Option.map_some, hrun, afterMain]

theorem worker_next {pc pc' : WorkerPc} {g : Globals} {w : World Vars} {x : Code (WorkerPc × Globals)}
    (ho : s.main.over = false) (hpc : s.workers th = pc) (hx : workerTurn E th s.g pc = some x) (hrun : x s.w = .ok (pc', g) w) :
    step E (.worker th) s = some ⟨s.main, Function.update s.workers th pc', g, w⟩ := by
  simp only [step, ho, Bool.false_eq_true, if_false, hpc, hx, Option.map_some, hrun, afterWorker]

/-- On the way through `n` pushes of a round. -/
def FillAt (r : Int) (n : Nat) (g : Globals) : MainPc → Prop
  | .round q => q = r ∧ g.qSem = 0
  | .settingRs q => q = r ∧ g.qSem = 0 ∧ g.failN = 0
  | .settingExisting q => q = r ∧ g.qSem = 0 ∧ g.failN = 0 ∧ g.rs = r
  | .pushing q b => q = r ∧ g.qSem = b ∧ g.failN = 0 ∧ g.rs = r ∧ b < n
  | .posting q b => q = r ∧ g.qSem = b ∧ g.failN = 0 ∧ g.rs = r ∧ b < n
  | _ => False

/-- No worker has left its place, and the table is as it was. -/
def Idle (s t : St) : Prop := (∀ th, t.workers th = .idle) ∧ t.g.endMt = none ∧ t.g.inputSize = s.g.inputSize ∧
  t.g.failMax = s.g.failMax ∧ t.g.failLen = s.g.failLen

/-- All ranges of a round can be pushed before a worker takes one. -/
theorem push_all (hs : (system E inputPath fs).Reach s) (hm : s.main = .round r) (hr : 0 < r) (hlt : r < s.g.inputSize)
    (hidle : ∀ th, s.workers th = .idle) (hlock : s.g.endMt = none) :
    ∃ t, (system E inputPath fs).Reach t ∧ Idle s t ∧ t.main = .pushing r (jobs s.g r) ∧ t.g.qSem = jobs s.g r ∧ t.g.failN = 0 ∧
      t.g.rs = r := by
  have hpermits : s.g.qSem = 0 := (away_quiet hs (by rw [hm]; rfl) (by rw [hm]; rfl)).permits
  have hjobs : ((jobs s.g r : Nat) : Int) = s.g.inputSize - r + 1 := by
    unfold jobs
    omega
  refine range_leads (P := fun t => Idle s t ∧ FillAt r (jobs s.g r) t.g t.main) ?_ hs
    ⟨⟨hidle, hlock, rfl, rfl, rfl⟩, by rw [hm]; exact ⟨rfl, hpermits⟩⟩
  rintro t ht ⟨hi, hat⟩
  have hsize := hi.2.2.1
  have next : ∀ {pc g w x}, t.main.over = false → mainTurn E 0 t.g t.main = some x → x t.w = .ok (pc, g) w → _ :=
    fun ho hx hrun => main_next (s := t) 0 ho hx hrun
  generalize t.main = pc at hat next
  cases pc with
  | round q =>
    obtain ⟨rfl, hq⟩ := hat
    refine ⟨.main 0, _, next rfl rfl (by rw [if_pos hr]; rfl), Or.inl ?_⟩
    exact ⟨hi, rfl, hq, rfl⟩
  | settingRs q =>
    obtain ⟨rfl, hq, hn⟩ := hat
    refine ⟨.main 0, _, next rfl rfl rfl, Or.inl ?_⟩
    exact ⟨hi, rfl, hq, hn, rfl⟩
  | settingExisting q =>
    obtain ⟨rfl, hq, hn, hrs⟩ := hat
    refine ⟨.main 0, _, next rfl rfl (by rw [settingExistingTurn, if_neg (by omega)]; rfl), Or.inl ?_⟩
    exact ⟨hi, rfl, hq, hn, hrs, by omega⟩
  | pushing q b =>
    obtain ⟨rfl, hq, hn, hrs, hb⟩ := hat
    refine ⟨.main 0, _, next rfl rfl (by rw [if_pos (by omega)]; rfl), Or.inl ?_⟩
    exact ⟨hi, rfl, hq, hn, hrs, hb⟩
  | posting q b =>
    obtain ⟨rfl, hq, hn, hrs, hb⟩ := hat
    have hpost : t.g.qSem + 1 = b + 1 := by omega
    refine ⟨.main 0, _, next rfl rfl rfl, ?_⟩
    by_cases hlast : b + 1 = jobs s.g q
    · exact Or.inr ⟨hi, congrArg _ hlast, hpost.trans hlast, hn, hrs⟩
    · exact Or.inl ⟨hi, rfl, hpost, hn, hrs, by omega⟩
  | _ => cases hat

/-! ## The first call -/

/-- On the way to the round of range length `q` in the first call, no cut having failed. -/
def FirstAt (E : Env) (X : Bytes) (q : Int) (s : St) : MainPc → Prop
  | .entry => s.w.fs (E.key s.w.own.held) = some X
  | .enter size r => size = X.length ∧ q ≤ r
  | .copying _ r => s.g.inputSize = X.length ∧ q ≤ r
  | .round r => s.g.inputSize = X.length ∧ q < r
  | .settingRs r => s.g.inputSize = X.length ∧ q < r
  | .settingExisting r => s.g.inputSize = X.length ∧ q < r
  | .pushing r _ => s.g.inputSize = X.length ∧ q < r
  | .posting r _ => s.g.inputSize = X.length ∧ q < r
  | .waiting r => s.g.inputSize = X.length ∧ q < r
  | .selecting r => s.g.inputSize = X.length ∧ q < r
  | _ => False

/-- The table is as it was allocated first. -/
def Untouched (g : Globals) : Prop := g.failMax = 16 ∧ g.failLen = 16

/-- In a round whose cuts all pass no index is given. -/
theorem passing_round {D : Bytes → Bool} (hD : Judges E D) (hs : (system E inputPath fs).Reach s) (hr : s.main.inRound = some r)
    (hpass : ∀ c : Bytes, c.length = s.g.inputSize.toNat - s.g.rs.toNat → D c = false) :
    (∀ th, reserved (s.workers th) = none) ∧ s.g.failN = 0 := by
  obtain ⟨⟨-, hw⟩, -⟩ := reach_round hs hr
  have passes : ∀ b, b + s.g.rs.toNat ≤ s.g.inputSize.toNat →
      ¬ Condemned E (cutOf s.g.inputSize.toNat s.g.rs.toNat b s.g.log.input) := fun b hb hc => by
    have := hpass _ (length_cutOf hw.le hb)
    rw [hc D hD] at this
    cases this
  have hnone : ∀ th, reserved (s.workers th) = none := fun th => by
    have hst := hw.stage th
    cases hpc : s.workers th <;> rw [hpc] at hst <;> first | rfl | exact absurd hst.2 (passes _ hst.1.1)
  refine ⟨hnone, Nat.eq_zero_of_not_pos ?_⟩
  intro hn
  rcases hw.stored 0 hn with ⟨th, hth⟩ | ⟨th, k, b, -, -, hb, -, hc⟩
  · rw [hnone th] at hth
    cases hth
  · exact passes b hb hc

theorem FirstAt.congr {X : Bytes} {q : Int} {s t : St} {pc : MainPc} (hsize : t.g.inputSize = s.g.inputSize)
    (hfile : pc.inRound = none → t.w = s.w) (h : FirstAt E X q s pc) : FirstAt E X q t pc := by
  cases pc with
  | entry => simp only [FirstAt, hfile rfl]; exact h
  | _ => simp only [FirstAt, hsize]; exact h

/-- The range length of the round on that way. -/
theorem FirstAt.inRound {X : Bytes} {q : Int} {pc : MainPc} (h : FirstAt E X q s pc) (hr : pc.inRound = some r) :
    s.g.inputSize = X.length ∧ q < r := by
  cases pc <;> first | (cases hr; done) | (cases hr; exact h)

section

variable {D : Bytes → Bool} (hD : Judges E D) {X : Bytes} {q : Int}
  (hpass : ∀ c : Bytes, (c.length : Int) < X.length - q → D c = false)
include hD hpass

theorem first_passing (hs : (system E inputPath fs).Reach s) (h : FirstAt E X q s s.main) (hr : s.main.inRound = some r) :
    (∀ th, reserved (s.workers th) = none) ∧ s.g.failN = 0 := by
  refine passing_round hD hs hr fun c hc => hpass c ?_
  obtain ⟨-, ⟨hrs, h0, hlt⟩, -⟩ := reach_round hs hr
  obtain ⟨hsize, hqr⟩ := h.inRound hr
  omega

/-- A worker's step on that way stays on it. -/
theorem first_worker {t : St} (hs : (system E inputPath fs).Reach s) (hun : Untouched s.g) (h : FirstAt E X q s s.main)
    (hst : step E (.worker th) s = some t) : Untouched t.g ∧ FirstAt E X q t t.main := by
  cases hr : s.main.inRound with
  | none =>
    obtain rfl := away_step hs hr hst
    exact ⟨hun, h.congr rfl fun _ => rfl⟩
  | some r =>
    obtain ⟨hnone, -⟩ := first_passing hD hpass hs h hr
    obtain ⟨pc, g, w, rfl, hm, -⟩ := round_step hs hr hst
    refine ⟨?_, h.congr (worker_sizes hm).1 fun e => by rw [hr] at e; cases e⟩
    have hth := hnone th
    generalize s.workers th = pc0 at hm hth
    cases hm with
    | double d j => cases hth
    | reallocate d j => cases hth
    | _ => exact hun

/-- The main thread's step stays on it or gets there. -/
theorem first_main {rand : Nat} (hX : X.length < 2 ^ 31) (hq : 0 < q) (hqX : q < X.length) {t : St}
    (hs : (system E inputPath fs).Reach s) (hun : Untouched s.g) (h : FirstAt E X q s s.main) (hst : step E (.main rand) s = some t) (ho : t.main.over = false) :
    Untouched t.g ∧ (FirstAt E X q t t.main ∨ t.main = .round q ∧ t.g.inputSize = X.length) := by
  obtain ⟨-, hm⟩ := step_cases hst
  replace hm := hm.resolve_left (by rw [ho]; decide)
  have hzero := fun r => @first_passing E inputPath fs s r D hD X q hpass hs h
  cases hm with
  | main _ w hm =>
    refine ⟨⟨(main_table hm).1.trans hun.1, (main_table hm).2.1.trans hun.2⟩, ?_⟩
    generalize s.main = pc at hm h hzero
    cases hm with
    | begin =>
      have hfile : s.w.fs (E.key s.w.own.held) = some X := h
      rw [hfile, Option.getD_some, toInt_of_lt (by omega) (by omega), toInt_of_lt (by omega) (by omega)]
      exact Or.inl ⟨rfl, by omega⟩
    | enter size r => exact Or.inl h
    | copy i r =>
      obtain ⟨hsize, hle⟩ := h
      by_cases hlast : i + 1 < threadN
      · rw [if_pos hlast]
        exact Or.inl ⟨hsize, hle⟩
      · rw [if_neg hlast]
        rcases hle.lt_or_eq with hlt | rfl
        · exact Or.inl ⟨hsize, hlt⟩
        · exact Or.inr ⟨rfl, hsize⟩
    | round r hpos => exact Or.inl h
    | finish r hle =>
      have := h.2
      omega
    | setRs r => exact Or.inl h
    | setExisting r hle => exact Or.inl h
    | push r b hle => exact Or.inl h
    | pushed r b hlt => exact Or.inl h
    | post r b => exact Or.inl h
    | wait r hsig => exact Or.inl h
    | select r hn =>
      have := (hzero r rfl).2
      omega
    | next r hn =>
      obtain ⟨hsize, hlt⟩ := h
      by_cases hlast : r - 1 = q
      · exact Or.inr ⟨congrArg _ hlast, hsize⟩
      · exact Or.inl ⟨hsize, by omega⟩
    | _ => exact h.elim

/-- Where only what is cut to length `X.length - q` or more fails, some run gets to the round of
    range length `q` with the table untouched. -/
theorem reach_first (hX : X.length < 2 ^ 31) (hq : 0 < q) (hqX : q < X.length) (hfs : fs (E.key inputPath) = some X)
    (hfree : ∀ th : Worker, fs (E.key (originFile th)) = none) :
    ∃ t, (system E inputPath fs).Reach t ∧ Untouched t.g ∧ t.main = .round q ∧ t.g.inputSize = X.length := by
  have hint : toInt X.length ≠ -2 ^ 31 := by
    rw [toInt_of_lt (by omega) (by omega)]
    omega
  refine range_leads (P := fun s => Untouched s.g ∧ FirstAt E X q s s.main) ?_ (.init rfl) ⟨⟨rfl, rfl⟩, hfs⟩
  rintro s hs ⟨hun, h⟩
  have hmove : ∃ m t, step E m s = some t := by
    by_contra hno
    rcases final_cases hfs hfree hs fun m => Option.eq_none_iff_forall_ne_some.mpr fun t ht => hno ⟨m, t, ht⟩ with ⟨p, hp⟩ | ⟨-, e⟩
    · rw [hp] at h
      exact h
    · exact hint e
  obtain ⟨m, t, hst⟩ := hmove
  have ho : t.main.over = false := by
    have hfit := reach_fit hfs hfree (hs.step ⟨m, hst⟩)
    cases hm : t.main <;> rw [hm] at hfit <;> first | rfl | exact hfit.elim | exact absurd hfit hint
  refine ⟨m, t, hst, ?_⟩
  cases m with
  | worker th => exact Or.inl (first_worker th hD hpass hs hun h hst)
  | main rand =>
    obtain ⟨hun', h'⟩ := first_main hD hpass hX hq hqX hs hun h hst ho
    exact h'.imp (fun h' => ⟨hun', h'⟩) fun h' => ⟨hun', h'⟩

end

/-- A worker whose test finds no room, up to the reallocation. -/
theorem solo_double (hs : (system E inputPath fs).Reach s) (ho : s.main.over = false) {d : Node} {j : Nat}
    (hpc : s.workers th = .checking d j) (hfull : s.g.failMax - threadN ≤ s.g.failN) :
    ∃ t, (system E inputPath fs).Reach t ∧ t.main = s.main ∧ t.g = { s.g with failMax := s.g.failMax * 2 } ∧
      ∀ th', th' ≠ th → t.workers th' = s.workers th' := by
  have hcheck := worker_next (E := E) th ho hpc rfl (by rw [if_pos hfull]; rfl)
  have hdouble := worker_next (E := E) th (s := ⟨s.main, Function.update s.workers th (.doubling d j), s.g, s.w⟩) ho
    (Function.update_self _ _ _) rfl rfl
  refine ⟨_, (hs.step ⟨_, hcheck⟩).step ⟨_, hdouble⟩, rfl, rfl, ?_⟩
  intro th' hne
  simp only [Function.update_of_ne hne]

/-- A worker whose test finds room, before it stores. -/
theorem solo_store (hs : (system E inputPath fs).Reach s) (ho : s.main.over = false) {d : Node} {j : Nat}
    (hpc : s.workers th = .checking d j) (hroom : s.g.failN < s.g.failMax - threadN) :
    ∃ t u, (system E inputPath fs).Reach t ∧ t.workers th = .storing d j ∧ t.g = s.g ∧ step E (.worker th) t = some u := by
  have hcheck := worker_next (E := E) th ho hpc rfl (by rw [if_neg (Nat.not_le.mpr hroom)]; rfl)
  exact ⟨_, _, hs.step ⟨_, hcheck⟩, Function.update_self _ _ _, rfl, worker_next th ho (Function.update_self _ _ _) rfl rfl⟩

/-- Where every byte can be cut from 17 or more, and no longer range, one worker can pause
    between `fail_max *= 2` and the reallocation while another stores past the table. -/
theorem stores_outside {D : Bytes → Bool} (hD : Judges E D) {X : Bytes} (hX : X.length < 2 ^ 31) (hlong : 17 ≤ X.length)
    (hfs : fs (E.key inputPath) = some X) (hfree : ∀ th : Worker, fs (E.key (originFile th)) = none)
    (hpass : ∀ c : Bytes, c.length + 1 < X.length → D c = false) (hfail : ∀ c : Bytes, c.length + 1 = X.length → D c = true) :
    ∃ s th d j t, (system E inputPath fs).Reach s ∧ s.workers th = .storing d j ∧ step E (.worker th) s = some t ∧ s.g.failLen ≤ j := by
  -- the round of single bytes, all of them pushed
  obtain ⟨s0, h0, hun0, hm0, hsize0⟩ := reach_first hD (q := 1) (fun c hc => hpass c (by omega)) hX (by omega) (by omega) hfs hfree
  obtain ⟨s1, h1, hm1, hg1, hidle1⟩ := away_idle h0 (by rw [hm0]; rfl) (by rw [hm0]; rfl)
  obtain ⟨s, hs, ⟨hidle, hlock, hsize, hmax, hlen⟩, hm, hq, hn, hrs⟩ := push_all h1 (hm1.trans hm0) (by omega)
    (by rw [hg1]; simp only; omega) hidle1 (by rw [hg1])
  rw [hg1] at hsize hmax hlen
  have hround : s.main.inRound = some 1 := by rw [hm]; rfl
  have hq : 17 ≤ s.g.qSem := by
    rw [hq, hg1]
    simp only [jobs]
    omega
  have hcut : ∀ c : Bytes, c.length = s.g.inputSize.toNat - s.g.rs.toNat → D c = true := fun c hc => hfail c (by
    have e : s.g.inputSize = X.length := hsize.trans hsize0
    omega)
  have hmax : s.g.failMax = 16 := hmax.trans hun0.1
  have hlen : s.g.failLen = 16 := hlen.trans hun0.2
  -- worker 0 does 11 jobs, and pauses before the reallocation in its 12th
  obtain ⟨a, ha, hsa, hla, hqa, hna, hia⟩ := solo_jobs 0 (k := 11) hD hs hround hcut hlock (hidle 0) (by omega)
    (by rw [hn, hmax]; decide)
  have hra : a.main.inRound = some 1 := by rw [hsa.main]; exact hround
  obtain ⟨b, hb, hsb, hlb, hqb, hnb, d, hdb⟩ := solo_take 0 hD ha hra (by rw [hsa.size, hsa.rs]; exact hcut) hla hia (by omega)
  have hob : b.main.over = false := by rw [hsb.main, hsa.main, hm]; rfl
  have hmaxb : b.g.failMax = 16 := by rw [hsb.max, hsa.max, hmax]
  obtain ⟨e, he, hme, hge, hothers⟩ := solo_double 0 hb hob hdb (by rw [hmaxb]; simp only [threadN]; omega)
  -- worker 1 goes by the raised `fail_max`
  have hre : e.main.inRound = some 1 := by rw [hme, hsb.main]; exact hra
  have hidle1 : e.workers 1 = .idle := by
    rw [hothers 1 (by decide), hsb.others 1 (by decide), hsa.others 1 (by decide)]
    exact hidle 1
  have hcute : ∀ c : Bytes, c.length = e.g.inputSize.toNat - e.g.rs.toNat → D c = true := by
    rw [hge]
    simp only [hsb.size, hsb.rs, hsa.size, hsa.rs]
    exact hcut
  obtain ⟨u, hu, hsu, hlu, hqu, hnu, hiu⟩ := solo_jobs 1 (k := 4) hD he hre hcute (by rw [hge]; exact hlb) hidle1
    (by rw [hge]; simp only; omega) (by rw [hge]; simp only [threadN, hmaxb]; omega)
  simp only [hge] at hqu hnu
  obtain ⟨v, hv, hsv, -, -, hnv, d', hdv⟩ := solo_take 1 hD hu (by rw [hsu.main]; exact hre)
    (by rw [hsu.size, hsu.rs]; exact hcute) hlu hiu (by omega)
  have hmaxv : v.g.failMax = 16 * 2 := by
    rw [hsv.max, hsu.max, hge]
    simp only [hmaxb]
  have hlenv : v.g.failLen = 16 := by
    rw [hsv.len, hsu.len, hge]
    exact (hsb.len.trans hsa.len).trans hlen
  obtain ⟨w, w', hw, hdw, hgw, hstep⟩ := solo_store 1 hv (by rw [hsv.main, hsu.main, hme]; exact hob) hdv
    (by rw [hmaxv]; simp only [threadN]; omega)
  refine ⟨w, 1, d', _, w', hw, hdw, hstep, ?_⟩
  rw [hgw, hlenv]
  omega

end

/-- Seventeen bytes of which any one can go, and no two next to each other. -/
theorem a_raised_fail_max_is_not_yet_allocated :
    ∃ s th d j t, (system (judging fun c => decide (c.length = 16)) "in".toList (soleInput "in".toList (List.replicate 17 0))).Reach s ∧
      s.workers th = .storing d j ∧ step (judging fun c => decide (c.length = 16)) (.worker th) s = some t ∧ ¬ j < s.g.failLen := by
  have hlen : (List.replicate 17 (0 : UInt8)).length = 17 := List.length_replicate
  obtain ⟨s, th, d, j, t, hs, hpc, hst, hle⟩ := stores_outside (judging_judges _) (by rw [hlen]; decide) (by rw [hlen])
    (sole_in (fun c => decide (c.length = 16)) (List.replicate 17 0)) (fun th => sole_origin _ _ th)
    (fun c hc => decide_eq_false (by omega)) (fun c hc => decide_eq_true (by omega))
  exact ⟨s, th, d, j, t, hs, hpc, hst, Nat.not_lt.mpr hle⟩

end DiyDdmin.Range
