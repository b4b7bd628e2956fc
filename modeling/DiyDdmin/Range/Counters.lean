/-
  DiyDdmin.Range.Counters — how far the counters of `range` go.

  `fail_stack` and `fail_max` are never reset, and `fail_max` is raised outside any lock: up
  to `THREAD_N` workers can find the same table full and double it one after the other. A
  worker on its way to the doubling counts as `doubling`; the doublings to come are paid for
  when the table is found full.

  Proved, for every interleaving: with `n` for the input's size, `existing`, `fail_n` and the
  length of the queue stay within `n`, `total_fail_n` below it, `fail_max` within
  `16 * (n + THREAD_N)`, and all of `fail_stack` together within the number of tests
  (`Bounded`). So up to 23170 bytes no counter leaves the range of `int`, and every name that
  is made of one fits its buffer of 32 bytes (`range_counters_fit`).
-/

import DiyDdmin.Range.Cost
import DiyDdmin.Range.Remains
import DiyDdmin.Range.Capacity
import Mathlib.Data.Nat.Digits.Defs

namespace DiyDdmin.Range

open Posix Tester Numeric Systems Reduction WorkPool

section

variable {E : Env} {inputPath : Path} {fs : Fs} {s t : St} {X : Bytes} {r : Int}

/-! ## The size of the input -/

/-- With `k` candidates accepted, `k` bytes at least are gone. -/
def SpentAt (X : Bytes) (E : Env) (s : St) : MainPc → Prop
  | .entry => (s.w.fs (E.key s.w.own.held)).getD [] = X ∧ s.g.totalFailN = 0
  | .enter size _ => size + s.g.totalFailN ≤ toInt X.length ∧ (s.g.totalFailN = 0 ∨ 0 < size)
  | .removing _ _ => s.g.inputSize - s.g.rs + s.g.totalFailN ≤ toInt X.length ∧ 0 < s.g.inputSize - s.g.rs
  | .recursing _ => s.g.inputSize - s.g.rs + s.g.totalFailN ≤ toInt X.length ∧ 0 < s.g.inputSize - s.g.rs
  | _ => s.g.inputSize + s.g.totalFailN ≤ toInt X.length ∧ (s.g.totalFailN = 0 ∨ 0 < s.g.inputSize)

theorem spent_main {rand : Nat} {pc : MainPc} {g : Globals} {w : World Vars} (hs : SizedAt s.g s.main)
    (h : SpentAt X E s s.main)
    (hm : MainMove rand s.w.own.held ((s.w.fs (E.key s.w.own.held)).getD []) s.g s.main pc g) :
    SpentAt X E ⟨pc, s.workers, g, w⟩ pc := by
  generalize s.main = pc0 at hs h hm
  cases hm with
  | begin =>
    obtain ⟨hX, h0⟩ := h
    rw [hX]
    exact ⟨by simp only [h0]; omega, Or.inl h0⟩
  | copy i r => split_ifs <;> exact h
  | remove i p => split_ifs <;> exact h
  | clear i => split_ifs <;> exact h
  | rename k =>
    obtain ⟨h1, h2⟩ := hs
    obtain ⟨hle, -⟩ := h
    simp only [SpentAt]
    omega
  | recurse p => exact ⟨h.1, Or.inr h.2⟩
  | _ => exact h

/-- Run lemma. -/
theorem reach_spent (hX : fs (E.key inputPath) = some X) (hs : (system E inputPath fs).Reach s) (ho : s.main.over = false) :
    SpentAt X E s s.main := by
  refine System.Reach.invariant (T := system E inputPath fs) (P := fun s => s.main.over = false → SpentAt X E s s.main) ?_ ?_ hs ho
  · intro s h _
    subst h
    exact ⟨by simp only [start, hX, Option.getD_some], rfl⟩
  · rintro s t hr hi ⟨m, hst⟩ ho
    obtain ⟨hlive, hover | hm⟩ := step_cases hst
    · rw [hover] at ho
      cases ho
    have h := hi hlive
    cases m with
    | main rand =>
      cases hm with
      | main _ w hm => exact spent_main (reach_pool hr hlive).2 h hm
    | worker th =>
      cases hround : s.main.inRound with
      | none =>
        obtain rfl := away_step hr hround hst
        cases hmain : s.main <;> rw [hmain] at h <;> exact h
      | some r =>
        obtain ⟨pc, g, w, rfl, hmove, -⟩ := round_step hr hround hst
        have htotal : g.totalFailN = s.g.totalFailN := by
          generalize s.workers th = pc0 at hmove
          cases hmove <;> rfl
        cases hmain : s.main <;> rw [hmain] at h hround <;> cases hround <;>
          exact ⟨by simp only [htotal, (worker_sizes hmove).1]; exact h.1, by simp only [htotal, (worker_sizes hmove).1]; exact h.2⟩

/-- A round has no more places than the input had bytes. -/
theorem round_places (hX : fs (E.key inputPath) = some X) (hs : (system E inputPath fs).Reach s) (hr : s.main.inRound = some r) :
    s.g.inputSize - r + 1 ≤ toInt X.length ∧ 0 < r ∧ r < s.g.inputSize := by
  obtain ⟨-, ⟨-, h0, hlt⟩, -⟩ := reach_round hs hr
  have h := reach_spent hX hs (round_live hr).1
  have hle : s.g.inputSize + s.g.totalFailN ≤ toInt X.length := by
    cases hm : s.main <;> rw [hm] at h hr <;> cases hr <;> exact h.1
  exact ⟨by omega, h0, hlt⟩

theorem total_lt (hX : fs (E.key inputPath) = some X) (hs : (system E inputPath fs).Reach s) (ho : s.main.over = false) :
    s.g.totalFailN ≤ (toInt X.length).toNat - 1 := by
  have h := reach_spent hX hs ho
  cases hm : s.main with
  | entry => rw [hm] at h; simp only [h.2]; exact Nat.zero_le _
  | _ =>
    rw [hm] at h
    simp only [SpentAt] at h
    omega

/-! ## Within a round -/

/-- Indices are given to failing tests only. -/
theorem failN_le (hs : (system E inputPath fs).Reach s) (hr : s.main.inRound = some r) :
    s.g.failN ≤ s.g.inputSize.toNat - r.toNat + 1 := by
  obtain ⟨ps, hps⟩ := reach_listed hs (by rw [hr]; simp)
  have hsub : ps.Subperm (failures s.g) := List.subperm_ext_iff.mpr fun ⟨th, b⟩ _ => by
    rw [hps.counted th b]
    exact Nat.le_add_right _ _
  have hle := hsub.length_le
  rw [hps.length, failures, List.length_map] at hle
  exact hle.trans ((List.length_filter_le _ _).trans (round_tried_le hs hr))

/-- No more is queued, and no more permits are out, than the round has jobs. -/
theorem queued_le (hs : (system E inputPath fs).Reach s) (ho : s.main.over = false) :
    s.g.qSem ≤ s.g.queue.length ∧ s.g.queue.length ≤ (boss s.g s.main).total ∧ s.g.terminatedSem ≤ 1 := by
  have running : ∀ {n k m}, Running (pool s) n k m → k ≤ n →
      s.g.qSem ≤ s.g.queue.length ∧ s.g.queue.length ≤ n ∧ s.g.terminatedSem ≤ 1 := by
    intro n k m h hk
    have h1 := h.permits
    have h2 := h.length
    have h3 : (pool s).signals ≤ 1 := by
      rw [h.signals, h.signalled]
      split <;> decide
    simp only [pool, List.length_map] at h1 h2
    exact ⟨by omega, by omega, h3⟩
  have quiet : ∀ {n : Nat}, Quiet (pool s) → s.g.qSem ≤ s.g.queue.length ∧ s.g.queue.length ≤ n ∧ s.g.terminatedSem ≤ 1 := by
    intro n h
    have h1 : s.g.queue = [] := List.map_eq_nil_iff.mp h.queue
    have h2 : s.g.qSem = 0 := h.permits
    have h3 : s.g.terminatedSem = 0 := h.signals
    rw [h1, h2, h3]
    exact ⟨Nat.le_refl _, Nat.zero_le _, Nat.zero_le _⟩
  have hround := (reach_pool hs ho).1.round
  unfold InRound at hround
  rw [show (pool s).boss = boss s.g s.main from rfl] at hround
  cases hb : boss s.g s.main <;> rw [hb] at hround
  · exact quiet hround
  · exact running hround.2.2 hround.2.1
  · exact running hround.2 hround.1
  · exact running hround.2 (Nat.le_refl _)
  · exact quiet hround.1

/-- Nothing is counted off twice. -/
theorem existing_nonneg (hs : (system E inputPath fs).Reach s) (hr : s.main.inRound = some r) : 0 ≤ s.g.existing := by
  have hround := (reach_pool hs (round_live hr).1).1.round
  unfold InRound at hround
  rw [show (pool s).boss = boss s.g s.main from rfl] at hround
  have running : ∀ {n k m}, Running (pool s) n k m → k ≤ n → 0 ≤ s.g.existing := fun h hk =>
    (Int.natCast_nonneg _).trans (h.busy_le hk)
  cases hb : boss s.g s.main <;> rw [hb] at hround
  · exact absurd hb (round_live hr).2
  · exact running hround.2.2 hround.2.1
  · exact running hround.2 hround.1
  · exact running hround.2 (Nat.le_refl _)
  · exact hround.2.pending.ge

/-! ## `existing` and `fail_n` -/

structure Counted (n : Nat) (g : Globals) : Prop where
  nonneg : 0 ≤ g.existing
  existing : g.existing ≤ n
  failN : g.failN ≤ n

theorem counted_worker (hX : fs (E.key inputPath) = some X) (hs : (system E inputPath fs).Reach s)
    (h : Counted (toInt X.length).toNat s.g) {th : Worker} (hst : step E (.worker th) s = some t) :
    Counted (toInt X.length).toNat t.g := by
  cases hr : s.main.inRound with
  | none =>
    obtain rfl := away_step hs hr hst
    exact ⟨h.nonneg, h.existing, h.failN⟩
  | some r =>
    have ht := hs.step ⟨_, hst⟩
    obtain ⟨hmain, -, -⟩ := worker_counted hs hr hst
    have hr' : t.main.inRound = some r := hmain ▸ hr
    obtain ⟨hplaces, h0, hlt⟩ := round_places hX ht hr'
    refine ⟨existing_nonneg ht hr', ?_, (failN_le ht hr').trans (by omega)⟩
    obtain ⟨pc, g, w, rfl, hm, -⟩ := round_step hs hr hst
    refine le_trans ?_ h.existing
    generalize s.workers th = pc0 at hm
    cases hm with
    | close d hl => exact Int.sub_le_self _ (by decide)
    | _ => exact Int.le_refl _

theorem counted_main (hX : fs (E.key inputPath) = some X) (hs : (system E inputPath fs).Reach s)
    (h : Counted (toInt X.length).toNat s.g) {rand : Nat} {pc : MainPc} {g : Globals}
    (hm : MainMove rand s.w.own.held ((s.w.fs (E.key s.w.own.held)).getD []) s.g s.main pc g) (hlive : s.main.over = false) :
    Counted (toInt X.length).toNat g := by
  have hsized := (reach_pool hs hlive).2
  have hspent := reach_spent hX hs hlive
  unfold Sized at hsized
  generalize s.main = pc0 at hm hsized hspent
  cases hm with
  | round r hr => exact ⟨h.nonneg, h.existing, Nat.zero_le _⟩
  | setExisting r hle =>
    obtain ⟨h0, hbelow, -⟩ := hsized
    have hlt : r < s.g.inputSize := (hbelow h0).resolve_left (by omega)
    have hsize := hspent.1
    exact ⟨by simp only; omega, by simp only; omega, h.failN⟩
  | _ => exact ⟨h.nonneg, h.existing, h.failN⟩

/-- Run lemma. -/
theorem reach_counted (hX : fs (E.key inputPath) = some X) (hs : (system E inputPath fs).Reach s) (ho : s.main.over = false) :
    Counted (toInt X.length).toNat s.g := by
  refine System.Reach.invariant (T := system E inputPath fs)
    (P := fun s => s.main.over = false → Counted (toInt X.length).toNat s.g) ?_ ?_ hs ho
  · intro s h _
    subst h
    exact ⟨Int.le_refl _, Int.natCast_nonneg _, Nat.zero_le _⟩
  · rintro s t hr hi ⟨m, hst⟩ ho
    obtain ⟨hlive, hover | hm⟩ := step_cases hst
    · rw [hover] at ho
      cases ho
    cases m with
    | main rand =>
      cases hm with
      | main _ w hm => exact counted_main hX hr (hi hlive) hm hlive
    | worker th => exact counted_worker hX hr (hi hlive) hst

/-! ## `fail_max` -/

/-- 1 for a worker that has found the table full and is about to double it. -/
def doubling : WorkerPc → Nat
  | .doubling _ _ => 1
  | _ => 0

/-- What `fail_max` is once the doublings to come are done. -/
def raised (s : St) : Nat := s.g.failMax * 2 ^ ∑ th, doubling (s.workers th)

theorem doublings_le (ws : Worker → WorkerPc) : ∑ th, doubling (ws th) ≤ threadN := by
  have hone : ∀ pc, doubling pc ≤ 1 := fun pc => by cases pc <;> first | exact Nat.le_refl 1 | exact Nat.zero_le 1
  refine (Finset.sum_le_sum fun th _ => hone (ws th)).trans ?_
  rw [← Finset.card_eq_sum_ones, Finset.card_univ, Fintype.card_fin]

/-- Step lemma: only a worker that finds the table full adds a doubling. -/
theorem raised_worker {th : Worker} {pc : WorkerPc} {g : Globals} (w : World Vars) (hm : WorkerMove th s.g (s.workers th) pc g) :
    raised ⟨s.main, Function.update s.workers th pc, g, w⟩ = raised s ∨
      s.g.failMax ≤ s.g.failN + threadN ∧ g.failMax = s.g.failMax := by
  have hsum := sum_update doubling s.workers th pc
  unfold raised
  simp only
  generalize s.workers th = pc0 at hm hsum
  generalize ∑ i, doubling (Function.update s.workers th pc i) = k' at hsum
  generalize ∑ i, doubling (s.workers i) = k at hsum
  have same : doubling pc0 = doubling pc → g.failMax = s.g.failMax →
      g.failMax * 2 ^ k' = s.g.failMax * 2 ^ k := fun h hmax => by
    rw [hmax, show k' = k by omega]
  cases hm with
  | check d j =>
    by_cases hfull : s.g.failMax - threadN ≤ s.g.failN
    · exact Or.inr ⟨by omega, rfl⟩
    · rw [if_neg hfull] at same
      exact Or.inl (same rfl rfl)
  | double d j =>
    left
    simp only [doubling] at hsum
    obtain rfl : k = k' + 1 := hsum.symm
    simp only [Nat.pow_succ]
    ring
  | test d bytes v => cases v <;> exact Or.inl (same rfl rfl)
  | _ => exact Or.inl (same rfl rfl)

/-- Run lemma. -/
theorem reach_raised (hX : fs (E.key inputPath) = some X) (hs : (system E inputPath fs).Reach s) (ho : s.main.over = false) :
    raised s ≤ ((toInt X.length).toNat + threadN) * 2 ^ threadN := by
  refine System.Reach.invariant (T := system E inputPath fs)
    (P := fun s => s.main.over = false → raised s ≤ ((toInt X.length).toNat + threadN) * 2 ^ threadN) ?_ ?_ hs ho
  · intro s h _
    subst h
    have hzero : ∑ th : Worker, doubling ((start inputPath fs).workers th) = 0 := Finset.sum_eq_zero fun _ _ => rfl
    rw [raised, hzero]
    change 16 * 2 ^ 0 ≤ (_ + 4) * 2 ^ 4
    omega
  · rintro s t hr hi ⟨m, hst⟩ ho
    obtain ⟨hlive, hover | hm⟩ := step_cases hst
    · rw [hover] at ho
      cases ho
    have h := hi hlive
    cases hm with
    | main rand w hm =>
      rw [raised, (main_table hm).1]
      exact h
    | stuck th w hns =>
      have halive := (reach_sound (hr.step ⟨_, hst⟩) ho).alive th (s.workers th)
      simp only [Function.update_self, ne_eq, not_true_eq_false] at halive
    | worker th w hm =>
      rcases raised_worker w hm with hsame | ⟨hfull, hmax⟩
      · rw [hsame]
        exact h
      · have hn := (reach_counted hX hr hlive).failN
        rw [raised, hmax]
        exact Nat.mul_le_mul (hfull.trans (by omega)) (Nat.pow_le_pow_right (by decide) (doublings_le _))

/-! ## `fail_stack` -/

/-- 1 for a worker whose test has failed and whose next file has no name yet. -/
def owed : WorkerPc → Nat
  | .reserving _ => 1
  | .checking _ _ => 1
  | .doubling _ _ => 1
  | .reallocating _ _ => 1
  | .storing _ _ => 1
  | .naming _ => 1
  | _ => 0

/-- The names given or due. -/
def names (s : St) : Nat := ∑ th, (s.g.failStack th + owed (s.workers th))

/-- Step lemma: a name is due to a test. -/
theorem names_worker (hs : (system E inputPath fs).Reach s) {th : Worker} (hst : step E (.worker th) s = some t) :
    names t + s.w.own.tests.length ≤ names s + t.w.own.tests.length := by
  cases hr : s.main.inRound with
  | none =>
    have hq := away_quiet hs (step_cases hst).1 (by cases hm : s.main <;> rw [hm] at hr <;> first | rfl | cases hr)
    have hzero : owed (s.workers th) = 0 := by
      rcases quiet_pc (hq.hands th) ((reach_sound hs (step_cases hst).1).alive th) with h | ⟨d, h⟩ <;> rw [h] <;> rfl
    obtain rfl := away_step hs hr hst
    have hsum := sum_update owed s.workers th .idle
    simp only [names, Finset.sum_add_distrib]
    rw [hzero, show owed .idle = 0 from rfl] at hsum
    omega
  | some r =>
    have htests : (∃ d, s.workers th = .testing d) ∨ t.w.own.tests = s.w.own.tests := by
      rcases step_tests hst with h | ⟨th', d, hth, hd⟩
      · exact Or.inr h
      · cases hth
        exact Or.inl ⟨d, hd⟩
    have hcount := fun d hd => (testing_counted (d := d) hs hd hst).1
    obtain ⟨pc, g, w, rfl, hm, -⟩ := round_step hs hr hst
    have hsum := sum_update owed s.workers th pc
    simp only [names, Finset.sum_add_distrib]
    simp only at htests hcount
    generalize s.workers th = pc0 at hm hsum htests hcount
    generalize ∑ i, owed (Function.update s.workers th pc i) = k' at hsum
    generalize ∑ i, owed (s.workers i) = k at hsum
    have same : owed pc ≤ owed pc0 → g.failStack = s.g.failStack → (∀ d, pc0 ≠ .testing d) →
        ∑ i, g.failStack i + k' + s.w.own.tests.length ≤ ∑ i, s.g.failStack i + k + w.own.tests.length := by
      intro h1 h2 h3
      rw [h2, htests.resolve_left (not_exists.mpr h3)]
      omega
    cases hm with
    | test d bytes v =>
      have hone : owed (if v then .reserving d else .closing d) ≤ 1 := by
        cases v
        · exact Nat.zero_le 1
        · exact Nat.le_refl 1
      rw [hcount d rfl]
      simp only
      omega
    | name d =>
      have hstack := sum_update (fun n : Nat => n) s.g.failStack th (s.g.failStack th + 1)
      rw [htests.resolve_left (not_exists.mpr fun _ h => by cases h)]
      simp only [owed] at hsum
      simp only [Globals.rename]
      omega
    | check d j =>
      refine same ?_ rfl fun _ h => by cases h
      split <;> exact Nat.le_refl 1
    | _ => exact same (by simp only [owed]; omega) rfl fun _ h => by cases h

/-- Run lemma. -/
theorem reach_names (hs : (system E inputPath fs).Reach s) (ho : s.main.over = false) : names s ≤ s.w.own.tests.length := by
  refine System.Reach.invariant (T := system E inputPath fs)
    (P := fun s => s.main.over = false → names s ≤ s.w.own.tests.length) ?_ ?_ hs ho
  · intro s h _
    subst h
    exact (Finset.sum_eq_zero fun _ _ => rfl).le
  · rintro s t hr hi ⟨m, hst⟩ ho
    obtain ⟨hlive, hover | hm⟩ := step_cases hst
    · rw [hover] at ho
      cases ho
    have h := hi hlive
    cases m with
    | main rand =>
      rw [main_tests hst]
      cases hm with
      | main _ w hm =>
        rw [names, main_stack hm]
        exact h
    | worker th =>
      have hle := names_worker hr hst
      omega

/-! ## All of them -/

/-- How far the counters go on an input of size `n`. -/
structure Bounded (n : Nat) (g : Globals) : Prop where
  existing : 0 ≤ g.existing ∧ g.existing ≤ n
  failN : g.failN ≤ n
  failMax : g.failMax ≤ 16 * (n + threadN)
  totalFailN : g.totalFailN ≤ n - 1
  failStack : ∑ th, g.failStack th ≤ n * n - 2
  queue : g.qSem ≤ g.queue.length ∧ g.queue.length ≤ n
  terminatedSem : g.terminatedSem ≤ 1

theorem reach_bounded (hX : fs (E.key inputPath) = some X) (hs : (system E inputPath fs).Reach s) (ho : s.main.over = false) :
    Bounded (toInt X.length).toNat s.g := by
  obtain ⟨h0, hexisting, hn⟩ := reach_counted hX hs ho
  obtain ⟨hpermits, hqueue, hsignals⟩ := queued_le hs ho
  refine ⟨⟨h0, hexisting⟩, hn, ?_, total_lt hX hs ho, ?_, ⟨hpermits, ?_⟩, hsignals⟩
  · have hraised := reach_raised hX hs ho
    have hpow : 1 ≤ 2 ^ ∑ th, doubling (s.workers th) := Nat.one_le_two_pow
    have hle : s.g.failMax ≤ raised s := Nat.le_mul_of_pos_right _ hpow
    refine (hle.trans hraised).trans ?_
    rw [show (2 : Nat) ^ threadN = 16 from rfl]
    omega
  · have hsum : ∑ th, s.g.failStack th ≤ names s := Finset.sum_le_sum fun _ _ => Nat.le_add_right _ _
    exact (hsum.trans (reach_names hs ho)).trans (reach_tests hX hs)
  · cases hr : s.main.inRound with
    | none =>
      have haway : boss s.g s.main = .away := by cases hm : s.main <;> rw [hm] at hr <;> first | rfl | cases hr
      rw [haway] at hqueue
      exact hqueue.trans (Nat.zero_le _)
    | some r =>
      obtain ⟨hplaces, hr0, hlt⟩ := round_places hX hs hr
      have htotal : (boss s.g s.main).total = jobs s.g r := (reach_round hs hr).2.2
      rw [htotal, jobs] at hqueue
      omega

end

theorem numbered_length (pre suf : Name) {i e : Nat} (he : 0 < e) (hi : i < 10 ^ e) :
    (numbered pre i suf).length ≤ pre.length + e + suf.length := by
  have := Nat.toDigits_length 10 i e he hi
  simp only [numbered, decimal, List.length_append]
  omega

/-- The counters are in the range of their types, and the names made of them in that of their
    buffers. -/
structure Fits (g : Globals) : Prop where
  existing : -2 ^ 31 ≤ g.existing ∧ g.existing < 2 ^ 31
  failN : g.failN < 2 ^ 31
  failMax : g.failMax < 2 ^ 31
  totalFailN : g.totalFailN < 2 ^ 32
  fileIdx : ∀ th : Worker, th + threadN * g.failStack th < 2 ^ 31
  outFiles : ∀ th, (g.outFiles th).length < 32
  failPath : (failFile g.totalFailN).length < 32

theorem Bounded.fits {n : Nat} {g : Globals} (h : Bounded n g) (hn : n ≤ 23170) (hnamed : Named g) : Fits g := by
  have hsquare : n * n ≤ 23170 * 23170 := Nat.mul_le_mul hn hn
  have hidx : ∀ th : Worker, th + threadN * g.failStack th < 2 ^ 31 := by
    intro th
    have hle : g.failStack th ≤ ∑ th, g.failStack th :=
      Finset.single_le_sum (f := fun th => g.failStack th) (fun _ _ => Nat.zero_le _) (Finset.mem_univ th)
    have hsum := h.failStack
    have hth := th.isLt
    simp only [threadN] at hth ⊢
    omega
  obtain ⟨h1, h2⟩ := h.existing
  have h3 := h.failN
  have h4 := h.failMax
  have h5 := h.totalFailN
  simp only [threadN] at h4
  refine ⟨⟨by omega, by omega⟩, by omega, by omega, by omega, hidx, ?_, ?_⟩
  · intro th
    rw [hnamed th, outName]
    by_cases h0 : g.failStack th = 0
    · rw [if_pos h0]
      exact (numbered_length _ _ (e := 10) (by decide) (by have := hidx th; omega)).trans_lt (by decide)
    · rw [if_neg h0, threadPartFile, List.length_append]
      have := numbered_length "thread".toList ".part".toList (i := th + threadN * g.failStack th) (e := 10)
        (by decide) (by have := hidx th; omega)
      have h31 : "./".toList.length + ("thread".toList.length + 10 + ".part".toList.length) < 32 := by decide
      omega
  · exact (numbered_length _ _ (e := 10) (by decide) (by omega)).trans_lt (by decide)

section

variable {E : Env} {inputPath : Path} {fs : Fs} {s : St} {X : Bytes}

/-- At every moment of every run the counters are within these bounds; and for inputs of up
    to 23170 bytes none leaves its type, and no name its buffer. -/
theorem range_counters_fit (hX : fs (E.key inputPath) = some X) (hs : (system E inputPath fs).Reach s) (ho : s.main.over = false) :
    Bounded (toInt X.length).toNat s.g ∧ (X.length ≤ 23170 → Fits s.g) := by
  have h := reach_bounded hX hs ho
  refine ⟨h, fun hlen => h.fits ?_ (reach_sound hs ho).named⟩
  rw [toInt_of_lt (by omega) (by omega)]
  omega

end

theorem range_counters_fit_two :
    ∃ s, (system (judging fun c => c.contains 1) "in".toList (soleInput "in".toList [1, 2])).Reach s ∧ s.main = .ret (failFile 1) ∧
      Bounded 2 s.g ∧ Fits s.g := by
  obtain ⟨s, hs, hq⟩ := returned_two
  have hsize : toInt ([1, 2] : Bytes).length = 2 := toInt_of_lt (by decide) (by decide)
  obtain ⟨hbounded, hfits⟩ := range_counters_fit (sole_in _ [1, 2]) hs (by rw [hq]; rfl)
  rw [hsize] at hbounded
  exact ⟨s, hs, hq, hbounded, hfits (by decide)⟩

end DiyDdmin.Range
