/-
  DiyDdmin.Range.Cost — how many tests `range` runs.

  A round of length `r` on `n` bytes tests its `n - r + 1` cuts once each, whoever pops
  them. `due f` is what the tests of the round so far leave of `f n r`, the allowance for
  the tests from the head of that round on.

  Proved: for every interleaving, every choice of `rand` and any verdicts an input of `n`
  bytes takes at most `n * n - 2` tests, and `(n - 1) * (n + 2) / 2` when nothing fails
  (`range_tests_le`).
-/

import DiyDdmin.Range.Restart
import DiyDdmin.Reduction.Count

namespace DiyDdmin.Range

open Posix Tester Numeric Systems Reduction WorkPool

/-- What is left of the allowance `f n r` for the rounds of `n` bytes from length `r` on. -/
def due (E : Env) (f : Nat → Nat → Nat) (s : St) : MainPc → Nat
  | .entry =>
    let size := ((s.w.fs (E.key s.w.own.held)).getD []).length
    f (toInt size).toNat (toInt (size - 1)).toNat
  | .enter size r => f size.toNat r.toNat
  | .copying _ r => f s.g.inputSize.toNat r.toNat
  | .round r => f s.g.inputSize.toNat r.toNat
  | .settingRs r => f s.g.inputSize.toNat r.toNat
  | .settingExisting r => f s.g.inputSize.toNat r.toNat
  | .pushing r _ => f s.g.inputSize.toNat r.toNat - s.g.log.tried.length
  | .posting r _ => f s.g.inputSize.toNat r.toNat - s.g.log.tried.length
  | .waiting r => f s.g.inputSize.toNat r.toNat - s.g.log.tried.length
  | .selecting r => f s.g.inputSize.toNat r.toNat - s.g.log.tried.length
  | .renamingPart _ => f (s.g.inputSize - s.g.rs).toNat (min s.g.rs (s.g.inputSize - s.g.rs - 1)).toNat
  | .removing _ _ => f (s.g.inputSize - s.g.rs).toNat (min s.g.rs (s.g.inputSize - s.g.rs - 1)).toNat
  | .recursing _ => f (s.g.inputSize - s.g.rs).toNat (min s.g.rs (s.g.inputSize - s.g.rs - 1)).toNat
  | _ => 0

/-- An allowance that is used up with the last length, and never too small for a round. -/
structure Allows (f : Nat → Nat → Nat) : Prop where
  none : ∀ n, f n 0 = 0
  round : ∀ n r, 0 < r → r < n → n - r + 1 ≤ f n r

theorem restarts_allows : Allows restarts := ⟨fun _ => if_pos rfl, fun _ _ => places_le⟩

theorem lengths_allows : Allows lengths := by
  refine ⟨fun _ => rfl, fun n r hr h => ?_⟩
  rw [← lengths_round hr h]
  exact Nat.le_add_right _ _

section

variable {E : Env} {inputPath : Path} {fs : Fs} {s t : St} {f : Nat → Nat → Nat} {r : Int}

theorem due_over (ho : s.main.over = true) : due E f s s.main = 0 := by
  cases hm : s.main <;> rw [hm] at ho <;> first | rfl | cases ho

theorem due_round (hr : s.main.inRound = some r) : due E f s s.main = f s.g.inputSize.toNat r.toNat - s.g.log.tried.length := by
  cases hm : s.main <;> rw [hm] at hr <;> cases hr <;> rfl

theorem round_live (hr : s.main.inRound = some r) : s.main.over = false ∧ boss s.g s.main ≠ .away := by
  cases hm : s.main <;> rw [hm] at hr <;> cases hr <;> exact ⟨rfl, nofun⟩

/-- The tests of a round are within its places. -/
theorem round_tried_le (hs : (system E inputPath fs).Reach s) (hr : s.main.inRound = some r) :
    s.g.log.tried.length ≤ s.g.inputSize.toNat - r.toNat + 1 := by
  obtain ⟨-, ⟨-, h0, hlt⟩, htotal⟩ := reach_round hs hr
  obtain ⟨hlive, hboss⟩ := round_live hr
  have hle := tried_le (reach_pool hs hlive).1 hboss
  rw [show (pool s).boss.total = jobs s.g r from htotal, jobs] at hle
  simp only [pool, List.length_map] at hle
  omega

/-- Past the wait all of them have been tried. -/
theorem selecting_tried (hs : (system E inputPath fs).Reach s) (hm : s.main = .selecting r) :
    s.g.log.tried.length = s.g.inputSize.toNat - r.toNat + 1 := by
  obtain ⟨-, hcomplete⟩ := selecting_complete hs hm
  obtain ⟨-, ⟨-, h0, hlt⟩, -⟩ := reach_round hs (by rw [hm]; rfl)
  have htaken := congrArg List.length hcomplete.taken
  have htried := hcomplete.tried.length_eq
  rw [List.length_map, List.length_range, jobs] at htaken
  simp only [pool, List.length_map] at htried htaken
  omega

/-! ## Steps -/

theorem testing_counted (hs : (system E inputPath fs).Reach s) {th : Worker} {d : Node} (hd : s.workers th = .testing d)
    (hst : step E (.worker th) s = some t) :
    t.w.own.tests.length = s.w.own.tests.length + 1 ∧ t.g.log.tried.length = s.g.log.tried.length + 1 := by
  obtain ⟨-, x, y, hx, hy, -⟩ := worker_tests hs hd hst
  simp only [hx, hy, List.length_append, List.length_singleton, and_self]

/-- A worker's test is counted where it is logged. -/
theorem worker_counted (hs : (system E inputPath fs).Reach s) (hr : s.main.inRound = some r) {th : Worker}
    (hst : step E (.worker th) s = some t) : t.main = s.main ∧ t.g.inputSize = s.g.inputSize ∧
      t.w.own.tests.length + s.g.log.tried.length = s.w.own.tests.length + t.g.log.tried.length := by
  obtain ⟨pc, g, w, ht, hm, -, -⟩ := round_step hs hr hst
  refine ⟨by rw [ht], by rw [ht]; exact (worker_sizes hm).1, ?_⟩
  by_cases hd : ∃ d, s.workers th = .testing d
  · obtain ⟨d, hd⟩ := hd
    obtain ⟨h1, h2⟩ := testing_counted hs hd hst
    omega
  · have htests : t.w.own.tests = s.w.own.tests := (step_tests hst).resolve_right fun ⟨th', d, hth, hd'⟩ => by
      cases hth
      exact hd ⟨d, hd'⟩
    have htried : t.g.log.tried = s.g.log.tried := by
      rw [ht]
      generalize s.workers th = pc0 at hm hd
      cases hm with
      | test d bytes v => exact absurd ⟨d, rfl⟩ hd
      | _ => rfl
    rw [htests, htried]

theorem due_worker (hf : Allows f) (hs : (system E inputPath fs).Reach s) {th : Worker} (hst : step E (.worker th) s = some t) :
    t.w.own.tests.length + due E f t t.main = s.w.own.tests.length + due E f s s.main := by
  cases hr : s.main.inRound with
  | none =>
    obtain rfl := away_step hs hr hst
    cases s.main <;> rfl
  | some r =>
    obtain ⟨-, ⟨-, h0, hlt⟩, -⟩ := reach_round hs hr
    obtain ⟨hmain, hsize, hcount⟩ := worker_counted hs hr hst
    have hr' : t.main.inRound = some r := hmain ▸ hr
    have hplaces := hf.round s.g.inputSize.toNat r.toNat (by omega) (by omega)
    have htried := round_tried_le hs hr
    have htried' := round_tried_le (hs.step ⟨_, hst⟩) hr'
    rw [due_round hr, due_round hr', hsize]
    rw [hsize] at htried'
    omega

/-- Away from a selection the main thread leaves what is due as it is. -/
theorem due_main (hf : Allows f) {rand : Nat} {pc : MainPc} {g : Globals} {w : World Vars} (hnot : ∀ r, s.main ≠ .selecting r)
    (hm : MainMove rand s.w.own.held ((s.w.fs (E.key s.w.own.held)).getD []) s.g s.main pc g) :
    due E f ⟨pc, s.workers, g, w⟩ pc = due E f s s.main := by
  generalize s.main = pc0 at hm hnot
  cases hm with
  | copy i r => split_ifs <;> rfl
  | remove i p => split_ifs <;> rfl
  | clear i => split_ifs <;> rfl
  | finish r hr =>
    have h0 : r.toNat = 0 := Int.toNat_of_nonpos hr
    simp only [due, h0, hf.none]
  | select r _ => exact absurd rfl (hnot r)
  | next r _ => exact absurd rfl (hnot r)
  | _ => rfl

theorem main_tests {rand : Nat} (hst : step E (.main rand) s = some t) : t.w.own.tests = s.w.own.tests :=
  (step_tests hst).resolve_right fun ⟨_, _, hth, _⟩ => nomatch hth

/-- Step lemma: `restarts` pays for every test. -/
theorem restarts_due (hs : (system E inputPath fs).Reach s) {m : Move} (hst : step E m s = some t) :
    t.w.own.tests.length + due E restarts t t.main ≤ s.w.own.tests.length + due E restarts s s.main := by
  cases m with
  | worker th => exact (due_worker restarts_allows hs hst).le
  | main rand =>
    rw [main_tests hst]
    rcases (step_cases hst).2 with ho | hm
    · rw [due_over ho]
      omega
    · cases hm with
      | main _ w hm =>
        by_cases hsel : ∃ r, s.main = .selecting r
        · obtain ⟨r, hr⟩ := hsel
          have htried := selecting_tried hs hr
          obtain ⟨-, ⟨hrs, h0, hlt⟩, -⟩ := reach_round hs (r := r) (by rw [hr]; rfl)
          rw [hr] at hm ⊢
          cases hm with
          | select _ hf =>
            have hpay := restarts_cut (n := s.g.inputSize.toNat) (r := r.toNat) (by omega) (by omega)
            have e1 : (s.g.inputSize - r).toNat = s.g.inputSize.toNat - r.toNat := by omega
            have e2 : (min r (s.g.inputSize - r - 1)).toNat = min r.toNat (s.g.inputSize.toNat - r.toNat - 1) := by omega
            simp only [due, hrs, e1, e2]
            omega
          | next _ hf =>
            have hpay := restarts_next (n := s.g.inputSize.toNat) (r := r.toNat) (by omega) (by omega)
            have e1 : (r - 1).toNat = r.toNat - 1 := by omega
            simp only [due, e1]
            omega
        · rw [due_main restarts_allows (fun r hr => hsel ⟨r, hr⟩) hm]

/-- Step lemma: where nothing fails, `lengths` is used up exactly. -/
theorem lengths_due (hs : (system E inputPath fs).Reach s) (hD : Judges E fun _ => false) {m : Move} (hst : step E m s = some t)
    (ho : t.main.over = false) :
    t.w.own.tests.length + due E lengths t t.main = s.w.own.tests.length + due E lengths s s.main := by
  cases m with
  | worker th => exact due_worker lengths_allows hs hst
  | main rand =>
    rw [main_tests hst]
    cases (step_cases hst).2.resolve_left (fun e => nomatch ho.symm.trans e) with
    | main _ w hm =>
      by_cases hsel : ∃ r, s.main = .selecting r
      · obtain ⟨r, hr⟩ := hsel
        have htried := selecting_tried hs hr
        have hnone := fun hf : 0 < s.g.failN => entry_fails hD hs hr hf
        obtain ⟨-, ⟨hrs, h0, hlt⟩, -⟩ := reach_round hs (r := r) (by rw [hr]; rfl)
        rw [hr] at hm ⊢
        cases hm with
        | select _ hf =>
          obtain ⟨b, -, hfail, -⟩ := hnone hf
          cases hfail
        | next _ hf =>
          have hpay := lengths_round (n := s.g.inputSize.toNat) (r := r.toNat) (by omega) (by omega)
          have e1 : (r - 1).toNat = r.toNat - 1 := by omega
          simp only [due, e1]
          omega
      · rw [due_main lengths_allows (fun r hr => hsel ⟨r, hr⟩) hm]

/-! ## Runs -/

variable {X : Bytes}

theorem due_start (hX : fs (E.key inputPath) = some X) :
    due E f (start inputPath fs) .entry = f (toInt X.length).toNat (toInt (X.length - 1)).toNat := by
  simp only [due, start, hX, Option.getD_some]

/-- The first round's length is one less than the size, unless there is no round. -/
theorem first_length (X : Bytes) : (toInt X.length).toNat = 0 ∨ (toInt (X.length - 1)).toNat = (toInt X.length).toNat - 1 := by
  by_cases hmin : toInt X.length = -2 ^ 31
  · exact Or.inl (by omega)
  · exact Or.inr (by rw [toInt_pred hmin]; omega)

/-- Run lemma. -/
theorem reach_tests (hX : fs (E.key inputPath) = some X) (hs : (system E inputPath fs).Reach s) :
    s.w.own.tests.length ≤ (toInt X.length).toNat * (toInt X.length).toNat - 2 := by
  refine System.Reach.amortized (T := system E inputPath fs) (fun s => s.w.own.tests.length)
    (fun s => due E restarts s s.main) ?_ (fun s t hr ⟨m, hst⟩ => restarts_due hr hst) hs
  intro s h
  subst h
  change 0 + due E restarts (start inputPath fs) .entry ≤ _
  rw [due_start hX, Nat.zero_add]
  rcases first_length X with h0 | h1
  · rw [h0, restarts, lengths_zero]
    split <;> exact Nat.zero_le _
  · rw [h1]
    exact restarts_le _

/-- Where nothing fails, what is returned took all tests. -/
theorem returned_tests (hX : fs (E.key inputPath) = some X) (hs : (system E inputPath fs).Reach s) {q : Path}
    (hD : Judges E fun _ => false) (hq : s.main = .ret q) :
    s.w.own.tests.length = ((toInt X.length).toNat - 1) * ((toInt X.length).toNat + 2) / 2 := by
  have hpred := first_length X
  have hcount : s.w.own.tests.length + due E lengths s s.main = lengths (toInt X.length).toNat (toInt (X.length - 1)).toNat := by
    refine System.Reach.invariant (T := system E inputPath fs) (P := fun s => s.main.over = false →
      s.w.own.tests.length + due E lengths s s.main = lengths (toInt X.length).toNat (toInt (X.length - 1)).toNat)
      ?_ ?_ hs (by rw [hq]; rfl)
    · intro s h _
      subst h
      rw [← due_start (f := lengths) hX]
      exact Nat.zero_add _
    · intro s t hr ih ⟨m, hst⟩ ho
      rw [lengths_due hr hD hst ho]
      exact ih (step_cases hst).1
  rw [hq] at hcount
  rw [← passes_all]
  refine hcount.trans ?_
  generalize (toInt X.length).toNat = n at hpred
  rcases hpred with h0 | h1
  · rw [h0, lengths_zero]
    rfl
  · rw [h1]
    exact lengths_all n

/-- An input of `n` bytes takes at most `n * n - 2` tests, `n` being what an `int` makes of
    its size, and `(n - 1) * (n + 2) / 2` where nothing fails; and every run ends, in a
    return unless a copy of an earlier run is in the way or the size overflows. -/
theorem range_tests_le (hX : fs (E.key inputPath) = some X) :
    (∀ s, (system E inputPath fs).Reach s →
      s.w.own.tests.length ≤ (toInt X.length).toNat * (toInt X.length).toNat - 2 ∧
      ∀ q, Judges E (fun _ => false) → s.main = .ret q →
        s.w.own.tests.length = ((toInt X.length).toNat - 1) * ((toInt X.length).toNat + 2) / 2) ∧
    ¬ (system E inputPath fs).Endless ∧
    ((∀ th : Worker, fs (E.key (originFile th)) = none) → toInt X.length ≠ -2 ^ 31 →
      ∀ s, (system E inputPath fs).Reach s → (∀ m, step E m s = none) → ∃ q, s.main = .ret q) :=
  ⟨fun _ hs => ⟨reach_tests hX hs, fun _ hD hq => returned_tests hX hs hD hq⟩, range_ends E inputPath fs,
    fun hfree hsize _ hs hend => range_returns hX hfree hsize hs hend⟩

end

/-- Two bytes, of which nothing may go: two tests, however the workers take turns. -/
theorem range_tests_le_two :
    (∀ s, (system (judging fun c => c.contains 1) "in".toList (soleInput "in".toList [1, 2])).Reach s →
      s.w.own.tests.length ≤ 2) ∧
    ∃ s q, (system (judging fun _ => false) "in".toList (soleInput "in".toList [1, 2])).Reach s ∧ s.main = .ret q ∧
      s.w.own.tests.length = 2 := by
  have hsize : toInt ([1, 2] : Bytes).length = 2 := toInt_of_lt (by decide) (by decide)
  constructor
  · intro s hs
    have hle := ((range_tests_le (sole_in _ [1, 2])).1 s hs).1
    rwa [hsize] at hle
  · obtain ⟨hbound, hends, hfinal⟩ := range_tests_le (sole_in (fun _ => false) [1, 2])
    obtain ⟨s, hs, hend⟩ := System.exists_final hends rfl
    obtain ⟨q, hq⟩ := hfinal (fun th => sole_origin _ _ th) (by rw [hsize]; decide) s hs fun m =>
      Option.eq_none_iff_forall_ne_some.mpr fun t ht => hend t ⟨m, ht⟩
    have hall := (hbound s hs).2 q (judging_judges _) hq
    rw [hsize] at hall
    exact ⟨s, q, hs, hq, hall⟩

end DiyDdmin.Range
