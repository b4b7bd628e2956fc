/-
  DiyDdmin.Multithread.Cost — how often the multithreaded `range` runs the program
  (`test/multithread/range.c`).

  After an accepted candidate it starts again at the size less one, where `range` of
  `src/range.c` goes on at the length it was at.

  Proved, for inputs of `n` bytes: at most `(n - 1) * n * (n + 4) / 6` runs, and where
  nothing fails exactly `(n - 1) * (n + 2) / 2`, whatever the interleaving
  (`threads_tests_le`).
-/

import DiyDdmin.Multithread.Results

namespace DiyDdmin.Multithread

open Posix Tester Systems Reduction

variable {E : Env} {D : Bytes → Bool} {p q : Path} {fs : Fs} {X : Bytes} {s : St} {f : Nat → Nat → Nat}

theorem rescans_allows (D : Bytes → Bool) : Allows D rescans :=
  ⟨fun _ _ h0 h => (rescans_next h0 h).le, fun _ _ h0 h _ => rescans_cut h0 h⟩

theorem lengths_exact (hD : ∀ c, D c = false) : Allows D lengths ∧ Exact D lengths := by
  refine ⟨⟨fun _ _ h0 h => (lengths_round h0 h).le, ?_⟩, hD, fun _ => rfl, fun _ _ h0 h => lengths_round h0 h⟩
  rintro n r h0 h ⟨c, hc⟩
  rw [hD c] at hc
  cases hc

section

variable (hp : Unnamed E PartName (E.key p)) (hX : fs (E.key p) = some X) (hl : X.length ≤ 2 ^ 24) (hD : Judges E D)

include hp hX hl

theorem start_spent : spent E f (start p fs) = f X.length (X.length - 1) := by
  have hgood : Good E (fun _ => false) X _ (start p fs) X := good_start hp hX hl
  exact (spent_between hgood.size fun _ => rfl).trans (Nat.zero_add _)

include hD

/-- The runs made and those still allowed for. -/
theorem reach_spent (hf : Allows D f) (hs : (system E p fs).Reach s) :
    spent E f s ≤ f X.length (X.length - 1) ∧ (Exact D f → spent E f s = f X.length (X.length - 1)) := by
  refine System.Reach.invariant (P := fun s => spent E f s ≤ f X.length (X.length - 1) ∧
    (Exact D f → spent E f s = f X.length (X.length - 1))) ?_ ?_ hs
  · rintro s rfl
    rw [start_spent hp hX hl]
    exact ⟨Nat.le_refl _, fun _ => rfl⟩
  · rintro s t hr ⟨hle, heq⟩ ⟨m, hst⟩
    obtain ⟨⟨T, h⟩, -⟩ := reach_good hp hX hl hD hr
    obtain ⟨T', hadv⟩ := good_next hD h hst
    obtain ⟨hle', heq'⟩ := hadv.tests f hf
    exact ⟨hle'.trans hle, fun he => (heq' he).trans (heq he)⟩

end

/-- An input of `n` bytes takes at most `(n - 1) * n * (n + 4) / 6` runs of the program, and
    `(n - 1) * (n + 2) / 2` where nothing fails; and every run of the threads comes to a
    return. -/
theorem threads_tests_le (hp : Unnamed E PartName (E.key p)) (hX : fs (E.key p) = some X) (hl : X.length ≤ 2 ^ 24) (hD : Judges E D) :
    (∀ s, (system E p fs).Reach s → s.w.own.tests.length ≤ (X.length - 1) * X.length * (X.length + 4) / 6 ∧
      ∀ q, (∀ c, D c = false) → s.ctl.main = .ret q → s.w.own.tests.length = (X.length - 1) * (X.length + 2) / 2) ∧
    ¬ (system E p fs).Endless ∧ ∀ s, (system E p fs).Reach s → (∀ m, step E m s = none) → ∃ q, s.ctl.main = .ret q := by
  refine ⟨fun s hs => ⟨?_, ?_⟩, threads_end hp hX hl hD, fun s hs hend => final_returned hp hX hl hD hs hend⟩
  · have hle := (reach_spent hp hX hl hD (rescans_allows D) hs).1
    rw [rescans_all] at hle
    unfold spent at hle
    omega
  · intro q hno hq
    obtain ⟨hf, he⟩ := lengths_exact hno
    have hall := (reach_spent hp hX hl hD hf hs).2 he
    obtain ⟨⟨T, h⟩, -⟩ := reach_good hp hX hl hD hs
    have hgone : ∀ i, s.ctl.threads i = .absent := by
      intro i
      have hi := h.threads i
      rwa [hq] at hi
    have hspent := spent_between (f := lengths) (c := s.ctl) (w := s.w) h.size hgone
    rw [hq] at hspent
    rw [← passes_all, ← lengths_all, ← hall]
    exact hspent.symm

/-- Two bytes: two runs where nothing fails, and no more in any run. -/
theorem threads_tests_le_two :
    (∀ s, (system (judging holdsOne) "in".toList (soleInput "in".toList [1, 2])).Reach s → s.w.own.tests.length ≤ 2) ∧
    ∃ s q, (system (judging fun _ => false) "in".toList (soleInput "in".toList [1, 2])).Reach s ∧ s.ctl.main = .ret q ∧
      s.w.own.tests.length = 2 := by
  constructor
  · intro s hs
    exact ((threads_tests_le (unnamed_in _) (sole_in _ [1, 2]) (by decide) (judging_judges _)).1 s hs).1
  · obtain ⟨hbound, hends, hfinal⟩ := threads_tests_le (unnamed_in _) (sole_in _ [1, 2]) (by decide) (judging_judges fun _ => false)
    obtain ⟨s, hs, hend⟩ := System.exists_final hends (s := start "in".toList (soleInput "in".toList [1, 2])) rfl
    obtain ⟨q, hq⟩ := hfinal s hs fun m => Option.eq_none_iff_forall_ne_some.mpr fun t ht => hend t ⟨m, ht⟩
    have hall := (hbound s hs).2 q (fun _ => rfl) hq
    exact ⟨s, q, hs, hq, hall⟩

end DiyDdmin.Multithread
