/-
  DiyDdmin.Minimizers — what `ddmin`, `range_increasing` and `range` have in common.

  Proved, for any directory, any program and, for `range`, any interleaving and choice of
  `rand`: each comes to an end, with the granularity of `ddmin` and the cuts of
  `range_increasing` within the input (`minimizers_end`); the held file only shrinks by
  failing cuts and the result is the one held last (`minimizers_shrink`); and an input
  keeps its bytes at every moment as long as no step uses its name
  (`minimizers_leave_input`), while one whose name is used may lose them
  (`inputs_with_made_up_names_are_truncated`).
-/

import DiyDdmin.Ddmin.Input
import DiyDdmin.Increasing.Input
import DiyDdmin.Range.Results
import DiyDdmin.Range.Input

namespace DiyDdmin

open Posix Tester Numeric Systems Reduction

/-! ## The held file -/

/-- Every accepted step is a reduction that fails. -/
theorem minimizers_shrink {E : Env} {p : Path} {fs : Fs} {X : Bytes} {D : Bytes → Bool} (hX : fs (E.key p) = some X) (hD : Judges E D) :
    (Unnamed E PartName (E.key p) → X.length ≤ 2 ^ 24 → ∀ s, (Ddmin.machine E (Ddmin.ddmin E p) fs).Reach s →
      Shrinks E D X s.w ∧ ∀ q, s.ctl.pc = .ret q → q = s.w.own.held) ∧
    (Unnamed E PartName (E.key p) → X.length < 2 ^ 31 → ∀ s, (Increasing.machine E p fs).Reach s →
      Shrinks E D X s.w ∧ ∀ q, s.ctl.pc = .ret q → q = s.w.own.held) ∧
    (Unnamed E RangeName (E.key p) → ∀ s, (Range.system E p fs).Reach s →
      Shrinks E D X s.w ∧ ∀ q, s.main = .ret q → q = s.w.own.held) :=
  ⟨fun hp hl _ hs => Ddmin.ddmin_shrinks hp hX hl hD hs, fun hp hl _ hs => Increasing.increasing_shrinks hp hX hl hD hs,
    fun hp _ hs => Range.range_shrinks hp hX hD hs⟩

/-- The first of two bytes is enough to fail. -/
def holdsOne (c : Bytes) : Bool := c.contains 1

theorem minimizers_shrink_two :
    (∀ n, Shrinks (judging holdsOne) holdsOne [1, 2]
      ((Ddmin.machine (judging holdsOne) (Ddmin.ddmin (judging holdsOne) "in".toList) (soleInput "in".toList [1, 2])).run n).w) ∧
    (∀ n, Shrinks (judging holdsOne) holdsOne [1, 2]
      ((Increasing.machine (judging holdsOne) "in".toList (soleInput "in".toList [1, 2])).run n).w) ∧
    ∀ s, (Range.system (judging holdsOne) "in".toList (soleInput "in".toList [1, 2])).Reach s →
      Shrinks (judging holdsOne) holdsOne [1, 2] s.w := by
  obtain ⟨h1, h2, h3⟩ := minimizers_shrink (sole_in holdsOne [1, 2]) (judging_judges holdsOne)
  exact ⟨fun n => (h1 (unnamed_in _) (by decide) _ (Machine.run_reach n)).1,
    fun n => (h2 (unnamed_in _) (by decide) _ (Machine.run_reach n)).1, fun s hs => (h3 (unnamed_range_in _) s hs).1⟩

/-! ## The input -/

/-- The input keeps its bytes at every moment of a run of which no step opens its entry as an
    output file, renames a candidate onto it or runs a test of which it is an output file. -/
theorem minimizers_leave_input {E : Env} {p : Path} {fs : Fs} {X : Bytes} (hX : fs (E.key p) = some X) :
    (∀ s, ((Ddmin.machine E (Ddmin.ddmin E p) fs).toSystem.restrict fun s t => ¬ Ddmin.Touches E (E.key p) s t).Reach s →
      s.w.All fun _ fs' => fs' (E.key p) = some X) ∧
    (∀ s, ((Increasing.machine E p fs).toSystem.restrict fun s t => ¬ Increasing.Touches E (E.key p) s t).Reach s →
      s.w.All fun _ fs' => fs' (E.key p) = some X) ∧
    (∀ s, ((Range.system E p fs).restrict fun s t => ¬ Range.Touches E (E.key p) s t).Reach s →
      s.w.All fun _ fs' => fs' (E.key p) = some X) := by
  refine ⟨fun s hs => ?_, fun s hs => ?_, fun s hs => Range.range_unchanged hX hs⟩ <;> rw [← hX]
  · exact Ddmin.ddmin_unchanged hs
  · exact Increasing.increasing_unchanged hX hs

/-- Inputs left behind by earlier runs, under names these runs do not come to: `7.part` for
    `ddmin`, `0.part` for the two others. -/
theorem minimizers_leave_input_two :
    (∃ s : Ddmin.St, s.ctl.fileNo = 1 ∧ s.w.fs ((judging holdsOne).key s.w.own.held) = some [1] ∧
      s.w.All fun _ fs' => fs' ((judging holdsOne).key "7.part".toList) = some [1, 2]) ∧
    (∃ s : Increasing.St, s.ctl.failNo = 2 ∧ s.w.fs ((judging holdsOne).key s.w.own.held) = some [1] ∧
      s.w.All fun _ fs' => fs' ((judging holdsOne).key "0.part".toList) = some [1, 2]) ∧
    ∀ s, (Range.system (judging holdsOne) "0.part".toList (soleInput "0.part".toList [1, 2])).Reach s → s.w.All
      fun _ fs' => fs' ((judging holdsOne).key "0.part".toList) = some [1, 2] := by
  let E := judging holdsOne
  have h0 : soleInput "0.part".toList [1, 2] (E.key "0.part".toList) = some [1, 2] := by decide +kernel
  refine ⟨?_, ?_, ?_⟩
  · let p := "7.part".toList
    let careful : Unit → Ddmin.St → Option Ddmin.St := fun _ s =>
      (Ddmin.next E (Ddmin.ddmin E p) s).bind fun t => if Ddmin.Touches E (E.key p) s t then none else some t
    have hrun : (System.follow careful (List.replicate 4 ()) (Ddmin.start (Ddmin.ddmin E p) (soleInput p [1, 2]))).map
        (fun s => (s.ctl.fileNo, s.w.fs (E.key s.w.own.held))) = some (1, some [1]) := by decide +kernel
    obtain ⟨s, hs, he⟩ := Option.map_eq_some_iff.mp hrun
    obtain ⟨hno, hheld⟩ := Prod.mk.inj he
    have hX : soleInput p [1, 2] (E.key p) = some [1, 2] := by decide +kernel
    refine ⟨s, hno, hheld, (minimizers_leave_input hX).1 s (System.Reach.follow (fun u _ a b hab => ?_) (.init rfl) hs)⟩
    obtain ⟨c, hc, hab⟩ := Option.bind_eq_some_iff.mp hab
    obtain ⟨htouch, hsome⟩ := Option.ite_none_left_eq_some.mp hab
    cases hsome
    exact ⟨htouch, hc⟩
  · let p := "0.part".toList
    let careful : Unit → Increasing.St → Option Increasing.St := fun _ s =>
      (Increasing.next E s).bind fun t => if Increasing.Touches E (E.key p) s t then none else some t
    have hrun : (System.follow careful (List.replicate 6 ()) (Increasing.start p (soleInput p [1, 2]))).map
        (fun s => (s.ctl.failNo, s.w.fs (E.key s.w.own.held))) = some (2, some [1]) := by decide +kernel
    obtain ⟨s, hs, he⟩ := Option.map_eq_some_iff.mp hrun
    obtain ⟨hno, hheld⟩ := Prod.mk.inj he
    refine ⟨s, hno, hheld, (minimizers_leave_input h0).2.1 s (System.Reach.follow (fun u _ a b hab => ?_) (.init rfl) hs)⟩
    obtain ⟨c, hc, hab⟩ := Option.bind_eq_some_iff.mp hab
    obtain ⟨htouch, hsome⟩ := Option.ite_none_left_eq_some.mp hab
    cases hsome
    exact ⟨htouch, hc⟩
  · intro s hs
    refine (minimizers_leave_input h0).2.2 s (hs.restrict fun a b ha hab => ?_)
    obtain ⟨m, hm⟩ := hab
    exact (Range.unused_zero E).not_touches (Range.reach_sound ha (Range.step_cases hm).1).named

/-- An input that an earlier run left behind is opened for writing, although nothing fails. -/
theorem inputs_with_made_up_names_are_truncated :
    (soleInput "0.part".toList [1, 2] ((judging fun _ => false).key "./0.part".toList) = some [1, 2] ∧
      ∃ s, (Ddmin.machine (judging fun _ => false) (Ddmin.ddmin (judging fun _ => false) "./0.part".toList)
          (soleInput "0.part".toList [1, 2])).Reach s ∧
        s.w.fs ((judging fun _ => false).key "./0.part".toList) = some []) ∧
    (soleInput "1.part".toList [1, 2] ((judging fun _ => false).key "1.part".toList) = some [1, 2] ∧
      ∃ s, (Increasing.machine (judging fun _ => false) "1.part".toList (soleInput "1.part".toList [1, 2])).Reach s ∧
        s.w.fs ((judging fun _ => false).key "1.part".toList) = some []) ∧
    soleInput "thread0".toList [1, 2] ((judging fun _ => false).key "thread0".toList) = some [1, 2] ∧
      ∃ s, (Range.system (judging fun _ => false) "thread0".toList (soleInput "thread0".toList [1, 2])).Reach s ∧
        s.w.fs ((judging fun _ => false).key "thread0".toList) = some [] := by
  refine ⟨⟨by decide +kernel, _, Machine.run_reach 2, by decide +kernel⟩, ⟨by decide +kernel, _, Machine.run_reach 1, by decide +kernel⟩,
    by decide +kernel, ?_⟩
  have hrun : (System.follow (Range.step (judging fun _ => false)) (List.replicate 14 (.main 0) ++ List.replicate 3 (.worker 0))
      (Range.start "thread0".toList (soleInput "thread0".toList [1, 2]))).map
        (fun s => s.w.fs ((judging fun _ => false).key "thread0".toList)) = some (some []) := by
    decide +kernel
  obtain ⟨s, hs, he⟩ := Option.map_eq_some_iff.mp hrun
  exact ⟨s, Range.follow_reach hs, he⟩

/-! ## Ends -/

/-- Each comes to an end, whatever the verdicts. -/
theorem minimizers_end {E : Env} {p : Path} {fs : Fs} {X : Bytes} (hX : fs (E.key p) = some X) :
    (Unnamed E PartName (E.key p) → X.length ≤ 2 ^ 24 →
      (∃ s, (Ddmin.machine E (Ddmin.ddmin E p) fs).Ends s) ∧
      ∀ s, (Ddmin.machine E (Ddmin.ddmin E p) fs).Reach s → Ddmin.Granular E s) ∧
    (Unnamed E PartName (E.key p) →
      (∃ s q, (Increasing.machine E p fs).Ends s ∧ s.ctl.pc = .ret q) ∧
      ∀ s, (Increasing.machine E p fs).Reach s → Increasing.Inside E s) ∧
    (toInt X.length ≠ -2 ^ 31 →
      ¬ (Range.system E p fs).Endless ∧
      ((∀ th : Range.Worker, fs (E.key (originFile th)) = none) → ∀ s, (Range.system E p fs).Reach s →
        (∀ m, Range.step E m s = none) → ∃ q, s.main = .ret q)) :=
  ⟨fun hp hl => ⟨Ddmin.ends (Ddmin.ddmin_ready hp hX hl), fun _ hs => Ddmin.ddmin_granular hp hX hl hs⟩,
    fun hp => ⟨Increasing.returns hp hX, fun _ hs => Increasing.increasing_inside hp hX hs⟩,
    fun hsize => ⟨Range.range_ends E p fs, fun hfree _ hs hend => Range.range_returns hX hfree hsize hs hend⟩⟩

theorem minimizers_end_two :
    (∃ s, (Ddmin.machine (judging holdsOne) (Ddmin.ddmin (judging holdsOne) "in".toList) (soleInput "in".toList [1, 2])).Ends s) ∧
    (∃ s q, (Increasing.machine (judging holdsOne) "in".toList (soleInput "in".toList [1, 2])).Ends s ∧ s.ctl.pc = .ret q) ∧
    ¬ (Range.system (judging holdsOne) "in".toList (soleInput "in".toList [1, 2])).Endless := by
  obtain ⟨h1, h2, h3⟩ := minimizers_end (sole_in holdsOne [1, 2])
  exact ⟨(h1 (unnamed_in _) (by decide)).1, (h2 (unnamed_in _)).1, (h3 (by decide +kernel)).1⟩

/-- On an input of 2^31 bytes `existing = input_size - r_size + 1` overflows an `int`, so
    `range` comes to no end that the code defines. -/
theorem a_size_that_overflows_comes_to_no_defined_end :
    (∀ s, (Range.system (judging holdsOne) "in".toList (soleInput "in".toList (List.replicate (2 ^ 31) 0))).Reach s →
      ∀ q, s.main ≠ .ret q) ∧
    ∃ s, (Range.system (judging holdsOne) "in".toList (soleInput "in".toList (List.replicate (2 ^ 31) 0))).Reach s ∧
      s.main = .undefined :=
  Range.range_overflows (sole_in holdsOne _) (fun th => Range.sole_origin holdsOne _ th)
    (by rw [List.length_replicate]; decide +kernel)

end DiyDdmin
