/-
  DiyDdmin.Agreement — what the three algorithms `main` chooses from agree on.

  `main` (`src/main.c`) passes the input to `ddmin`, `range_increasing` or `range`, as its
  third argument says (`select`). `Returns m E p fs T`: some run of `m` on the input `p` in
  the directory `fs` ends, and the file it returns holds `T`.

  Proved, for every interleaving and every choice of `rand`: where the failure has one
  cause, all three return that cause, byte for byte (`one_cause`); and where failing is
  monotone, what one of them returns is returned unchanged by any of them, also in another
  directory (`minimized_again`).
-/

import DiyDdmin.Minimizers

namespace DiyDdmin

open Posix Tester Numeric Systems Reduction

inductive Minimizer where
  | ddmin
  | rangeIncreasing
  | range
  deriving DecidableEq, Repr

/-- What `main` runs for `argv[3]`. For any other text it runs nothing, prints no result, and
    frees a `result` that was never set. -/
def select (mode : List Char) : Option Minimizer :=
  if mode.head? = some 'd' then some .ddmin
  else if mode = "range_increasing".toList then some .rangeIncreasing
  else if mode.head? = some 'r' then some .range
  else none

/-- What it needs to be there, or not to be there, to get to a result. -/
def Minimizer.Ready (m : Minimizer) (E : Env) (fs : Fs) : Prop :=
  match m with
  | .ddmin => (fs (E.key E.programPath)).isSome = true
  | .rangeIncreasing => True
  | .range => ∀ th : Range.Worker, fs (E.key (originFile th)) = none

def Returns (m : Minimizer) (E : Env) (p : Path) (fs : Fs) (T : Bytes) : Prop :=
  match m with
  | .ddmin => ∃ s q, (Ddmin.machine E (Ddmin.ddmin E p) fs).Reach s ∧ s.ctl.pc = .ret q ∧ s.w.fs (E.key q) = some T
  | .rangeIncreasing => ∃ s q, (Increasing.machine E p fs).Reach s ∧ s.ctl.pc = .ret q ∧ s.w.fs (E.key q) = some T
  | .range => ∃ s q, (Range.system E p fs).Reach s ∧ s.main = .ret q ∧ s.w.fs (E.key q) = some T

/-- What the `result` that `main` prints may hold. -/
def MainReturns (mode : List Char) (E : Env) (p : Path) (fs : Fs) (T : Bytes) : Prop :=
  ∃ m, select mode = some m ∧ Returns m E p fs T

theorem select_iff {mode : List Char} : (∃ m, select mode = some m) ↔ mode.head? = some 'd' ∨ mode.head? = some 'r' := by
  unfold select
  by_cases hd : mode.head? = some 'd'
  · rw [if_pos hd]
    exact iff_of_true ⟨_, rfl⟩ (Or.inl hd)
  rw [if_neg hd]
  by_cases hi : mode = "range_increasing".toList
  · rw [if_pos hi]
    exact iff_of_true ⟨_, rfl⟩ (Or.inr (by rw [hi]; rfl))
  rw [if_neg hi]
  by_cases hr : mode.head? = some 'r'
  · rw [if_pos hr]
    exact iff_of_true ⟨_, rfl⟩ (Or.inr hr)
  · rw [if_neg hr]
    exact iff_of_false nofun fun h => h.elim hd hr

/-- An input that all three take: of at most 2^24 bytes, under none of the names they make
    up. -/
structure Input (E : Env) (p : Path) (fs : Fs) (X : Bytes) : Prop where
  there : fs (E.key p) = some X
  part : Unnamed E PartName (E.key p)
  range : Unnamed E RangeName (E.key p)
  small : X.length ≤ 2 ^ 24

section

variable {m : Minimizer} {E : Env} {p : Path} {fs : Fs} {X T : Bytes} {D : Bytes → Bool}

theorem held_genuine {w : World Vars} (h : Shrinks E D X w) (hT : w.fs (E.key w.own.held) = some T) : Genuine D X T := by
  obtain ⟨c, hc, hg⟩ := h.holds.1
  obtain rfl : c = T := Option.some.inj (hc.symm.trans hT)
  exact hg

theorem returned_genuine (hin : Input E p fs X) (hD : Judges E D) (h : Returns m E p fs T) : Genuine D X T := by
  have hsmall := hin.small
  cases m with
  | ddmin =>
    obtain ⟨s, q, hs, hq, hT⟩ := h
    obtain ⟨hsh, hheld⟩ := Ddmin.ddmin_shrinks hin.part hin.there hsmall hD hs
    exact held_genuine hsh (hheld q hq ▸ hT)
  | rangeIncreasing =>
    obtain ⟨s, q, hs, hq, hT⟩ := h
    obtain ⟨hsh, hheld⟩ := Increasing.increasing_shrinks hin.part hin.there (by omega) hD hs
    exact held_genuine hsh (hheld q hq ▸ hT)
  | range =>
    obtain ⟨s, q, hs, hq, hT⟩ := h
    obtain ⟨hsh, hheld⟩ := Range.range_shrinks hin.range hin.there hD hs
    exact held_genuine hsh (hheld q hq ▸ hT)

theorem ddmin_one_minimal (hin : Input E p fs X) (hD : Judges E D) (h : Returns .ddmin E p fs T) (h2 : 2 ≤ T.length) :
    OneMinimal D T := by
  obtain ⟨s, q, hs, hq, hT⟩ := h
  obtain ⟨a, ha, hm, hdone, hheld⟩ := Ddmin.ret_tracked (Ddmin.ddmin_ready_of_judges hin.part hin.there hin.small hD) hs hq
  obtain rfl : a.cur = T := Option.some.inj (hm.file.symm.trans (hheld ▸ hT))
  have ht : Ddmin.Abstract.Tested D a := Ddmin.Abstract.reach_tested (fun _ _ h => h) ha
  rw [Ddmin.Abstract.Tested, hdone] at ht
  exact NoCut.oneMinimal (ht.resolve_left (by omega)).2

theorem increasing_one_minimal (hin : Input E p fs X) (hD : Judges E D) (hM : Monotone D) (h : Returns .rangeIncreasing E p fs T)
    (h2 : 2 ≤ T.length) : OneMinimal D T := by
  have hsmall := hin.small
  obtain ⟨s, q, hs, hq, hT⟩ := h
  rcases Increasing.reach_good hin.part hin.there (by omega) hD hs with rfl | ⟨a, hg⟩
  · cases hq
  · obtain ⟨hdone, rfl⟩ := Increasing.match_ret hg.matched hq
    obtain rfl : a.cur = T := Option.some.inj (hg.matched.file.symm.trans hT)
    obtain ⟨-, hend⟩ := hg.longer
    rw [hdone] at hend
    exact ((hg.singles hM).1 (by simp only at hend; omega)).oneMinimal

theorem range_one_minimal (hin : Input E p fs X) (hD : Judges E D) (h : Returns .range E p fs T) (h2 : 2 ≤ T.length) :
    OneMinimal D T := by
  have hsmall := hin.small
  obtain ⟨s, q, hs, hq, hT⟩ := h
  obtain ⟨Y, ⟨hfile, -, -, hknows⟩, -, hscan⟩ := Range.reach_scan hin.range hin.there (by omega) hD hs (by rw [hq]; rfl)
  rw [hq] at hknows hscan
  obtain rfl : q = s.w.own.held := hknows
  obtain rfl : Y = T := Option.some.inj (hfile.symm.trans hT)
  refine NoCut.oneMinimal (hscan 1 (by decide) ?_)
  unfold Range.reachOf
  split <;> omega

/-- Where failing is monotone, nothing fails that is left of a result. -/
theorem returned_irreducible (hin : Input E p fs X) (hD : Judges E D) (hM : Monotone D) (h0 : D [] = false)
    (h : Returns m E p fs T) : Irreducible D T := by
  by_cases h2 : 2 ≤ T.length
  · apply OneMinimal.irreducible hM
    cases m with
    | ddmin => exact ddmin_one_minimal hin hD h h2
    | rangeIncreasing => exact increasing_one_minimal hin hD hM h h2
    | range => exact range_one_minimal hin hD h h2
  · exact irreducible_of_short h0 (by omega)

theorem exists_returned (hin : Input E p fs X) (hD : Judges E D) (hready : m.Ready E fs) : ∃ T, Returns m E p fs T := by
  have hsmall := hin.small
  cases m with
  | ddmin =>
    obtain ⟨s, q, hs, hq⟩ := Ddmin.returns (Ddmin.ddmin_ready_of_judges hin.part hin.there hsmall hD) hready
    obtain ⟨hsh, hheld⟩ := Ddmin.ddmin_shrinks hin.part hin.there hsmall hD hs.1
    obtain ⟨T, hT, -⟩ := hsh.holds.1
    exact ⟨T, s, q, hs.1, hq, hheld q hq ▸ hT⟩
  | rangeIncreasing =>
    obtain ⟨s, q, hs, hq⟩ := Increasing.returns hin.part hin.there
    obtain ⟨hsh, hheld⟩ := Increasing.increasing_shrinks hin.part hin.there (by omega) hD hs.1
    obtain ⟨T, hT, -⟩ := hsh.holds.1
    exact ⟨T, s, q, hs.1, hq, hheld q hq ▸ hT⟩
  | range =>
    obtain ⟨s, hs, hend⟩ := System.exists_final (Range.range_ends E p fs) rfl
    have hsize : toInt X.length ≠ -2 ^ 31 := by rw [toInt_of_lt (by omega) (by omega)]; omega
    obtain ⟨q, hq⟩ := Range.range_returns hin.there hready hsize hs fun m =>
      Option.eq_none_iff_forall_ne_some.mpr fun t ht => hend t ⟨m, ht⟩
    obtain ⟨hsh, hheld⟩ := Range.range_shrinks hin.range hin.there hD hs
    obtain ⟨T, hT, -⟩ := hsh.holds.1
    exact ⟨T, s, q, hs, hq, hheld q hq ▸ hT⟩

/-- Where only one result is possible it is the one. -/
theorem returns_iff (hin : Input E p fs X) (hD : Judges E D) (hready : m.Ready E fs) {c : Bytes}
    (hone : ∀ U, Returns m E p fs U → U = c) : Returns m E p fs T ↔ T = c := by
  obtain ⟨U, hU⟩ := exists_returned hin hD hready
  constructor
  · exact hone T
  · rintro rfl
    exact hone U hU ▸ hU

/-- Where the failure has one cause, `main` returns that cause, whichever of the three it is
    told to run, and nothing where it is told to run none. -/
theorem one_cause {mode : List Char} (hin : Input E p fs X) (hD : Judges E D) {c : Bytes} (hc : Cause D c) (hne : c ≠ [])
    (hX : D X = true) (hready : ∀ m, select mode = some m → m.Ready E fs) :
    MainReturns mode E p fs T ↔ (mode.head? = some 'd' ∨ mode.head? = some 'r') ∧ T = c := by
  have hone : ∀ m U, Returns m E p fs U → U = c := fun m U hU => by
    refine (returned_irreducible hin hD hc.monotone (hc.nil hne) hU).eq_cause hc ?_
    rcases returned_genuine hin hD hU with rfl | ⟨hf, -, -⟩
    · exact hX
    · exact hf
  rw [← select_iff]
  constructor
  · rintro ⟨m, hm, hT⟩
    exact ⟨⟨m, hm⟩, hone m T hT⟩
  · rintro ⟨⟨m, hm⟩, hT⟩
    exact ⟨m, hm, (returns_iff hin hD (hready m hm) (hone m)).mpr hT⟩

/-- Where failing is monotone, a result is minimized no further: not by the algorithm that
    gave it, and not by another, wherever it is run, as long as the result is given a name
    that no algorithm makes up. -/
theorem minimized_again {m' : Minimizer} {E' : Env} {p' : Path} {fs' : Fs} {U : Bytes} (hin : Input E p fs X) (hD : Judges E D)
    (hM : Monotone D) (h0 : D [] = false) (h : Returns m E p fs T) (hin' : Input E' p' fs' T) (hD' : Judges E' D)
    (hready : m'.Ready E' fs') : Returns m' E' p' fs' U ↔ U = T := by
  apply returns_iff hin' hD' hready
  intro V hV
  exact (returned_irreducible hin hD hM h0 h).genuine (returned_genuine hin' hD' hV)

end

/-! ## Two bytes of which the first is enough -/

theorem input_in (D : Bytes → Bool) {X : Bytes} (hl : X.length ≤ 2 ^ 24) :
    Input (judging D) "in".toList (soleInput "in".toList X) X :=
  ⟨sole_in D X, unnamed_in D, unnamed_range_in D, hl⟩

theorem ready_in (m : Minimizer) (D : Bytes → Bool) (X : Bytes) : m.Ready (judging D) (soleInput "in".toList X) := by
  cases m with
  | ddmin =>
    have hkey : (judging D).key (judging D).programPath = ["exe".toList] := resolve_plain [] (n := "exe".toList) (by decide)
    simp only [Minimizer.Ready, hkey, soleInput, Fs.of_entry, if_true, Option.isSome_some]
  | rangeIncreasing => trivial
  | range => exact fun th => Range.sole_origin D X th

theorem holdsOne_cause : Cause holdsOne [1] := fun Y => by
  rw [holdsOne, List.contains_iff_mem, List.singleton_sublist]

theorem one_cause_two :
    MainReturns "ddmin".toList (judging holdsOne) "in".toList (soleInput "in".toList [1, 2]) [1] ∧
    MainReturns "range_increasing".toList (judging holdsOne) "in".toList (soleInput "in".toList [1, 2]) [1] ∧
    MainReturns "range".toList (judging holdsOne) "in".toList (soleInput "in".toList [1, 2]) [1] := by
  have hreturns : ∀ mode : List Char, mode.head? = some 'd' ∨ mode.head? = some 'r' →
      MainReturns mode (judging holdsOne) "in".toList (soleInput "in".toList [1, 2]) [1] := by
    intro mode hmode
    exact (one_cause (input_in holdsOne (by decide)) (judging_judges _) holdsOne_cause (by decide) (by decide)
      fun m _ => ready_in m holdsOne _).mpr ⟨hmode, rfl⟩
  exact ⟨hreturns _ (by decide), hreturns _ (by decide), hreturns _ (by decide)⟩

theorem minimized_again_two :
    ∃ T, Returns .ddmin (judging holdsOne) "in".toList (soleInput "in".toList [1, 2]) T ∧
      ∀ U, Returns .range (judging holdsOne) "in".toList (soleInput "in".toList T) U ↔ U = T := by
  have hin := input_in holdsOne (X := [1, 2]) (by decide)
  obtain ⟨T, hT⟩ := exists_returned (m := .ddmin) hin (judging_judges _) (ready_in _ _ _)
  have hle : T.length ≤ 2 := (returned_genuine hin (judging_judges _) hT).sublist.length_le
  refine ⟨T, hT, fun U => ?_⟩
  exact minimized_again hin (judging_judges _) holdsOne_cause.monotone (by decide) hT (input_in holdsOne (by omega))
    (judging_judges _) (ready_in _ _ _)

end DiyDdmin
