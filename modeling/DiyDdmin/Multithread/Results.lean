/-
  DiyDdmin.Multithread.Results — what the multithreaded `range` returns
  (`test/multithread/range.c`).

  Proved, for inputs of at most 2^24 bytes and programs whose verdict depends on the
  candidate's bytes only: every interleaving ends, in a return, and all return the same
  bytes, those left by taking the leftmost cut (`threads_agree`); no range of any length
  can be cut out of them (`threads_minimal`); and for a monotone verdict function `range`
  of `src/range.c` can return them as well (`threads_refine_range`).
-/

import DiyDdmin.Multithread.Turns
import DiyDdmin.Range.Restart
import DiyDdmin.Agreement

namespace DiyDdmin.Multithread

open Posix Tester Numeric Systems Reduction

variable {E : Env} {D : Bytes → Bool} {p q : Path} {fs : Fs} {X T U : Bytes} {s : St}

/-- Some step is left as long as `range` has not returned. -/
theorem progress (h : Good E D X U s T) : (∃ q, s.ctl.main = .ret q) ∨ ∃ m t, step E m s = some t := by
  have hover : s.ctl.main.over = false := by
    have hmain := h.main
    cases hm : s.ctl.main <;> rw [hm] at hmain <;> first | rfl | exact hmain.elim
  -- a thread of the round has returned or can move
  have hthread : ∀ i, s.ctl.main.phase i = .running → (∃ o, s.ctl.threads i = .returned o) ∨ ∃ m t, step E m s = some t := by
    intro i hp
    have hi := h.threads i
    rw [hp] at hi
    cases hx : threadTurn E (s.ctl.threads i) with
    | none =>
      cases hpc : s.ctl.threads i <;> rw [hpc] at hi hx <;> first | exact hi.elim | exact Or.inl ⟨_, rfl⟩ | cases hx
    | some x => exact Or.inr ⟨.thread i, _, by rw [step, hover, if_neg Bool.false_ne_true, hx]; rfl⟩
  have hgo : ∀ x, mainTurn E s.ctl = some x → ∃ m t, step E m s = some t := by
    intro x hx
    exact ⟨.main, _, by rw [step, hover, if_neg Bool.false_ne_true, hx]; rfl⟩
  have hmain := h.main
  cases hm : s.ctl.main with
  | entry => exact Or.inr (hgo _ (by rw [mainTurn, hm]))
  | looping rs => exact Or.inr (hgo _ (by rw [mainTurn, hm]))
  | creating rs parts fSize mmapAddr i => exact Or.inr (hgo _ (by rw [mainTurn, hm]))
  | scanning rs =>
    obtain ⟨o, ho⟩ | hstep := hthread own (by rw [hm]; rfl)
    · exact Or.inr (hgo _ (by simp only [mainTurn, hm, ho]; rfl))
    · exact Or.inr hstep
  | joining rs failPath retList i =>
    rw [hm] at hmain
    obtain ⟨-, hi, -, -⟩ := hmain
    obtain ⟨o, ho⟩ | hstep := hthread i (by rw [hm]; exact if_neg (by simp [hi.ne]))
    · exact Or.inr (hgo _ (by simp only [mainTurn, hm, ho]; rfl))
    · exact Or.inr hstep
  | selecting rs retList => exact Or.inr (hgo _ (by rw [mainTurn, hm]))
  | ret q => exact Or.inl ⟨q, rfl⟩
  | exited e => rw [hm] at hmain; exact hmain.elim
  | hung => rw [hm] at hmain; exact hmain.elim
  | undefined => rw [hm] at hmain; exact hmain.elim

section

variable (hp : Unnamed E PartName (E.key p)) (hX : fs (E.key p) = some X) (hl : X.length ≤ 2 ^ 24) (hD : Judges E D)

include hp hX hl

theorem good_start : Good E D X (leftmost D X (X.length - 1)) (start p fs) X :=
  ⟨Or.inl rfl, hX, hl, fun j _ => not_own_unnamed hp j, fun _ => rfl, rfl⟩

include hD

/-- Run lemma. -/
theorem reach_good (hs : (system E p fs).Reach s) :
    (∃ T, Good E D X (leftmost D X (X.length - 1)) s T) ∧ ∀ k, Unnamed E PartName k → s.w.fs k = fs k := by
  refine System.Reach.invariant (P := fun s => (∃ T, Good E D X (leftmost D X (X.length - 1)) s T) ∧
    ∀ k, Unnamed E PartName k → s.w.fs k = fs k) ?_ ?_ hs
  · rintro s rfl
    exact ⟨⟨X, good_start hp hX hl⟩, fun _ _ => rfl⟩
  · rintro s t - ⟨⟨T, h⟩, hframe⟩ ⟨m, hst⟩
    obtain ⟨T', hadv⟩ := good_next hD h hst
    exact ⟨⟨T', hadv.good⟩, fun k hk => (hadv.frame k hk).trans (hframe k hk)⟩

theorem rank_next {t : St} {m : Move} (hs : (system E p fs).Reach s) (hst : step E m s = some t) : rank E t < rank E s := by
  obtain ⟨⟨T, h⟩, -⟩ := reach_good hp hX hl hD hs
  obtain ⟨T', hadv⟩ := good_next hD h hst
  exact hadv.rank

/-- What is returned. -/
theorem returned_left (hs : (system E p fs).Reach s) (hq : s.ctl.main = .ret q) :
    s.w.fs (E.key q) = some (leftmost D X (X.length - 1)) := by
  obtain ⟨⟨T, h⟩, -⟩ := reach_good hp hX hl hD hs
  have hmain := h.main
  rw [hq] at hmain
  obtain ⟨rfl, hT⟩ := hmain
  exact hT ▸ h.file

/-- Every run ends. -/
theorem threads_end : ¬ (system E p fs).Endless :=
  System.not_endless wellFounded_lt (rank E) fun _ _ hs ⟨_, hst⟩ => rank_next hp hX hl hD hs hst

theorem final_returned (hs : (system E p fs).Reach s) (hend : ∀ m, step E m s = none) : ∃ q, s.ctl.main = .ret q := by
  obtain ⟨⟨T, h⟩, -⟩ := reach_good hp hX hl hD hs
  obtain hret | ⟨m, t, hst⟩ := progress h
  · exact hret
  · rw [hend m] at hst
    cases hst

theorem some_returned : ∃ s q, (system E p fs).Reach s ∧ s.ctl.main = .ret q := by
  obtain ⟨s, hs, hend⟩ := System.exists_final (threads_end hp hX hl hD) (s := start p fs) rfl
  obtain ⟨q, hq⟩ := final_returned hp hX hl hD hs fun m => Option.eq_none_iff_forall_ne_some.mpr fun t ht => hend t ⟨m, ht⟩
  exact ⟨s, q, hs, hq⟩

end

/-- However the threads are interleaved, `range` comes to a return, with the bytes that are
    left when the leftmost cut is taken each time, the longest first; and nothing has
    changed but the entries it makes up names for. -/
theorem threads_agree (hp : Unnamed E PartName (E.key p)) (hX : fs (E.key p) = some X) (hl : X.length ≤ 2 ^ 24) (hD : Judges E D) :
    ¬ (system E p fs).Endless ∧
    (∀ s, (system E p fs).Reach s → (∀ m, step E m s = none) →
      ∃ q, s.ctl.main = .ret q ∧ s.w.fs (E.key q) = some (leftmost D X (X.length - 1))) ∧
    ∀ s, (system E p fs).Reach s → ∀ k, Unnamed E PartName k → s.w.fs k = fs k := by
  refine ⟨threads_end hp hX hl hD, ?_, ?_⟩
  · intro s hs hend
    obtain ⟨q, hq⟩ := final_returned hp hX hl hD hs hend
    exact ⟨q, hq, returned_left hp hX hl hD hs hq⟩
  · intro s hs
    exact (reach_good hp hX hl hD hs).2

theorem leftmost_two : leftmost holdsOne [1, 2] 1 = [1] := by
  rw [leftmost_some (b := 1) (by decide) (by decide) (by decide)]
  exact leftmost_done (by decide)

/-- Two bytes of which the first is enough. -/
theorem threads_agree_two :
    ∃ s q, (system (judging holdsOne) "in".toList (soleInput "in".toList [1, 2])).Reach s ∧ s.ctl.main = .ret q ∧
      s.w.fs ((judging holdsOne).key q) = some [1] := by
  obtain ⟨hends, hfinal, -⟩ := threads_agree (unnamed_in holdsOne) (sole_in holdsOne [1, 2]) (by decide) (judging_judges holdsOne)
  obtain ⟨s, hs, hend⟩ := System.exists_final hends (s := start "in".toList (soleInput "in".toList [1, 2])) rfl
  obtain ⟨q, hq, hfile⟩ := hfinal s hs fun m => Option.eq_none_iff_forall_ne_some.mpr fun t ht => hend t ⟨m, ht⟩
  exact ⟨s, q, hs, hq, hfile.trans (congrArg some leftmost_two)⟩

/-- At every moment the input path's file is the input of the run or fails, and no range of
    any length short of all of it can be cut out of what is returned. -/
theorem threads_minimal (hp : Unnamed E PartName (E.key p)) (hX : fs (E.key p) = some X) (hl : X.length ≤ 2 ^ 24) (hD : Judges E D)
    (hs : (system E p fs).Reach s) :
    ∃ T, s.w.fs (E.key s.w.own.held) = some T ∧ Genuine D X T ∧
      ∀ q, s.ctl.main = .ret q → q = s.w.own.held ∧ ∀ l, 0 < l → l < T.length → NoCut D l T := by
  obtain ⟨⟨T, h⟩, -⟩ := reach_good hp hX hl hD hs
  refine ⟨T, h.file, h.genuine, ?_⟩
  intro q hq
  have hmain := h.main
  rw [hq] at hmain
  obtain ⟨rfl, hT⟩ := hmain
  refine ⟨rfl, ?_⟩
  obtain rfl : T = leftmost D X (X.length - 1) := hT
  exact leftmost_noCut (by omega) fun l h1 h2 => by omega

theorem threads_minimal_two :
    ∃ s q T, (system (judging holdsOne) "in".toList (soleInput "in".toList [1, 2])).Reach s ∧ s.ctl.main = .ret q ∧
      s.w.fs ((judging holdsOne).key q) = some T ∧ ∀ l, 0 < l → l < T.length → NoCut holdsOne l T := by
  have hX := sole_in holdsOne [1, 2]
  obtain ⟨s, q, hs, hq⟩ := some_returned (unnamed_in holdsOne) hX (by decide) (judging_judges holdsOne)
  obtain ⟨T, hT, -, hmin⟩ := threads_minimal (unnamed_in holdsOne) hX (by decide) (judging_judges holdsOne) hs
  obtain ⟨rfl, hno⟩ := hmin q hq
  exact ⟨s, _, T, hs, hq, hT, hno⟩

/-- What is left in the leftmost order is among the outcomes of `range`. -/
theorem leftmost_clamped (hM : Monotone D) (hl : X.length ≤ 2 ^ 24) :
    CutsTo D Range.clamp X (toInt X.length) (toInt (X.length - 1)) (leftmost D X (X.length - 1)) := by
  have hlen : toInt X.length = X.length := toInt_of_lt (by omega) (by omega)
  have hpred : toInt ((X.length : Int) - 1) = (X.length : Int) - 1 := toInt_of_lt (by omega) (by omega)
  rw [hlen, hpred]
  rcases Nat.eq_zero_or_pos X.length with h0 | hpos
  · rw [leftmost_done (by omega)]
    exact .done (by omega)
  · have hcuts := leftmost_cutsTo (D := D) (T := X) (r := X.length - 1) (by omega)
    rw [Int.ofNat_sub hpos] at hcuts
    refine cutsTo_congr hM Range.plain_enough Range.clamp_enough hcuts (Int.le_refl _) (by omega) ?_
    intro l h1 h2
    omega

/-- For a monotone verdict function the multithreaded `range` returns only what `range` can
    return. -/
theorem threads_refine_range (hin : Input E p fs X) (hD : Judges E D) (hM : Monotone D) (hready : Minimizer.range.Ready E fs)
    (hs : (system E p fs).Reach s) (hq : s.ctl.main = .ret q) (hT : s.w.fs (E.key q) = some T) : Returns .range E p fs T := by
  have hleft := returned_left hin.part hin.there hin.small hD hs hq
  obtain rfl : T = leftmost D X (X.length - 1) := Option.some.inj (hT.symm.trans hleft)
  have hin' := hin.small
  have hsize : toInt X.length ≠ -2 ^ 31 := by
    rw [toInt_of_lt (by omega) (by omega)]
    omega
  obtain ⟨s', hs', q', hq', hT'⟩ := Range.left_returned hD hin.range hin.there hready hsize (leftmost_clamped hM hin.small)
  exact ⟨s', q', hs', hq', hT'⟩

theorem threads_refine_range_two : Returns .range (judging holdsOne) "in".toList (soleInput "in".toList [1, 2]) [1] := by
  have hin := input_in holdsOne (X := [1, 2]) (by decide)
  obtain ⟨s, q, hs, hq⟩ := some_returned hin.part hin.there hin.small (judging_judges holdsOne)
  have hfile := returned_left hin.part hin.there hin.small (judging_judges holdsOne) hs hq
  exact threads_refine_range hin (judging_judges holdsOne) holdsOne_cause.monotone (ready_in _ _ _) hs hq
    (hfile.trans (congrArg some leftmost_two))

end DiyDdmin.Multithread
