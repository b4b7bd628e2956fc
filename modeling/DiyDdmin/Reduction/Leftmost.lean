/-
  DiyDdmin.Reduction.Leftmost — cutting out the leftmost range, the longest first.

  Of the ranges of one length that can be cut out the first one is; after a cut one starts
  again at the length of what is left less one, and where none can be cut at the next
  length down.

  Proved: no range of any length short of all of it can be cut out of what is left
  (`leftmost_noCut`); and it is among the outcomes of cutting out any range that fails
  (`leftmost_cutsTo`).
-/

import DiyDdmin.Reduction.Restart

namespace DiyDdmin.Reduction

variable {α : Type*}

/-- Where the first range of length `r` starts that can be cut out. -/
def firstCut (D : List α → Bool) (r : Nat) (T : List α) : Option Nat :=
  (List.range (T.length - r + 1)).find? fun b => D (cut b r T)

section

variable {D : List α → Bool} {T : List α} {r b : Nat}

theorem firstCut_some (hr : r ≤ T.length) (h : firstCut D r T = some b) : b + r ≤ T.length ∧ D (cut b r T) = true := by
  have hmem := List.mem_range.mp (List.mem_of_find?_eq_some h)
  have hD := List.find?_some h
  exact ⟨by omega, hD⟩

theorem firstCut_none (h : firstCut D r T = none) : NoCut D r T := by
  intro b hb
  have := List.find?_eq_none.mp h b (List.mem_range.mpr (by omega))
  simpa using this

theorem length_firstCut (hr : r ≤ T.length) (h : firstCut D r T = some b) : (cut b r T).length = T.length - r :=
  length_cut (firstCut_some hr h).1

end

def leftmost (D : List α → Bool) (T : List α) (r : Nat) : List α :=
  if 0 < r ∧ r < T.length then
    match _ : firstCut D r T with
    | some b => leftmost D (cut b r T) ((cut b r T).length - 1)
    | none => leftmost D T (r - 1)
  else T
termination_by (T.length, r)
decreasing_by
  · have := length_firstCut (D := D) (T := T) (r := r) (by omega) ‹_›
    exact Prod.Lex.left _ _ (by omega)
  · exact Prod.Lex.right _ (by omega)

section

variable {D : List α → Bool} {T : List α} {r : Nat}

theorem leftmost_done (h : ¬ (0 < r ∧ r < T.length)) : leftmost D T r = T := by
  rw [leftmost, if_neg h]

theorem leftmost_some (h0 : 0 < r) (h : r < T.length) {b : Nat} (hb : firstCut D r T = some b) :
    leftmost D T r = leftmost D (cut b r T) ((cut b r T).length - 1) := by
  rw [leftmost, if_pos ⟨h0, h⟩]
  split
  · rename_i b' hb'
    obtain rfl : b' = b := Option.some.inj (hb'.symm.trans hb)
    rfl
  · rename_i hn
    rw [hb] at hn
    cases hn

theorem leftmost_none (h0 : 0 < r) (h : r < T.length) (hn : firstCut D r T = none) : leftmost D T r = leftmost D T (r - 1) := by
  rw [leftmost, if_pos ⟨h0, h⟩]
  split
  · rename_i b hb
    rw [hn] at hb
    cases hb
  · rfl

/-- Beginning where no greater length can be cut out, no length can in the end. -/
theorem leftmost_noCut (hlt : r < T.length ∨ r = 0) (h : ∀ l, r < l → l < T.length → NoCut D l T) :
    ∀ l, 0 < l → l < (leftmost D T r).length → NoCut D l (leftmost D T r) := by
  induction T, r using leftmost.induct D with
  | case1 T r hr b hb ih =>
    rw [leftmost_some hr.1 hr.2 hb]
    exact ih (by omega) fun l h1 h2 => by omega
  | case2 T r hr hn ih =>
    rw [leftmost_none hr.1 hr.2 hn]
    apply ih (by omega)
    intro l h1 h2
    rcases Nat.eq_or_lt_of_le (show r ≤ l by omega) with rfl | hlt
    · exact firstCut_none hn
    · exact h l hlt h2
  | case3 T r hr =>
    rw [leftmost_done hr]
    intro l h0 hl
    exact h l (by omega) hl

theorem leftmost_cutsTo (hlt : r < T.length ∨ r = 0) : CutsTo D (fun _ n => n - 1) T T.length r (leftmost D T r) := by
  induction T, r using leftmost.induct D with
  | case1 T r hr b hb ih =>
    obtain ⟨hle, hD⟩ := firstCut_some hr.2.le hb
    have hlen := length_firstCut hr.2.le hb
    rw [leftmost_some hr.1 hr.2 hb]
    have htake : T.take (T.length : Int).toNat = T := by rw [Int.toNat_natCast, List.take_length]
    refine .accept b (by omega) (by omega) (by rw [htake, Int.toNat_natCast]; exact hD) ?_
    have e1 : (T.length : Int) - r = (cut b r T).length := by omega
    have e2 : ((cut b r T).length : Int) - 1 = ((cut b r T).length - 1 : Nat) := by omega
    rw [htake, Int.toNat_natCast, e1, e2]
    exact ih (by omega)
  | case2 T r hr hn ih =>
    rw [leftmost_none hr.1 hr.2 hn]
    refine .lower (by omega) (by omega) ?_ ?_
    · intro b hb
      rw [Int.toNat_natCast, Int.toNat_natCast, List.take_length]
      exact firstCut_none hn b (by omega)
    · rw [show (r : Int) - 1 = (r - 1 : Nat) by omega]
      exact ih (by omega)
  | case3 T r hr =>
    rw [leftmost_done hr]
    exact .done (by omega)

end

end DiyDdmin.Reduction
