/-
  DiyDdmin.Reduction.Restart — cutting out ranges, the longest first.

  Of the first `n` elements of a sequence one cuts out some range of length `r` that fails,
  or goes on with `r - 1` where none does; after a cut one starts again on what is left, at
  a length that a policy `restart` gives for the cut's length and the new size. `CutsTo`
  says what may be left in the end, over all choices among the ranges that fail.

  Proved: for a monotone verdict function all policies that start again at the length of
  the cut or later have the same outcomes (`cutsTo_congr`), since no range longer than the
  last one cut out fails any more (`LongPass.cut`).
-/

import DiyDdmin.Reduction.Cut
import Mathlib.Algebra.Order.Group.Int

namespace DiyDdmin.Reduction

variable {α : Type*}

section

variable (D : List α → Bool)

/-- No range of length `r` of the first `n` elements can be cut out. -/
def AllPass (T : List α) (n r : Int) : Prop := ∀ b : Nat, b + r ≤ n → D (cut b r.toNat (T.take n.toNat)) = false

/-- `U` may be left of the first `n` elements of `T`, beginning at length `r`. -/
inductive CutsTo (restart : Int → Int → Int) : List α → Int → Int → List α → Prop
  | done {T : List α} {n r : Int} : r ≤ 0 → CutsTo restart T n r T
  | lower {T U : List α} {n r : Int} : 0 < r → r ≤ n → AllPass D T n r → CutsTo restart T n (r - 1) U → CutsTo restart T n r U
  | accept {T U : List α} {n r : Int} (b : Nat) : 0 < r → b + r ≤ n → D (cut b r.toNat (T.take n.toNat)) = true →
      CutsTo restart (cut b r.toNat (T.take n.toNat)) (n - r) (restart r (n - r)) U → CutsTo restart T n r U

/-- No range longer than `r`, short of all `n` elements, can be cut out. -/
def LongPass (T : List α) (n r : Int) : Prop := ∀ l, r < l → l < n → AllPass D T n l

end

/-- Starting again at the length of the cut, or at any greater one short of all. -/
def Enough (restart : Int → Int → Int) : Prop := ∀ r n, 0 < r → 0 < n → min r (n - 1) ≤ restart r n ∧ restart r n < n

variable {D : List α → Bool} {restart restart' : Int → Int → Int} {T U : List α} {n r r' : Int}

/-! ## Lengths at which nothing fails -/

theorem cutsTo_done (h : r ≤ 0) : CutsTo D restart T n r U ↔ U = T := by
  constructor
  · intro ho
    cases ho with
    | done _ => rfl
    | lower h0 _ _ _ => omega
    | accept b h0 _ _ _ => omega
  · rintro rfl
    exact .done h

/-- From a length greater than the size one gets nowhere. -/
theorem cutsTo_short (h0 : 0 < r) (hn : n < r) : ¬ CutsTo D restart T n r U := by
  intro ho
  cases ho with
  | done h => omega
  | lower _ hle _ _ => omega
  | accept b _ hb _ _ => omega

/-- A length at which nothing fails is passed over. -/
theorem cutsTo_lower (h0 : 0 < r) (hn : r ≤ n) (hq : AllPass D T n r) :
    CutsTo D restart T n r U ↔ CutsTo D restart T n (r - 1) U := by
  constructor
  · intro ho
    cases ho with
    | done h => omega
    | lower _ _ _ ho => exact ho
    | accept b _ hb hD _ =>
      rw [hq b hb] at hD
      cases hD
  · exact .lower h0 hn hq

theorem cutsTo_skip (h0 : 0 ≤ r) (hle : r ≤ r') (hn : r' ≤ n) (hq : ∀ l, r < l → l ≤ r' → AllPass D T n l) :
    CutsTo D restart T n r' U ↔ CutsTo D restart T n r U := by
  obtain ⟨k, rfl⟩ : ∃ k : Nat, r' = r + k := ⟨(r' - r).toNat, by omega⟩
  induction k with
  | zero => simp
  | succ k ih =>
    have hlast : CutsTo D restart T n (r + (k + 1 : Nat)) U ↔ CutsTo D restart T n (r + (k + 1 : Nat) - 1) U :=
      cutsTo_lower (by omega) hn (hq _ (by omega) (by omega))
    rw [hlast, show r + ((k + 1 : Nat) : Int) - 1 = r + k by omega]
    exact ih (by omega) (by omega) fun l h1 h2 => hq l h1 (by omega)

/-! ## Monotone verdict functions -/

theorem length_cut_take {b : Nat} (hn : n ≤ T.length) (hr : 0 < r) (hb : b + r ≤ n) :
    ((cut b r.toNat (T.take n.toNat)).length : Int) = n - r := by
  have hlen : (T.take n.toNat).length = n.toNat := by rw [List.length_take]; omega
  rw [length_cut (by omega), hlen]
  omega

/-- What is left by a cut has no failing range longer than the cut: without one there would
    be one before it. -/
theorem LongPass.cut (hM : Monotone D) (h : LongPass D T n r) {b : Nat} (hn : n ≤ T.length) (hr : 0 < r) (hb : b + r ≤ n) :
    LongPass D (cut b r.toNat (T.take n.toNat)) (n - r) r := by
  intro l h1 h2 i hi
  have hlen : (T.take n.toNat).length = n.toNat := by rw [List.length_take]; omega
  rw [List.take_of_length_le (by have := length_cut_take hn hr hb; omega)]
  rcases Nat.le_total i b with hib | hbi
  · exact hM.false_of_sublist (cut_cut_sublist hib (by omega)) (h l h1 (by omega) i (by omega))
  · refine hM.false_of_sublist (cut_cut_sublist_of_le hbi (by omega)) (h l h1 (by omega) (i + r.toNat) ?_)
    push_cast
    omega

/-- Wherever one starts again, from the length of the cut on, the outcomes are the same. -/
theorem cutsTo_congr (hM : Monotone D) (hE : Enough restart) (hE' : Enough restart') (h : CutsTo D restart T n r U)
    (hn : n ≤ T.length) (hr : r < n) (hl : LongPass D T n r) : CutsTo D restart' T n r U := by
  induction h with
  | done h0 => exact .done h0
  | @lower T U n r h0 hle hq _ ih =>
    refine .lower h0 hle hq (ih hn (by omega) ?_)
    intro l h1 h2
    rcases eq_or_lt_of_le (show r ≤ l by omega) with rfl | hlt
    · exact hq
    · exact hl l hlt h2
  | @accept T U n r b h0 hb hD _ ih =>
    have hlen := length_cut_take hn h0 hb
    have hleft := hl.cut hM hn h0 hb
    obtain ⟨h1, h2⟩ := hE r (n - r) h0 (by omega)
    obtain ⟨h1', h2'⟩ := hE' r (n - r) h0 (by omega)
    -- both policies start where no greater length fails
    have skip : ∀ {restart'' : Int → Int → Int} {k : Int}, min r (n - r - 1) ≤ k → k < n - r →
        (CutsTo D restart'' (cut b r.toNat (T.take n.toNat)) (n - r) k U ↔
          CutsTo D restart'' (cut b r.toNat (T.take n.toNat)) (n - r) (min r (n - r - 1)) U) := fun hlo hhi =>
      cutsTo_skip (by omega) hlo hhi.le fun l hl1 hl2 => hleft l (by omega) (by omega)
    have hrest := ih (by omega) h2 fun l hl1 hl2 => hleft l (by omega) hl2
    exact .accept b h0 hb hD ((skip h1' h2').mpr ((skip h1 h2).mp hrest))

end DiyDdmin.Reduction
