/-
  DiyDdmin.Reduction.Cut — removing a contiguous range from a sequence, and what it
  means for a sequence to be reduced.

  `cut b l T` is `T` without `[b, b + l)`. A sequence is a genuine reduction of `X` when
  it is `X`, or fails and is `X` with at least one element deleted (`Genuine`). It has no
  failing cut of length `l` when every range of that length can be removed without
  failing (`NoCut`), and is 1-minimal when this holds for single elements. Greedy deletion
  (`greedy`) goes through it once and drops each element it can.
-/

import Mathlib.Data.List.Basic

namespace DiyDdmin.Reduction

variable {α : Type*}

def cut (b l : Nat) (T : List α) : List α := T.take b ++ T.drop (b + l)

theorem length_cut {b l : Nat} {T : List α} (h : b + l ≤ T.length) : (cut b l T).length = T.length - l := by
  simp only [cut, List.length_append, List.length_take, List.length_drop]; omega

theorem cut_sublist (b l : Nat) (T : List α) : (cut b l T).Sublist T := by
  conv_rhs => rw [← List.take_append_drop b T]
  exact (List.Sublist.refl _).append (by rw [← List.drop_drop]; exact List.drop_sublist _ _)

theorem cut_one (i : Nat) (T : List α) : cut i 1 T = T.eraseIdx i := (List.eraseIdx_eq_take_drop_succ T i).symm

/-- A longer cut at the same place is contained in a shorter one. -/
theorem cut_sublist_cut {b k l : Nat} (h : k ≤ l) (T : List α) : (cut b l T).Sublist (cut b k T) := by
  have : T.drop (b + l) = (T.drop (b + k)).drop (l - k) := by rw [List.drop_drop]; congr 1; omega
  rw [cut, cut, this]
  exact (List.Sublist.refl _).append (List.drop_sublist _ _)

/-- `Y` is `X`, or fails and is `X` with at least one element deleted, order kept. -/
def Genuine (D : List α → Bool) (X Y : List α) : Prop :=
  Y = X ∨ (D Y = true ∧ Y.Sublist X ∧ Y.length < X.length)

theorem Genuine.sublist {D : List α → Bool} {X Y : List α} (h : Genuine D X Y) : Y.Sublist X := by
  rcases h with rfl | ⟨_, h, _⟩
  · exact List.Sublist.refl _
  · exact h

/-- Deleting more from a genuine reduction and failing is again one. -/
theorem Genuine.shrink {D : List α → Bool} {X Y Z : List α} (h : Genuine D X Y) (hs : Z.Sublist Y)
    (hl : Z.length < Y.length) (hd : D Z = true) : Genuine D X Z :=
  Or.inr ⟨hd, hs.trans h.sublist, Nat.lt_of_lt_of_le hl h.sublist.length_le⟩

/-- No range of length `l` can be removed from `T` without losing the failure. -/
def NoCut (D : List α → Bool) (l : Nat) (T : List α) : Prop := ∀ b, b + l ≤ T.length → D (cut b l T) = false

/-- No single element can be removed without losing the failure. -/
def OneMinimal (D : List α → Bool) (T : List α) : Prop := ∀ i, i < T.length → D (T.eraseIdx i) = false

theorem NoCut.oneMinimal {D : List α → Bool} {T : List α} (h : NoCut D 1 T) : OneMinimal D T :=
  fun i hi => by rw [← cut_one]; exact h i hi

/-- A failing sequence fails inside every sequence that contains it. -/
def Monotone (D : List α → Bool) : Prop := ∀ Y Z : List α, Y.Sublist Z → D Y = true → D Z = true

theorem Monotone.false_of_sublist {D : List α → Bool} (h : Monotone D) {Y Z : List α} (hs : Y.Sublist Z)
    (hz : D Z = false) : D Y = false := by
  cases hy : D Y
  · rfl
  · rw [h Y Z hs hy] at hz; cases hz

/-- Deleting an element of a part leaves a part of the whole without one of its elements. -/
theorem eraseIdx_sublist_eraseIdx {T' T : List α} (h : T'.Sublist T) {i : Nat} (hi : i < T'.length) :
    ∃ j < T.length, (T'.eraseIdx i).Sublist (T.eraseIdx j) := by
  induction h generalizing i with
  | slnil => simp at hi
  | cons x _ ih =>
    obtain ⟨j, hj, hs⟩ := ih hi
    exact ⟨j + 1, by simpa using hj, by simpa using hs.cons x⟩
  | cons_cons x hs ih =>
    cases i with
    | zero => exact ⟨0, by simp, by simpa using hs⟩
    | succ i =>
      obtain ⟨j, hj, hs⟩ := ih (by simpa using hi)
      exact ⟨j + 1, by simpa using hj, by simpa using hs⟩

/-- For a monotone verdict function what holds of single deletions is kept by deleting more. -/
theorem NoCut.sublist {D : List α → Bool} (hD : Monotone D) {T' T : List α} (h : NoCut D 1 T) (hs : T'.Sublist T) : NoCut D 1 T' := by
  intro i hi
  obtain ⟨j, hj, hsub⟩ := eraseIdx_sublist_eraseIdx hs (i := i) (by omega)
  rw [← cut_one, ← cut_one] at hsub
  exact hD.false_of_sublist hsub (h j (by omega))

/-- A cut at `i` after a cut behind it leaves less than a cut at `i` alone. -/
theorem cut_cut_sublist {T : List α} {i b l r : Nat} (h : i ≤ b) (hb : b ≤ T.length) :
    (cut i l (cut b r T)).Sublist (cut i l T) := by
  have htake : (cut b r T).take i = T.take i := by
    rw [cut, List.take_append_of_le_length (by rw [List.length_take]; omega), List.take_take, Nat.min_eq_left h]
  rw [cut, htake]
  exact (List.Sublist.refl _).append ((cut_sublist b r T).drop (i + l))

/-- A cut at `i` after a cut of `r` before it leaves less than a cut at `i + r` alone. -/
theorem cut_cut_sublist_of_le {T : List α} {i b l r : Nat} (h : b ≤ i) (hb : b ≤ T.length) :
    (cut i l (cut b r T)).Sublist (cut (i + r) l T) := by
  have hlen : (T.take b).length = b := by rw [List.length_take]; omega
  have hback : ∀ j, b ≤ j → (cut b r T).drop j = T.drop (j + r) := fun j hj => by
    rw [cut, List.drop_append, List.drop_eq_nil_of_le (by omega), List.nil_append, hlen, List.drop_drop]
    congr 1
    omega
  have hfront : ((cut b r T).take i).Sublist (T.take (i + r)) := by
    have e : (cut b r T).take i = cut b r (T.take (i + r)) := by
      rw [cut, cut, List.take_append, hlen, List.take_of_length_le (by omega), List.take_take, Nat.min_eq_left (by omega),
        List.drop_take]
      congr 2
      omega
    rw [e]
    exact cut_sublist _ _ _
  have hsplit : cut i l (cut b r T) = (cut b r T).take i ++ (cut b r T).drop (i + l) := rfl
  rw [hsplit, hback (i + l) (by omega), show i + l + r = i + r + l by omega]
  exact hfront.append (List.Sublist.refl _)

/-! ## Irreducible sequences -/

/-- Nothing fails that is left of `T` but `T` itself. -/
def Irreducible (D : List α → Bool) (T : List α) : Prop := ∀ Y : List α, Y.Sublist T → D Y = true → Y = T

theorem exists_sublist_eraseIdx {Y T : List α} (hs : Y.Sublist T) (hne : Y ≠ T) : ∃ i < T.length, Y.Sublist (T.eraseIdx i) := by
  induction hs with
  | slnil => exact absurd rfl hne
  | cons x hs _ => exact ⟨0, Nat.zero_lt_succ _, hs⟩
  | cons_cons x _ ih =>
    obtain ⟨i, hi, hsub⟩ := ih fun e => hne (e ▸ rfl)
    exact ⟨i + 1, by simpa using hi, by simpa using hsub.cons_cons x⟩

/-- For a monotone verdict function the single deletions say it all. -/
theorem OneMinimal.irreducible {D : List α → Bool} (hM : Monotone D) {T : List α} (h : OneMinimal D T) : Irreducible D T := by
  intro Y hs hY
  by_contra hne
  obtain ⟨i, hi, hsub⟩ := exists_sublist_eraseIdx hs hne
  have hfail := hM _ _ hsub hY
  rw [h i hi] at hfail
  cases hfail

theorem irreducible_of_short {D : List α → Bool} (h0 : D [] = false) {T : List α} (hl : T.length ≤ 1) : Irreducible D T := by
  intro Y hs hY
  cases Y with
  | nil => rw [h0] at hY; cases hY
  | cons x Y => exact hs.eq_of_length_le (by rw [List.length_cons]; omega)

theorem Irreducible.genuine {D : List α → Bool} {T Y : List α} (h : Irreducible D T) (hg : Genuine D T Y) : Y = T := by
  rcases hg with rfl | ⟨hY, hs, -⟩
  · rfl
  · exact h Y hs hY

/-- A failure has the one cause `c`: what fails is what contains `c`. -/
def Cause (D : List α → Bool) (c : List α) : Prop := ∀ Y : List α, D Y = true ↔ c.Sublist Y

theorem Cause.monotone {D : List α → Bool} {c : List α} (h : Cause D c) : Monotone D := fun Y Z hs hY =>
  (h Z).mpr (((h Y).mp hY).trans hs)

theorem Cause.nil {D : List α → Bool} {c : List α} (h : Cause D c) (hne : c ≠ []) : D [] = false := by
  cases h0 : D [] with
  | false => rfl
  | true => exact absurd (List.sublist_nil.mp ((h []).mp h0)) hne

/-- An irreducible sequence that fails is its cause. -/
theorem Irreducible.eq_cause {D : List α → Bool} {c T : List α} (h : Irreducible D T) (hc : Cause D c) (hT : D T = true) : T = c :=
  (h c ((hc T).mp hT) ((hc c).mpr (List.Sublist.refl c))).symm

/-! ## Greedy deletion -/

/-- What is left of `kept ++ rest` when `rest` is gone through from left to right and each
    element dropped whose removal from what is left then fails. -/
def greedyFrom (D : List α → Bool) (kept : List α) : List α → List α
  | [] => kept
  | x :: rest => if D (kept ++ rest) then greedyFrom D kept rest else greedyFrom D (kept ++ [x]) rest

def greedy (D : List α → Bool) (X : List α) : List α := greedyFrom D [] X

/-- Greedy deletion that has got to place `b` of `T`. -/
def greedyAt (D : List α → Bool) (b : Nat) (T : List α) : List α := greedyFrom D (T.take b) (T.drop b)

theorem greedyAt_zero (D : List α → Bool) (T : List α) : greedyAt D 0 T = greedy D T := rfl

theorem greedyAt_end (D : List α → Bool) {b : Nat} {T : List α} (h : T.length ≤ b) : greedyAt D b T = T := by
  rw [greedyAt, List.take_of_length_le h, List.drop_eq_nil_of_le h, greedyFrom]

theorem greedyAt_drop {D : List α → Bool} {b : Nat} {T : List α} (hb : b < T.length) (h : D (cut b 1 T) = true) :
    greedyAt D b T = greedyAt D b (cut b 1 T) := by
  have hlen : (T.take b).length = b := by rw [List.length_take]; omega
  rw [cut] at h
  rw [greedyAt, greedyAt, List.drop_eq_getElem_cons hb, greedyFrom, if_pos h, cut, List.take_left' hlen, List.drop_left' hlen]

theorem greedyAt_keep {D : List α → Bool} {b : Nat} {T : List α} (hb : b < T.length) (h : D (cut b 1 T) = false) :
    greedyAt D b T = greedyAt D (b + 1) T := by
  rw [cut] at h
  rw [greedyAt, greedyAt, List.drop_eq_getElem_cons hb, greedyFrom, if_neg (by rw [h]; decide), List.take_append_getElem hb]

end DiyDdmin.Reduction
