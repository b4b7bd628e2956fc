/-
  DiyDdmin.Reduction.Partition — cutting a sequence into `n` parts of almost the same size.

  Of `f` elements the first `f % n` parts get `f / n + 1` each and the others `f / n`. A
  running ceiling, which gives the next part the ceiling of what is left over the parts
  left, makes this partition (`size_eq_ceil`).

  Proved: the parts cover the sequence, none is empty if there are elements enough, and
  their sizes differ by one at most; and a sequence that loses one part, whichever it is,
  is cut into `n - 1` parts where it was cut before (`bound_drop`), so that these are the
  other parts, in order (`parts_cut`).
-/

import DiyDdmin.Reduction.Cut
import Mathlib.Tactic.Ring

namespace DiyDdmin.Reduction

/-- Where part `i` of `n` starts. -/
def bound (f n i : Nat) : Nat := f / n * i + min i (f % n)

def size (f n i : Nat) : Nat := f / n + if i < f % n then 1 else 0

section

variable {f n i j : Nat}

@[simp] theorem bound_zero : bound f n 0 = 0 := by simp [bound]

theorem bound_succ : bound f n (i + 1) = bound f n i + size f n i := by
  unfold bound size
  rw [Nat.mul_add, Nat.mul_one]
  split <;> omega

theorem bound_last (hn : 0 < n) : bound f n n = f := by
  have hlt := Nat.mod_lt f hn
  have hdiv := Nat.div_add_mod f n
  rw [bound, Nat.min_eq_right hlt.le, Nat.mul_comm]
  exact hdiv

theorem size_le_size : size f n i ≤ size f n j + 1 := by
  unfold size
  split <;> split <;> omega

theorem size_pos (hn : 0 < n) (h : n ≤ f) : 0 < size f n i := by
  have hq : 0 < f / n := Nat.div_pos h hn
  unfold size
  omega

theorem bound_mono (h : i ≤ j) : bound f n i ≤ bound f n j := by
  induction h with
  | refl => exact Nat.le_refl _
  | step _ ih => rw [bound_succ]; omega

theorem bound_le (hn : 0 < n) (hi : i ≤ n) : bound f n i ≤ f := by
  have := bound_mono (f := f) (n := n) hi
  rwa [bound_last hn] at this

theorem bound_lt (hn : 0 < n) (h : n ≤ f) : bound f n i < bound f n (i + 1) := by
  have := size_pos (i := i) hn h
  rw [bound_succ]
  omega

theorem bound_add_size_le (hi : i < n) : bound f n i + size f n i ≤ f := by
  rw [← bound_succ]
  exact bound_le (by omega) hi

/-- The next part of a running ceiling. -/
theorem size_eq_ceil (hi : i < n) : (f - bound f n i + (n - i) - 1) / (n - i) = size f n i := by
  have hlt := Nat.mod_lt f (show n > 0 by omega)
  have hdiv := Nat.div_add_mod f n
  obtain ⟨k, rfl⟩ : ∃ k, n = i + (k + 1) := ⟨n - i - 1, by omega⟩
  rw [Nat.add_sub_cancel_left]
  unfold bound size
  generalize f / (i + (k + 1)) = q at hdiv ⊢
  generalize f % (i + (k + 1)) = r at hdiv hlt ⊢
  -- `q` for each part left, and one more for the long ones among them
  have hleft : f - (q * i + min i r) = q * (k + 1) + (r - min i r) := by
    have : (i + (k + 1)) * q = q * i + q * (k + 1) := by ring
    omega
  rw [hleft, Nat.div_eq_of_lt_le]
  · split
    · rw [Nat.add_mul]; omega
    · rw [Nat.add_zero]; omega
  · rw [Nat.add_mul _ 1, Nat.add_mul]
    split <;> omega

/-- The partition of `q` elements for each part and `r` more, all parts long if `r = n`. -/
theorem bound_of_split {q r : Nat} (hn : 0 < n) (hf : f = n * q + r) (hr : r ≤ n) (hi : i ≤ n) :
    bound f n i = q * i + min i r := by
  rcases hr.lt_or_eq with hlt | rfl
  · rw [bound, hf, Nat.mul_add_div hn, Nat.div_eq_of_lt hlt, Nat.mul_add_mod, Nat.mod_eq_of_lt hlt, Nat.add_zero]
  · have hf' : f = r * (q + 1) := by rw [hf]; ring
    rw [bound, hf', Nat.mul_div_cancel_left _ hn, Nat.mul_mod_right, Nat.add_mul]
    omega

/-- Without part `i` the bounds before it stay, and those behind it move up. -/
theorem bound_drop (hi : i < n) (hn : 2 ≤ n) (hj : j ≤ n - 1) :
    bound (f - size f n i) (n - 1) j = if j ≤ i then bound f n j else bound f n (j + 1) - size f n i := by
  have hlt := Nat.mod_lt f (show n > 0 by omega)
  have hdiv := Nat.div_add_mod f n
  obtain ⟨k, rfl⟩ : ∃ k, n = k + 1 := ⟨n - 1, by omega⟩
  rw [Nat.add_sub_cancel] at hj ⊢
  rw [Nat.add_mul, Nat.one_mul] at hdiv
  have hmul := Nat.mul_add (f / (k + 1)) j 1
  unfold size
  by_cases hlong : i < f % (k + 1)
  · rw [if_pos hlong]
    rw [bound_of_split (q := f / (k + 1)) (r := f % (k + 1) - 1) (by omega) (by omega) (by omega) hj]
    unfold bound
    split <;> omega
  · rw [if_neg hlong]
    rw [bound_of_split (q := f / (k + 1)) (r := f % (k + 1)) (by omega) (by omega) (by omega) hj]
    unfold bound
    split <;> omega

end

/-! ## Parts -/

variable {α : Type*}

/-- Part `i` of `X`. -/
def part (n : Nat) (X : List α) (i : Nat) : List α := (X.drop (bound X.length n i)).take (size X.length n i)

def parts (n : Nat) (X : List α) : List (List α) := (List.range n).map (part n X)

/-- `X` without part `i`. -/
def without (n : Nat) (X : List α) (i : Nat) : List α := cut (bound X.length n i) (size X.length n i) X

section

variable {n i j : Nat} {X : List α}

theorem length_without (hi : i < n) : (without n X i).length = X.length - size X.length n i :=
  length_cut (bound_add_size_le hi)

/-- The parts make up the sequence. -/
theorem parts_flatten (hn : 0 < n) : (parts n X).flatten = X := by
  have upto : ∀ i ≤ n, ((List.range i).map (part n X)).flatten = X.take (bound X.length n i) := fun i => by
    induction i with
    | zero => intro _; simp
    | succ i ih =>
      intro hi
      have hsplit : X.take (bound X.length n (i + 1)) = X.take (bound X.length n i) ++ part n X i := by
        rw [bound_succ, List.take_add, part]
      rw [List.range_succ, List.map_append, List.flatten_append, ih (by omega), hsplit]
      simp
  have hall := upto n (Nat.le_refl _)
  rwa [bound_last hn, List.take_length] at hall

/-- What is left of a sequence without one part keeps one element for each other part. -/
theorem pred_le_length_without (hi : i < n) (h : n ≤ X.length) : n - 1 ≤ (without n X i).length := by
  have hq : 0 < X.length / n := Nat.div_pos h (by omega)
  have hdiv := Nat.div_add_mod X.length n
  obtain ⟨k, rfl⟩ : ∃ k, n = k + 1 := ⟨n - 1, by omega⟩
  have hk : k * 1 ≤ k * (X.length / (k + 1)) := Nat.mul_le_mul_left k hq
  rw [Nat.add_mul, Nat.one_mul] at hdiv
  rw [length_without hi, size]
  split <;> omega

/-- A stretch before a cut. -/
theorem take_drop_cut_before {b l c m : Nat} (h : c + m ≤ b) (hb : b ≤ X.length) :
    ((cut b l X).drop c).take m = (X.drop c).take m := by
  have hlen : (X.take b).length = b := List.length_take_of_le hb
  rw [cut, List.drop_append_of_le_length (by omega), List.take_append_of_le_length (by rw [List.length_drop]; omega),
    List.drop_take, List.take_take, Nat.min_eq_left (by omega)]

/-- A stretch behind a cut. -/
theorem take_drop_cut_behind {b l c m : Nat} (h : b ≤ c) (hb : b ≤ X.length) :
    ((cut b l X).drop c).take m = (X.drop (c + l)).take m := by
  have hlen : (X.take b).length = b := List.length_take_of_le hb
  rw [cut, List.drop_append, List.drop_of_length_le (l := X.take b) (by omega), List.nil_append, hlen, List.drop_drop]
  congr 2
  omega

/-- What is left of a sequence without one part has the other parts. -/
theorem part_without (hi : i < n) (hj : j < n - 1) : part (n - 1) (without n X i) j = part n X (if j < i then j else j + 1) := by
  have hn : 2 ≤ n := by omega
  have hb := bound_le (f := X.length) (show 0 < n by omega) hi.le
  have hlo := bound_drop (f := X.length) hi hn hj.le
  have hhi := bound_drop (f := X.length) hi hn (show j + 1 ≤ n - 1 by omega)
  rw [bound_succ] at hhi
  unfold part without
  rw [length_cut (bound_add_size_le hi)]
  by_cases hji : j < i
  · rw [if_pos (by omega)] at hlo hhi
    rw [bound_succ] at hhi
    have hsize : size (X.length - size X.length n i) (n - 1) j = size X.length n j := by omega
    have hle := bound_mono (f := X.length) (n := n) (show j + 1 ≤ i from hji)
    rw [bound_succ] at hle
    rw [if_pos hji, hlo, hsize]
    exact take_drop_cut_before hle hb
  · rw [if_neg (by omega)] at hhi
    -- the part moves up by the length of the cut
    have hup : bound (X.length - size X.length n i) (n - 1) j + size X.length n i = bound X.length n (j + 1) := by
      rw [hlo]
      split
      · rw [show j = i by omega, bound_succ]
      · have := bound_mono (f := X.length) (n := n) (show i + 1 ≤ j + 1 by omega)
        rw [bound_succ] at this
        omega
    have hle := bound_mono (f := X.length) (n := n) (show i + 1 ≤ j + 1 by omega)
    have hnext : bound X.length n (j + 1 + 1) = bound X.length n (j + 1) + size X.length n (j + 1) := bound_succ
    rw [bound_succ] at hle
    have hsize : size (X.length - size X.length n i) (n - 1) j = size X.length n (j + 1) := by omega
    rw [if_neg hji, hsize, ← hup]
    exact take_drop_cut_behind (by omega) hb

theorem parts_cut (hi : i < n) : parts (n - 1) (without n X i) = (parts n X).eraseIdx i := by
  refine List.ext_getElem ?_ ?_
  · rw [List.length_eraseIdx]
    simp [parts, hi]
  · intro j h1 h2
    have hj : j < n - 1 := by simpa [parts] using h1
    simp only [parts, List.getElem_map, List.getElem_range, List.getElem_eraseIdx]
    rw [part_without hi hj]
    split <;> simp

end

end DiyDdmin.Reduction
