/-
  DiyDdmin.Multithread.Partitions — dealing the places of a round to the threads
  (`test/multithread/range.c`: `partitions`).

  Each thread has an array of `max_range_n` entries, all -1 at first. A running ceiling says
  how many places the next thread gets, and these are stored from the start of its array
  upwards. A store outside an array has no value.

  Proved: no store is outside, and the threads' arrays, -1 left out, make up the places
  `0 ..= f_size - rs`, each once and in order, in shares that differ by one at most
  (`partitions_deal`).
-/

import DiyDdmin.Numeric.Binary32
import DiyDdmin.Reduction.Partition

namespace DiyDdmin.Multithread

open Numeric Reduction

/-- `THREAD_N` -/
abbrev threadN : Nat := 8

/-- `(int)ceilf(((f_size - rs + 1) / (float)THREAD_N))` -/
def maxRangeN (fSize rs : Int) : Int := ceilfDiv (fSize - rs + 1) threadN

/-- `parts[thread_idx][i] = start` -/
def store (part : List Int) (i : Nat) (start : Int) : Option (List Int) :=
  if i < part.length then some (part.set i start) else none

/-- `for (int i = 0; i < range_cnt; i++)` -/
def fill (idx : Int) (part : List Int) : Nat → Option (List Int)
  | 0 => some part
  | i + 1 => do
    let part ← fill idx part i
    store part i (i + idx)

/-- The `do` loop, over the arrays left. -/
def deal (idx maxIdx : Int) : List (List Int) → Option (List (List Int))
  | [] => some []
  | part :: parts => do
    let rangeCnt := ceilfDiv maxIdx (parts.length + 1 : Nat)
    let part ← fill idx part rangeCnt.toNat
    let parts ← deal (idx + rangeCnt) (maxIdx - rangeCnt) parts
    pure (part :: parts)

def partitions (parts : List (List Int)) (fSize rs : Int) : Option (List (List Int)) := deal 0 (toInt (fSize - rs + 1)) parts

/-- The arrays as `range_thread` allocates them. -/
def blank (maxRangeN : Int) : List (List Int) := List.replicate threadN (List.replicate maxRangeN.toNat (-1))

/-! ## One array -/

theorem fill_spec {idx : Int} {part : List Int} : ∀ {k : Nat}, k ≤ part.length →
    fill idx part k = some ((List.range k).map (fun i : Nat => (i : Int) + idx) ++ part.drop k) := by
  intro k
  induction k with
  | zero => intro _; rfl
  | succ k ih =>
    intro hk
    have hlen : ((List.range k).map (fun i : Nat => (i : Int) + idx)).length = k := by simp
    have hlt : k < ((List.range k).map (fun i : Nat => (i : Int) + idx) ++ part.drop k).length := by
      rw [List.length_append, hlen, List.length_drop]
      omega
    rw [fill, ih (by omega)]
    change store _ k (k + idx) = _
    rw [store, if_pos hlt, List.set_append_right _ _ (by omega), hlen, Nat.sub_self, List.range_succ, List.map_append, List.append_assoc]
    congr 2
    rw [List.drop_eq_getElem_cons (by omega), List.set_cons_zero]
    rfl

/-- Array `i` of `n`, with `f` places to deal out and room for `m`. -/
def share (f n m i : Nat) : List Int :=
  (part n (List.range f) i).map Int.ofNat ++ List.replicate (m - size f n i) (-1)

section

variable {f n m i : Nat}

theorem length_part {α : Type*} {X : List α} (hi : i < n) : (part n X i).length = size X.length n i := by
  have := bound_add_size_le (f := X.length) hi
  rw [part, List.length_take, List.length_drop]
  omega

theorem length_share (hi : i < n) (hm : size f n i ≤ m) : (share f n m i).length = m := by
  rw [share, List.length_append, List.length_map, length_part hi, List.length_range, List.length_replicate]
  omega

/-- The places of a share, one after the other. -/
theorem part_range (hi : i < n) : part n (List.range f) i = (List.range (size f n i)).map (· + bound f n i) := by
  have hlen := length_part (X := List.range f) hi
  rw [List.length_range] at hlen
  refine List.ext_getElem (by rw [hlen, List.length_map, List.length_range]) ?_
  intro j h1 h2
  simp only [part, List.length_range, List.getElem_take, List.getElem_drop, List.getElem_range, List.getElem_map]
  omega

theorem size_le_first : size f n i ≤ size f n 0 := by
  unfold size
  split <;> split <;> omega

theorem fill_share (hi : i < n) (hm : size f n i ≤ m) :
    fill (bound f n i) (List.replicate m (-1)) (size f n i) = some (share f n m i) := by
  rw [fill_spec (by rw [List.length_replicate]; exact hm), share, part_range hi, List.map_map, List.drop_replicate]
  congr 2

/-! ## All arrays -/

theorem deal_spec (hf : f ≤ 2 ^ 24) (hn : n ≤ 2 ^ 24) (hm : ∀ i, size f n i ≤ m) : ∀ {k i : Nat}, i + k = n →
    deal (bound f n i) ((f - bound f n i : Nat) : Int) (List.replicate k (List.replicate m (-1))) =
      some ((List.range k).map fun j => share f n m (i + j)) := by
  intro k
  induction k with
  | zero => intro i _; rfl
  | succ k ih =>
    intro i hk
    have hcnt : ceilfDiv ((f - bound f n i : Nat) : Int) ((List.replicate k (List.replicate m (-1 : Int))).length + 1 : Nat) =
        (size f n i : Nat) := by
      rw [List.length_replicate, ceilfDiv_nat (by omega) (by omega) (by omega), ← size_eq_ceil (show i < n by omega)]
      congr 3 <;> omega
    have hnext : (bound f n i : Int) + (size f n i : Nat) = (bound f n (i + 1) : Nat) := by
      rw [bound_succ]
      push_cast
      rfl
    have hleft : ((f - bound f n i : Nat) : Int) - (size f n i : Nat) = (f - bound f n (i + 1) : Nat) := by
      have := bound_add_size_le (f := f) (show i < n by omega)
      rw [bound_succ]
      omega
    rw [List.replicate_succ, deal]
    simp only [hcnt, Int.toNat_natCast, fill_share (show i < n by omega) (hm i), hnext, hleft, ih (show i + 1 + k = n by omega)]
    rw [List.range_succ_eq_map, List.map_cons, List.map_map, Nat.add_zero]
    change some _ = some _
    congr 3
    funext j
    simp only [Function.comp_apply]
    congr 1
    omega

theorem share_places : (share f n m i).filter (· ≠ -1) = (part n (List.range f) i).map Int.ofNat := by
  rw [share, List.filter_append, List.filter_replicate, if_neg (by simp), List.append_nil, List.filter_eq_self]
  intro v hv
  obtain ⟨j, -, rfl⟩ := List.mem_map.mp hv
  simp only [Int.ofNat_eq_natCast, ne_eq, decide_eq_true_eq]
  omega

theorem shares_places (hn : 0 < n) :
    (((List.range n).map (share f n m)).map fun part => part.filter (· ≠ -1)).flatten = (List.range f).map Int.ofNat := by
  have hparts := parts_flatten (X := List.range f) hn
  rw [parts] at hparts
  rw [← hparts, List.map_flatten, List.map_map, List.map_map]
  congr 1
  exact List.map_congr_left fun i _ => share_places

end

/-- How `range_thread` deals out the places of a round. -/
theorem partitions_eq {fSize rs : Nat} (h0 : 0 < rs) (hlt : rs ≤ fSize) (hsmall : fSize ≤ 2 ^ 24) :
    partitions (blank (maxRangeN fSize rs)) fSize rs =
      some ((List.range threadN).map (share (fSize - rs + 1) threadN (maxRangeN fSize rs).toNat)) ∧
    maxRangeN fSize rs = (size (fSize - rs + 1) threadN 0 : Nat) := by
  have hplaces : (fSize : Int) - rs + 1 = (fSize - rs + 1 : Nat) := by omega
  have hmax : maxRangeN fSize rs = (size (fSize - rs + 1) threadN 0 : Nat) := by
    rw [maxRangeN, hplaces, ceilfDiv_nat (by omega) (by decide) (by decide), ← size_eq_ceil (show 0 < threadN by decide)]
    simp only [bound_zero, Nat.sub_zero]
  refine ⟨?_, hmax⟩
  rw [partitions, hplaces, toInt_of_lt (by omega) (by omega), blank, hmax, Int.toNat_natCast]
  have hdeal := deal_spec (f := fSize - rs + 1) (n := threadN) (m := size (fSize - rs + 1) threadN 0) (by omega) (by decide)
    (fun i => size_le_first) (k := threadN) (i := 0) rfl
  simp only [bound_zero, Nat.sub_zero, Nat.zero_add] at hdeal
  exact hdeal

/-- `partitions` stores nothing outside the arrays, and gives every place of the round to one
    thread: the arrays, -1 left out, are the places in order, in almost equal shares. -/
theorem partitions_deal {fSize rs : Nat} (h0 : 0 < rs) (hle : rs ≤ fSize) (hsmall : fSize ≤ 2 ^ 24) :
    ∃ parts, partitions (blank (maxRangeN fSize rs)) fSize rs = some parts ∧ parts.length = threadN ∧
      (∀ part ∈ parts, (part.length : Int) = maxRangeN fSize rs) ∧
      (parts.map fun part => part.filter (· ≠ -1)).flatten = (List.range (fSize - rs + 1)).map Int.ofNat ∧
      ∀ part ∈ parts, ∀ part' ∈ parts, (part.filter (· ≠ -1)).length ≤ (part'.filter (· ≠ -1)).length + 1 := by
  obtain ⟨hdeal, hmax⟩ := partitions_eq h0 hle hsmall
  have hmem : ∀ part ∈ (List.range threadN).map (share (fSize - rs + 1) threadN (maxRangeN fSize rs).toNat),
      ∃ i < threadN, part = share (fSize - rs + 1) threadN (maxRangeN fSize rs).toNat i := by
    intro part hpart
    obtain ⟨i, hi, rfl⟩ := List.mem_map.mp hpart
    exact ⟨i, List.mem_range.mp hi, rfl⟩
  refine ⟨_, hdeal, by rw [List.length_map, List.length_range], ?_, shares_places (by decide), ?_⟩
  · intro part hpart
    obtain ⟨i, hi, rfl⟩ := hmem part hpart
    rw [hmax, Int.toNat_natCast, length_share hi size_le_first]
  · intro p hp p' hp'
    obtain ⟨i, hi, rfl⟩ := hmem p hp
    obtain ⟨j, hj, rfl⟩ := hmem p' hp'
    rw [share_places, share_places, List.length_map, List.length_map, length_part hi, length_part hj, List.length_range]
    exact size_le_size

/-- Ten bytes and ranges of length two: nine places for eight threads. -/
theorem partitions_deal_ten :
    ∃ parts, partitions (blank (maxRangeN 10 2)) 10 2 = some parts ∧
      (parts.map fun part => part.filter (· ≠ -1)).flatten = (List.range 9).map Int.ofNat := by
  obtain ⟨parts, hparts, -, -, hplaces, -⟩ := @partitions_deal 10 2 (by decide) (by decide) (by decide)
  exact ⟨parts, hparts, hplaces⟩

end DiyDdmin.Multithread
