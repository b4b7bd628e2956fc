/-
  DiyDdmin.Reduction.Count — how many cuts there are to try.

  A sequence of `n` elements has `n - r + 1` ranges of length `r`. `passes m` counts those
  of the `m` longest lengths but the whole, each one place more than the last; `lengths n r`
  those of length `r` and less. A scan that starts again on what an accepted cut of length
  `r` left, with no longer ranges than `r`, tries no more cuts than `restarts n r`; one that
  starts again with the longest ranges there are no more than `rescans n r`.

  Proved: a round without an accepted cut, and one with, are paid for by what is left
  (`restarts_next`, `restarts_cut`, `rescans_next`, `rescans_cut`); all in all `n * n - 2`
  cuts at most (`restarts_le`), or `(n - 1) * n * (n + 4) / 6` (`rescans_all`).
-/

import Mathlib.Tactic.Ring

namespace DiyDdmin.Reduction

def passes : Nat → Nat
  | 0 => 0
  | m + 1 => passes m + (m + 2)

theorem two_passes (m : Nat) : 2 * passes m = m * (m + 3) := by
  induction m with
  | zero => rfl
  | succ m ih =>
    rw [passes, Nat.mul_add, ih]
    ring

theorem passes_mono {m n : Nat} (h : m ≤ n) : passes m ≤ passes n := by
  induction h with
  | refl => exact Nat.le_refl _
  | step _ ih => exact ih.trans (Nat.le_add_right _ _)

/-- Every range of `n` elements but the whole. -/
theorem passes_all (n : Nat) : passes (n - 1) = (n - 1) * (n + 2) / 2 := by
  cases n with
  | zero => rfl
  | succ n =>
    have h := two_passes n
    rw [Nat.add_sub_cancel, show n + 1 + 2 = n + 3 from rfl]
    omega

def lengths (n : Nat) : Nat → Nat
  | 0 => 0
  | r + 1 => lengths n r + (n - r)

theorem lengths_zero (r : Nat) : lengths 0 r = 0 := by
  induction r with
  | zero => rfl
  | succ r ih => rw [lengths, ih, Nat.zero_sub]

theorem lengths_mono {n r r' : Nat} (h : r ≤ r') : lengths n r ≤ lengths n r' := by
  induction h with
  | refl => exact Nat.le_refl _
  | step _ ih => exact ih.trans (Nat.le_add_right _ _)

theorem lengths_lt {m n r : Nat} (h : m < n) (hr : 0 < r) : lengths m r < lengths n r := by
  induction r with
  | zero => omega
  | succ r ih =>
    rw [lengths, lengths]
    rcases Nat.eq_zero_or_pos r with rfl | h0
    · rw [lengths, lengths, Nat.sub_zero, Nat.sub_zero, Nat.zero_add, Nat.zero_add]
      exact h
    · have := ih h0
      omega

theorem lengths_round {n r : Nat} (hr : 0 < r) (h : r < n) : n - r + 1 + lengths n (r - 1) = lengths n r := by
  cases r with
  | zero => omega
  | succ k =>
    rw [Nat.add_sub_cancel, lengths]
    omega

/-- The ranges longer than `r` are the passes that come first. -/
theorem lengths_passes {n r : Nat} (h : r < n) : lengths n r + passes (n - r - 1) = passes (n - 1) := by
  induction r with
  | zero => rw [lengths, Nat.zero_add, Nat.sub_zero]
  | succ r ih =>
    rw [← ih (by omega), lengths, show n - r - 1 = (n - (r + 1) - 1) + 1 by omega, passes]
    omega

/-- The cuts that may be tried from here on, `r` being the longest range still to be tried
    in `n` elements. -/
def restarts (n r : Nat) : Nat := if r = 0 then 0 else lengths n r + passes (n - 2)

section

variable {n r : Nat}

/-- A round of ranges of length `r` is paid for. -/
theorem places_le (hr : 0 < r) (h : r < n) : n - r + 1 ≤ restarts n r := by
  rw [restarts, if_neg hr.ne', ← lengths_round hr h]
  omega

/-- A round that accepts nothing. -/
theorem restarts_next (hr : 0 < r) (h : r < n) : n - r + 1 + restarts n (r - 1) ≤ restarts n r := by
  by_cases hone : r - 1 = 0
  · rw [hone]
    exact places_le hr h
  · rw [restarts, restarts, if_neg hone, if_neg hr.ne', ← lengths_round hr h]
    omega

/-- A round that accepts a cut. -/
theorem restarts_cut (hr : 0 < r) (h : r < n) : n - r + 1 + restarts (n - r) (min r (n - r - 1)) ≤ restarts n r := by
  by_cases hone : min r (n - r - 1) = 0
  · rw [hone]
    exact places_le hr h
  · have hlen : lengths (n - r) (min r (n - r - 1)) < lengths n r :=
      (lengths_lt (by omega) (by omega)).trans_le (lengths_mono (Nat.min_le_left _ _))
    have hpass : passes (n - r - 2) ≤ passes (n - 3) := passes_mono (by omega)
    have hstep : passes (n - 2) = passes (n - 3) + (n - 1) := by
      rw [show n - 2 = (n - 3) + 1 by omega, passes]
      omega
    rw [restarts, restarts, if_neg hone, if_neg (by omega)]
    omega

/-- The whole scan. -/
theorem restarts_le (n : Nat) : restarts n (n - 1) ≤ n * n - 2 := by
  by_cases h : n ≤ 1
  · rw [restarts, if_pos (by omega)]
    exact Nat.zero_le _
  · obtain ⟨m, rfl⟩ : ∃ m, n = m + 2 := ⟨n - 2, by omega⟩
    have h1 := lengths_passes (n := m + 2) (r := m + 1) (by omega)
    have h2 := two_passes (m + 1)
    have h3 := two_passes m
    have hsq : (m + 1) * (m + 1 + 3) + m * (m + 3) + 4 = 2 * ((m + 2) * (m + 2)) := by ring
    rw [show m + 2 - (m + 1) - 1 = 0 by omega, passes, Nat.add_zero] at h1
    rw [show m + 2 - 1 = m + 1 from rfl] at h1
    rw [restarts, if_neg (by omega), show m + 2 - 1 = m + 1 from rfl, show m + 2 - 2 = m from rfl]
    omega

/-! ## Starting again with the longest ranges -/

/-- The ranges of a sequence of each smaller length, but the wholes. -/
def shorter : Nat → Nat
  | 0 => 0
  | n + 1 => shorter n + passes (n - 1)

theorem shorter_mono {m n : Nat} (h : m ≤ n) : shorter m ≤ shorter n := by
  induction h with
  | refl => exact Nat.le_refl _
  | step _ ih => exact ih.trans (Nat.le_add_right _ _)

theorem six_shorter (m : Nat) : 6 * shorter (m + 2) = m * (m + 1) * (m + 5) := by
  induction m with
  | zero => rfl
  | succ m ih =>
    have hpass := two_passes (m + 1)
    calc
      6 * shorter (m + 3) = 6 * shorter (m + 2) + 3 * (2 * passes (m + 1)) := by
        rw [shorter, show m + 2 - 1 = m + 1 from rfl]
        ring
      _ = m * (m + 1) * (m + 5) + 3 * ((m + 1) * (m + 4)) := by rw [ih, hpass]
      _ = (m + 1) * (m + 1 + 1) * (m + 1 + 5) := by ring

def rescans (n r : Nat) : Nat := lengths n r + shorter n

theorem lengths_all (n : Nat) : lengths n (n - 1) = passes (n - 1) := by
  cases n with
  | zero => rfl
  | succ n =>
    have h := lengths_passes (n := n + 1) (r := n) (Nat.lt_succ_self n)
    rwa [show n + 1 - n - 1 = 0 by omega, passes, Nat.add_zero] at h

theorem rescans_next (hr : 0 < r) (h : r < n) : n - r + 1 + rescans n (r - 1) = rescans n r := by
  rw [rescans, rescans, ← lengths_round hr h]
  omega

theorem rescans_cut (hr : 0 < r) (h : r < n) : n - r + 1 + rescans (n - r) (n - r - 1) ≤ rescans n r := by
  have hround := lengths_round hr h
  have hmono : shorter (n - r + 1) ≤ shorter n := shorter_mono (by omega)
  rw [shorter] at hmono
  rw [rescans, rescans, lengths_all]
  omega

theorem rescans_all (n : Nat) : rescans n (n - 1) = (n - 1) * n * (n + 4) / 6 := by
  cases n with
  | zero => rfl
  | succ n =>
    have h := six_shorter n
    rw [rescans, lengths_all, Nat.add_comm, show n + 1 - 1 = n from rfl, show n + 1 + 4 = n + 5 from rfl, ← h,
      Nat.mul_div_cancel_left _ (by decide)]
    rfl

end

end DiyDdmin.Reduction
