/-
  DiyDdmin.Numeric.Binary32 — single-precision division rounded up, and the narrowing of
  a 64-bit integer to 32 bits.

  `binary32 q` is the nearest multiple of `q`'s unit in the last place, ties to even: the
  value of `(float) q` for every `q` within the exponent range. `ceilf (a / b)` on two
  integers is the ceiling of the rounded quotient of the two rounded integers.

  Proved: on integers up to 2^24 the rounding of the operands is the identity
  (`binary32_int`), and the rounding of the quotient never moves it onto or across an
  integer, so the ceiling is the exact one (`ceilfDiv_eq`). On integers of any size rounding
  is monotone, commutes with scaling by a power of two and is off by one part in 2^24 at
  most, so a quotient of no more than `2 ^ j` is not rounded up beyond it (`ceilfDiv_le`)
  and a small one not down to the integer below it (`le_ceilfDiv`).
-/

import Mathlib.Data.Int.Log
import Mathlib.Data.Rat.Floor
import Mathlib.Algebra.Order.Floor.Ring
import Mathlib.Tactic.Linarith
import Mathlib.Tactic.FieldSimp
import Mathlib.Tactic.Ring

namespace DiyDdmin.Numeric

/-- The 32-bit two's complement value of `x`: what storing a `long` in an `int` gives. -/
@[irreducible] def toInt (x : Int) : Int := x.bmod (2 ^ 32)

theorem toInt_of_lt {x : Int} (h0 : -2 ^ 31 ≤ x) (h1 : x < 2 ^ 31) : toInt x = x := by
  unfold toInt
  rw [Int.bmod_def]
  split <;> omega

theorem toInt_le {x : Int} (h : 0 ≤ x) : toInt x ≤ x := by
  unfold toInt
  rw [Int.bmod_def]
  split <;> omega

theorem toInt_lt (x : Int) : toInt x < 2 ^ 31 := by
  unfold toInt
  rw [Int.bmod_def]
  split <;> omega

theorem toInt_pred {x : Int} (h : toInt x ≠ -2 ^ 31) : toInt (x - 1) = toInt x - 1 := by
  unfold toInt at h ⊢
  simp only [Int.bmod_def] at h ⊢
  split_ifs at h ⊢ <;> omega

theorem toInt_pred_min {x : Int} (h : toInt x = -2 ^ 31) : toInt (x - 1) = 2 ^ 31 - 1 := by
  unfold toInt at h ⊢
  simp only [Int.bmod_def] at h ⊢
  split_ifs at h ⊢ <;> omega

/-- The nearest integer, ties to even. -/
def roundEven (q : ℚ) : ℤ :=
  if q - ⌊q⌋ < 1 / 2 then ⌊q⌋
  else if 1 / 2 < q - ⌊q⌋ then ⌊q⌋ + 1
  else if ⌊q⌋ % 2 = 0 then ⌊q⌋ else ⌊q⌋ + 1

/-- The unit in the last place of a 24-bit significand for a value of `q`'s magnitude. -/
def ulp (q : ℚ) : ℚ := 2 ^ (Int.log 2 |q| - 23)

def binary32 (q : ℚ) : ℚ := roundEven (q / ulp q) * ulp q

/-- `ceilf((float) a / (float) b)`. -/
def ceilfDiv (a b : ℤ) : ℤ := ⌈binary32 (binary32 a / binary32 b)⌉

theorem ulp_pos (q : ℚ) : 0 < ulp q := zpow_pos (by norm_num) _

theorem ulp_eq {q : ℚ} (h : 0 < q) : 2 ^ 23 * ulp q = 2 ^ Int.log 2 q := by
  rw [ulp, abs_of_pos h, zpow_sub₀ (by norm_num), mul_comm]
  norm_num

/-- The significand of a positive value has 24 bits. -/
theorem ulp_bounds {q : ℚ} (h : 0 < q) : 2 ^ 23 * ulp q ≤ q ∧ q < 2 ^ 24 * ulp q := by
  have hlo : (2 : ℚ) ^ Int.log 2 q ≤ q := by exact_mod_cast Int.zpow_log_le_self (b := 2) (by norm_num) h
  have hhi : q < (2 : ℚ) ^ (Int.log 2 q + 1) := by exact_mod_cast Int.lt_zpow_succ_log_self (b := 2) (by norm_num) q
  rw [zpow_add₀ (by norm_num), zpow_one, ← ulp_eq h] at hhi
  exact ⟨ulp_eq h ▸ hlo, by linarith⟩

theorem roundEven_le {q : ℚ} {m : ℤ} (h : q ≤ m) : roundEven q ≤ m := by
  have hf : ⌊q⌋ ≤ m := Int.floor_le_iff.mpr (by linarith)
  unfold roundEven
  by_cases hq : q = m
  · subst hq; simp
  · have hlt : ⌊q⌋ < m := Int.floor_lt.mpr (lt_of_le_of_ne h hq)
    split_ifs <;> omega

theorem lt_roundEven {q : ℚ} {m : ℤ} (h : (m : ℚ) + 1 / 2 < q) : m < roundEven q := by
  have hf : m ≤ ⌊q⌋ := Int.le_floor.mpr (by linarith)
  unfold roundEven
  rcases hf.lt_or_eq with hlt | rfl
  · split_ifs <;> omega
  · rw [if_neg (by linarith), if_pos (by linarith)]; omega

@[simp] theorem roundEven_int (m : ℤ) : roundEven (m : ℚ) = m := by simp [roundEven]

/-- A value that is a whole number of its own units is not moved. -/
theorem binary32_of_multiple {q : ℚ} {m : ℤ} (h : q = m * ulp q) : binary32 q = q := by
  have hu := (ulp_pos q).ne'
  have hm : q / ulp q = m := by rw [eq_comm, eq_div_iff hu, ← h]
  rw [binary32, hm, roundEven_int, ← h]

theorem log_lt {q : ℚ} (h0 : 0 < q) {k : ℤ} (h : q < 2 ^ k) : Int.log 2 q < k :=
  (Int.lt_zpow_iff_log_lt (by norm_num) h0).mp (by exact_mod_cast h)

/-- Below 2^24 the unit divides one. -/
theorem ulp_dvd_one {q : ℚ} (h0 : 0 < q) (h : q < 2 ^ 24) : ∃ j : ℕ, (2 : ℚ) ^ j * ulp q = 1 := by
  have hl : Int.log 2 |q| < 24 := log_lt (abs_pos.mpr h0.ne') (by rw [abs_of_pos h0]; exact_mod_cast h)
  obtain ⟨j, hj⟩ := Int.eq_ofNat_of_zero_le (a := 23 - Int.log 2 |q|) (by omega)
  refine ⟨j, ?_⟩
  have he : Int.log 2 |q| - 23 = -(j : ℤ) := by omega
  rw [ulp, he, zpow_neg, zpow_natCast, mul_inv_cancel₀ (by positivity)]

theorem multiple_of_int {q : ℚ} (h0 : 0 < q) (h : q < 2 ^ 24) (m : ℤ) : ∃ z : ℤ, (m : ℚ) = z * ulp q := by
  obtain ⟨j, hj⟩ := ulp_dvd_one h0 h
  refine ⟨m * 2 ^ j, ?_⟩
  push_cast
  rw [mul_assoc, hj, mul_one]

theorem binary32_int {a : ℤ} (h0 : 0 ≤ a) (h : a ≤ 2 ^ 24) : binary32 a = a := by
  rcases h0.lt_or_eq with h0 | rfl
  · have hq : (0 : ℚ) < a := by exact_mod_cast h0
    rcases h.lt_or_eq with h | rfl
    · obtain ⟨z, hz⟩ := multiple_of_int hq (by exact_mod_cast h) a
      exact binary32_of_multiple hz
    · have hl : Int.log 2 |((2 ^ 24 : ℤ) : ℚ)| = 24 := by
        rw [show |((2 ^ 24 : ℤ) : ℚ)| = (2 : ℕ) ^ (24 : ℤ) by norm_num, Int.log_zpow (by norm_num)]
      apply binary32_of_multiple (m := 2 ^ 23)
      rw [ulp, hl]; norm_num
  · simp [binary32, roundEven]

/-- The rounded quotient of two integers up to 2^24 lies strictly above the floor of the
    exact one unless that is an integer: half a unit is less than one part in `b`. -/
theorem floor_lt_binary32 {a b : ℤ} (ha : a ≤ 2 ^ 24) (hb : 0 < b) (h0 : 0 < a)
    (hq : (a : ℚ) / b < 2 ^ 24) {k : ℤ} (hk : (k : ℚ) < a / b)
    (hpow : ∀ e : ℤ, (a : ℚ) / b ≠ 2 ^ e ∨ a < 2 ^ 24) : (k : ℚ) < binary32 (a / b) := by
  have hbq : (0 : ℚ) < b := by exact_mod_cast hb
  have haq : (0 : ℚ) < a := by exact_mod_cast h0
  have hpos : (0 : ℚ) < a / b := div_pos haq hbq
  obtain ⟨z, hz⟩ := multiple_of_int hpos hq k
  have hu := ulp_pos ((a : ℚ) / b)
  -- one part in `b`
  have hgap : (k : ℚ) + 1 / b ≤ a / b := by
    rw [lt_div_iff₀ hbq] at hk
    have : k * b + 1 ≤ a := by exact_mod_cast hk
    rw [le_div_iff₀ hbq, add_mul, one_div, inv_mul_cancel₀ hbq.ne']
    exact_mod_cast this
  -- half a unit is below one part in `b`
  have hhalf : ulp ((a : ℚ) / b) / 2 < 1 / b := by
    have hle := (ulp_bounds hpos).1
    rw [lt_div_iff₀ hbq]
    rcases hpow (Int.log 2 ((a : ℚ) / b)) with hne | hlt
    · have hlt := lt_of_le_of_ne hle fun e => hne (e.symm.trans (ulp_eq hpos))
      rw [lt_div_iff₀ hbq] at hlt
      have ha' : (a : ℚ) ≤ 2 ^ 24 := by exact_mod_cast ha
      linarith
    · rw [le_div_iff₀ hbq] at hle
      have ha' : (a : ℚ) < 2 ^ 24 := by exact_mod_cast hlt
      linarith
  have hround : z < roundEven ((a : ℚ) / b / ulp ((a : ℚ) / b)) := by
    apply lt_roundEven
    rw [lt_div_iff₀ hu, add_mul, ← hz]
    linarith
  calc (k : ℚ) = z * ulp ((a : ℚ) / b) := hz
    _ < roundEven ((a : ℚ) / b / ulp ((a : ℚ) / b)) * ulp ((a : ℚ) / b) := by
      exact mul_lt_mul_of_pos_right (by exact_mod_cast hround) hu
    _ = binary32 (a / b) := rfl

theorem binary32_le_int {q : ℚ} (h0 : 0 < q) (h : q < 2 ^ 24) {m : ℤ} (hm : q ≤ m) : binary32 q ≤ m := by
  obtain ⟨z, hz⟩ := multiple_of_int h0 h m
  have hu := ulp_pos q
  have : roundEven (q / ulp q) ≤ z := roundEven_le (by rw [div_le_iff₀ hu, ← hz]; exact hm)
  calc binary32 q = roundEven (q / ulp q) * ulp q := rfl
    _ ≤ z * ulp q := mul_le_mul_of_nonneg_right (by exact_mod_cast this) hu.le
    _ = m := hz.symm

/-- On integers up to 2^24, `ceilf((float) a / (float) b)` is the exact ceiling. -/
theorem ceilfDiv_eq {a b : ℤ} (h0 : 0 ≤ a) (ha : a ≤ 2 ^ 24) (hb0 : 0 < b) (hb : b ≤ 2 ^ 24) :
    ceilfDiv a b = ⌈(a : ℚ) / b⌉ := by
  have hbq : (0 : ℚ) < b := by exact_mod_cast hb0
  rw [ceilfDiv, binary32_int h0 ha, binary32_int hb0.le hb]
  rcases h0.lt_or_eq with h0 | rfl
  swap
  · simp [binary32, roundEven]
  have haq : (0 : ℚ) < a := by exact_mod_cast h0
  by_cases hint : ∃ m : ℤ, (a : ℚ) / b = m
  · obtain ⟨m, hm⟩ := hint
    have hm0 : (0 : ℚ) ≤ m := by rw [← hm]; positivity
    have hmle : m ≤ 2 ^ 24 := by
      have : (m : ℚ) ≤ a := by rw [← hm, div_le_iff₀ hbq]; exact le_mul_of_one_le_right haq.le (by exact_mod_cast hb0)
      have : m ≤ a := by exact_mod_cast this
      omega
    rw [hm, binary32_int (by exact_mod_cast hm0) hmle]
  · have hlt : (a : ℚ) / b < 2 ^ 24 := by
      have hle : (a : ℚ) / b ≤ 2 ^ 24 := by
        rw [div_le_iff₀ hbq]
        have h1 : (a : ℚ) ≤ 2 ^ 24 := by exact_mod_cast ha
        have h2 : (1 : ℚ) ≤ b := by exact_mod_cast hb0
        linarith [mul_le_mul_of_nonneg_left h2 (by norm_num : (0 : ℚ) ≤ 2 ^ 24)]
      exact lt_of_le_of_ne hle fun h => hint ⟨2 ^ 24, by exact_mod_cast h⟩
    have hpos : (0 : ℚ) < a / b := div_pos haq hbq
    have hpow : ∀ e : ℤ, (a : ℚ) / b ≠ 2 ^ e ∨ a < 2 ^ 24 := by
      intro e
      by_cases he : (a : ℚ) / b = 2 ^ e
      · -- a power of two that is no integer is at most 1/2, so `a < b`
        right
        have hneg : e < 0 := by
          by_contra hge
          obtain ⟨j, rfl⟩ := Int.eq_ofNat_of_zero_le (not_lt.mp hge)
          exact hint ⟨2 ^ j, by rw [he]; push_cast; exact zpow_natCast _ _⟩
        have hone : (a : ℚ) / b < 1 := by rw [he]; exact zpow_lt_one_of_neg₀ (by norm_num) hneg
        rw [div_lt_one hbq] at hone
        have : a < b := by exact_mod_cast hone
        omega
      · exact Or.inl he
    rw [Int.ceil_eq_iff]
    have hc := Int.ceil_eq_iff.mp (rfl : ⌈(a : ℚ) / b⌉ = _)
    refine ⟨?_, binary32_le_int hpos hlt hc.2⟩
    have := floor_lt_binary32 (k := ⌈(a : ℚ) / b⌉ - 1) ha hb0 h0 hlt (by push_cast; exact hc.1) hpow
    push_cast at this
    exact this

/-- The exact ceiling on naturals. -/
theorem ceilfDiv_nat {a b : ℕ} (ha : a ≤ 2 ^ 24) (hb0 : 0 < b) (hb : b ≤ 2 ^ 24) :
    ceilfDiv a b = ((a + b - 1) / b : ℕ) := by
  rw [ceilfDiv_eq (by omega) (by omega) (by omega) (by omega), Int.ceil_eq_iff]
  have hbq : (0 : ℚ) < b := by exact_mod_cast hb0
  have h1 : (a + b - 1) / b * b ≤ a + b - 1 := Nat.div_mul_le_self _ _
  have h2 : a + b - 1 < (a + b - 1) / b * b + b := Nat.lt_div_mul_add hb0
  generalize (a + b - 1) / b = c at h1 h2
  constructor
  · have : c * b < a + b := by omega
    rw [sub_lt_iff_lt_add, Int.cast_natCast, Int.cast_natCast, Int.cast_natCast, div_add_one hbq.ne',
      lt_div_iff₀ hbq]
    exact_mod_cast this
  · have : a ≤ c * b := by omega
    rw [Int.cast_natCast, Int.cast_natCast, Int.cast_natCast, div_le_iff₀ hbq]
    exact_mod_cast this

/-! ## All sizes -/

theorem le_roundEven {q : ℚ} {m : ℤ} (h : (m : ℚ) ≤ q) : m ≤ roundEven q := by
  have hf : m ≤ ⌊q⌋ := Int.le_floor.mpr h
  unfold roundEven
  split_ifs <;> omega

theorem roundEven_mono {p q : ℚ} (h : p ≤ q) : roundEven p ≤ roundEven q := by
  rcases (Int.floor_le_floor h).lt_or_eq with hlt | heq
  · calc roundEven p ≤ ⌊p⌋ + 1 := roundEven_le (by push_cast; exact (Int.lt_floor_add_one p).le)
      _ ≤ ⌊q⌋ := hlt
      _ ≤ roundEven q := le_roundEven (Int.floor_le q)
  · unfold roundEven
    rw [heq]
    split_ifs <;> first | omega | linarith

/-- A whole number is at most half away. -/
theorem abs_roundEven_sub_le (q : ℚ) : |(roundEven q : ℚ) - q| ≤ 1 / 2 := by
  have h0 := Int.floor_le q
  have h1 := Int.lt_floor_add_one q
  unfold roundEven
  rw [abs_le]
  split_ifs <;> push_cast <;> constructor <;> linarith

theorem ulp_mul_two_pow {q : ℚ} (h : 0 < q) (j : ℕ) : ulp (2 ^ j * q) = 2 ^ j * ulp q := by
  have hpos : (0 : ℚ) < 2 ^ j * q := by positivity
  have hlo : (2 : ℚ) ^ Int.log 2 q ≤ q := by exact_mod_cast Int.zpow_log_le_self (b := 2) (by norm_num) h
  have hhi : q < (2 : ℚ) ^ (Int.log 2 q + 1) := by exact_mod_cast Int.lt_zpow_succ_log_self (b := 2) (by norm_num) q
  have hlog : Int.log 2 (2 ^ j * q) = Int.log 2 q + j := by
    apply le_antisymm
    · have : Int.log 2 (2 ^ j * q) < Int.log 2 q + 1 + j := by
        apply log_lt hpos
        rw [zpow_add₀ (by norm_num) _ (j : ℤ), zpow_natCast, mul_comm]
        exact mul_lt_mul_of_pos_right hhi (by positivity)
      omega
    · refine (Int.zpow_le_iff_le_log (by norm_num) hpos).mp ?_
      rw [Nat.cast_ofNat, zpow_add₀ (by norm_num), zpow_natCast, mul_comm]
      exact mul_le_mul_of_nonneg_left hlo (by positivity)
  rw [ulp, ulp, abs_of_pos hpos, abs_of_pos h, hlog, show Int.log 2 q + j - 23 = j + (Int.log 2 q - 23) by ring,
    zpow_add₀ (by norm_num), zpow_natCast]

/-- Scaling by a power of two is exact. -/
theorem binary32_mul_two_pow {q : ℚ} (h : 0 < q) (j : ℕ) : binary32 (2 ^ j * q) = 2 ^ j * binary32 q := by
  rw [binary32, binary32, ulp_mul_two_pow h, mul_div_mul_left _ _ (by positivity)]
  ring

theorem binary32_mono {p q : ℚ} (h0 : 0 < p) (h : p ≤ q) : binary32 p ≤ binary32 q := by
  have hq : 0 < q := h0.trans_le h
  rcases (Int.log_mono_right (b := 2) h0 h).lt_or_eq with hlt | heq
  · -- in different binades the larger one's power of two lies between
    have hp := (ulp_bounds h0).2
    have hq' := (ulp_bounds hq).1
    have hup := ulp_pos p
    have huq := ulp_pos q
    have hle : 2 ^ 24 * ulp p ≤ 2 ^ 23 * ulp q := by
      have : 2 * ulp p ≤ ulp q := by
        rw [ulp, ulp, abs_of_pos h0, abs_of_pos hq, ← zpow_one_add₀ (by norm_num)]
        exact zpow_le_zpow_right₀ (by norm_num) (by omega)
      linarith
    have h1 : roundEven (p / ulp p) ≤ 2 ^ 24 := roundEven_le (by rw [div_le_iff₀ hup]; push_cast; exact hp.le)
    have h2 : 2 ^ 23 ≤ roundEven (q / ulp q) := le_roundEven (by rw [le_div_iff₀ huq]; push_cast; exact hq')
    calc binary32 p = roundEven (p / ulp p) * ulp p := rfl
      _ ≤ 2 ^ 24 * ulp p := mul_le_mul_of_nonneg_right (by exact_mod_cast h1) hup.le
      _ ≤ 2 ^ 23 * ulp q := hle
      _ ≤ roundEven (q / ulp q) * ulp q := mul_le_mul_of_nonneg_right (by exact_mod_cast h2) huq.le
      _ = binary32 q := rfl
  · have hu : ulp p = ulp q := by rw [ulp, ulp, abs_of_pos h0, abs_of_pos hq, heq]
    have hround : roundEven (p / ulp q) ≤ roundEven (q / ulp q) :=
      roundEven_mono (div_le_div_of_nonneg_right h (ulp_pos q).le)
    rw [binary32, binary32, hu]
    exact mul_le_mul_of_nonneg_right (by exact_mod_cast hround) (ulp_pos q).le

/-- The relative error of a rounding. -/
theorem binary32_error {q : ℚ} (h : 0 < q) : q * (1 - 1 / 2 ^ 24) ≤ binary32 q ∧ binary32 q ≤ q * (1 + 1 / 2 ^ 24) := by
  have hu := ulp_pos q
  have hlo := (ulp_bounds h).1
  have herr := abs_le.mp (abs_roundEven_sub_le (q / ulp q))
  have hq : q / ulp q * ulp q = q := div_mul_cancel₀ q hu.ne'
  have h1 := mul_le_mul_of_nonneg_right herr.1 hu.le
  have h2 := mul_le_mul_of_nonneg_right herr.2 hu.le
  rw [sub_mul, hq] at h1 h2
  unfold binary32
  constructor <;> linarith

theorem binary32_pos {q : ℚ} (h : 0 < q) : 0 < binary32 q := by
  have := (binary32_error h).1
  have : 0 < q * (1 - 1 / 2 ^ 24) := by positivity
  linarith

theorem ceilfDiv_pos {a b : ℤ} (ha : 0 < a) (hb : 0 < b) : 0 < ceilfDiv a b := by
  have haq : (0 : ℚ) < a := by exact_mod_cast ha
  have hbq : (0 : ℚ) < b := by exact_mod_cast hb
  exact Int.ceil_pos.mpr (binary32_pos (div_pos (binary32_pos haq) (binary32_pos hbq)))

/-- A quotient of no more than `2 ^ j` is never rounded up beyond it, whatever the size of
    the operands. -/
theorem ceilfDiv_le {a b : ℤ} (ha : 0 < a) (hb : 0 < b) {j : ℕ} (hj : j < 24) (h : a ≤ 2 ^ j * b) : ceilfDiv a b ≤ 2 ^ j := by
  have haq : (0 : ℚ) < a := by exact_mod_cast ha
  have hbq : (0 : ℚ) < b := by exact_mod_cast hb
  have hb32 := binary32_pos hbq
  have hq : binary32 a / binary32 b ≤ 2 ^ j := by
    rw [div_le_iff₀ hb32, ← binary32_mul_two_pow hbq]
    exact binary32_mono haq (by exact_mod_cast h)
  have hpos : 0 < binary32 a / binary32 b := div_pos (binary32_pos haq) hb32
  have hsmall : binary32 a / binary32 b < 2 ^ 24 := hq.trans_lt (pow_lt_pow_right₀ (by norm_num) hj)
  exact Int.ceil_le.mpr (binary32_le_int hpos hsmall (by exact_mod_cast hq))

/-- A quotient of at least a small `m` is rounded to at least `m`. -/
theorem le_ceilfDiv {a b m : ℤ} (hb : 0 < b) (hm : 0 < m) (hsmall : m ≤ 2 ^ 20) (h : m * b ≤ a) : m ≤ ceilfDiv a b := by
  have hbq : (0 : ℚ) < b := by exact_mod_cast hb
  have hmq : (0 : ℚ) < m := by exact_mod_cast hm
  have hsm : (m : ℚ) ≤ 2 ^ 20 := by exact_mod_cast hsmall
  have haq : (m : ℚ) * b ≤ a := by exact_mod_cast h
  have hpos : (0 : ℚ) < a := (mul_pos hmq hbq).trans_le haq
  have ha := (binary32_error hpos).1
  have hb' := (binary32_error hbq).2
  have hb32 := binary32_pos hbq
  -- the two roundings lose less than a quarter
  have hq : (m : ℚ) - 1 / 4 ≤ binary32 a / binary32 b := by
    rw [le_div_iff₀ hb32]
    have h1 : ((m : ℚ) - 1 / 4) * binary32 b ≤ (m - 1 / 4) * (b * (1 + 1 / 2 ^ 24)) := by
      apply mul_le_mul_of_nonneg_left hb'
      have : (1 : ℚ) ≤ m := by exact_mod_cast hm
      linarith
    have h2 : (m * b : ℚ) * (1 - 1 / 2 ^ 24) ≤ a * (1 - 1 / 2 ^ 24) := mul_le_mul_of_nonneg_right haq (by norm_num)
    have h3 : ((m : ℚ) - 1 / 4) * (b * (1 + 1 / 2 ^ 24)) ≤ m * b * (1 - 1 / 2 ^ 24) := by
      have : (m : ℚ) * b ≤ 2 ^ 20 * b := mul_le_mul_of_nonneg_right hsm hbq.le
      linarith
    linarith
  have hqpos : 0 < binary32 a / binary32 b := div_pos (binary32_pos hpos) hb32
  have herr := (binary32_error hqpos).1
  have hlow : (m : ℚ) - 1 < binary32 (binary32 a / binary32 b) := by
    have : ((m : ℚ) - 1 / 4) * (1 - 1 / 2 ^ 24) ≤ binary32 a / binary32 b * (1 - 1 / 2 ^ 24) :=
      mul_le_mul_of_nonneg_right hq (by norm_num)
    linarith
  have : m - 1 < ceilfDiv a b := Int.lt_ceil.mpr (by push_cast; exact hlow)
  omega

/-- What is left after one part of at most `2 ^ j` still has at most that much for each part. -/
theorem rest_le {a b : ℤ} (ha : 0 < a) (hb : 0 < b) {j : ℕ} (hj : j ≤ 20) (h : a ≤ 2 ^ j * b) :
    a - ceilfDiv a b ≤ 2 ^ j * (b - 1) := by
  have hpow : (2 : ℤ) ^ j ≤ 2 ^ 20 := pow_le_pow_right₀ (by norm_num) hj
  by_cases hm : 0 < a - 2 ^ j * (b - 1)
  · have hle : (a - 2 ^ j * (b - 1)) * b ≤ a := by
      have : (a - 2 ^ j * (b - 1)) * (b - 1) ≤ 2 ^ j * (b - 1) := by
        refine mul_le_mul_of_nonneg_right ?_ (by omega)
        linarith
      linarith
    have := le_ceilfDiv hb hm (by linarith) hle
    linarith
  · have := ceilfDiv_pos ha hb
    linarith

end DiyDdmin.Numeric
