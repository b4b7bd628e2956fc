/-
  DiyDdmin.Increasing.Abstract — scanning for cuts of growing size: what
  `range_increasing` is for.

  The scan tries to cut `[b, b + rs)` out of the current sequence for every `b` from 0 up;
  a cut that fails replaces the sequence and the scan backs up by `rs - 1`; when `b` has
  passed the last place, the scan starts again with `rs + 1`. The size of the sequence is
  what a 32-bit `int` makes of it, and the candidate is what the streams deliver: both are
  exact below 2^31 elements (`Exact`).

  Proved: every run ends, whatever the sizes and verdicts (`rank_next`), and every
  candidate lies within the size (`WF`). Below 2^31 elements, no cut longer than the last
  accepted one fails at the end (`longer_next`), and for a monotone verdict function no
  single element can be deleted (`singles_next`).
-/

import DiyDdmin.Numeric.Binary32
import DiyDdmin.Reduction.Cut
import Mathlib.Data.Prod.Lex
import Mathlib.Order.WellFounded

namespace DiyDdmin.Increasing.Abstract

open Numeric Reduction

variable {α : Type}

inductive Phase where
  | outer
  | inner (b : Nat)
  | done
  deriving DecidableEq, Repr

structure Scan (α : Type) where
  cur : List α
  rs : Nat
  phase : Phase
  /-- The size of the last accepted cut, 0 before there is one. -/
  last : Nat

namespace Scan

/-- `input_size` -/
def size (a : Scan α) : Int := toInt a.cur.length

/-- A candidate is tried at `b`. -/
def Tries (a : Scan α) (b : Nat) : Prop := a.phase = .inner b ∧ (b : Int) ≤ a.size - a.rs

/-- One turn, with the candidate `c` and the verdict `v` on it, where one is tried. -/
def next (a : Scan α) (c : List α) (v : Bool) : Scan α :=
  match a.phase with
  | .outer => if a.rs < a.size then { a with phase := .inner 0 } else { a with phase := .done }
  | .inner b =>
    if (b : Int) ≤ a.size - a.rs then
      if v then ⟨c, a.rs, .inner (b + 1 - a.rs), a.rs⟩ else { a with phase := .inner (b + 1) }
    else { a with rs := a.rs + 1, phase := .outer }
  | .done => a

def init (X : List α) : Scan α := ⟨X, 1, .outer, 0⟩

end Scan

section

variable {a : Scan α} {b : Nat} (c : List α) (v : Bool)

theorem next_scan (hp : a.phase = .outer) (h : a.rs < a.size) : a.next c v = { a with phase := .inner 0 } := by
  simp only [Scan.next, hp, if_pos h]

theorem next_end (hp : a.phase = .outer) (h : ¬ a.rs < a.size) : a.next c v = { a with phase := .done } := by
  simp only [Scan.next, hp, if_neg h]

theorem next_accept (h : a.Tries b) : a.next c true = ⟨c, a.rs, .inner (b + 1 - a.rs), a.rs⟩ := by
  simp only [Scan.next, h.1, if_pos h.2, if_true]

theorem next_reject (h : a.Tries b) : a.next c false = { a with phase := .inner (b + 1) } := by
  simp only [Scan.next, h.1, if_pos h.2, Bool.false_eq_true, if_false]

theorem next_wrap (hp : a.phase = .inner b) (h : ¬ a.Tries b) : a.next c v = { a with rs := a.rs + 1, phase := .outer } := by
  simp only [Scan.next, hp, if_neg fun h' => h ⟨hp, h'⟩]

theorem next_done (hp : a.phase = .done) : a.next c v = a := by
  simp only [Scan.next, hp]

end

/-! ## Sizes -/

theorem size_lt (a : Scan α) : a.size < 2 ^ 31 := toInt_lt _

theorem size_le (a : Scan α) : a.size ≤ a.cur.length := toInt_le (by omega)

theorem size_of_small {a : Scan α} (h : a.cur.length < 2 ^ 31) : a.size = a.cur.length :=
  toInt_of_lt (by omega) (by omega)

/-- A tried candidate lies within the size, and has what is left of it. -/
structure Fits (a : Scan α) (b : Nat) (c : List α) : Prop where
  inside : (b + a.rs : Int) ≤ a.size
  length : (c.length : Int) = a.size - a.rs
  exact : a.cur.length < 2 ^ 31 → c = cut b a.rs a.cur

theorem Fits.small {a : Scan α} {b : Nat} {c : List α} (h : Fits a b c) : c.length < 2 ^ 31 := by
  have := size_lt a
  have := h.length
  omega

theorem Fits.size {a : Scan α} {b : Nat} {c : List α} (h : Fits a b c) (rs : Nat) (p : Phase) (l : Nat) :
    (⟨c, rs, p, l⟩ : Scan α).size = a.size - a.rs := by
  rw [size_of_small h.small]; exact h.length

/-- A turn keeps the sequence, or takes the candidate for it. -/
theorem next_cur (a : Scan α) (c : List α) (v : Bool) : (a.next c v).cur = a.cur ∨ (∃ b, a.Tries b) ∧ (a.next c v).cur = c := by
  cases hp : a.phase with
  | outer =>
    by_cases hlt : a.rs < a.size
    · rw [next_scan c v hp hlt]; exact Or.inl rfl
    · rw [next_end c v hp hlt]; exact Or.inl rfl
  | inner b =>
    by_cases ht : a.Tries b
    · cases v with
      | true => rw [next_accept c ht]; exact Or.inr ⟨⟨b, ht⟩, rfl⟩
      | false => rw [next_reject c ht]; exact Or.inl rfl
    · rw [next_wrap c v hp ht]; exact Or.inl rfl
  | done => simp only [Scan.next, hp, true_or]

/-- Below 2^31 elements a turn stays there. -/
theorem next_small {a : Scan α} (h : a.cur.length < 2 ^ 31) {c : List α} {v : Bool} (hc : ∀ b, a.Tries b → Fits a b c) :
    (a.next c v).cur.length < 2 ^ 31 := by
  rcases next_cur a c v with e | ⟨⟨b, hb⟩, e⟩ <;> rw [e]
  · exact h
  · exact (hc b hb).small

/-! ## Runs end -/

def Phase.rank (n : Int) (rs : Nat) : Phase → Nat
  | .outer => if rs < n then n.toNat + 3 else 1
  | .inner b => (n - rs + 1 - b).toNat + 2
  | .done => 0

/-- Smaller first, then longer cuts, then further through the scan. -/
def rank (a : Scan α) : ℕ ×ₗ ℕ ×ₗ ℕ :=
  toLex (a.size.toNat, toLex ((a.size + 1 - a.rs).toNat, a.phase.rank a.size a.rs))

theorem rank_lt_of_smaller {a b : Scan α} (h : b.size.toNat < a.size.toNat) : rank b < rank a := by
  unfold rank
  exact Prod.Lex.toLex_lt_toLex.mpr (Or.inl h)

theorem rank_lt_of_longer {a b : Scan α} (h : b.cur = a.cur) (hr : (a.size + 1 - b.rs).toNat < (a.size + 1 - a.rs).toNat) :
    rank b < rank a := by
  have hs : b.size = a.size := by rw [Scan.size, h]; rfl
  unfold rank
  rw [hs]
  exact Prod.Lex.toLex_lt_toLex.mpr (Or.inr ⟨rfl, Prod.Lex.toLex_lt_toLex.mpr (Or.inl hr)⟩)

theorem rank_lt_of_phase {a b : Scan α} (h : b.cur = a.cur) (hr : (a.size + 1 - b.rs).toNat = (a.size + 1 - a.rs).toNat)
    (hp : b.phase.rank a.size b.rs < a.phase.rank a.size a.rs) : rank b < rank a := by
  have hs : b.size = a.size := by rw [Scan.size, h]; rfl
  unfold rank
  rw [hs, hr]
  exact Prod.Lex.toLex_lt_toLex.mpr (Or.inr ⟨rfl, Prod.Lex.toLex_lt_toLex.mpr (Or.inr ⟨rfl, hp⟩)⟩)

theorem rank_next {a : Scan α} (hrs : 1 ≤ a.rs) (hd : a.phase ≠ .done) {c : List α} {v : Bool}
    (hc : ∀ b, a.Tries b → Fits a b c) : rank (a.next c v) < rank a := by
  cases hp : a.phase with
  | outer =>
    by_cases h : a.rs < a.size
    · rw [next_scan c v hp h]
      refine rank_lt_of_phase rfl rfl ?_
      simp only [hp, Phase.rank, if_pos h]
      omega
    · rw [next_end c v hp h]
      refine rank_lt_of_phase rfl rfl ?_
      simp only [hp, Phase.rank, if_neg h]
      omega
  | inner b =>
    by_cases h : a.Tries b
    · have hf := hc b h
      have hle := h.2
      cases v with
      | true =>
        rw [next_accept c h]
        apply rank_lt_of_smaller
        rw [hf.size]
        omega
      | false =>
        rw [next_reject c h]
        refine rank_lt_of_phase rfl rfl ?_
        simp only [hp, Phase.rank]
        omega
    · rw [next_wrap c v hp h]
      have hlt : ¬ (b : Int) ≤ a.size - a.rs := fun h' => h ⟨hp, h'⟩
      by_cases hle : (a.rs : Int) ≤ a.size
      · exact rank_lt_of_longer rfl (by push_cast; omega)
      · refine rank_lt_of_phase rfl (by push_cast; omega) ?_
        simp only [hp, Phase.rank]
        rw [if_neg (by push_cast; omega)]
        omega
  | done => exact absurd hp hd

/-! ## Candidates with an element -/

/-- A candidate tried now has an element. -/
def Roomy (a : Scan α) : Prop := ∀ b, a.Tries b → a.rs < a.size

/-- Only an accepted cut of half of the sequence, at a place that the scan backs up from to
    0, leaves as many elements as the next cut takes. -/
theorem roomy_next {a : Scan α} {c : List α} {v : Bool} (h : Roomy a) (hc : ∀ b, a.Tries b → Fits a b c)
    (hhalf : ∀ b, a.Tries b → a.size = 2 * a.rs → b < a.rs → v = false) : Roomy (a.next c v) := by
  cases hp : a.phase with
  | outer =>
    by_cases hlt : a.rs < a.size
    · rw [next_scan c v hp hlt]
      exact fun _ _ => hlt
    · rw [next_end c v hp hlt]
      exact fun b hb => absurd hb.1 nofun
  | inner b =>
    by_cases ht : a.Tries b
    · have hf := hc b ht
      have hin := hf.inside
      cases v with
      | true =>
        rw [next_accept c ht]
        intro b' hb'
        have hsize : (⟨c, a.rs, .inner (b + 1 - a.rs), a.rs⟩ : Scan α).size = a.size - a.rs := hf.size _ _ _
        have hle := hb'.2
        rw [hsize] at hle ⊢
        have hb : b' = b + 1 - a.rs := by injection hb'.1 with e; exact e.symm
        have hno : ¬ (a.size = 2 * a.rs ∧ b < a.rs) := fun ⟨h1, h2⟩ => nomatch hhalf b ht h1 h2
        simp only at hle ⊢
        omega
      | false =>
        rw [next_reject c ht]
        intro b' hb'
        exact h b ht
    · rw [next_wrap c v hp ht]
      exact fun b hb => absurd hb.1 nofun
  | done =>
    rw [next_done c v hp]
    exact h

/-! ## What is left at the end -/

section

variable {D : List α → Bool}

/-- No cut of a length after the last accepted one's, among those scanned, fails. -/
def LongerPass (D : List α → Bool) (a : Scan α) : Prop :=
  (∀ l, a.last < l → l < a.rs → NoCut D l a.cur) ∧
  match a.phase with
  | .inner b => a.last < a.rs → ∀ i < b, D (cut i a.rs a.cur) = false
  | .outer => True
  | .done => a.cur.length ≤ a.rs

/-- No single element, among those scanned, can be deleted. -/
def SinglesPass (D : List α → Bool) (a : Scan α) : Prop :=
  (1 < a.rs → NoCut D 1 a.cur) ∧
  match a.phase with
  | .inner b => a.rs = 1 → ∀ i < b, i < a.cur.length → D (cut i 1 a.cur) = false
  | .outer => True
  | .done => a.cur.length ≤ a.rs

theorem longer_next {a : Scan α} (hsmall : a.cur.length < 2 ^ 31) (h : LongerPass D a) {c : List α} {v : Bool}
    (hc : ∀ b, a.Tries b → Fits a b c ∧ v = D c) : LongerPass D (a.next c v) := by
  obtain ⟨hlong, hph⟩ := h
  have hsize := size_of_small hsmall
  cases hp : a.phase with
  | outer =>
    by_cases h : a.rs < a.size
    · rw [next_scan c v hp h]
      exact ⟨hlong, fun _ i hi => by omega⟩
    · rw [next_end c v hp h]
      exact ⟨hlong, by simp only; omega⟩
  | inner b =>
    rw [hp] at hph
    by_cases h : a.Tries b
    · obtain ⟨hf, hv⟩ := hc b h
      cases v with
      | true =>
        rw [next_accept c h]
        exact ⟨fun l h1 h2 => by simp only at h1 h2; omega, fun h1 => by simp only at h1; omega⟩
      | false =>
        rw [next_reject c h]
        refine ⟨hlong, ?_⟩
        intro hl i hi
        rcases Nat.lt_succ_iff_lt_or_eq.mp hi with hi | rfl
        · exact hph hl i hi
        · rw [← hf.exact hsmall]; exact hv.symm
    · rw [next_wrap c v hp h]
      have hlt : ¬ (b : Int) ≤ a.size - a.rs := fun h' => h ⟨hp, h'⟩
      refine ⟨?_, trivial⟩
      intro l h1 h2
      simp only at h1 h2
      rcases Nat.lt_succ_iff_lt_or_eq.mp h2 with h2 | rfl
      · exact hlong l h1 h2
      · intro i hi
        have hi' : i + a.rs ≤ a.cur.length := hi
        exact hph h1 i (by omega)
  | done =>
    rw [next_done c v hp]
    exact ⟨hlong, hph⟩

theorem singles_next (hD : Monotone D) {a : Scan α} (hrs : 1 ≤ a.rs) (hsmall : a.cur.length < 2 ^ 31)
    (h : SinglesPass D a) {c : List α} {v : Bool} (hc : ∀ b, a.Tries b → Fits a b c ∧ v = D c) :
    SinglesPass D (a.next c v) := by
  obtain ⟨hone, hph⟩ := h
  have hsize := size_of_small hsmall
  cases hp : a.phase with
  | outer =>
    by_cases h : a.rs < a.size
    · rw [next_scan c v hp h]
      exact ⟨hone, fun _ i hi => by omega⟩
    · rw [next_end c v hp h]
      exact ⟨hone, by simp only; omega⟩
  | inner b =>
    rw [hp] at hph
    by_cases h : a.Tries b
    · obtain ⟨hf, hv⟩ := hc b h
      have hcut := hf.exact hsmall
      have hin := hf.inside
      cases v with
      | true =>
        rw [next_accept c h]
        refine ⟨fun h1 => (hone h1).sublist hD (hcut ▸ cut_sublist _ _ _), ?_⟩
        intro h1 i hi _
        have h1 : a.rs = 1 := h1
        have hi : i < b := by omega
        rw [h1] at hcut
        simp only [hcut]
        exact hD.false_of_sublist (cut_cut_sublist hi.le (by omega)) (hph h1 i hi (by omega))
      | false =>
        rw [next_reject c h]
        refine ⟨hone, ?_⟩
        intro h1 i hi hlen
        have h1 : a.rs = 1 := h1
        rcases Nat.lt_succ_iff_lt_or_eq.mp hi with hi | rfl
        · exact hph h1 i hi hlen
        · rw [h1] at hcut
          rw [← hcut]; exact hv.symm
    · rw [next_wrap c v hp h]
      have hlt : ¬ (b : Int) ≤ a.size - a.rs := fun h' => h ⟨hp, h'⟩
      refine ⟨?_, trivial⟩
      intro h1
      by_cases h2 : a.rs = 1
      · intro i hi
        have hi' : i + 1 ≤ a.cur.length := hi
        exact hph h2 i (by omega) (by omega)
      · exact hone (by omega)
  | done =>
    rw [next_done c v hp]
    exact ⟨hone, hph⟩

end

end DiyDdmin.Increasing.Abstract
