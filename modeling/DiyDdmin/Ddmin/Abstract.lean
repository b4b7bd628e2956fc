/-
  DiyDdmin.Ddmin.Abstract — delta debugging on sequences: what the loop of `ddmin` is for.

  The current sequence is cut into `n` parts by a running ceiling: with `k` parts left
  from offset `c`, the next part has `⌈(len - c) / k⌉` elements. The subset phase tries
  each part alone, the complement phase the sequence without it. A failing candidate
  replaces the sequence and resets `n` (to 2, or to one less); a round without one
  doubles `n` up to the length, and the round at the length is the last.

  Proved, for any verdicts: `2 ≤ n ≤ len` in every round and every part left is non-empty
  (`WF`, `next_wf`); every candidate is non-empty, shorter, and the sequence with elements
  deleted (`cand_shorter`, `cand_sublist`); every run ends (`rank_next`). For a verdict
  function: what is left at the end has no failing single element and no failing
  single deletion (`tested_next`).
-/

import DiyDdmin.Reduction.Cut
import DiyDdmin.Systems.Reach
import Mathlib.Data.Prod.Lex
import Mathlib.Order.WellFounded
import Mathlib.Tactic.Ring

namespace DiyDdmin.Ddmin.Abstract

open Reduction

variable {α : Type}

inductive Phase where
  | head
  | subset (c k : Nat)
  | complement (c k : Nat)
  | done
  deriving DecidableEq, Repr

structure Abs (α : Type) where
  cur : List α
  n : Nat
  phase : Phase
  /-- The candidates tried so far. -/
  tried : List (List α)

/-- The size of the next part: the ceiling of what is left over the parts left. -/
def partSize (f c k : Nat) : Nat := (f - c + k - 1) / k

namespace Abs

/-- The next candidate. -/
def cand (a : Abs α) : List α :=
  match a.phase with
  | .subset c k => (a.cur.drop c).take (partSize a.cur.length c k)
  | .complement c k => cut c (partSize a.cur.length c k) a.cur
  | _ => a.cur

/-- One turn, with verdict `v` on its candidate. -/
def next (a : Abs α) (v : Bool) : Abs α :=
  match a.phase with
  | .head => if 1 < a.cur.length then { a with phase := .subset 0 a.n } else { a with phase := .done }
  | .subset c k =>
    if v then ⟨a.cand, 2, .head, a.tried ++ [a.cand]⟩
    else { a with
      phase := if 1 < k then .subset (c + partSize a.cur.length c k) (k - 1) else .complement 0 a.n
      tried := a.tried ++ [a.cand] }
  | .complement c k =>
    if v then ⟨a.cand, max (a.n - 1) 2, .head, a.tried ++ [a.cand]⟩
    else if c + partSize a.cur.length c k < a.cur.length then
      { a with phase := .complement (c + partSize a.cur.length c k) (k - 1), tried := a.tried ++ [a.cand] }
    else if a.n < a.cur.length then
      { a with n := min (a.n * 2) a.cur.length, phase := .head, tried := a.tried ++ [a.cand] }
    else { a with phase := .done, tried := a.tried ++ [a.cand] }
  | .done => a

def init (X : List α) : Abs α := ⟨X, 2, .head, []⟩

section

variable {a : Abs α} {c k : Nat}

theorem cand_subset (hp : a.phase = .subset c k) : a.cand = (a.cur.drop c).take (partSize a.cur.length c k) := by
  unfold cand
  rw [hp]

theorem cand_complement (hp : a.phase = .complement c k) : a.cand = cut c (partSize a.cur.length c k) a.cur := by
  unfold cand
  rw [hp]

theorem next_head_long (hp : a.phase = .head) (v : Bool) (h : 1 < a.cur.length) :
    a.next v = { a with phase := .subset 0 a.n } := by
  unfold next
  simp only [hp]
  exact if_pos h

theorem next_head_short (hp : a.phase = .head) (v : Bool) (h : ¬ 1 < a.cur.length) : a.next v = { a with phase := .done } := by
  unfold next
  simp only [hp]
  exact if_neg h

theorem next_subset_true (hp : a.phase = .subset c k) : a.next true = ⟨a.cand, 2, .head, a.tried ++ [a.cand]⟩ := by
  unfold next
  simp only [hp, if_true]

/-- On to the next part. -/
theorem next_subset_more (hp : a.phase = .subset c k) (hk : 1 < k) : a.next false = { a with
    phase := .subset (c + partSize a.cur.length c k) (k - 1), tried := a.tried ++ [a.cand] } := by
  unfold next
  simp only [hp, Bool.false_eq_true, if_false, if_pos hk]

/-- After the last part the complements. -/
theorem next_subset_last (hp : a.phase = .subset c k) (hk : ¬ 1 < k) :
    a.next false = { a with phase := .complement 0 a.n, tried := a.tried ++ [a.cand] } := by
  unfold next
  simp only [hp, Bool.false_eq_true, if_false, if_neg hk]

theorem next_complement_true (hp : a.phase = .complement c k) :
    a.next true = ⟨a.cand, max (a.n - 1) 2, .head, a.tried ++ [a.cand]⟩ := by
  unfold next
  simp only [hp, if_true]

theorem next_complement_more (hp : a.phase = .complement c k) (h : c + partSize a.cur.length c k < a.cur.length) :
    a.next false = { a with
      phase := .complement (c + partSize a.cur.length c k) (k - 1), tried := a.tried ++ [a.cand] } := by
  unfold next
  simp only [hp, Bool.false_eq_true, if_false, if_pos h]

/-- After the last complement a finer round. -/
theorem next_complement_finer (hp : a.phase = .complement c k) (h : ¬ c + partSize a.cur.length c k < a.cur.length)
    (hn : a.n < a.cur.length) : a.next false = { a with
      n := min (a.n * 2) a.cur.length, phase := .head, tried := a.tried ++ [a.cand] } := by
  unfold next
  simp only [hp, Bool.false_eq_true, if_false, if_neg h, if_pos hn]

theorem next_complement_last (hp : a.phase = .complement c k) (h : ¬ c + partSize a.cur.length c k < a.cur.length)
    (hn : ¬ a.n < a.cur.length) : a.next false = { a with phase := .done, tried := a.tried ++ [a.cand] } := by
  unfold next
  simp only [hp, Bool.false_eq_true, if_false, if_neg h, if_neg hn]

theorem next_done (hp : a.phase = .done) (v : Bool) : a.next v = a := by
  unfold next
  rw [hp]

end

end Abs

/-! ## Granularity -/

/-- `k` parts are left from `c`, none of them empty. -/
structure PartsLeft (f n c k : Nat) : Prop where
  two_le : 2 ≤ n
  le : n ≤ f
  pos : 0 < k
  room : c + k ≤ f
  done : n ≤ c + k

def WF (a : Abs α) : Prop :=
  match a.phase with
  | .head => 2 ≤ a.n ∧ (a.n ≤ a.cur.length ∨ a.cur.length ≤ 1)
  | .subset c k => PartsLeft a.cur.length a.n c k
  | .complement c k => PartsLeft a.cur.length a.n c k
  | .done => True

theorem WF.head {a : Abs α} (h : WF a) (hp : a.phase = .head) : 2 ≤ a.n ∧ (a.n ≤ a.cur.length ∨ a.cur.length ≤ 1) := by
  unfold WF at h
  rwa [hp] at h

theorem WF.parts {a : Abs α} {c k : Nat} (h : WF a) (hp : a.phase = .subset c k ∨ a.phase = .complement c k) :
    PartsLeft a.cur.length a.n c k := by
  unfold WF at h
  rcases hp with hp | hp <;> rwa [hp] at h

theorem partSize_pos {f c k : Nat} (hk : 0 < k) (h : c + k ≤ f) : 0 < partSize f c k :=
  Nat.div_pos (by omega) hk

/-- The other parts left keep at least one element each. -/
theorem partSize_le {f c k : Nat} (hk : 0 < k) (h : c + k ≤ f) : c + partSize f c k + (k - 1) ≤ f := by
  have h1 : partSize f c k * k ≤ f - c + k - 1 := Nat.div_mul_le_self _ _
  generalize partSize f c k = p at h1
  obtain ⟨k, rfl⟩ : ∃ j, k = j + 1 := ⟨k - 1, by omega⟩
  by_contra hlt
  have h2 : f - c - k + 1 ≤ p := by omega
  have h3 : (f - c - k + 1) * (k + 1) ≤ p * (k + 1) := Nat.mul_le_mul_right _ h2
  obtain ⟨d, hd⟩ : ∃ d, f - c = k + 1 + d := ⟨f - c - (k + 1), by omega⟩
  rw [hd] at h1 h3
  have h4 : k + 1 + d - k + 1 = d + 2 := by omega
  rw [h4] at h3
  have h5 : (d + 2) * (k + 1) = d * k + d + 2 * k + 2 := by ring
  omega

theorem partSize_last {f c : Nat} : partSize f c 1 = f - c := by simp [partSize]

/-- When the parts left are as many as the elements left, each is one element. -/
theorem partSize_unit {f c k : Nat} (hk : 0 < k) (h : c + k = f) : partSize f c k = 1 := by
  have : f - c + k - 1 = k + (k - 1) := by omega
  rw [partSize, this, Nat.add_div_left _ hk, Nat.div_eq_of_lt (by omega)]

namespace PartsLeft

variable {f n c k : Nat}

theorem first (h2 : 2 ≤ n) (h : n ≤ f) : PartsLeft f n 0 n := ⟨h2, h, by omega, by omega, by omega⟩

theorem size_pos (h : PartsLeft f n c k) : 0 < partSize f c k := partSize_pos h.pos h.room

theorem size_le (h : PartsLeft f n c k) : c + partSize f c k + (k - 1) ≤ f := partSize_le h.pos h.room

theorem size_lt (h : PartsLeft f n c k) : partSize f c k < f := by
  have := h.size_le
  have := h.two_le
  have := h.done
  have := h.pos
  omega

theorem next (h : PartsLeft f n c k) (hk : 1 < k) : PartsLeft f n (c + partSize f c k) (k - 1) := by
  have h1 := h.size_le
  have h2 := h.size_pos
  have h3 := h.done
  exact ⟨h.two_le, h.le, by omega, by omega, by omega⟩

/-- Parts are left exactly as long as elements are. -/
theorem more_iff (h : PartsLeft f n c k) : c + partSize f c k < f ↔ 1 < k := by
  have h1 := h.size_le
  have h2 := h.pos
  constructor
  · intro hlt
    by_contra hk
    obtain rfl : k = 1 := by omega
    rw [partSize_last] at hlt
    have := h.room
    omega
  · intro hk; omega

end PartsLeft

/-! ## Candidates -/

theorem length_subset {f c k : Nat} {X : List α} (hX : X.length = f) (hk : 0 < k) (h : c + k ≤ f) :
    ((X.drop c).take (partSize f c k)).length = partSize f c k := by
  have := partSize_le hk h
  simp only [List.length_take, List.length_drop, hX]; omega

theorem cand_sublist (a : Abs α) : a.cand.Sublist a.cur := by
  unfold Abs.cand
  split
  · exact (List.take_sublist _ _).trans (List.drop_sublist _ _)
  · exact cut_sublist _ _ _
  · exact List.Sublist.refl _

/-- A candidate has an element, and fewer than the sequence it was cut from. -/
theorem cand_shorter {a : Abs α} {c k : Nat} (h : a.phase = .subset c k ∨ a.phase = .complement c k) (hw : WF a) :
    0 < a.cand.length ∧ a.cand.length < a.cur.length := by
  have hp := hw.parts h
  have hpos := hp.size_pos
  have hlt := hp.size_lt
  have hle := hp.size_le
  rcases h with h | h
  · rw [Abs.cand_subset h, length_subset rfl hp.pos hp.room]; omega
  · rw [Abs.cand_complement h, length_cut (by omega)]; omega

theorem next_wf {a : Abs α} (h : WF a) (v : Bool) : WF (a.next v) := by
  cases hp : a.phase with
  | head =>
    obtain ⟨h2, hle⟩ := h.head hp
    by_cases hlt : 1 < a.cur.length
    · rw [Abs.next_head_long hp v hlt]
      exact PartsLeft.first h2 (hle.resolve_right (by omega))
    · rw [Abs.next_head_short hp v hlt]; trivial
  | subset c k =>
    have hl := h.parts (Or.inl hp)
    cases v with
    | false =>
      by_cases hk : 1 < k
      · rw [Abs.next_subset_more hp hk]; exact hl.next hk
      · rw [Abs.next_subset_last hp hk]; exact PartsLeft.first hl.two_le hl.le
    | true =>
      rw [Abs.next_subset_true hp]
      exact ⟨Nat.le_refl _, by simp only; omega⟩
  | complement c k =>
    have hl := h.parts (Or.inr hp)
    cases v with
    | false =>
      by_cases hlt : c + partSize a.cur.length c k < a.cur.length
      · rw [Abs.next_complement_more hp hlt]; exact hl.next (hl.more_iff.mp hlt)
      · by_cases hn : a.n < a.cur.length
        · rw [Abs.next_complement_finer hp hlt hn]
          have := hl.two_le
          exact ⟨by simp only; omega, Or.inl (by simp only; omega)⟩
        · rw [Abs.next_complement_last hp hlt hn]; trivial
    | true =>
      rw [Abs.next_complement_true hp]
      have h1 := hl.size_le
      have h2 := hl.done
      have hlen : a.cand.length = a.cur.length - partSize a.cur.length c k := by
        rw [Abs.cand_complement hp]; exact length_cut (by omega)
      exact ⟨by simp only; omega, by simp only; omega⟩
  | done => rw [Abs.next_done hp]; exact h

/-! ## Runs end -/

def Phase.rank : Phase → Nat × Nat
  | .head => (3, 0)
  | .subset _ k => (2, k)
  | .complement _ k => (1, k)
  | .done => (0, 0)

/-- Shorter first, then finer, then further through the round. -/
def rank (a : Abs α) : ℕ ×ₗ ℕ ×ₗ ℕ ×ₗ ℕ :=
  toLex (a.cur.length, toLex (a.cur.length - a.n, toLex a.phase.rank))

theorem rank_lt_of_shorter {a b : Abs α} (h : b.cur.length < a.cur.length) : rank b < rank a :=
  Prod.Lex.toLex_lt_toLex.mpr (Or.inl h)

theorem rank_lt_of_finer {a b : Abs α} (h : b.cur = a.cur) (hn : a.n < b.n) (hl : a.n < a.cur.length) :
    rank b < rank a := by
  unfold rank
  rw [h]
  exact Prod.Lex.toLex_lt_toLex.mpr (Or.inr ⟨rfl, Prod.Lex.toLex_lt_toLex.mpr (Or.inl (by simp only; omega))⟩)

theorem rank_lt_of_phase {a b : Abs α} (h : b.cur = a.cur) (hn : b.n = a.n)
    (hp : b.phase.rank.1 < a.phase.rank.1 ∨ b.phase.rank.1 = a.phase.rank.1 ∧ b.phase.rank.2 < a.phase.rank.2) :
    rank b < rank a := by
  unfold rank
  rw [h, hn]
  exact Prod.Lex.toLex_lt_toLex.mpr (Or.inr ⟨rfl, Prod.Lex.toLex_lt_toLex.mpr
    (Or.inr ⟨rfl, Prod.Lex.toLex_lt_toLex.mpr hp⟩)⟩)

theorem rank_next {a : Abs α} (h : WF a) (hd : a.phase ≠ .done) (v : Bool) : rank (a.next v) < rank a := by
  cases hp : a.phase with
  | head =>
    by_cases hlt : 1 < a.cur.length
    · rw [Abs.next_head_long hp v hlt]
      exact rank_lt_of_phase rfl rfl (by simp [hp, Phase.rank])
    · rw [Abs.next_head_short hp v hlt]
      exact rank_lt_of_phase rfl rfl (by simp [hp, Phase.rank])
  | subset c k =>
    cases v with
    | false =>
      by_cases hk : 1 < k
      · rw [Abs.next_subset_more hp hk]
        exact rank_lt_of_phase rfl rfl (by simp [hp, Phase.rank]; omega)
      · rw [Abs.next_subset_last hp hk]
        exact rank_lt_of_phase rfl rfl (by simp [hp, Phase.rank])
    | true =>
      rw [Abs.next_subset_true hp]
      exact rank_lt_of_shorter (cand_shorter (Or.inl hp) h).2
  | complement c k =>
    have hl := h.parts (Or.inr hp)
    cases v with
    | false =>
      by_cases hlt : c + partSize a.cur.length c k < a.cur.length
      · rw [Abs.next_complement_more hp hlt]
        have := hl.more_iff.mp hlt
        exact rank_lt_of_phase rfl rfl (by simp [hp, Phase.rank]; omega)
      · by_cases hn : a.n < a.cur.length
        · rw [Abs.next_complement_finer hp hlt hn]
          have := hl.two_le
          exact rank_lt_of_finer rfl (by simp only; omega) hn
        · rw [Abs.next_complement_last hp hlt hn]
          exact rank_lt_of_phase rfl rfl (by simp [hp, Phase.rank])
    | true =>
      rw [Abs.next_complement_true hp]
      exact rank_lt_of_shorter (cand_shorter (Or.inr hp) h).2
  | done => exact absurd hp hd

/-! ## 1-minimality -/

section

variable (D : List α → Bool)

/-- Each of the first `m` elements alone does not fail. -/
def SinglesPass (X : List α) (m : Nat) : Prop := ∀ i < m, D ((X.drop i).take 1) = false

/-- Without any one of the first `m` elements the sequence does not fail. -/
def ErasesPass (X : List α) (m : Nat) : Prop := ∀ i < m, D (cut i 1 X) = false

/-- What a round at the finest granularity has tested so far. -/
def Tested (a : Abs α) : Prop :=
  match a.phase with
  | .head => True
  | .subset c k => a.n = a.cur.length → c + k = a.cur.length ∧ SinglesPass D a.cur c
  | .complement c k =>
    a.n = a.cur.length → c + k = a.cur.length ∧ SinglesPass D a.cur a.cur.length ∧ ErasesPass D a.cur c
  | .done => a.cur.length ≤ 1 ∨ (SinglesPass D a.cur a.cur.length ∧ ErasesPass D a.cur a.cur.length)

variable {D}

theorem SinglesPass.succ {X : List α} {c : Nat} (h : SinglesPass D X c) (hc : D ((X.drop c).take 1) = false) :
    SinglesPass D X (c + 1) := fun i hi => by
  rcases Nat.lt_succ_iff_lt_or_eq.mp hi with hi | rfl
  · exact h i hi
  · exact hc

theorem ErasesPass.succ {X : List α} {c : Nat} (h : ErasesPass D X c) (hc : D (cut c 1 X) = false) :
    ErasesPass D X (c + 1) := fun i hi => by
  rcases Nat.lt_succ_iff_lt_or_eq.mp hi with hi | rfl
  · exact h i hi
  · exact hc

theorem tested_next {a : Abs α} (hw : WF a) (h : Tested D a) : Tested D (a.next (D a.cand)) := by
  cases hp : a.phase with
  | head =>
    by_cases hlt : 1 < a.cur.length
    · rw [Abs.next_head_long hp _ hlt]
      intro hn
      exact ⟨by simpa using hn, fun i hi => by omega⟩
    · rw [Abs.next_head_short hp _ hlt]
      exact Or.inl (by simp only; omega)
  | subset c k =>
    have hl := hw.parts (Or.inl hp)
    have ht : a.n = a.cur.length → c + k = a.cur.length ∧ SinglesPass D a.cur c := by simpa [Tested, hp] using h
    cases hv : D a.cand with
    | true => rw [Abs.next_subset_true hp]; trivial
    | false =>
      -- at the finest granularity this turn tested the element at `c`
      have hstep : a.n = a.cur.length → SinglesPass D a.cur (c + 1) ∧ partSize a.cur.length c k = 1 := by
        intro hn
        obtain ⟨hck, hs⟩ := ht hn
        have hu := partSize_unit hl.pos hck
        rw [Abs.cand_subset hp, hu] at hv
        exact ⟨hs.succ hv, hu⟩
      by_cases hk : 1 < k
      · rw [Abs.next_subset_more hp hk]
        intro hn
        obtain ⟨hs, hu⟩ := hstep hn
        have := (ht hn).1
        simp only [hu]
        exact ⟨by omega, hs⟩
      · rw [Abs.next_subset_last hp hk]
        intro hn
        obtain ⟨hs, -⟩ := hstep hn
        have := (ht hn).1
        have := hl.pos
        exact ⟨by simpa using hn, fun i hi => hs i (by simp only at hi; omega), fun i hi => by omega⟩
  | complement c k =>
    have hl := hw.parts (Or.inr hp)
    have ht : a.n = a.cur.length →
        c + k = a.cur.length ∧ SinglesPass D a.cur a.cur.length ∧ ErasesPass D a.cur c := by
      simpa [Tested, hp] using h
    cases hv : D a.cand with
    | true => rw [Abs.next_complement_true hp]; trivial
    | false =>
      have hstep : a.n = a.cur.length → ErasesPass D a.cur (c + 1) ∧ partSize a.cur.length c k = 1 := by
        intro hn
        obtain ⟨hck, -, hs⟩ := ht hn
        have hu := partSize_unit hl.pos hck
        rw [Abs.cand_complement hp, hu] at hv
        exact ⟨hs.succ hv, hu⟩
      by_cases hlt : c + partSize a.cur.length c k < a.cur.length
      · rw [Abs.next_complement_more hp hlt]
        intro hn
        obtain ⟨hs, hu⟩ := hstep hn
        obtain ⟨hck, hone, -⟩ := ht hn
        have := hl.pos
        simp only [hu]
        exact ⟨by omega, hone, hs⟩
      · by_cases hn : a.n < a.cur.length
        · rw [Abs.next_complement_finer hp hlt hn]; trivial
        · rw [Abs.next_complement_last hp hlt hn]
          have hn : a.n = a.cur.length := by have := hl.le; omega
          obtain ⟨hs, hu⟩ := hstep hn
          obtain ⟨hck, hone, -⟩ := ht hn
          rw [hu] at hlt
          exact Or.inr ⟨hone, fun i hi => hs i (by simp only at hi; omega)⟩
  | done => rw [Abs.next_done hp]; exact h

end

end DiyDdmin.Ddmin.Abstract
