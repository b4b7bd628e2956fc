/-
  DiyDdmin.Increasing.Greedy — `range_increasing` on a monotone verdict function.

  The first pass (`rs` = 1) is greedy deletion: at `begin` it has got through the bytes
  before, and a byte that it keeps is not tried again, since it backs up by `rs - 1` = 0.
  What it leaves has no byte that can be deleted, so no longer cut fails either and the
  later passes change nothing.

  Proved, for inputs of two bytes or more below 2^31: what is returned is the greedy
  deletion of the input, and no candidate with `rs` ≥ 2 is accepted (`increasing_greedy`).
  From 2^31 bytes on the size may come out negative, and nothing is deleted
  (`a_negative_size_is_returned_with_every_byte`).
-/

import DiyDdmin.Increasing.Results

namespace DiyDdmin.Increasing

open Posix Tester Numeric Systems Reduction Abstract

namespace Abstract

variable {α : Type} {D : List α → Bool} {X : List α}

/-- Where greedy deletion of `X` has got to. -/
def GreedyPass (D : List α → Bool) (X : List α) (a : Scan α) : Prop :=
  (1 < a.rs → a.cur = greedy D X) ∧
  match a.phase with
  | .outer => a.rs = 1 → a.cur = X
  | .inner b => a.rs = 1 → b ≤ a.cur.length ∧ greedyAt D b a.cur = greedy D X
  | .done => a.rs = 1 → X.length ≤ 1

/-- Where no single element can be deleted, no longer range can. -/
theorem passes_of_singles (hD : Monotone D) {a : Scan α} (h : SinglesPass D a) (hrs : 1 < a.rs) {b : Nat}
    (hb : b + a.rs ≤ a.cur.length) : D (cut b a.rs a.cur) = false :=
  hD.false_of_sublist (cut_sublist_cut (Nat.le_of_lt hrs) a.cur) (h.1 hrs b (by omega))

theorem greedy_next (hD : Monotone D) {a : Scan α} (hrs : 1 ≤ a.rs) (hsmall : a.cur.length < 2 ^ 31) (hs : SinglesPass D a)
    (h : GreedyPass D X a) {c : List α} {v : Bool} (hc : ∀ b, a.Tries b → Fits a b c ∧ v = D c) :
    GreedyPass D X (a.next c v) := by
  obtain ⟨hlong, hph⟩ := h
  have hsize := size_of_small hsmall
  cases hp : a.phase with
  | outer =>
    rw [hp] at hph
    by_cases h : a.rs < a.size
    · rw [next_scan c v hp h]
      refine ⟨hlong, fun h1 => ⟨Nat.zero_le _, ?_⟩⟩
      rw [greedyAt_zero, hph h1]
    · rw [next_end c v hp h]
      refine ⟨hlong, ?_⟩
      intro h1
      rw [← hph h1]
      have h1 : a.rs = 1 := h1
      omega
  | inner b =>
    rw [hp] at hph
    by_cases h : a.Tries b
    · obtain ⟨hf, hv⟩ := hc b h
      have hin := hf.inside
      have hcut := hf.exact hsmall
      cases v with
      | true =>
        rw [next_accept c h]
        rcases hrs.lt_or_eq with h2 | h1
        · -- no candidate of a later pass fails
          rw [hcut, passes_of_singles hD hs h2 (by omega)] at hv
          cases hv
        · refine ⟨fun h2 => absurd h2 (by simp only; omega), ?_⟩
          intro _
          rw [← h1] at hcut hin ⊢
          obtain ⟨hb, hg⟩ := hph h1.symm
          subst hcut
          rw [Nat.add_sub_cancel, length_cut (by omega)]
          exact ⟨by omega, (greedyAt_drop (by omega) hv.symm).symm.trans hg⟩
      | false =>
        rw [next_reject c h]
        refine ⟨hlong, ?_⟩
        intro h1
        have h1 : a.rs = 1 := h1
        rw [h1] at hcut hin
        obtain ⟨hb, hg⟩ := hph h1
        subst hcut
        exact ⟨by simp only; omega, (greedyAt_keep (by omega) hv.symm).symm.trans hg⟩
    · rw [next_wrap c v hp h]
      have hlt : ¬ (b : Int) ≤ a.size - a.rs := fun h' => h ⟨hp, h'⟩
      refine ⟨?_, fun h1 => absurd h1 (by simp only; omega)⟩
      intro _
      rcases hrs.lt_or_eq with h2 | h1
      · exact hlong h2
      · obtain ⟨hb, hg⟩ := hph h1.symm
        rw [← hg, greedyAt_end D (by omega)]
  | done =>
    rw [next_done c v hp]
    exact ⟨hlong, hph⟩

end Abstract

section

variable {E : Env} {inputPath : Path} {fs : Fs} {X : Bytes} {D : Bytes → Bool} (hp : Unnamed E PartName (E.key inputPath))
  (hX : fs (E.key inputPath) = some X)
include hp hX

/-- Run lemma: what the scan keeps on the candidates it tries holds of every state's scan. -/
theorem reach_keeps {P : Scan UInt8 → Prop} (hl : X.length < 2 ^ 31) (hD : Judges E D) (h0 : P (.init X))
    (hP : ∀ a c v, 1 ≤ a.rs → a.cur.length < 2 ^ 31 → P a → (∀ b, a.Tries b → Fits a b c ∧ v = D c) → P (a.next c v))
    {s : St} (hs : (machine E inputPath fs).Reach s) :
    s = start inputPath fs ∨ ∃ a, Match E inputPath s a ∧ a.cur.length < 2 ^ 31 ∧ P a := by
  refine reach_turns hp hX (P := fun _ a => a.cur.length < 2 ^ 31 ∧ P a) (fun _ _ => ⟨hl, h0⟩) ?_ hs
  intro s a t c v _ hm ha ht _
  have hc : ∀ b, a.Tries b → Fits a b c ∧ v = D c := fun b hb => ⟨(ht.ran b hb).1, (ht.ran b hb).2 D hD⟩
  exact ⟨next_small ha.1 fun b hb => (hc b hb).1, hP a c v hm.one ha.1 ha.2 hc⟩

/-- On a monotone verdict function `range_increasing` returns the greedy deletion of its
    input; in the passes with `rs` ≥ 2 the held file stays, so no candidate is accepted. -/
theorem increasing_greedy (hM : Monotone D) (h2 : 2 ≤ X.length) (hl : X.length < 2 ^ 31) (hD : Judges E D) :
    (∃ s q, (machine E inputPath fs).Ends s ∧ s.ctl.pc = .ret q ∧ s.w.fs (E.key q) = some (greedy D X)) ∧
    ∀ s t, (machine E inputPath fs).Reach s → 2 ≤ s.ctl.rs → next E s = some t → t.w.own.held = s.w.own.held := by
  have hkeep : ∀ s, (machine E inputPath fs).Reach s → s = start inputPath fs ∨
      ∃ a, Match E inputPath s a ∧ a.cur.length < 2 ^ 31 ∧ SinglesPass D a ∧ GreedyPass D X a := fun s hs => by
    refine reach_keeps hp hX hl hD ⟨⟨fun h1 => absurd h1 (by simp [Scan.init]), trivial⟩, fun h1 => absurd h1 (by simp [Scan.init]), fun _ => rfl⟩
      ?_ hs
    intro a c v hrs hsmall h hc
    exact ⟨singles_next hM hrs hsmall h.1 hc, greedy_next hM hrs hsmall h.1 h.2 hc⟩
  constructor
  · obtain ⟨s, q, hs, hq⟩ := returns hp hX
    rcases hkeep s hs.1 with rfl | ⟨a, hm, -, -, hlong, hph⟩
    · cases hq
    · obtain ⟨hd, rfl⟩ := match_ret hm hq
      refine ⟨s, _, hs, hq, ?_⟩
      rw [hd] at hph
      -- the first pass was made
      have hrs : 1 < a.rs := by
        have := hm.one
        by_contra hno
        have := hph (by omega)
        omega
      rw [← hlong hrs]
      exact hm.file
  · intro s t hs hrs hn
    rcases hkeep s hs with rfl | ⟨a, hm, hsmall, hsing, -⟩
    · exact absurd hrs (by simp [start])
    · obtain ⟨c, v, ht, -⟩ := turn_of_next hp hm hn
      apply ht.held
      by_cases htry : ∃ b, a.Tries b
      · obtain ⟨b, hb⟩ := htry
        obtain ⟨hf, hv⟩ := ht.ran b hb
        have hin := hf.inside
        have hsize := size_of_small hsmall
        have hone : 1 < a.rs := by
          have := hm.rs
          omega
        right
        rw [hv D hD, hf.exact hsmall]
        exact passes_of_singles hM hsing hone (by omega)
      · exact Or.inl fun b hb => htry ⟨b, hb⟩

end

theorem hasOne_monotone : Monotone hasOne := by
  intro Y Z hs hY
  rw [hasOne, List.contains_iff_mem] at hY ⊢
  exact hs.subset hY

theorem increasing_greedy_three :
    greedy hasOne [2, 1, 3] = [1] ∧
    ∃ s q, (machine (judging hasOne) "in".toList (soleInput "in".toList [2, 1, 3])).Ends s ∧ s.ctl.pc = .ret q ∧
      s.w.fs ((judging hasOne).key q) = some [1] :=
  ⟨rfl, (increasing_greedy (unnamed_in hasOne) (sole_in hasOne [2, 1, 3]) hasOne_monotone (by decide) (by decide)
    (judging_judges hasOne)).1⟩

/-- Where everything fails, greedy deletion leaves nothing. -/
theorem greedy_of_fails {α : Type} (X : List α) : greedy (fun _ => true) X = [] := by
  rw [greedy]
  induction X with
  | nil => rfl
  | cons x X ih => rw [greedyFrom, if_pos rfl, ih]

/-- An input of 2^31 + 1 bytes, whose size an `int` takes for a negative one, is returned
    with all its bytes although everything fails. -/
theorem a_negative_size_is_returned_with_every_byte :
    (Judges (judging fun _ => true) (fun _ => true) ∧ Monotone fun _ : Bytes => true) ∧
    ∃ s, (machine (judging fun _ => true) "in".toList (soleInput "in".toList (List.replicate (2 ^ 31 + 1) 0))).Reach s ∧
      s.ctl.pc = .ret "in".toList ∧
      s.w.fs ((judging fun _ => true).key "in".toList) = some (List.replicate (2 ^ 31 + 1) 0) ∧
      (List.replicate (2 ^ 31 + 1) 0 : Bytes) ≠ greedy (fun _ => true) (List.replicate (2 ^ 31 + 1) 0) := by
  refine ⟨⟨judging_judges _, fun _ _ _ _ => rfl⟩, ?_⟩
  generalize hT : List.replicate (2 ^ 31 + 1) (0 : UInt8) = T
  have hlen : T.length = 2 ^ 31 + 1 := hT ▸ List.length_replicate
  obtain ⟨s, hs, hq, hfile⟩ := returns_unscanned (unnamed_in fun _ => true) (sole_in (fun _ => true) T) (by rw [hlen]; decide +kernel)
  refine ⟨s, hs, hq, hfile, ?_⟩
  rw [greedy_of_fails]
  intro e
  rw [e] at hlen
  cases hlen

end DiyDdmin.Increasing
