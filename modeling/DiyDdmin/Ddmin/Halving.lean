/-
  DiyDdmin.Ddmin.Halving — delta debugging under a verdict function, and when it never
  gets beyond halving.

  `det D X` is the loop from `X` with every candidate judged by `D`. `Halves D X` holds
  when `X` comes down to one element by halves: the first half fails, or it does not and
  the second does, and so on. Proved: the complement phase is reached exactly when that is
  not so (`halves_iff`).
-/

import DiyDdmin.Ddmin.Runs

namespace DiyDdmin.Ddmin.Abstract

open Systems

variable {α : Type} (D : List α → Bool)

def det (X : List α) : Machine (Abs α) :=
  ⟨.init X, fun a => if a.phase = .done then none else some (a.next (D a.cand))⟩

variable {D} {X : List α}

theorem det_next {a b : Abs α} : (det D X).next a = some b ↔ a.phase ≠ .done ∧ a.next (D a.cand) = b := by
  simp only [det]
  split <;> simp_all

theorem Reach.det_step {a : Abs α} (h : (det D X).Reach a) (hd : a.phase ≠ .done) :
    (det D X).Reach (a.next (D a.cand)) := h.next (det_next.mpr ⟨hd, rfl⟩)

theorem det_wf {a : Abs α} (h : (det D X).Reach a) : WF a := by
  refine Machine.Reach.invariant (M := det D X) (reach_wf (X := X) (R := fun _ _ => True) (.init rfl)) ?_ h
  intro s t _ hw hn
  obtain ⟨-, rfl⟩ := det_next.mp hn
  exact next_wf hw _

/-- With verdicts from `D` there is one run. -/
theorem reach_det {R : List α → Bool → Prop} (hR : ∀ c v, R c v → v = D c) {a : Abs α} (h : (system X R).Reach a) :
    (det D X).Reach a := by
  refine h.invariant (P := (det D X).Reach) ?_ ?_
  · rintro a rfl
    exact .init
  · rintro a b - hr ⟨hd, v, hv, rfl⟩
    have hstep := Reach.det_step hr hd
    by_cases hp : a.phase = .head
    · rwa [next_head hp] at hstep ⊢
    · rwa [← hR _ _ (hv hp)] at hstep

theorem det_ends_of_done {a : Abs α} (h : (det D X).Reach a) (hd : a.phase = .done) : (det D X).Ends a :=
  ⟨h, by simp [det, hd]⟩

/-! ## Halving -/

def half (X : List α) : Nat := partSize X.length 0 2

inductive Halves (D : List α → Bool) : List α → Prop
  | one {X : List α} : X.length ≤ 1 → Halves D X
  | left {X : List α} : D (X.take (half X)) = true → Halves D (X.take (half X)) → Halves D X
  | right {X : List α} : D (X.take (half X)) = false → D (X.drop (half X)) = true → Halves D (X.drop (half X)) →
      Halves D X

/-- Where the run is while it only halves. -/
def OnHalves (D : List α → Bool) (a : Abs α) : Prop :=
  match a.phase with
  | .head => a.n = 2 ∧ Halves D a.cur
  | .subset c k => a.n = 2 ∧ Halves D a.cur ∧ 1 < a.cur.length ∧
      (c = 0 ∧ k = 2 ∨ c = half a.cur ∧ k = 1 ∧ D (a.cur.take (half a.cur)) = false)
  | .complement _ _ => False
  | .done => True

theorem cand_first {a : Abs α} (h : a.phase = .subset 0 2) : a.cand = a.cur.take (half a.cur) := by
  simp [Abs.cand, h, half]

theorem cand_second {a : Abs α} (h : a.phase = .subset (half a.cur) 1) : a.cand = a.cur.drop (half a.cur) := by
  simp only [Abs.cand, h, partSize_last]
  exact List.take_of_length_le (by rw [List.length_drop])

theorem onHalves_next {a : Abs α} (h : OnHalves D a) : OnHalves D (a.next (D a.cand)) := by
  cases hp : a.phase with
  | head =>
    obtain ⟨hn, hH⟩ : a.n = 2 ∧ Halves D a.cur := by simpa [OnHalves, hp] using h
    by_cases hlt : 1 < a.cur.length
    · rw [Abs.next_head_long hp _ hlt]
      exact ⟨hn, hH, hlt, Or.inl ⟨rfl, hn⟩⟩
    · rw [Abs.next_head_short hp _ hlt]; trivial
  | subset c k =>
    obtain ⟨hn, hH, hlt, hck⟩ : a.n = 2 ∧ Halves D a.cur ∧ 1 < a.cur.length ∧
        (c = 0 ∧ k = 2 ∨ c = half a.cur ∧ k = 1 ∧ D (a.cur.take (half a.cur)) = false) := by
      simpa [OnHalves, hp] using h
    have hnot : ¬ a.cur.length ≤ 1 := by omega
    rcases hck with ⟨rfl, rfl⟩ | ⟨rfl, rfl, hfirst⟩
    · cases hv : D a.cand with
      | true =>
        have hc := cand_first hp
        rw [Abs.next_subset_true hp]
        refine ⟨rfl, ?_⟩
        cases hH with
        | one h1 => exact absurd h1 hnot
        | left _ hH => exact hc ▸ hH
        | right hD => rw [hc, hD] at hv; cases hv
      | false =>
        rw [Abs.next_subset_more hp Nat.one_lt_two]
        exact ⟨hn, hH, hlt, Or.inr ⟨by simp [half], rfl, cand_first hp ▸ hv⟩⟩
    · have hc := cand_second hp
      cases hH with
      | one h1 => exact absurd h1 hnot
      | left hD => rw [hfirst] at hD; cases hD
      | right _ hD hH =>
        rw [← hc] at hD
        rw [hD, Abs.next_subset_true hp]
        exact ⟨rfl, hc ▸ hH⟩
  | complement c k => simp [OnHalves, hp] at h
  | done => rw [Abs.next_done hp]; exact h

theorem reach_onHalves (hX : Halves D X) {a : Abs α} (h : (det D X).Reach a) : OnHalves D a := by
  refine Machine.Reach.invariant (M := det D X) (P := OnHalves D) ⟨rfl, hX⟩ ?_ h
  intro s t _ hs hn
  obtain ⟨-, rfl⟩ := det_next.mp hn
  exact onHalves_next hs

/-- Where halving gets stuck, the complement phase begins. -/
theorem reach_complement : ∀ (m : Nat) {a : Abs α}, a.cur.length = m → (det D X).Reach a → a.phase = .head → a.n = 2 →
    ¬Halves D a.cur → ∃ b, (det D X).Reach b ∧ ∃ c k, b.phase = .complement c k := by
  intro m
  induction m using Nat.strong_induction_on with
  | _ m ih =>
    intro a hm hr hp hn hnot
    have hlt : 1 < a.cur.length := by
      by_contra h; exact hnot (.one (by omega))
    have h1 : a.next (D a.cand) = { a with phase := .subset 0 2 } := by simp [Abs.next, hp, hlt, hn]
    have r1 : (det D X).Reach { a with phase := .subset 0 2 } := h1 ▸ Reach.det_step hr (by simp [hp])
    have s1 := cand_shorter (Or.inl rfl) (det_wf r1)
    have c1 := cand_first (a := { a with phase := .subset 0 2 }) rfl
    have r2 := Reach.det_step r1 (by simp)
    cases hv : D (Abs.cand { a with phase := .subset 0 2 }) with
    | true =>
      rw [hv] at r2
      simp only [Abs.next, if_true] at r2
      refine ih _ (hm ▸ s1.2) rfl r2 rfl rfl fun hH => hnot ?_
      exact .left (c1 ▸ hv) (c1 ▸ hH)
    | false =>
      -- on to the second half
      have h2 : Abs.next { a with phase := .subset 0 2 } false =
          { a with phase := .subset (half a.cur) 1, tried := a.tried ++ [Abs.cand { a with phase := .subset 0 2 }] } := by
        simp [Abs.next, half]
      rw [hv, h2] at r2
      have s2 := cand_shorter (Or.inl rfl) (det_wf r2)
      have c2 := cand_second (a := { a with
        phase := .subset (half a.cur) 1, tried := a.tried ++ [Abs.cand { a with phase := .subset 0 2 }] }) rfl
      have r3 := Reach.det_step r2 (by simp)
      cases hv2 : D (Abs.cand { a with
          phase := .subset (half a.cur) 1, tried := a.tried ++ [Abs.cand { a with phase := .subset 0 2 }] }) with
      | true =>
        rw [hv2] at r3
        simp only [Abs.next, if_true] at r3
        refine ih _ (hm ▸ s2.2) rfl r3 rfl rfl fun hH => hnot ?_
        exact .right (c1 ▸ hv) (c2 ▸ hv2) (c2 ▸ hH)
      | false =>
        rw [hv2] at r3
        exact ⟨_, r3, 0, a.n, by simp [Abs.next]⟩

/-- The complement phase is never reached exactly when halving goes through. -/
theorem halves_iff : (∀ a, (det D X).Reach a → ∀ c k, a.phase ≠ .complement c k) ↔ Halves D X := by
  constructor
  · intro h
    by_contra hnot
    obtain ⟨b, hb, c, k, hp⟩ := reach_complement X.length rfl (D := D) (X := X) .init rfl rfl hnot
    exact h b hb c k hp
  · intro hX a ha c k hp
    have := reach_onHalves hX ha
    rw [OnHalves, hp] at this
    exact this

end DiyDdmin.Ddmin.Abstract
