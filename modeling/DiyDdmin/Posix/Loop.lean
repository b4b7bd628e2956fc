/-
  DiyDdmin.Posix.Loop — a program cut into turns.

  Between turns the program is a control value; a turn is a program that ends with the
  next one, exits, or hangs. A loop and a start make a machine whose states are a control
  value and a world.

  Proved: what each turn keeps at every moment, every run keeps (`reach_keeps`).
-/

import DiyDdmin.Posix.Files
import DiyDdmin.Systems.Reach

namespace DiyDdmin.Posix

open Systems

structure Loop (γ ε κ : Type) where
  turn : κ → Option (Prog γ ε κ)
  exited : κ → ε → κ
  hung : κ → κ

structure LoopSt (γ κ : Type) where
  ctl : κ
  w : World γ

namespace Loop

variable {γ ε κ : Type} (L : Loop γ ε κ)

def settle (c : κ) : Res γ ε κ → LoopSt γ κ
  | .ok c w => ⟨c, w⟩
  | .exit e w => ⟨L.exited c e, w⟩
  | .hang w => ⟨L.hung c, w⟩

def next (s : LoopSt γ κ) : Option (LoopSt γ κ) := (L.turn s.ctl).map fun t => L.settle s.ctl (t s.w)

def machine (s : LoopSt γ κ) : Machine (LoopSt γ κ) := ⟨s, L.next⟩

variable {L}

theorem next_run {c c' : κ} {w w' : World γ} {x : Prog γ ε κ} (ht : L.turn c = some x) (hx : x w = .ok c' w') :
    L.next ⟨c, w⟩ = some ⟨c', w'⟩ := by
  simp only [next, ht, Option.map_some, hx, settle]

/-- Inversion of a turn. -/
theorem next_cases {s t : LoopSt γ κ} (h : L.next s = some t) : ∃ x, L.turn s.ctl = some x ∧
    ((∃ c w, x s.w = .ok c w ∧ t = ⟨c, w⟩) ∨ (∃ e w, t = ⟨L.exited s.ctl e, w⟩) ∨ ∃ w, t = ⟨L.hung s.ctl, w⟩) := by
  obtain ⟨x, hx, rfl⟩ := Option.map_eq_some_iff.mp h
  refine ⟨x, hx, ?_⟩
  cases x s.w with
  | ok c w => exact Or.inl ⟨c, w, rfl, rfl⟩
  | exit e w => exact Or.inr (Or.inl ⟨e, w, rfl⟩)
  | hang w => exact Or.inr (Or.inr ⟨w, rfl⟩)

@[simp] theorem settle_world (c : κ) (r : Res γ ε κ) : (L.settle c r).w = r.world := by cases r <;> rfl

theorem next_world {s t : LoopSt γ κ} (h : L.next s = some t) : ∃ x, L.turn s.ctl = some x ∧ t.w = (x s.w).world := by
  obtain ⟨x, hx, rfl⟩ := Option.map_eq_some_iff.mp h
  exact ⟨x, hx, settle_world _ _⟩

/-- What a turn leaves, in terms of what it ends with. -/
theorem settle_all {P : γ → Fs → Prop} {Q : κ → Prop} (he : ∀ c e, Q (L.exited c e)) (hh : ∀ c, Q (L.hung c)) {c : κ}
    {r : Res γ ε κ} (hall : r.world.All P) (hpost : ∀ c' w', r = .ok c' w' → Q c') :
    (L.settle c r).w.All P ∧ Q (L.settle c r).ctl := by
  refine ⟨by rw [settle_world]; exact hall, ?_⟩
  cases r with
  | ok c' w' => exact hpost c' w' rfl
  | exit e w' => exact he c e
  | hang w' => exact hh c

section

variable {P : γ → Fs → Prop} {Q : κ → Prop} (ht : ∀ c x, Q c → L.turn c = some x → Keeps P x Q)
  (he : ∀ c e, Q (L.exited c e)) (hh : ∀ c, Q (L.hung c))
include ht he hh

theorem next_keeps {s t : LoopSt γ κ} (hs : s.w.All P ∧ Q s.ctl) (hn : L.next s = some t) : t.w.All P ∧ Q t.ctl := by
  obtain ⟨x, hx, rfl⟩ := Option.map_eq_some_iff.mp hn
  have hk := ht _ _ hs.2 hx
  exact settle_all he hh (hk.all hs.1) (hk.2 s.w hs.1.1).2

/-- Run lemma: what holds of the start holds at every moment of every run. -/
theorem reach_keeps (s0 : LoopSt γ κ) {s : LoopSt γ κ} (h0 : s0.w.All P ∧ Q s0.ctl) (hs : (L.machine s0).Reach s) : s.w.All P :=
  (hs.invariant (P := fun s => s.w.All P ∧ Q s.ctl) h0 fun _ _ _ h hn => next_keeps ht he hh h hn).1

end

end Loop

end DiyDdmin.Posix
