/-
  DiyDdmin.Tester.Held — the history of the held file.

  `Shrinks E D X w`: at every moment of `w` the file held as the minimized input contains
  `X` or a failing sequence that is `X` with elements deleted, and of any two moments the
  later one holds the same file with the same bytes, or a failing one with bytes deleted.

  Proved: a history stays so when it goes on with moments that keep the held file and
  its bytes, and then one that supersedes them (`Shrinks.extend`).
-/

import DiyDdmin.Tester.Overflow
import DiyDdmin.Reduction.Cut

namespace DiyDdmin.Tester

open Posix Reduction

section

variable (E : Env) (D : Bytes → Bool)

/-- The same file with the same bytes, or a failing one with bytes deleted. -/
def Supersedes (m m' : Vars × Fs) : Prop :=
  (m'.1.held = m.1.held ∧ m'.2 (E.key m'.1.held) = m.2 (E.key m.1.held)) ∨
  ∃ c c', m.2 (E.key m.1.held) = some c ∧ m'.2 (E.key m'.1.held) = some c' ∧
    D c' = true ∧ c'.Sublist c ∧ c'.length < c.length

structure Shrinks (X : Bytes) (w : World Vars) : Prop where
  holds : w.All fun v fs => ∃ c, fs (E.key v.held) = some c ∧ Genuine D X c
  steps : w.moments.Pairwise (Supersedes E D)

/-- The held file is `h`, with bytes `c`. -/
def Holding (h : Path) (c : Bytes) (v : Vars) (fs : Fs) : Prop := v.held = h ∧ fs (E.key h) = some c

end

variable {E : Env} {D : Bytes → Bool} {X : Bytes}

theorem Supersedes.trans {a b c : Vars × Fs} (h : Supersedes E D a b) (h' : Supersedes E D b c) : Supersedes E D a c := by
  rcases h with ⟨h1, h2⟩ | ⟨x, y, h1, h2, h3, h4, h5⟩
  · rcases h' with ⟨h1', h2'⟩ | ⟨x, y, h1', h2', h3⟩
    · exact Or.inl ⟨h1'.trans h1, h2'.trans h2⟩
    · exact Or.inr ⟨x, y, h2 ▸ h1', h2', h3⟩
  · rcases h' with ⟨h1', h2'⟩ | ⟨y', z, h1', h2', h3', h4', h5'⟩
    · exact Or.inr ⟨x, y, h1, h2'.trans h2, h3, h4, h5⟩
    · obtain rfl : y = y' := Option.some.inj (h2.symm.trans h1')
      exact Or.inr ⟨x, z, h1, h2', h3', h4'.trans h4, by omega⟩

theorem Holding.supersedes {h : Path} {c : Bytes} {m m' : Vars × Fs} (hm : Holding E h c m.1 m.2)
    (hm' : Holding E h c m'.1 m'.2) : Supersedes E D m m' :=
  Or.inl ⟨hm'.1.trans hm.1.symm, by rw [hm'.1, hm.1, hm.2, hm'.2]⟩

theorem Shrinks.start {w : World Vars} (hp : w.past = []) (hX : w.fs (E.key w.own.held) = some X) : Shrinks E D X w :=
  ⟨⟨⟨X, hX, Or.inl rfl⟩, by rw [hp]; nofun⟩, by simp [World.moments, hp]⟩

/-- The history goes on: the held file stays for a while, then is superseded. -/
theorem Shrinks.extend {w w' : World Vars} (h : Shrinks E D X w) {p : Path} {c : Bytes}
    (hw : Holding E p c w.own w.fs) {l : List (Vars × Fs)} (hl : w'.past = w.past ++ l)
    (hk : ∀ m ∈ l, Holding E p c m.1 m.2) (hs : Supersedes E D (w.own, w.fs) (w'.own, w'.fs)) : Shrinks E D X w' := by
  obtain ⟨⟨hnow, hpast⟩, hsteps⟩ := h
  have hg : Genuine D X c := by
    obtain ⟨c', hc', hg⟩ := hnow
    rw [hw.1, hw.2] at hc'
    cases hc'; exact hg
  -- what any earlier moment is to the present one, it is to the later ones
  have hold : ∀ m ∈ w.past, Supersedes E D m (w.own, w.fs) := fun m hm =>
    (List.pairwise_append.mp hsteps).2.2 m hm _ (List.mem_singleton_self _)
  refine ⟨⟨?_, ?_⟩, ?_⟩
  · rcases hs with ⟨h1, h2⟩ | ⟨x, y, h1, h2, h3, h4, h5⟩
    · exact ⟨c, h2.trans (hw.1 ▸ hw.2), hg⟩
    · have e : x = c := by
        simp only [hw.1, hw.2] at h1
        exact (Option.some.inj h1).symm
      subst e
      exact ⟨y, h2, hg.shrink h4 h5 h3⟩
  · intro m hm
    rw [hl] at hm
    rcases List.mem_append.mp hm with hm | hm
    · exact hpast m hm
    · exact ⟨c, by rw [(hk m hm).1]; exact (hk m hm).2, hg⟩
  · rw [World.moments, hl, List.pairwise_append, List.pairwise_append]
    refine ⟨⟨(List.pairwise_append.mp hsteps).1, ?_, ?_⟩, List.pairwise_singleton _ _, ?_⟩
    · exact List.pairwise_of_forall_mem_list fun a ha b hb => (hk a ha).supersedes (hk b hb)
    · intro a ha b hb
      exact (hold a ha).trans (Holding.supersedes (m := (w.own, w.fs)) hw (hk b hb))
    · intro a ha b hb
      rw [List.mem_singleton.mp hb]
      rcases List.mem_append.mp ha with ha | ha
      · exact (hold a ha).trans hs
      · exact ((hk a ha).supersedes hw).trans hs

/-! ## What keeps the held file -/

theorem Holding.blind {h : Path} {c : Bytes} {k : Key} (hne : E.key h ≠ k) : Blind (Holding E h c) k :=
  fun _ _ _ hP => ⟨hP.1, (Fs.put_ne _ _ hne).trans hP.2⟩

theorem Holding.blindTo (h : Path) (c : Bytes) (given : Path) : BlindTo (Holding E h c) given := fun _ _ _ _ hP => hP

/-- A program that keeps the held file lets the history go on, whatever way it ends. -/
theorem Shrinks.of_keeps {α : Type} {x : Code α} {Q : α → Prop} {p : Path} {c : Bytes} (hk : Keeps (Holding E p c) x Q)
    {w : World Vars} (hs : Shrinks E D X w) (hw : Holding E p c w.own w.fs) :
    Shrinks E D X (x w).world ∧ Holding E p c (x w).world.own (x w).world.fs := by
  obtain ⟨l, hl, hP⟩ := hk.1 w hw
  have hw' := (hk.2 w hw).1
  exact ⟨hs.extend hw hl hP (Holding.supersedes (m := (w.own, w.fs)) hw hw'), hw'⟩

theorem Shrinks.of_ok {α : Type} {x : Code α} {Q : α → Prop} {p : Path} {c : Bytes} (hk : Keeps (Holding E p c) x Q)
    {w w' : World Vars} {a : α} (hx : x w = .ok a w') (hs : Shrinks E D X w) (hw : Holding E p c w.own w.fs) :
    Shrinks E D X w' ∧ Holding E p c w'.own w'.fs := by
  have h := hs.of_keeps hk hw
  rw [hx] at h
  exact h

/-- Holding a failing reduction of what is held. -/
theorem Shrinks.hold {p q : Path} {c c' : Bytes} {w : World Vars} (hs : Shrinks E D X w) (hw : Holding E p c w.own w.fs)
    (hc : w.fs (E.key q) = some c') (hD : D c' = true) (hsub : c'.Sublist c) (hlt : c'.length < c.length) :
    Shrinks E D X ⟨w.fs, { w.own with held := q }, w.past ++ [(w.own, w.fs)]⟩ := by
  refine hs.extend hw rfl ?_ (Or.inr ⟨c, c', by rw [hw.1]; exact hw.2, hc, hD, hsub, hlt⟩)
  intro m hm
  rw [List.mem_singleton.mp hm]; exact hw

/-! ## The last accepted cut -/

def heldLength (E : Env) (m : Vars × Fs) : Nat := ((m.2 (E.key m.1.held)).getD []).length

/-- By how much the held file last shrank: 0 if it never did. -/
def lastCut (E : Env) (w : World Vars) : Nat :=
  match (w.past.map (heldLength E)).reverse.find? (· ≠ heldLength E (w.own, w.fs)) with
  | some n => n - heldLength E (w.own, w.fs)
  | none => 0

theorem Holding.length {p : Path} {c : Bytes} {m : Vars × Fs} (h : Holding E p c m.1 m.2) : heldLength E m = c.length := by
  rw [heldLength, h.1, h.2, Option.getD_some]

theorem lastCut_start {w : World Vars} (h : w.past = []) : lastCut E w = 0 := by simp [lastCut, h]

theorem lastCut_of_keeps {α : Type} {x : Code α} {Q : α → Prop} {p : Path} {c : Bytes} (hk : Keeps (Holding E p c) x Q)
    {w : World Vars} (hw : Holding E p c w.own w.fs) : lastCut E (x w).world = lastCut E w := by
  obtain ⟨l, hl, hP⟩ := hk.1 w hw
  have hw' := (hk.2 w hw).1
  have hnow : heldLength E (w.own, w.fs) = c.length := Holding.length (m := (w.own, w.fs)) hw
  have hnow' : heldLength E ((x w).world.own, (x w).world.fs) = c.length :=
    Holding.length (m := ((x w).world.own, (x w).world.fs)) hw'
  have hnone : (l.map (heldLength E)).reverse.find? (· ≠ c.length) = none := by
    rw [List.find?_eq_none]
    intro n hn
    obtain ⟨m, hm, rfl⟩ := List.mem_map.mp (List.mem_reverse.mp hn)
    simp [(hP m hm).length]
  rw [lastCut, lastCut, hnow, hnow', hl, List.map_append, List.reverse_append, List.find?_append, hnone, Option.none_or]

theorem lastCut_of_ok {α : Type} {x : Code α} {Q : α → Prop} {p : Path} {c : Bytes} (hk : Keeps (Holding E p c) x Q)
    {w w' : World Vars} {a : α} (hx : x w = .ok a w') (hw : Holding E p c w.own w.fs) :
    lastCut E w' = lastCut E w := by
  have h := lastCut_of_keeps hk hw
  rw [hx] at h
  exact h

theorem lastCut_hold {p q : Path} {c c' : Bytes} {w : World Vars} (hw : Holding E p c w.own w.fs)
    (hc : w.fs (E.key q) = some c') (hlt : c'.length < c.length) :
    lastCut E ⟨w.fs, { w.own with held := q }, w.past ++ [(w.own, w.fs)]⟩ = c.length - c'.length := by
  have hnow : heldLength E (w.own, w.fs) = c.length := Holding.length (m := (w.own, w.fs)) hw
  have hnow' : heldLength E ({ w.own with held := q }, w.fs) = c'.length :=
    Holding.length (p := q) (c := c') (m := ({ w.own with held := q }, w.fs)) ⟨rfl, hc⟩
  have hne : c.length ≠ c'.length := by omega
  rw [lastCut, hnow', List.map_append, List.reverse_append]
  simp [hnow, hne]

end DiyDdmin.Tester
