/-
  DiyDdmin.Ddmin.Runs — whole runs of the loop.

  `Abstract.system X R` is delta debugging from `X` with verdicts drawn from `R`: all of
  them for a program that answers as it likes, a function's for a deterministic one. Every
  state the code reaches is its start, the exit for a missing program, or matched by a
  state that system reaches (`reach_match`); so what holds over the runs of the abstract
  loop (`reach_wf`, `reach_genuine`, `reach_tested`) holds of the code.
-/

import DiyDdmin.Ddmin.Refine

namespace DiyDdmin.Ddmin

open Posix Tester Numeric Systems Reduction Abstract

/-! ## Runs of the abstract loop -/

namespace Abstract

section

variable {α : Type} {X : List α} {R : List α → Bool → Prop}

def system (X : List α) (R : List α → Bool → Prop) : System (Abs α) where
  start a := a = .init X
  step a b := a.phase ≠ .done ∧ ∃ v, (a.phase ≠ .head → R a.cand v) ∧ b = a.next v

theorem reach_wf {a : Abs α} (h : (system X R).Reach a) : WF a := by
  refine h.invariant (P := WF) ?_ ?_
  · rintro a rfl
    exact ⟨Nat.le_refl _, by simp only [Abs.init]; omega⟩
  · rintro a b - hw ⟨-, v, -, rfl⟩
    exact next_wf hw v

theorem next_head {a : Abs α} (h : a.phase = .head) (v : Bool) : a.next v = a.next false := by
  simp only [Abs.next, h]

/-- The sequence stays unless a candidate fails. -/
theorem next_false_cur (a : Abs α) : (a.next false).cur = a.cur := by
  cases hp : a.phase with
  | head => simp only [Abs.next, hp]; split <;> rfl
  | subset c k => simp [Abs.next, hp]
  | complement c k =>
    simp only [Abs.next, hp, Bool.false_eq_true, if_false]
    split
    · rfl
    · split <;> rfl
  | done => rw [Abs.next_done hp]

theorem next_true_cur {a : Abs α} {c k : Nat} (h : a.phase = .subset c k ∨ a.phase = .complement c k) :
    (a.next true).cur = a.cand := by
  rcases h with h | h
  · rw [Abs.next_subset_true h]
  · rw [Abs.next_complement_true h]

theorem phase_cases {a : Abs α} (hh : a.phase ≠ .head) (hd : a.phase ≠ .done) :
    ∃ c k, a.phase = .subset c k ∨ a.phase = .complement c k := by
  cases hp : a.phase with
  | head => exact absurd hp hh
  | subset c k => exact ⟨c, k, Or.inl rfl⟩
  | complement c k => exact ⟨c, k, Or.inr rfl⟩
  | done => exact absurd hp hd

/-- The sequence never loses its last element. -/
theorem reach_pos (hX : 0 < X.length) {a : Abs α} (h : (system X R).Reach a) : 0 < a.cur.length := by
  refine h.invariant (P := fun a => 0 < a.cur.length) ?_ ?_
  · rintro a rfl
    exact hX
  · rintro a b hr hpos ⟨hd, v, -, rfl⟩
    by_cases hp : a.phase = .head
    · rw [next_head hp, next_false_cur]; exact hpos
    · cases v with
      | false => rw [next_false_cur]; exact hpos
      | true =>
        obtain ⟨c, k, hph⟩ := phase_cases hp hd
        rw [next_true_cur hph]
        exact (cand_shorter hph (reach_wf hr)).1

/-- The sequence gets no longer. -/
theorem reach_length {a : Abs α} (h : (system X R).Reach a) : a.cur.length ≤ X.length := by
  refine h.invariant (P := fun a => a.cur.length ≤ X.length) ?_ ?_
  · rintro a rfl
    exact Nat.le_refl _
  · rintro a b - hle ⟨hd, v, -, rfl⟩
    by_cases hp : a.phase = .head
    · rw [next_head hp, next_false_cur]; exact hle
    · cases v with
      | false => rw [next_false_cur]; exact hle
      | true =>
        obtain ⟨c, k, hph⟩ := phase_cases hp hd
        rw [next_true_cur hph]
        exact (cand_sublist a).length_le.trans hle

variable {D : List α → Bool}

theorem reach_genuine (hR : ∀ c v, R c v → v = D c) {a : Abs α} (h : (system X R).Reach a) : Genuine D X a.cur := by
  refine h.invariant (P := fun a => Genuine D X a.cur) ?_ ?_
  · rintro a rfl
    exact Or.inl rfl
  · rintro a b hr hg ⟨hd, v, hv, rfl⟩
    by_cases hp : a.phase = .head
    · rw [next_head hp, next_false_cur]; exact hg
    · cases v with
      | false => rw [next_false_cur]; exact hg
      | true =>
        obtain ⟨c, k, hph⟩ := phase_cases hp hd
        rw [next_true_cur hph]
        exact hg.shrink (cand_sublist a) (cand_shorter hph (reach_wf hr)).2 (hR _ _ (hv hp)).symm

theorem reach_tested (hR : ∀ c v, R c v → v = D c) {a : Abs α} (h : (system X R).Reach a) : Tested D a := by
  refine h.invariant (P := Tested D) ?_ ?_
  · rintro a rfl
    trivial
  · rintro a b hr ht ⟨-, v, hv, rfl⟩
    have hn := tested_next (reach_wf hr) ht
    by_cases hp : a.phase = .head
    · rwa [next_head hp] at hn ⊢
    · rwa [← hR _ _ (hv hp)] at hn

end

end Abstract

/-! ## Runs of the code -/

/-- With the program and the input there the first turn enters the loop; without the
    program it leaves. -/
theorem start_cases {E : Env} {V : Variant} {fs : Fs} (hin : (fs (E.key V.inputPath)).isSome = true) :
    ((fs (E.key E.programPath)).isSome = true ∧
      next E V (start V fs) = some ⟨⟨.head, 2, 0⟩, ⟨fs, ⟨V.firstFile, []⟩, [(⟨V.firstFile, []⟩, fs)]⟩⟩) ∨
    (fs (E.key E.programPath) = none ∧
      next E V (start V fs) = some ⟨⟨.exited (.noProgramPath E.programPath), 2, 0⟩, (start V fs).w⟩) := by
  by_cases hp : (fs (E.key E.programPath)).isSome = true
  · exact Or.inl ⟨hp, next_run rfl (by simp [entryTurn, access, hp, hin, hold])⟩
  · refine Or.inr ⟨by simpa using hp, ?_⟩
    have hrun : entryTurn E V 0 (start V fs).w = .exit (.noProgramPath E.programPath) (start V fs).w := by
      simp [entryTurn, start, access, hp, exit]
    simp only [next, Loop.next, loop, turn, start, Option.map_some] at hrun ⊢
    rw [hrun]; rfl

section

variable {E : Env} {V : Variant} {G : Fs → Prop} {seenS seenC : Bytes → Test → Prop} {R : Bytes → Bool → Prop}
  {X : Bytes} {fs : Fs}

/-- The code is at its start, has left for want of a program, or is in step with the
    abstract loop. -/
inductive Tracked (E : Env) (V : Variant) (G : Fs → Prop) (R : Bytes → Bool → Prop) (X : Bytes) (fs : Fs) : St → Prop
  | start : Tracked E V G R X fs (Ddmin.start V fs)
  | noProgram {s : St} : fs (E.key E.programPath) = none → s.ctl.pc = .exited (.noProgramPath E.programPath) →
      s.w = (Ddmin.start V fs).w → Tracked E V G R X fs s
  | loop {s : St} (a : Abs UInt8) : (system X R).Reach a → Match E V G s a → Tracked E V G R X fs s

/-- What a run of the loop needs: names that do not clash, a first input of at most 2^24
    bytes in a good directory, and tests whose verdicts are among `R`. -/
structure Ready (E : Env) (V : Variant) (G : Fs → Prop) (seenS seenC : Bytes → Test → Prop)
    (R : Bytes → Bool → Prop) (X : Bytes) (fs : Fs) : Prop where
  layout : Layout E V (fun _ => True) G seenS seenC
  good : G fs
  input : (fs (E.key V.inputPath)).isSome = true
  first : fs (E.key V.firstFile) = some X
  small : X.length ≤ 2 ^ 24
  subset : ∀ c t, seenS c t → R c (verdict E.errMsg t.outcome)
  complement : ∀ c t, seenC c t → R c (verdict E.errMsg t.outcome)

variable (h : Ready E V G seenS seenC R X fs)
include h

theorem init_match (w : World Vars) (hfs : w.fs = fs) (hown : w.own = ⟨V.firstFile, []⟩) :
    Match E V G ⟨⟨.head, 2, 0⟩, w⟩ (.init X) := by
  refine ⟨by rw [hfs]; exact h.good, by rw [hfs, hown]; exact h.first, by rw [hown]; rfl, h.small, reach_wf (R := R) (.init rfl), rfl, ?_⟩
  exact Or.inl (by rw [hown])

/-- With the program there, the first turn enters the loop. -/
theorem enter (hp : (fs (E.key E.programPath)).isSome = true) :
    ∃ t, next E V (start V fs) = some t ∧ t.ctl.pc ≠ .entry ∧ t.w.fs = fs ∧ t.w.own = ⟨V.firstFile, []⟩ ∧
      Match E V G t (.init X) := by
  rcases start_cases h.input with ⟨-, hn⟩ | ⟨hno, -⟩
  · exact ⟨_, hn, nofun, rfl, rfl, init_match h _ rfl rfl⟩
  · rw [hno] at hp; cases hp

theorem start_next : ∃ t, next E V (start V fs) = some t ∧ t.ctl.pc ≠ .entry ∧ t.w.fs = fs ∧
    t.w.own = ⟨V.firstFile, []⟩ ∧ Tracked E V G R X fs t := by
  rcases start_cases h.input with ⟨hp, -⟩ | ⟨hno, hn⟩
  · obtain ⟨t, h1, h2, h3, h4, hm⟩ := enter h hp
    exact ⟨t, h1, h2, h3, h4, .loop _ (.init rfl) hm⟩
  · exact ⟨_, hn, nofun, rfl, rfl, .noProgram hno rfl rfl⟩

/-- Run lemma of the simulation. -/
theorem reach_tracked {s : St} (hs : (machine E V fs).Reach s) : Tracked E V G R X fs s := by
  refine hs.invariant .start ?_
  intro s t _ hs hn
  change next E V s = some t at hn
  cases hs with
  | start =>
    obtain ⟨t', ht', -, -, -, h'⟩ := start_next h
    rw [ht'] at hn; cases hn; exact h'
  | noProgram _ hp _ => simp [next, Loop.next, loop, turn, hp] at hn
  | loop a ha hm =>
    have hd : a.phase ≠ .done := fun hd => by rw [(match_done hm).mp hd] at hn; cases hn
    obtain ⟨t', v, ht⟩ := match_next h.layout hm spared_all hd
    rw [ht.next] at hn; cases hn
    refine .loop _ (.step ha ⟨hd, v, ?_, rfl⟩) ht.matched
    intro hp
    obtain ⟨r, -, hv, -, hS, hC⟩ := ht.ran hp
    cases hph : a.phase with
    | head => exact absurd hph hp
    | subset c k => rw [hv]; exact h.subset _ _ (hS c k hph)
    | complement c k => rw [hv]; exact h.complement _ _ (hC c k hph)
    | done => exact absurd hph hd

/-- Every run ends. -/
theorem ends : ∃ t, (machine E V fs).Ends t := by
  have hloop : ∀ {s : St} {a : Abs UInt8}, (machine E V fs).Reach s → Match E V G s a → ∃ t, (machine E V fs).Ends t := by
    intro s a hr hm
    refine Machine.ends_of_matched (r := (· < ·)) wellFounded_lt rank (R := Match E V G) ?_ hr hm
    intro s a _ hm
    by_cases hd : a.phase = .done
    · exact Or.inl ((match_done hm).mp hd)
    · obtain ⟨t, v, ht⟩ := match_next h.layout hm spared_all hd
      exact Or.inr ⟨t, a.next v, ht.next, ht.matched, rank_next hm.wf hd v⟩
  obtain ⟨t, hn, he, -, -, ht⟩ := start_next h
  have hr : (machine E V fs).Reach t := Machine.Reach.init.next hn
  cases ht with
  | start => exact absurd rfl he
  | noProgram _ hp _ => exact ⟨t, hr, by change next E V t = none; simp [next, Loop.next, loop, turn, hp]⟩
  | loop a _ hm => exact hloop hr hm

/-- Where the code returns, the abstract loop is done, and the result is the held file. -/
theorem ret_tracked {s : St} (hs : (machine E V fs).Reach s) {q : Path} (hq : s.ctl.pc = .ret q) :
    ∃ a, (system X R).Reach a ∧ Match E V G s a ∧ a.phase = .done ∧ q = s.w.own.held := by
  cases reach_tracked h hs with
  | start => cases hq
  | noProgram _ he _ => rw [he] at hq; cases hq
  | loop a ha hm =>
    have hd : a.phase = .done := (match_done hm).mpr (by simp [next, Loop.next, loop, turn, hq])
    have hpc := hm.pc
    rw [PcMatch, hq, hd] at hpc
    exact ⟨a, ha, hm, hd, hpc⟩

/-- Every run returns, if the program is there. -/
theorem returns (hprog : (fs (E.key E.programPath)).isSome = true) :
    ∃ s q, (machine E V fs).Ends s ∧ s.ctl.pc = .ret q := by
  obtain ⟨s, hs, hn⟩ := ends h
  change next E V s = none at hn
  cases reach_tracked h hs with
  | start =>
    obtain ⟨t, ht, -⟩ := start_next h
    rw [ht] at hn; cases hn
  | noProgram hno _ _ => rw [hno] at hprog; cases hprog
  | loop a ha hm =>
    have hd := (match_done hm).mpr hn
    have hpc := hm.pc
    rw [PcMatch, hd] at hpc
    cases hc : s.ctl.pc with
    | ret q => exact ⟨s, q, ⟨hs, hn⟩, hc⟩
    | _ => rw [hc] at hpc; exact hpc.elim

end

end DiyDdmin.Ddmin
