/-
  DiyDdmin.Increasing.Input — when `range_increasing` leaves the user's file alone.

  As for `ddmin`, a turn `Touches` an entry when it opens it as its next output file, or
  runs a test of which it is an output file. The output files are numbered from 1, and a
  new one is opened at the start and after each accepted candidate.

  Proved, for any directory and program: while no turn touches an entry it keeps its bytes
  at every moment (`increasing_unchanged`).
-/

import DiyDdmin.Increasing.Results

namespace DiyDdmin.Increasing

open Posix Tester Numeric Systems

/-- The turn from `s` to `t` opens `k` as its next output file, or runs a test of which it
    is an output file. -/
def Touches (E : Env) (k : Key) (s t : St) : Prop :=
  (s.ctl.failNo < t.ctl.failNo ∧ k = E.key (partFile t.ctl.failNo)) ∨ TestedOver E k s.w t.w

instance (E : Env) (k : Key) (s t : St) : Decidable (Touches E k s t) := inferInstanceAs (Decidable (_ ∨ _))

section

variable {E : Env} {p : Path} {k : Key} {c : Option Bytes} {fs : Fs}

/-- The output file `j` is another one. -/
def Elsewhere (E : Env) (k : Key) (c : Option Bytes) (j : Nat) (l : Locals) : Prop :=
  l.outFp.Off (Unchanged k c) ∧ l.outFile = partFile j ∧ k ≠ E.key (partFile j)

def CtlElsewhere (E : Env) (k : Key) (c : Option Bytes) (ctl : Ctl) : Prop :=
  match ctl.pc with
  | .entry => False
  | .outer l => Elsewhere E k c ctl.failNo l
  | .inner l _ => Elsewhere E k c ctl.failNo l
  | _ => True

/-- Opening another file leaves `k` alone. -/
theorem open_unchanged {q : Path} {j : Nat} {w w' : World Vars} {l : Locals} (hw : w.All (Unchanged k c))
    (hrun : openFiles E q j w = .ok l w') (hj : k ≠ E.key (partFile j)) : w'.All (Unchanged k c) ∧ Elsewhere E k c j l := by
  have hk := openFiles_keeps (Unchanged.blind (c := c) hj) q
  have hall := hk.all hw
  rw [hrun] at hall
  obtain ⟨hoff, hout⟩ := (hk.2 w hw.1).2 l w' hrun
  exact ⟨hall, hoff, hout, hj⟩

/-- The end of a turn of the inner loop: an accepted candidate is held, and the next output
    file opened. -/
def tail (E : Env) (rs begin : Int) (failNo : Nat) (l : Locals) (r : Reader × Writer) (eCode : Bool) : Code Ctl :=
  if eCode then do
    hold l.outFile
    let l ← openFiles E l.outFile (failNo + 1)
    pure ⟨.inner l (max (begin - rs + 1) 0), rs, failNo + 1⟩
  else pure ⟨.inner ⟨r.1, r.2, l.outFile⟩ (begin + 1), rs, failNo⟩

theorem tail_unchanged {rs begin : Int} {j : Nat} {l : Locals} {r : Reader × Writer} {v : Bool} {w : World Vars}
    (hw : w.All (Unchanged k c)) (hl : Elsewhere E k c j l) (hr : r.2.Off (Unchanged k c))
    (hthere : (w.fs (E.key (partFile j))).isSome = true)
    (hno : ∀ ctl w', tail E rs begin j l r v w = .ok ctl w' → j < ctl.failNo → k ≠ E.key (partFile ctl.failNo)) :
    (tail E rs begin j l r v w).world.All (Unchanged k c) ∧
      ∀ ctl w', tail E rs begin j l r v w = .ok ctl w' → CtlElsewhere E k c ctl := by
  obtain ⟨hoff, hout, hj⟩ := hl
  cases v with
  | true =>
    obtain ⟨X, hX⟩ := Option.isSome_iff_exists.mp hthere
    let w1 : World Vars := ⟨w.fs, { w.own with held := partFile j }, w.past ++ [(w.own, w.fs)]⟩
    have hhold : Keeps (Unchanged k c) (hold (partFile j)) fun _ => True := Keeps.act fun v fs hp => ⟨hp, trivial⟩
    have hall1 : w1.All (Unchanged k c) := hhold.all hw
    obtain ⟨l', w', hopen⟩ : ∃ l' w', openFiles E (partFile j) (j + 1) w1 = .ok l' w' :=
      ⟨_, _, openFiles_there (w := w1) hX (j + 1)⟩
    have hrun : tail E rs begin j l r true w = .ok ⟨.inner l' (max (begin - rs + 1) 0), rs, j + 1⟩ w' := by
      rw [tail, if_pos rfl, hout]
      simp only [hold, act_bind]
      rw [bind_ok hopen]
      rfl
    obtain ⟨hall, helse⟩ := open_unchanged hall1 hopen (hno _ _ hrun (Nat.lt_succ_self j))
    rw [hrun]
    refine ⟨hall, ?_⟩
    intro ctl w' h
    cases h
    exact helse
  | false =>
    refine ⟨hw, ?_⟩
    intro ctl w' h
    cases h
    exact ⟨hr, hout, hj⟩

theorem tail_tests {rs begin : Int} {j : Nat} {l : Locals} {r : Reader × Writer} (v : Bool) (w : World Vars) :
    (tail E rs begin j l r v w).world.own.tests = w.own.tests := by
  let P : Vars → Fs → Prop := fun o _ => o.tests = w.own.tests
  have blind : ∀ i, Blind P (E.key (partFile i)) := fun _ _ _ _ h => h
  have hk : Keeps P (tail E rs begin j l r v) fun _ => True := by
    refine Keeps.ite (fun _ => ?_) fun _ => Keeps.pure trivial
    refine Keeps.bind (Q := fun _ => True) (Keeps.act fun _ _ h => ⟨h, trivial⟩) fun _ _ => ?_
    exact Keeps.bind (openFiles_keeps (blind _) _) fun _ _ => Keeps.pure trivial
  exact (hk.2 w rfl).1

/-- Writing a candidate records no test. -/
theorem write_tests {w w1 w2 : World Vars} {l : Locals} {size rs begin n : Int} {r : Reader × Writer}
    (h1 : inputSize E w = .ok size w1) (h2 : writeCut E l.inFp.rewind l.outFp.rewind l.outFile n rs begin w1 = .ok r w2) :
    w2.own.tests = w.own.tests := by
  let P : Vars → Fs → Prop := fun o _ => o.tests = w.own.tests
  have blind : ∀ k, Blind P k := fun _ _ _ _ h => h
  have hk1 : Keeps P (inputSize E) fun _ => True := inputSize_keeps
  have hk2 := writeCut_keeps (E := E) (P := P) (o := l.outFp.rewind) (p := l.outFile) (fun _ _ => blind _) (blind _) l.inFp.rewind n rs begin
  have hP1 := (hk1.2 w rfl).1
  rw [h1] at hP1
  have hP2 := (hk2.2 w1 hP1).1
  rwa [h2] at hP2

/-- A turn of the inner loop. -/
theorem innerTurn_unchanged {rs begin : Int} {j : Nat} {l : Locals} {w : World Vars} (hw : w.All (Unchanged k c))
    (hl : Elsewhere E k c j l) (htest : ¬ TestedOver E k w (innerTurn E rs j l begin w).world)
    (hopen : ∀ ctl w', innerTurn E rs j l begin w = .ok ctl w' → j < ctl.failNo → k ≠ E.key (partFile ctl.failNo)) :
    (innerTurn E rs j l begin w).world.All (Unchanged k c) ∧
      ∀ ctl w', innerTurn E rs j l begin w = .ok ctl w' → CtlElsewhere E k c ctl := by
  obtain ⟨hoff, hout, hj⟩ := id hl
  have hsize : Keeps (Unchanged k c) (inputSize E) fun _ => True := inputSize_keeps
  rw [innerTurn] at htest hopen ⊢
  refine hsize.bind_all hw ?_
  intro size w1 hr1 _ hall1
  rw [bind_ok hr1] at htest hopen
  by_cases hbegin : begin ≤ size - rs
  · rw [if_pos hbegin] at htest hopen ⊢
    have hcut := writeCut_keeps (o := l.outFp.rewind) hoff (hout ▸ Unchanged.blind hj) l.inFp.rewind size rs begin
    refine hcut.bind_all hall1 ?_
    intro r w2 hr2 hr hall2
    rw [bind_ok hr2] at htest hopen
    have hthere := writeCut_there hr2
    rw [hout] at hthere
    change ¬ TestedOver E k w ((testBufferOverflow E l.outFile l.outFile >>= tail E rs begin j l r) w2).world at htest
    change ∀ ctl w', (testBufferOverflow E l.outFile l.outFile >>= tail E rs begin j l r) w2 = .ok ctl w' → _ at hopen
    change ((testBufferOverflow E l.outFile l.outFile >>= tail E rs begin j l r) w2).world.All _ ∧
      ∀ ctl w', (testBufferOverflow E l.outFile l.outFile >>= tail E rs begin j l r) w2 = .ok ctl w' → _
    rw [hout] at htest hopen ⊢
    obtain ⟨v, w3, hrun, hall3, -, hsame⟩ := test_unchanged hall2 (write_tests hr1 hr2) tail_tests htest
    rw [bind_ok hrun] at hopen ⊢
    exact tail_unchanged hall3 hl hr (by rw [hsame.1]; exact hthere) hopen
  · rw [if_neg hbegin]
    refine ⟨hall1, ?_⟩
    intro ctl w' h
    cases h
    exact hl

/-- The first turn opens `./1.part`. -/
theorem start_unchanged {X : Bytes} {t : St} (hX : fs (E.key p) = some X) (hn : next E (start p fs) = some t)
    (hno : ¬ Touches E k (start p fs) t) : t.w.All (Unchanged k (fs k)) ∧ CtlElsewhere E k (fs k) t.ctl := by
  obtain ⟨l, w', hopen⟩ : ∃ l w', openFiles E p 1 (start p fs).w = .ok l w' := ⟨_, _, openFiles_there hX 1⟩
  have hrun : entryTurn E 1 0 (start p fs).w = .ok ⟨.outer l, 1, 1⟩ w' := by
    simp only [entryTurn, look_bind, Nat.zero_add]
    change (openFiles E p 1 >>= fun l => (pure ⟨.outer l, 1, 1⟩ : Code Ctl)) (start p fs).w = _
    rw [bind_ok hopen]
    rfl
  obtain rfl := Option.some.inj ((Loop.next_run (L := loop E) rfl hrun).symm.trans hn)
  have hj : k ≠ E.key (partFile 1) := fun h => hno (Or.inl ⟨Nat.zero_lt_one, h⟩)
  have hstart : (start p fs).w.All (Unchanged k (fs k)) := ⟨rfl, List.forall_mem_nil _⟩
  exact open_unchanged hstart hopen hj

/-- Step lemma. -/
theorem turn_unchanged {s t : St} (hw : s.w.All (Unchanged k c)) (hctl : CtlElsewhere E k c s.ctl) (hn : next E s = some t)
    (hno : ¬ Touches E k s t) : t.w.All (Unchanged k c) ∧ CtlElsewhere E k c t.ctl := by
  obtain ⟨⟨pc, rs, failNo⟩, w⟩ := s
  obtain ⟨hopen, htest⟩ := not_or.mp hno
  obtain ⟨x, hx, rfl⟩ := Option.map_eq_some_iff.mp hn
  rw [Loop.settle_world] at htest
  cases pc with
  | entry => exact hctl.elim
  | outer l =>
    cases hx
    have hl : Elsewhere E k c failNo l := hctl
    have hk : Keeps (Unchanged k c) (outerTurn E rs failNo l) (CtlElsewhere E k c) := by
      refine Keeps.bind inputSize_keeps fun n _ => Keeps.ite (fun _ => Keeps.pure hl) fun _ => ?_
      exact Keeps.bind Keeps.read fun _ _ => Keeps.pure trivial
    exact Loop.settle_all (fun _ _ => trivial) (fun _ => trivial) (hk.all hw) (hk.2 w hw.1).2
  | inner l begin =>
    cases hx
    obtain ⟨hall, hpost⟩ := innerTurn_unchanged hw (j := failNo) hctl htest fun ctl w' h hlt hkey => by
      change innerTurn E rs failNo l begin w = .ok ctl w' at h
      refine hopen ?_
      rw [h]
      exact ⟨hlt, hkey⟩
    exact Loop.settle_all (fun _ _ => trivial) (fun _ => trivial) hall hpost
  | ret q => cases hx
  | exited e => cases hx
  | hung => cases hx

/-- Run lemma. -/
theorem increasing_unchanged {X : Bytes} (hX : fs (E.key p) = some X) {s : St}
    (hs : ((machine E p fs).toSystem.restrict fun s t => ¬ Touches E k s t).Reach s) : s.w.All (Unchanged k (fs k)) := by
  have h : s = start p fs ∨ s.w.All (Unchanged k (fs k)) ∧ CtlElsewhere E k (fs k) s.ctl := by
    refine System.Reach.invariant (P := fun s => s = start p fs ∨ s.w.All (Unchanged k (fs k)) ∧ CtlElsewhere E k (fs k) s.ctl)
      (fun s h => Or.inl h) ?_ hs
    rintro s t - (rfl | hi) hst
    · exact Or.inr (start_unchanged hX hst.2 hst.1)
    · exact Or.inr (turn_unchanged hi.1 hi.2 hst.2 hst.1)
  rcases h with rfl | h
  · exact ⟨rfl, List.forall_mem_nil _⟩
  · exact h.1

end

end DiyDdmin.Increasing
