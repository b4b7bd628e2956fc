/-
  DiyDdmin.Ddmin.Input — when `ddmin` leaves the user's file alone.

  `ddmin` does not compare the input path with the names it makes up. A turn `Touches` an
  entry when it opens it as the output file of a new round, or runs a test of which it is
  an output file.

  Proved, for any directory and program: while no turn touches an entry it keeps its bytes
  at every moment (`ddmin_unchanged`).
-/

import DiyDdmin.Ddmin.Minimal

namespace DiyDdmin.Ddmin

open Posix Tester Numeric Systems

/-- The turn from `s` to `t` opens `k` as the output file of a new round, or runs a test of
    which it is an output file. -/
def Touches (E : Env) (k : Key) (s t : St) : Prop :=
  (s.ctl.fileNo < t.ctl.fileNo ∧ k = E.key (partFile s.ctl.fileNo)) ∨ TestedOver E k s.w t.w

instance (E : Env) (k : Key) (s t : St) : Decidable (Touches E k s t) := inferInstanceAs (Decidable (_ ∨ _))

section

variable {E : Env} {p : Path} {k : Key} {c : Option Bytes} {fs : Fs}

/-- The round under way writes to another file. -/
def Elsewhere (E : Env) (p : Path) (k : Key) (c : Option Bytes) (l : Locals) : Prop :=
  l.Off (ddmin E p) (Unchanged k c) fun i => k ≠ E.key (partFile i)

def CtlElsewhere (E : Env) (p : Path) (k : Key) (c : Option Bytes) (ctl : Ctl) : Prop :=
  match ctl.pc with
  | .subset l _ _ => Elsewhere E p k c l
  | .complement l _ _ => Elsewhere E p k c l
  | _ => True

/-- A round is opened, or nothing is done. -/
theorem headTurn_cases (n : Int) (fileNo : Nat) (w : World Vars) :
    (∃ ctl w', headTurn E (ddmin E p) n fileNo w = .ok ctl w' ∧ ctl.fileNo = fileNo + 1) ∨
      ((headTurn E (ddmin E p) n fileNo w).world = w ∧
        ∀ ctl w', headTurn E (ddmin E p) n fileNo w = .ok ctl w' → CtlElsewhere E p k c ctl) := by
  have hholds : E.Holds ((ddmin E p).outFile fileNo) := Env.holds_of (key_partFile E fileNo)
  simp only [headTurn, look_bind]
  cases hX : w.fs (E.key w.own.held) with
  | none =>
    have hexit : byteCountFile E w.own.held w = .exit (.stat w.own.held) w := by simp [byteCountFile, stat, hX, exit]
    rw [bind_run, hexit]
    exact Or.inr ⟨rfl, fun _ _ h => by cases h⟩
  | some X =>
    rw [bind_ok (byteCountFile_run hX)]
    split
    · rw [bind_ok (fopenRead_run hX)]
      simp only
      rw [bind_ok (fopenWrite_run hholds w)]
      exact Or.inl ⟨_, _, rfl, rfl⟩
    · refine Or.inr ⟨rfl, ?_⟩
      intro ctl w' h
      cases h
      trivial

theorem blind_part (i : Nat) (h : k ≠ E.key (partFile i)) : Blind (Unchanged k c) (E.key ((ddmin E p).outFile i)) :=
  Unchanged.blind h

/-- What both phases do: write a candidate, test it, go on. -/
theorem phase_unchanged {y : Code Locals} {g : Locals → Bool → Code Ctl} {w : World Vars} (hw : w.All (Unchanged k c))
    (hy : Keeps (Unchanged k c) y (Elsewhere E p k c)) (ho : ∀ l w1, y w = .ok l w1 → w1.own = w.own)
    (hg : ∀ l v, Elsewhere E p k c l → Keeps (Unchanged k c) (g l v) (CtlElsewhere E p k c))
    (hgt : ∀ l v w1, (g l v w1).world.own.tests = w1.own.tests)
    (hno : ¬ TestedOver E k w ((y >>= fun l => testBufferOverflow E l.outFile l.outFile >>= g l) w).world) :
    ((y >>= fun l => testBufferOverflow E l.outFile l.outFile >>= g l) w).world.All (Unchanged k c) ∧
      ∀ ctl w', (y >>= fun l => testBufferOverflow E l.outFile l.outFile >>= g l) w = .ok ctl w' → CtlElsewhere E p k c ctl := by
  refine hy.bind_all hw ?_
  intro l w1 hr hl hall
  rw [bind_ok hr] at hno
  obtain ⟨-, i, -, hi⟩ := id hl
  change l.outFile = partFile i at hi
  simp only [hi] at hno ⊢
  obtain ⟨v, w2, hrun, hall2, -⟩ := test_unchanged hall (congrArg Vars.tests (ho l w1 hr)) (hgt l) hno
  rw [bind_ok hrun]
  exact ⟨(hg l v hl).all hall2, fun ctl w' h => ((hg l v hl).2 w2 hall2.1).2 ctl w' h⟩

/-- Step lemma. -/
theorem turn_unchanged {s t : St} (hw : s.w.All (Unchanged k c)) (hctl : CtlElsewhere E p k c s.ctl)
    (hn : next E (ddmin E p) s = some t) (hno : ¬ Touches E k s t) :
    t.w.All (Unchanged k c) ∧ CtlElsewhere E p k c t.ctl := by
  obtain ⟨⟨pc, n, fileNo⟩, w⟩ := s
  obtain ⟨hopen, htest⟩ := not_or.mp hno
  obtain ⟨x, hx, rfl⟩ := Option.map_eq_some_iff.mp hn
  have settled : (x w).world.All (Unchanged k c) → (∀ ctl w', x w = .ok ctl w' → CtlElsewhere E p k c ctl) →
      ((loop E (ddmin E p)).settle ⟨pc, n, fileNo⟩ (x w)).w.All (Unchanged k c) ∧
        CtlElsewhere E p k c ((loop E (ddmin E p)).settle ⟨pc, n, fileNo⟩ (x w)).ctl :=
    Loop.settle_all (fun _ _ => trivial) fun _ => trivial
  have htested : ¬ TestedOver E k w (x w).world := by
    rw [Loop.settle_world] at htest
    exact htest
  have hhold : ∀ q (ctl : Ctl), CtlElsewhere E p k c ctl →
      Keeps (Unchanged k c) (do hold q; pure ctl : Code Ctl) (CtlElsewhere E p k c) := fun q ctl h =>
    Keeps.bind (Q := fun _ => True) (Keeps.act fun v fs hp => ⟨hp, trivial⟩) fun _ _ => Keeps.pure h
  cases pc with
  | entry =>
    cases hx
    have hk : Keeps (Unchanged k c) (entryTurn E (ddmin E p) fileNo) (CtlElsewhere E p k c) := by
      refine Keeps.bind Keeps.read fun a _ => Keeps.ite (fun _ => Keeps.exit) fun _ => ?_
      exact Keeps.bind Keeps.read fun b _ => Keeps.ite (fun _ => Keeps.exit) fun _ => hhold _ _ trivial
    exact settled (hk.all hw) (hk.2 w hw.1).2
  | head =>
    cases hx
    by_cases hkey : k = E.key (partFile fileNo)
    · rcases headTurn_cases (E := E) (p := p) (k := k) (c := c) n fileNo w with ⟨ctl, w', hrun, hno⟩ | ⟨hsame, hpost⟩
      · refine absurd ⟨?_, hkey⟩ hopen
        change fileNo < ((loop E (ddmin E p)).settle _ (headTurn E (ddmin E p) n fileNo w)).ctl.fileNo
        rw [hrun]
        change fileNo < ctl.fileNo
        omega
      · exact settled (by rw [hsame]; exact hw) hpost
    · have hk := headTurn_keeps (V := ddmin E p) (blind_part (E := E) (p := p) (c := c)) n hkey
      refine settled (hk.all hw) fun ctl w' h => ?_
      have hoff := (hk.2 w hw.1).2 ctl w' h
      rw [CtlElsewhere]
      rw [Ctl.Off] at hoff
      cases hpc : ctl.pc <;> rw [hpc] at hoff <;> trivial
  | subset l fSizeLeft nLeft =>
    cases hx
    obtain ⟨j, -, hj⟩ := id hctl.2
    refine (fun h => settled h.1 h.2) (phase_unchanged hw (writeSubset_keeps blind_part hctl _)
      (fun l1 w1 h => (writeSubset_fits hj h).1) ?_ ?_ htested)
    · intro l1 v hl1
      refine Keeps.ite (fun _ => hhold _ _ trivial) fun _ => ?_
      exact Keeps.ite (fun _ => Keeps.pure hl1) fun _ => Keeps.pure hl1
    · intro l1 v w1
      cases v <;> simp only [Bool.false_eq_true, if_false, if_true] <;> try rfl
      split <;> rfl
  | complement l cStart nLeft =>
    cases hx
    obtain ⟨j, -, hj⟩ := id hctl.2
    refine (fun h => settled h.1 h.2) (phase_unchanged hw (writeComplement_keeps blind_part hctl _ _)
      (fun l1 w1 h => (writeComplement_fits hj h).1) ?_ ?_ htested)
    · intro l1 v hl1
      refine Keeps.ite (fun _ => hhold _ _ trivial) fun _ => Keeps.ite (fun _ => Keeps.pure hl1) fun _ => ?_
      exact Keeps.ite (fun _ => Keeps.pure trivial) fun _ => Keeps.bind Keeps.read fun _ _ => Keeps.pure trivial
    · intro l1 v w1
      cases v <;> simp only [Bool.false_eq_true, if_false, if_true] <;> try rfl
      split
      · rfl
      · split <;> rfl
  | ret q => cases hx
  | exited e => cases hx
  | hung => cases hx

/-- Run lemma. -/
theorem ddmin_unchanged {s : St} (hs : ((machine E (ddmin E p) fs).toSystem.restrict fun s t => ¬ Touches E k s t).Reach s) :
    s.w.All (Unchanged k (fs k)) := by
  refine (System.Reach.invariant (P := fun s => s.w.All (Unchanged k (fs k)) ∧ CtlElsewhere E p k (fs k) s.ctl) ?_ ?_ hs).1
  · intro s h
    obtain rfl : s = start (ddmin E p) fs := h
    exact ⟨⟨rfl, List.forall_mem_nil _⟩, trivial⟩
  · intro s t _ hi hst
    exact turn_unchanged hi.1 hi.2 hst.2 hst.1

end

end DiyDdmin.Ddmin
