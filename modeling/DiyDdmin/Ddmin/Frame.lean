/-
  DiyDdmin.Ddmin.Frame — what the loop leaves alone, at every moment of a run.

  Stated over what holds at every system call (`Keeps`, `Trails`), for any sizes and any
  verdicts: a predicate that says nothing about the output files in use and survives the
  tests on them survives a turn up to the moment a candidate is accepted (`turn_trails`);
  one that does not name the held file survives that too, and so a whole run
  (`reach_keeps`).
-/

import DiyDdmin.Ddmin.Code

namespace DiyDdmin.Ddmin

open Posix Tester Numeric Systems

section

variable (E : Env) (V : Variant) (P : Vars → Fs → Prop) (I : Nat → Prop)

/-- `P` says nothing about the output files numbered in `I`, and the two tests keep it. -/
structure Framed : Prop where
  part : ∀ i, I i → Blind P (E.key (V.outFile i))
  subset : ∀ i, I i → Keeps P (V.testSubset (V.outFile i)) fun _ => True
  complement : ∀ i, I i → Keeps P (V.testComplement (V.outFile i)) fun _ => True

def Locals.Off (l : Locals) : Prop := l.outFp.Off P ∧ ∃ i, I i ∧ l.outFile = V.outFile i

/-- The output file of the turn under way, or the next to be opened, is one of `I`. -/
def Ctl.Off (c : Ctl) : Prop :=
  match c.pc with
  | .head => I c.fileNo
  | .subset l _ _ => l.Off V P I
  | .complement l _ _ => l.Off V P I
  | _ => True

end

section

variable {E : Env} {V : Variant} {P : Vars → Fs → Prop} {I : Nat → Prop}

section

variable (hpart : ∀ i, I i → Blind P (E.key (V.outFile i)))
include hpart

theorem writeSubset_keeps {l : Locals} (hl : l.Off V P I) (p : Int) :
    Keeps P (writeSubset E l p) (Locals.Off V P I) := by
  obtain ⟨ho, i, hi, he⟩ := hl
  refine Keeps.bind (copyLoop_keeps ho) fun r hr => ?_
  refine Keeps.bind (fflush_keeps hr) fun o hflush => ?_
  refine Keeps.bind (byteCountFile_keeps E _) fun bt _ => ?_
  refine Keeps.ite (fun _ => ?_) fun _ => Keeps.pure ⟨hflush, i, hi, he⟩
  exact Keeps.bind (truncateTo_keeps (he ▸ hpart i hi) _) fun _ _ => Keeps.pure ⟨hflush, i, hi, he⟩

theorem writeComplement_keeps {l : Locals} (hl : l.Off V P I) (c p : Int) :
    Keeps P (writeComplement E l c p) (Locals.Off V P I) := by
  obtain ⟨ho, i, hi, he⟩ := hl
  refine Keeps.bind (copyLoop_keeps ho) fun r hr => ?_
  refine Keeps.bind Keeps.read fun s _ => ?_
  refine Keeps.ite (fun _ => Keeps.exit) fun _ => ?_
  refine Keeps.bind (copyLoop_keeps hr) fun r' hr' => ?_
  refine Keeps.bind (fflush_keeps hr') fun o hflush => ?_
  refine Keeps.bind (byteCountFile_keeps E _) fun bt _ => ?_
  refine Keeps.ite (fun _ => ?_) fun _ => Keeps.pure ⟨hflush, i, hi, he⟩
  exact Keeps.bind (truncateTo_keeps (he ▸ hpart i hi) _) fun _ _ => Keeps.pure ⟨hflush, i, hi, he⟩

theorem headTurn_keeps (n : Int) {fileNo : Nat} (hi : I fileNo) : Keeps P (headTurn E V n fileNo) (Ctl.Off V P I) := by
  refine Keeps.bind Keeps.read fun held _ => ?_
  refine Keeps.bind (byteCountFile_keeps E _) fun fSize _ => Keeps.ite (fun _ => ?_) fun _ => Keeps.pure trivial
  refine Keeps.bind Keeps.read fun inFp _ => ?_
  cases inFp with
  | none => exact Keeps.exit
  | some inFp =>
    refine Keeps.bind (fopenWrite_keeps (hpart fileNo hi)) fun o ho => ?_
    cases o with
    | none => exact Keeps.exit
    | some o => exact Keeps.pure ⟨ho o rfl, fileNo, hi, rfl⟩

end

variable (F : Framed E V P I)
include F

/-- A turn of the loop keeps `P` until it changes the held file. -/
theorem turn_trails {c : Ctl} {x : Code Ctl} (hc : c.Off V P I) (hx : turn E V c = some x) : Trails P x := by
  obtain ⟨pc, n, fileNo⟩ := c
  cases pc with
  | entry =>
    cases hx
    refine Trails.bind Keeps.read fun a _ => Trails.ite Trails.exit ?_
    exact Trails.bind Keeps.read fun b _ => Trails.ite Trails.exit (Trails.act fun _ _ => rfl)
  | head => cases hx; exact (headTurn_keeps F.part n hc).1
  | subset l f k =>
    cases hx
    refine Trails.bind (writeSubset_keeps F.part hc _) fun l' hl' => ?_
    obtain ⟨j, hI, hj⟩ := hl'.2
    refine Trails.bind (hj ▸ F.subset j hI) fun e _ => ?_
    exact Trails.ite (Trails.act fun _ _ => rfl) (Trails.ite Trails.pure Trails.pure)
  | complement l f k =>
    cases hx
    refine Trails.bind (writeComplement_keeps F.part hc _ _) fun l' hl' => ?_
    obtain ⟨j, hI, hj⟩ := hl'.2
    refine Trails.bind (hj ▸ F.complement j hI) fun e _ => ?_
    exact Trails.ite (Trails.act fun _ _ => rfl)
      (Trails.ite Trails.pure (Trails.ite Trails.pure (Trails.bind Keeps.read fun _ _ => Trails.pure)))
  | ret p => cases hx
  | exited e => cases hx
  | hung => cases hx

section

-- `P` says nothing about the name of the held file either
variable (hI : ∀ i, I i) (hH : ∀ v fs p, P v fs → P { v with held := p } fs)
include hI hH

theorem turn_keeps {c : Ctl} {x : Code Ctl} (hc : c.Off V P I) (hx : turn E V c = some x) : Keeps P x (Ctl.Off V P I) := by
  have hhold : ∀ p (c' : Ctl), c'.Off V P I → Keeps P (do hold p; pure c' : Code Ctl) (Ctl.Off V P I) := fun p c' h =>
    Keeps.bind (Q := fun _ => True) (Keeps.act fun v fs hp => ⟨hH v fs p hp, trivial⟩) fun _ _ => Keeps.pure h
  obtain ⟨pc, n, fileNo⟩ := c
  cases pc with
  | entry =>
    cases hx
    refine Keeps.bind Keeps.read fun a _ => Keeps.ite (fun _ => Keeps.exit) fun _ => ?_
    exact Keeps.bind Keeps.read fun b _ => Keeps.ite (fun _ => Keeps.exit) fun _ => hhold _ _ (hI _)
  | head => cases hx; exact headTurn_keeps F.part n hc
  | subset l f k =>
    cases hx
    refine Keeps.bind (writeSubset_keeps F.part hc _) fun l' hl' => ?_
    obtain ⟨j, hi, hj⟩ := id hl'.2
    refine Keeps.bind (hj ▸ F.subset j hi) fun e _ => Keeps.ite (fun _ => hhold _ _ (hI _)) fun _ => ?_
    exact Keeps.ite (fun _ => Keeps.pure hl') fun _ => Keeps.pure hl'
  | complement l f k =>
    cases hx
    refine Keeps.bind (writeComplement_keeps F.part hc _ _) fun l' hl' => ?_
    obtain ⟨j, hi, hj⟩ := id hl'.2
    refine Keeps.bind (hj ▸ F.complement j hi) fun e _ => Keeps.ite (fun _ => hhold _ _ (hI _)) fun _ => ?_
    refine Keeps.ite (fun _ => Keeps.pure hl') fun _ => Keeps.ite (fun _ => Keeps.pure (hI _)) fun _ => ?_
    exact Keeps.bind Keeps.read fun _ _ => Keeps.pure trivial
  | ret p => cases hx
  | exited e => cases hx
  | hung => cases hx

/-- Run lemma: what holds of the start holds at every moment of every run. -/
theorem reach_keeps {fs : Fs} (h0 : P ⟨V.firstFile, []⟩ fs) {s : St} (hs : (machine E V fs).Reach s) :
    s.w.All P :=
  Loop.reach_keeps (L := loop E V) (Q := Ctl.Off V P I) (fun _ _ hc hx => turn_keeps F hI hH hc hx) (fun _ _ => trivial)
    (fun _ => trivial) (start V fs) ⟨⟨h0, fun _ hm => nomatch hm⟩, trivial⟩ hs

end

end

end DiyDdmin.Ddmin
