/-
  DiyDdmin.Range.Jobs — what one worker of `range` does with one job.

  In a round on an input `T` of which the first `n` bytes are used, a worker that has
  popped `begin` writes `T` without `[begin, begin + r)` to its current candidate file and
  tests it. `Stage` says how far it is.

  Proved: from each stage the worker's turn gets to the next, touching no entry but its own
  candidate file and the two output files of its test (`worker_runs`); so it neither hangs
  nor exits, and what it tests is the cut of its job.
-/

import DiyDdmin.Range.Moves
import DiyDdmin.Tester.Held

namespace DiyDdmin.Range

open Posix Tester Numeric Systems Reduction

/-! ## Names -/

/-- The candidate file of a worker that has found `k` failing candidates. -/
def outName (th : Worker) (k : Nat) : Path := if k = 0 then threadFile th else threadPartFile (th + threadN * k)

section

variable (E : Env) (th th' : Worker) (k k' i : Nat)

theorem key_outName : E.key (outName th k) = E.cwd ++
    [numbered "thread".toList (th + threadN * k) (if k = 0 then [] else ".part".toList)] := by
  unfold outName
  split
  · subst_vars; exact key_threadFile E _
  · exact key_threadPartFile E _

variable {th th' k k'} in
theorem outName_inj (h : E.key (outName th k) = E.key (outName th' k')) : th = th' ∧ k = k' := by
  rw [key_outName, key_outName] at h
  have hs : ∀ j : Nat, ∀ c ∈ (if j = 0 then [] else ".part".toList).head?, c.isDigit = false := fun j => by
    split <;> decide
  obtain ⟨hn, -⟩ := numbered_inj (hs k) (hs k') (List.singleton_injective (List.append_cancel_left h))
  have h1 := th.isLt
  have h2 := th'.isLt
  simp only [threadN] at h1 h2 hn
  constructor
  · ext; omega
  · omega

theorem outName_ne_origin : E.key (outName th k) ≠ E.key (originFile i) := by
  rw [key_outName, key_originFile]
  exact key_ne E (numbered_ne (by decide) (by decide) (by decide) _ _ _ _)

theorem outName_ne_dummyOut : E.key (outName th k) ≠ E.key (dummyOut i) := by
  rw [key_outName, key_dummyOut]
  exact key_ne E (numbered_ne (by decide) (by decide) (by decide) _ _ _ _)

theorem outName_ne_dummyErr : E.key (outName th k) ≠ E.key (dummyErr i) := by
  rw [key_outName, key_dummyErr]
  exact key_ne E (numbered_ne (by decide) (by decide) (by decide) _ _ _ _)

theorem outName_ne_failFile : E.key (outName th k) ≠ E.key (failFile i) := by
  rw [key_outName, key_failFile]
  refine key_ne E (ne_numbered ?_ _ _)
  rw [numbered, List.head?_append_of_ne_nil _ (by decide)]
  decide

theorem originFile_ne_dummyOut : E.key (originFile k) ≠ E.key (dummyOut i) := by
  rw [key_originFile, key_dummyOut]
  exact key_ne E (numbered_ne (by decide) (by decide) (by decide) _ _ _ _)

theorem originFile_ne_dummyErr : E.key (originFile k) ≠ E.key (dummyErr i) := by
  rw [key_originFile, key_dummyErr]
  exact key_ne E (numbered_ne (by decide) (by decide) (by decide) _ _ _ _)

theorem originFile_ne_failFile : E.key (originFile k) ≠ E.key (failFile i) := by
  rw [key_originFile, key_failFile]
  refine key_ne E (ne_numbered ?_ _ _)
  rw [numbered, List.head?_append_of_ne_nil _ (by decide)]
  decide

theorem failFile_ne_dummyOut : E.key (failFile k) ≠ E.key (dummyOut i) := by
  rw [key_failFile, key_dummyOut]
  refine key_ne E (Ne.symm (ne_numbered ?_ _ _))
  rw [numbered, List.head?_append_of_ne_nil _ (by decide)]
  decide

theorem failFile_ne_dummyErr : E.key (failFile k) ≠ E.key (dummyErr i) := by
  rw [key_failFile, key_dummyErr]
  refine key_ne E (Ne.symm (ne_numbered ?_ _ _))
  rw [numbered, List.head?_append_of_ne_nil _ (by decide)]
  decide

variable {k i} in
theorem failFile_inj (h : E.key (failFile k) = E.key (failFile i)) : k = i := by
  rw [key_failFile, key_failFile] at h
  exact (numbered_inj (by decide) (by decide) (List.singleton_injective (List.append_cancel_left h))).1

variable {k i} in
theorem originFile_inj (h : E.key (originFile k) = E.key (originFile i)) : k = i := by
  rw [key_originFile, key_originFile] at h
  exact (numbered_inj (by decide) (by decide) (List.singleton_injective (List.append_cancel_left h))).1

end

/-- The entries a worker with candidate file `out` writes to. -/
def Own (E : Env) (th : Worker) (out : Path) (k : Key) : Prop :=
  k = E.key out ∨ k = E.key (dummyOut th) ∨ k = E.key (dummyErr th)

/-! ## Stages -/

/-- Called failing by every verdict function the program agrees with. -/
def Condemned (E : Env) (c : Bytes) : Prop := ∀ D, Judges E D → D c = true

section

variable (E : Env) (T : Bytes) (n r : Nat)

/-- The reader on the worker's copy of the input still has `Y` to deliver. -/
structure Source (th : Worker) (fs : Fs) (i : Reader) (Y : Bytes) : Prop where
  inFile : i.On fs (E.key (originFile th))
  eof : i.eof = false
  rest : i.rest T = Y

/-- The candidate of the job is in the worker's file. -/
def Written (out : Path) (fs : Fs) (d : Node) : Prop :=
  d.begin + r ≤ n ∧ fs (E.key out) = some (cutOf n r d.begin T)

/-- Where a worker at `pc` with candidate file `out` is with its job. -/
def Stage (th : Worker) (out : Path) (fs : Fs) : WorkerPc → Prop
  | .idle => True
  | .popping => True
  | .opening d => d.begin + r ≤ n
  | .prefixing d i o => d.begin + r ≤ n ∧ Source E T th fs i T ∧ o.Holds fs (E.key out) [] []
  | .skipping d i o => d.begin + r ≤ n ∧ Source E T th fs i (T.drop d.begin) ∧ o.Holds fs (E.key out) [] (T.take d.begin)
  | .postfixing d i o =>
    d.begin + r ≤ n ∧ Source E T th fs i (T.drop (d.begin + r)) ∧ o.Holds fs (E.key out) [] (T.take d.begin)
  | .flushing d o => d.begin + r ≤ n ∧ o.Holds fs (E.key out) [] (cutOf n r d.begin T)
  | .fitting d => Written E T n r out fs d
  | .testing d => Written E T n r out fs d
  | .reserving d => Written E T n r out fs d ∧ Condemned E (cutOf n r d.begin T)
  | .checking d _ => Written E T n r out fs d ∧ Condemned E (cutOf n r d.begin T)
  | .doubling d _ => Written E T n r out fs d ∧ Condemned E (cutOf n r d.begin T)
  | .reallocating d _ => Written E T n r out fs d ∧ Condemned E (cutOf n r d.begin T)
  | .storing d _ => Written E T n r out fs d ∧ Condemned E (cutOf n r d.begin T)
  | .naming _ => True
  | .closing _ => True
  | .unlocking _ => True
  | .stuck _ => False

/-- What a test of the round was. -/
structure Right (t : Tried) : Prop where
  inside : t.begin + r ≤ n
  bytes : t.bytes = cutOf n r t.begin T
  verdict : ∀ D, Judges E D → t.failed = D t.bytes

end

variable {E : Env} {T : Bytes} {n r : Nat} {th : Worker} {out : Path}

theorem holds_congr {fs fs' : Fs} {o : Writer} {k : Key} {old v : Bytes} (h : o.Holds fs k old v) (hk : fs' k = fs k) :
    o.Holds fs' k old v := ⟨h.key, h.le, h.buf, hk.trans h.file⟩

theorem Source.congr {fs fs' : Fs} {i j : Reader} {Y Y' : Bytes} (h : Source E T th fs i Y)
    (hin : Fs.Same fs fs' (E.key (originFile th))) (hj : j.Same i) (he : j.eof = false) (hr : j.rest T = Y') : Source E T th fs' j Y' :=
  ⟨h.inFile.same hin hj, he, hr⟩

/-- A stage is about the worker's own file and its copy of the input only. -/
theorem Stage.congr {fs fs' : Fs} {pc : WorkerPc} (hk : fs' (E.key out) = fs (E.key out))
    (hin : Fs.Same fs fs' (E.key (originFile th))) (h : Stage E T n r th out fs pc) : Stage E T n r th out fs' pc := by
  have hw : ∀ {d}, Written E T n r out fs d → Written E T n r out fs' d := fun h => ⟨h.1, hk.trans h.2⟩
  have hs : ∀ {i Y}, Source E T th fs i Y → Source E T th fs' i Y := fun h => h.congr hin .refl h.eof h.rest
  cases pc with
  | prefixing d i o => exact ⟨h.1, hs h.2.1, holds_congr h.2.2 hk⟩
  | skipping d i o => exact ⟨h.1, hs h.2.1, holds_congr h.2.2 hk⟩
  | postfixing d i o => exact ⟨h.1, hs h.2.1, holds_congr h.2.2 hk⟩
  | flushing d o => exact ⟨h.1, holds_congr h.2 hk⟩
  | fitting d => exact hw h
  | testing d => exact hw h
  | reserving d => exact ⟨hw h.1, h.2⟩
  | checking d j => exact ⟨hw h.1, h.2⟩
  | doubling d j => exact ⟨hw h.1, h.2⟩
  | reallocating d j => exact ⟨hw h.1, h.2⟩
  | storing d j => exact ⟨hw h.1, h.2⟩
  | _ => exact h

/-! ## A worker's turns -/

/-- What a turn of a worker comes to. -/
structure Ran (E : Env) (T : Bytes) (n r : Nat) (th : Worker) (out : Path) (w w' : World Vars) (g g' : Globals)
    (pc' : WorkerPc) : Prop where
  stage : Stage E T n r th out w'.fs pc'
  frame : ∀ k, ¬ Own E th out k → Fs.Same w.fs w'.fs k
  held : w'.own.held = w.own.held
  tried : ∀ t ∈ g'.log.tried, t ∈ g.log.tried ∨ Right E T n r t

theorem Ran.refl {w : World Vars} {g g' : Globals} {pc' : WorkerPc} (h : Stage E T n r th out w.fs pc')
    (ht : g'.log.tried = g.log.tried) : Ran E T n r th out w w g g' pc' :=
  ⟨h, fun _ _ => .refl, rfl, fun _ h => Or.inl (ht ▸ h)⟩

section

variable {w : World Vars} {g : Globals}

/-- A copy to the worker's file. -/
theorem feed_run {i : Reader} {o : Writer} {Y v : Bytes} {m : Nat} (hX : w.fs (E.key (originFile th)) = some T)
    (hne : E.key (originFile th) ≠ E.key out) (hi : Source E T th w.fs i Y) (ho : o.Holds w.fs (E.key out) [] v)
    (hm : m ≤ Y.length) :
    ∃ i' o' w', readAndWrite E i o m w = .ok (i', o') w' ∧ Source E T th w'.fs i' (Y.drop m) ∧
      o'.Holds w'.fs (E.key out) [] (v ++ Y.take m) ∧ (∀ k, ¬ Own E th out k → Fs.Same w.fs w'.fs k) ∧ w'.own = w.own := by
  have hsrc := hi
  obtain ⟨hin, he, rfl⟩ := hi
  obtain ⟨i', o', w', hrun, hI, hk', he', hrest, hown⟩ :=
    copyLoop_spec (γ := Vars) (ε := Exit) (n := m) (w := w)
      (fileSink (hin.1 ▸ hne) (hin.file hX)) 2048 (by decide) ⟨ho, fun _ _ => .refl⟩ .refl he hm
  exact ⟨i', o', w', hrun, hsrc.congr (hI.2 _ hne) hk' he' hrest, hI.1, fun k hk => hI.2 k fun e => hk (Or.inl e), hown⟩

/-- A range read and thrown away. -/
theorem skip_run {i : Reader} {Y : Bytes} {m : Nat} (hX : w.fs (E.key (originFile th)) = some T)
    (hi : Source E T th w.fs i Y) (hm : m ≤ Y.length) :
    ∃ i' o' w', readAndWrite E i nullWriter m w = .ok (i', o') w' ∧ Source E T th w'.fs i' (Y.drop m) ∧ w'.fs = w.fs ∧
      w'.own = w.own := by
  have hsrc := hi
  obtain ⟨hin, he, rfl⟩ := hi
  obtain ⟨i', o', w', hrun, hI, hk', he', hrest, hown⟩ :=
    copyLoop_spec (γ := Vars) (ε := Exit) (n := m) (v := []) (w := w) (o := nullWriter)
      (nullSink (hin.file hX)) 2048 (by decide) ⟨rfl, rfl⟩ .refl he hm
  exact ⟨i', o', w', hrun, hsrc.congr (by rw [hI.2]; exact .refl) hk' he' hrest, hI.2, hown⟩

/-- A test on the worker's file. -/
theorem test_run {c : Bytes} (hc : w.fs (E.key out) = some c) (ho : E.key out ≠ E.key (dummyOut th))
    (he : E.key out ≠ E.key (dummyErr th)) :
    ∃ v w', testBufferOverflowThread E out th w = .ok v w' ∧ w'.own.held = w.own.held ∧
      (∀ k, ¬ Own E th out k → Fs.Same w.fs w'.fs k) ∧ w'.fs (E.key out) = some c ∧ ∀ D, Judges E D → v = D c := by
  obtain ⟨w', hrun, hown, hfs⟩ :=
    runTest_spec E out out true (dummyOut_ne_dummyErr E th th) (holds_dummyErr E th) w
  refine ⟨_, w', hrun, by rw [hown], fun k hk => hfs k (fun e => hk (Or.inr (Or.inl e))) fun e => hk (Or.inr (Or.inr e)),
    (hfs _ ho he).1.trans hc, fun D hD => hD.testOf hc he⟩

/-- Every turn of a worker in a round gets to the next stage. -/
theorem worker_runs {pc : WorkerPc} {x : Code (WorkerPc × Globals)} {k : Nat}
    (hX : w.fs (E.key (originFile th)) = some T) (hn : n ≤ T.length) (hsmall : n < 2 ^ 31) (hsize : g.inputSize = n)
    (hrs : g.rs = r) (hout : g.outFiles th = outName th k) (hpop : ∀ d ∈ g.queue, d.begin + r ≤ n)
    (hne : pc = .popping → g.queue ≠ []) (hst : Stage E T n r th (outName th k) w.fs pc)
    (hx : workerTurn E th g pc = some x) :
    ∃ pc' g' w', x w = .ok (pc', g') w' ∧ Ran E T n r th (outName th k) w w' g g' pc' := by
  have hkey : E.key (originFile th) ≠ E.key (outName th k) := (outName_ne_origin E th k th).symm
  cases pc with
  | idle =>
    simp only [workerTurn, Option.ite_none_right_eq_some, Option.some.injEq] at hx
    obtain ⟨-, rfl⟩ := hx
    exact ⟨_, _, w, rfl, .refl trivial rfl⟩
  | popping =>
    cases hq : g.queue with
    | nil => exact absurd hq (hne rfl)
    | cons d q =>
      simp only [workerTurn, hq, Option.some.injEq] at hx
      subst hx
      exact ⟨_, _, w, rfl, .refl (hpop d (by simp [hq])) rfl⟩
  | opening d =>
    cases hx
    refine ⟨.prefixing d (.opened w.fs (E.key (originFile th))) ⟨some (E.key (outName th k)), 0, []⟩, g,
      ⟨w.fs.put (E.key (outName th k)) (some []), w.own, w.past ++ [(w.own, w.fs)]⟩, ?_,
      ⟨hst, ⟨⟨rfl, by rw [Fs.put_unlinked]; rfl⟩, rfl, rfl⟩, ?_⟩, fun k' hk' => .put _ _ fun e => hk' (Or.inl e), rfl, fun _ h => Or.inl h⟩
    · rw [openingTurn, hout, bind_ok (fopenRead_run hX)]
      simp only
      rw [bind_ok (fopenWrite_run (Env.holds_of (key_outName E th k)) w)]
      rfl
    · exact Writer.Holds.start (o := ⟨some (E.key (outName th k)), 0, []⟩) rfl rfl (Fs.put_same _ _ _)
  | prefixing d i o =>
    cases hx
    obtain ⟨hin, hi, ho⟩ := hst
    obtain ⟨i', o', w', hrun, hi', ho', hfr, hown⟩ := feed_run (m := d.begin) hX hkey hi ho (by omega)
    exact ⟨.skipping d i' o', g, w', by rw [bind_ok hrun]; rfl, ⟨hin, hi', ho'⟩, hfr, by rw [hown], fun _ h => Or.inl h⟩
  | skipping d i o =>
    cases hx
    obtain ⟨hin, hi, ho⟩ := hst
    obtain ⟨i', o', w', hrun, hi', hfs, hown⟩ := skip_run (m := r) hX hi (by rw [List.length_drop]; omega)
    rw [← hrs] at hrun
    rw [List.drop_drop] at hi'
    exact ⟨.postfixing d i' o, g, w', by rw [bind_ok hrun]; rfl, ⟨hin, hi', hfs ▸ ho⟩, fun k' _ => by rw [hfs]; exact .refl, by rw [hown], fun _ h => Or.inl h⟩
  | postfixing d i o =>
    cases hx
    obtain ⟨hin, hi, ho⟩ := hst
    obtain ⟨i', o', w', hrun, -, ho', hfr, hown⟩ :=
      feed_run (m := n - (d.begin + r)) hX hkey hi ho (by rw [List.length_drop]; omega)
    have e : g.inputSize - (d.begin + g.rs) = ((n - (d.begin + r) : Nat) : Int) := by omega
    rw [← e] at hrun
    exact ⟨.flushing d o', g, w', by rw [bind_ok hrun]; rfl, ⟨hin, ho'⟩, hfr, by rw [hown], fun _ h => Or.inl h⟩
  | flushing d o =>
    cases hx
    obtain ⟨hin, ho⟩ := hst
    obtain ⟨hfile, -⟩ := flush_holds ho
    rw [List.drop_nil, List.append_nil] at hfile
    refine ⟨.fitting d, g, _, rfl, ⟨hin, hfile⟩, ?_, rfl, fun _ h => Or.inl h⟩
    intro k' hk'
    exact drain_same ho.key _ _ fun e => hk' (Or.inl e)
  | fitting d =>
    cases hx
    obtain ⟨hin, hfile⟩ := hst
    have hlen := length_cutOf (b := d.begin) hn hin
    obtain ⟨w', hrun, hown, hfile', hfr⟩ := fitSize_run (E := E) (t := []) (by rw [List.append_nil]; exact hfile)
      (by rw [List.append_nil]; omega)
    have e : g.inputSize - g.rs = ((cutOf n r d.begin T).length : Nat) := by omega
    rw [← e, ← hout] at hrun
    exact ⟨.testing d, g, w', by rw [bind_ok hrun]; rfl, ⟨hin, hfile'⟩, fun k' hk' => hfr k' fun e => hk' (Or.inl e), by rw [hown],
      fun _ h => Or.inl h⟩
  | testing d =>
    cases hx
    obtain ⟨hin, hfile⟩ := hst
    obtain ⟨v, w', hrun, hown, hfr, hfile', hD⟩ :=
      test_run hfile (outName_ne_dummyOut E th k th) (outName_ne_dummyErr E th k th)
    refine ⟨if v then .reserving d else .closing d, _, w', by simp only [testingTurn, look_bind, hout]; rw [bind_ok hrun]; rfl,
      ?_, hfr, hown, ?_⟩
    · cases hv : v with
      | false => trivial
      | true => exact ⟨⟨hin, hfile'⟩, fun D hJ => (hD D hJ).symm.trans hv⟩
    · intro t ht
      simp only [List.mem_append, List.mem_singleton] at ht
      apply ht.imp id
      intro e
      subst e
      have hb : (w.fs (E.key (outName th k))).getD [] = cutOf n r d.begin T := by rw [hfile]; rfl
      exact ⟨hin, hb, fun D hJ => by rw [hD D hJ]; exact congrArg D hb.symm⟩
  | reserving d => cases hx; exact ⟨_, _, w, rfl, .refl hst rfl⟩
  | checking d j =>
    cases hx
    refine ⟨_, _, w, rfl, .refl ?_ rfl⟩
    split <;> exact hst
  | doubling d j => cases hx; exact ⟨_, _, w, rfl, .refl hst rfl⟩
  | reallocating d j => cases hx; exact ⟨_, _, w, rfl, .refl hst rfl⟩
  | storing d j => cases hx; exact ⟨_, _, w, rfl, .refl trivial rfl⟩
  | naming d => cases hx; exact ⟨_, _, w, rfl, .refl trivial rfl⟩
  | closing d =>
    simp only [workerTurn, Option.ite_none_right_eq_some, Option.some.injEq] at hx
    obtain ⟨-, rfl⟩ := hx
    exact ⟨_, _, w, rfl, .refl trivial rfl⟩
  | unlocking d => cases hx; exact ⟨_, _, w, rfl, .refl trivial rfl⟩
  | stuck pc => exact hst.elim

end

end DiyDdmin.Range
