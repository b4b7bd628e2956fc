/-
  DiyDdmin.Range.Frame — what `range` leaves alone, at every moment of a run.

  A predicate that says nothing about the files a worker writes to survives each of its
  turns (`workerTurn_keeps`); one that says nothing about the copies of the input, the
  failing candidates and the next result survives the main thread's, up to the change of
  the held file (`mainTurn_keeps`).

  Proved: every entry that `range` does not name keeps its bytes at every moment, for every
  interleaving, every size and every verdicts (`range_frame`).
-/

import DiyDdmin.Range.Calls

namespace DiyDdmin.Range

open Posix Tester Numeric Systems

/-- `P` says nothing about the files of the workers. -/
structure Framed (E : Env) (P : Vars → Fs → Prop) : Prop where
  out : ∀ (th : Worker) k, Blind P (E.key (outName th k))
  dummyOut : ∀ th : Worker, Blind P (E.key (dummyOut th))
  dummyErr : ∀ th : Worker, Blind P (E.key (dummyErr th))
  origin : ∀ i, Blind P (E.key (originFile i))
  tests : ∀ p, BlindTo P p

/-- The stream a worker writes to is on a file `P` says nothing about. -/
def Off (P : Vars → Fs → Prop) : WorkerPc → Prop
  | .prefixing _ _ o => o.Off P
  | .skipping _ _ o => o.Off P
  | .postfixing _ _ o => o.Off P
  | .flushing _ o => o.Off P
  | _ => True

section

variable {E : Env} {P : Vars → Fs → Prop}

/-- What a worker's turn asks of `P`: its candidate file, its stream and, where it runs the
    program, the files and the record of the run. -/
theorem workerTurn_keeps_of {th : Worker} {g : Globals} {pc : WorkerPc} {x : Code (WorkerPc × Globals)}
    (hout : ∀ d, pc = .opening d ∨ pc = .fitting d → Blind P (E.key (g.outFiles th))) (htest : ∀ d, pc = .testing d → Blind P (E.key (dummyOut th)) ∧
      Blind P (E.key (dummyErr th)) ∧ BlindTo P (g.outFiles th))
    (hoff : Off P pc) (hx : workerTurn E th g pc = some x) : Keeps P x fun r => Off P r.1 := by
  cases pc with
  | idle =>
    simp only [workerTurn, Option.ite_none_right_eq_some, Option.some.injEq] at hx
    obtain ⟨-, rfl⟩ := hx
    exact Keeps.pure trivial
  | popping =>
    simp only [workerTurn] at hx
    split at hx <;> cases hx
    · exact Keeps.exit
    · exact Keeps.pure trivial
  | opening d =>
    cases hx
    refine Keeps.bind Keeps.read fun i _ => ?_
    cases i with
    | none => exact Keeps.exit
    | some i =>
      refine Keeps.bind (fopenWrite_keeps (hout d (Or.inl rfl))) fun o ho => ?_
      cases o with
      | none => exact Keeps.exit
      | some o => exact Keeps.pure (ho o rfl)
  | prefixing d i o => cases hx; exact Keeps.bind (copyLoop_keeps hoff) fun r hr => Keeps.pure hr
  | skipping d i o =>
    cases hx
    exact Keeps.bind (copyLoop_keeps (o := nullWriter) fun _ e => by cases e) fun r _ => Keeps.pure hoff
  | postfixing d i o => cases hx; exact Keeps.bind (copyLoop_keeps hoff) fun r hr => Keeps.pure hr
  | flushing d o => cases hx; exact Keeps.bind (fflush_keeps hoff) fun _ _ => Keeps.pure trivial
  | fitting d => cases hx; exact Keeps.bind (fitSize_keeps (hout d (Or.inr rfl)) _) fun _ _ => Keeps.pure trivial
  | testing d =>
    cases hx
    obtain ⟨ho, he, ht⟩ := htest d rfl
    refine Keeps.bind Keeps.read fun b _ => ?_
    refine Keeps.bind (runTest_keeps E _ _ true ho he ht) fun v _ => Keeps.pure ?_
    cases v <;> trivial
  | checking d j =>
    cases hx
    apply Keeps.pure
    simp only
    split <;> trivial
  | closing d =>
    simp only [workerTurn, Option.ite_none_right_eq_some, Option.some.injEq] at hx
    obtain ⟨-, rfl⟩ := hx
    exact Keeps.pure trivial
  | stuck pc => cases hx
  | _ => cases hx; exact Keeps.pure trivial

theorem workerTurn_keeps (F : Framed E P) {th : Worker} {g : Globals} {pc : WorkerPc} {x : Code (WorkerPc × Globals)}
    (hnamed : Named g) (hoff : Off P pc) (hx : workerTurn E th g pc = some x) : Keeps P x fun r => Off P r.1 :=
  workerTurn_keeps_of (fun _ _ => hnamed th ▸ F.out th _) (fun _ _ => ⟨F.dummyOut th, F.dummyErr th, F.tests _⟩) hoff hx

/-- The copy of the input that the main thread is about to make or to remove. -/
def originOf : MainPc → Option Nat
  | .copying i _ => some i
  | .removing i _ => some i
  | .finishing i => some i
  | _ => none

/-- What the main thread's turn asks of `P`: the copy of the input at hand, and where it
    accepts a candidate, the files and the held file. -/
theorem mainTurn_keeps_of {rand : Nat} {g : Globals} {pc : MainPc} {x : Code (MainPc × Globals)}
    (horigin : ∀ i, originOf pc = some i → Blind P (E.key (originFile i)))
    (hrename : ∀ k, pc = .renamingPart k → Blind P (E.key (g.failArr k)) ∧ Blind P (E.key (failFile (g.totalFailN + 1))))
    (hhold : ∀ p, pc = .recursing p → ∀ v fs, P v fs → P { v with held := p } fs) (hx : mainTurn E rand g pc = some x) :
    Keeps P x fun _ => True := by
  cases pc with
  | entry =>
    cases hx
    exact Keeps.bind Keeps.read fun h _ => Keeps.bind (byteCountFile_keeps E h) fun _ _ => Keeps.pure trivial
  | enter size r => cases hx; exact Keeps.bind Keeps.read fun _ _ => Keeps.pure trivial
  | copying i r =>
    cases hx
    exact Keeps.bind Keeps.read fun h _ => Keeps.bind (copy_keeps E h (horigin i rfl)) fun _ _ => Keeps.pure trivial
  | round r => cases hx; exact Keeps.ite (fun _ => Keeps.pure trivial) fun _ => Keeps.pure trivial
  | settingExisting r => cases hx; exact Keeps.ite (fun _ => Keeps.pure trivial) fun _ => Keeps.pure trivial
  | pushing r b => cases hx; exact Keeps.ite (fun _ => Keeps.pure trivial) fun _ => Keeps.pure trivial
  | waiting r =>
    simp only [mainTurn, Option.ite_none_right_eq_some, Option.some.injEq] at hx
    obtain ⟨-, rfl⟩ := hx
    exact Keeps.pure trivial
  | renamingPart k =>
    cases hx
    obtain ⟨h1, h2⟩ := hrename k rfl
    refine Keeps.bind (Q := fun _ => True) (Keeps.act fun v fs hp => ⟨?_, trivial⟩) fun done _ => ?_
    · split
      · exact h2 _ _ _ (h2 _ _ _ (h1 _ _ _ hp))
      · exact hp
    · exact Keeps.ite (fun _ => Keeps.pure trivial) fun _ => Keeps.exit
  | removing i p => cases hx; exact Keeps.bind (remove_keeps (horigin i rfl)) fun _ _ => Keeps.pure trivial
  | recursing p =>
    cases hx
    exact Keeps.bind (Q := fun _ => True) (Keeps.act fun v fs hp => ⟨hhold p rfl v fs hp, trivial⟩) fun _ _ =>
      Keeps.pure trivial
  | finishing i =>
    cases hx
    exact Keeps.bind (remove_keeps (horigin i rfl)) fun _ _ => Keeps.bind Keeps.read fun _ _ => Keeps.pure trivial
  | settingRs r => cases hx; exact Keeps.pure trivial
  | posting r b => cases hx; exact Keeps.pure trivial
  | selecting r => cases hx; exact Keeps.pure trivial
  | ret p => cases hx
  | exited e => cases hx
  | hung => cases hx
  | undefined => cases hx

theorem mainTurn_keeps (F : Framed E P) {rand : Nat} {g : Globals} {pc : MainPc} {x : Code (MainPc × Globals)}
    (hrename : ∀ k, pc = .renamingPart k → Blind P (E.key (g.failArr k)) ∧ Blind P (E.key (failFile (g.totalFailN + 1))))
    (hhold : ∀ p, pc = .recursing p → ∀ v fs, P v fs → P { v with held := p } fs) (hx : mainTurn E rand g pc = some x) :
    Keeps P x fun _ => True := mainTurn_keeps_of (fun i _ => F.origin i) hrename hhold hx

/-- The worlds before and after a step. -/
theorem step_world {m : Move} {s t : St} (h : step E m s = some t) :
    (∃ rand x, m = .main rand ∧ mainTurn E rand s.g s.main = some x ∧ t.w = (x s.w).world ∧ t.workers = s.workers) ∨
      ∃ th x, m = .worker th ∧ workerTurn E th s.g (s.workers th) = some x ∧ t.w = (x s.w).world := by
  cases m with
  | main rand =>
    obtain ⟨-, x, hx, rfl⟩ := step_main h
    exact Or.inl ⟨rand, x, rfl, hx, by cases x s.w <;> rfl, by cases x s.w <;> rfl⟩
  | worker th =>
    obtain ⟨-, x, hx, rfl⟩ := step_worker h
    exact Or.inr ⟨th, x, rfl, hx, by cases x s.w <;> rfl⟩

/-- Only a worker's test records a run. -/
theorem step_tests {m : Move} {s t : St} (h : step E m s = some t) :
    t.w.own.tests = s.w.own.tests ∨ ∃ th d, m = .worker th ∧ s.workers th = .testing d := by
  let P : Vars → Fs → Prop := fun v _ => v.tests = s.w.own.tests
  have blind : ∀ k, Blind P k := fun _ _ _ _ h => h
  have off : ∀ pc, Off P pc := fun pc => by cases pc <;> first | trivial | exact fun k _ => blind k
  rcases step_world h with ⟨rand, x, -, hx, hw, -⟩ | ⟨th, x, rfl, hx, hw⟩
  · have hk := mainTurn_keeps_of (fun i _ => blind _) (fun k _ => ⟨blind _, blind _⟩) (fun _ _ _ _ h => h) hx
    exact Or.inl (by rw [hw]; exact (hk.2 s.w rfl).1)
  · by_cases hd : ∃ d, s.workers th = .testing d
    · obtain ⟨d, hd⟩ := hd
      exact Or.inr ⟨th, d, rfl, hd⟩
    · have hk := workerTurn_keeps_of (fun _ _ => blind _) (fun d hd' => absurd ⟨d, hd'⟩ hd) (off _) hx
      exact Or.inl (by rw [hw]; exact (hk.2 s.w rfl).1)

/-- The streams of the workers stay off what `P` is about. -/
theorem step_off (F : Framed E P) {m : Move} {s t : St} (hnamed : Named s.g) (hP : P s.w.own s.w.fs)
    (hoff : ∀ th, Off P (s.workers th)) (h : step E m s = some t) : ∀ th, Off P (t.workers th) := by
  cases m with
  | main rand =>
    obtain ⟨-, x, -, rfl⟩ := step_main h
    cases x s.w <;> exact hoff
  | worker th =>
    obtain ⟨-, x, hx, rfl⟩ := step_worker h
    have hk := (workerTurn_keeps F hnamed (hoff th) hx).2 s.w hP
    intro th'
    have upd : ∀ pc, Off P pc → Off P (Function.update s.workers th pc th') := fun pc hpc => by
      rw [Function.update_apply]
      split
      · exact hpc
      · exact hoff th'
    cases hr : x s.w with
    | ok r w => exact upd r.1 (hk.2 r w hr)
    | exit e w => exact hoff th'
    | hang w => exact upd _ trivial

/-! ## Runs -/

variable {inputPath : Path} {fs : Fs}

/-- Every entry of the directory that `range` does not name keeps its bytes at every
    moment, whatever the sizes, the verdicts and the interleaving. -/
theorem range_frame {k : Key} (hk : Unnamed E RangeName k) {s : St} (hs : (system E inputPath fs).Reach s) :
    s.w.All fun _ fs' => fs' k = fs k := by
  let P : Vars → Fs → Prop := fun _ fs' => fs' k = fs k
  have blind : ∀ {k' : Key} {n : Name}, k' = E.cwd ++ [n] → RangeName n → Blind P k' := fun e hn v fs' c hP =>
    (Fs.put_ne _ _ (e ▸ hk _ hn)).trans hP
  have out : ∀ (th : Worker) j, Blind P (E.key (outName th j)) := fun th j => by
    apply blind (key_outName E th j)
    split
    · exact .thread _
    · exact .threadPart _
  have F : Framed E P := ⟨out, fun th => blind (key_dummyOut E th) (.out _), fun th => blind (key_dummyErr E th) (.err _),
    fun i => blind (key_originFile E i) (.origin i), fun _ _ _ _ _ h => h⟩
  refine (System.Reach.invariant (T := system E inputPath fs) (P := fun s => s.w.All P ∧ ∀ th, Off P (s.workers th)) ?_ ?_ hs).1
  · intro s h
    subst h
    exact ⟨⟨rfl, fun _ hm => nomatch hm⟩, fun _ => trivial⟩
  · intro s t hr hi hst
    obtain ⟨m, hst⟩ := hst
    obtain ⟨hall, hoff⟩ := hi
    have hlive := (step_cases hst).1
    obtain ⟨hnamed, -, hcall⟩ := reach_sound hr hlive
    refine ⟨?_, step_off F hnamed hall.1 hoff hst⟩
    rcases step_world hst with ⟨rand, x, -, hx, hw, -⟩ | ⟨th, x, -, hx, hw⟩
    · rw [hw]
      refine (mainTurn_keeps F ?_ (fun _ _ _ _ h => h) hx).all hall
      intro j hj
      rw [hj] at hcall
      obtain ⟨-, th, i, hp⟩ := hcall
      exact ⟨hp ▸ out th i, blind (key_failFile E _) (.fail _)⟩
    · rw [hw]
      exact (workerTurn_keeps F hnamed (hoff th) hx).all hall

end

end DiyDdmin.Range
