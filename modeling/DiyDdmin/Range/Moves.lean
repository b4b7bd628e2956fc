/-
  DiyDdmin.Range.Moves — what a step of `range` can do to the control state.

  `WorkerMove` and `MainMove` list, for each place in the code, where a thread goes next
  and what it does to the global variables, with what it reads of the directory left open.

  Proved: every step is such a move of one thread, or ends the process (`step_cases`).
-/

import DiyDdmin.Range.Code

namespace DiyDdmin.Range

open Posix Tester Numeric Systems

inductive WorkerMove (th : Worker) (g : Globals) : WorkerPc → WorkerPc → Globals → Prop
  | wait : 0 < g.qSem → WorkerMove th g .idle .popping { g with qSem := g.qSem - 1 }
  | pop {n : Node} {q : List Node} : g.queue = n :: q →
      WorkerMove th g .popping (.opening n) { g with queue := q, log := { g.log with popped := g.log.popped ++ [(th, n.begin)] } }
  | openFiles (n : Node) (inFp : Reader) (outFp : Writer) : WorkerMove th g (.opening n) (.prefixing n inFp outFp) g
  | copyPrefix (n : Node) {i o : _} (inFp : Reader) (outFp : Writer) : WorkerMove th g (.prefixing n i o) (.skipping n inFp outFp) g
  | skip (n : Node) {i o : _} (inFp : Reader) : WorkerMove th g (.skipping n i o) (.postfixing n inFp o) g
  | copyPostfix (n : Node) {i o : _} (outFp : Writer) : WorkerMove th g (.postfixing n i o) (.flushing n outFp) g
  | flush (n : Node) {o : _} : WorkerMove th g (.flushing n o) (.fitting n) g
  | fit (n : Node) : WorkerMove th g (.fitting n) (.testing n) g
  | test (n : Node) (bytes : Bytes) (eCode : Bool) : WorkerMove th g (.testing n) (if eCode then .reserving n else .closing n)
      { g with log := { g.log with tried := g.log.tried ++ [⟨th, n.begin, bytes, eCode⟩] } }
  | reserve (n : Node) : WorkerMove th g (.reserving n) (.checking n g.failN) { g with failN := g.failN + 1 }
  | check (n : Node) (failIdx : Nat) : WorkerMove th g (.checking n failIdx)
      (if g.failMax - threadN ≤ g.failN then .doubling n failIdx else .storing n failIdx) g
  | double (n : Node) (failIdx : Nat) : WorkerMove th g (.doubling n failIdx) (.reallocating n failIdx)
      { g with failMax := g.failMax * 2 }
  | reallocate (n : Node) (failIdx : Nat) : WorkerMove th g (.reallocating n failIdx) (.storing n failIdx)
      { g with failLen := g.failMax }
  | store (n : Node) (failIdx : Nat) : WorkerMove th g (.storing n failIdx) (.naming n)
      { g with failArr := Function.update g.failArr failIdx (g.outFiles th) }
  | name (n : Node) : WorkerMove th g (.naming n) (.closing n) (g.rename th)
  | close (n : Node) : g.endMt = none → WorkerMove th g (.closing n) (.unlocking n) (g.finish th)
  | unlock (n : Node) : WorkerMove th g (.unlocking n) .idle { g with endMt := none }

theorem workerTurn_move {E : Env} {th : Worker} {g : Globals} {pc : WorkerPc} {x : Code (WorkerPc × Globals)}
    (hx : workerTurn E th g pc = some x) {w w' : World Vars} {r : WorkerPc × Globals} (hr : x w = .ok r w') :
    WorkerMove th g pc r.1 r.2 := by
  cases pc with
  | idle =>
    simp only [workerTurn, Option.ite_none_right_eq_some, Option.some.injEq] at hx
    obtain ⟨hq, rfl⟩ := hx
    cases hr; exact .wait hq
  | popping =>
    simp only [workerTurn] at hx
    split at hx <;> cases hx <;> cases hr
    exact .pop ‹_›
  | opening n =>
    cases hx
    simp only [openingTurn] at hr
    obtain ⟨i, w1, -, hr⟩ := bind_eq_ok.mp hr
    cases i with
    | none => cases hr
    | some i =>
      obtain ⟨o, w2, -, hr⟩ := bind_eq_ok.mp hr
      cases o with
      | none => cases hr
      | some o => cases hr; exact .openFiles n i o
  | prefixing n i o =>
    cases hx
    obtain ⟨r1, w1, -, hr⟩ := bind_eq_ok.mp hr
    cases hr; exact .copyPrefix n _ _
  | skipping n i o =>
    cases hx
    obtain ⟨r1, w1, -, hr⟩ := bind_eq_ok.mp hr
    cases hr; exact .skip n _
  | postfixing n i o =>
    cases hx
    obtain ⟨r1, w1, -, hr⟩ := bind_eq_ok.mp hr
    cases hr; exact .copyPostfix n _
  | flushing n o =>
    cases hx
    obtain ⟨r1, w1, -, hr⟩ := bind_eq_ok.mp hr
    cases hr; exact .flush n
  | fitting n =>
    cases hx
    obtain ⟨r1, w1, -, hr⟩ := bind_eq_ok.mp hr
    cases hr; exact .fit n
  | testing n =>
    cases hx
    simp only [testingTurn, look_bind] at hr
    obtain ⟨v, w1, -, hr⟩ := bind_eq_ok.mp hr
    cases hr; exact .test n _ v
  | reserving n => cases hx; cases hr; exact .reserve n
  | checking n k => cases hx; cases hr; exact .check n k
  | doubling n k => cases hx; cases hr; exact .double n k
  | reallocating n k => cases hx; cases hr; exact .reallocate n k
  | storing n k => cases hx; cases hr; exact .store n k
  | naming n => cases hx; cases hr; exact .name n
  | closing n =>
    simp only [workerTurn, Option.ite_none_right_eq_some, Option.some.injEq] at hx
    obtain ⟨hq, rfl⟩ := hx
    cases hr; exact .close n hq
  | unlocking n => cases hx; cases hr; exact .unlock n
  | stuck pc => cases hx

/-- `held` is the file held as the minimized input, and `cur` what it holds. -/
inductive MainMove (rand : Nat) (held : Path) (cur : Bytes) (g : Globals) : MainPc → MainPc → Globals → Prop
  | begin : MainMove rand held cur g .entry (.enter (toInt cur.length) (toInt (cur.length - 1))) g
  | enter (size rs : Int) : MainMove rand held cur g (.enter size rs) (.copying 0 rs)
      { g with inputSize := size, log := { g.log with input := cur } }
  | copy (i : Nat) (r : Int) : MainMove rand held cur g (.copying i r) (if i + 1 < threadN then .copying (i + 1) r else .round r) g
  | round (r : Int) : 0 < r → MainMove rand held cur g (.round r) (.settingRs r) { g with failN := 0 }
  | finish (r : Int) : r ≤ 0 → MainMove rand held cur g (.round r) (.finishing 0) g
  | setRs (r : Int) : MainMove rand held cur g (.settingRs r) (.settingExisting r) { g with rs := r }
  | setExisting (r : Int) : -2 ^ 31 ≤ g.inputSize - r → MainMove rand held cur g (.settingExisting r) (.pushing r 0)
      { g with existing := g.inputSize - r + 1, log := { g.log with popped := [], tried := [], posts := 0 } }
  | push (r : Int) (b : Nat) : (b : Int) ≤ g.inputSize - r → MainMove rand held cur g (.pushing r b) (.posting r b) (g.push ⟨r, b⟩)
  | pushed (r : Int) (b : Nat) : g.inputSize - r < b → MainMove rand held cur g (.pushing r b) (.waiting r) g
  | post (r : Int) (b : Nat) : MainMove rand held cur g (.posting r b) (.pushing r (b + 1)) { g with qSem := g.qSem + 1 }
  | wait (r : Int) : 0 < g.terminatedSem → MainMove rand held cur g (.waiting r) (.selecting r)
      { g with terminatedSem := g.terminatedSem - 1 }
  | select (r : Int) : 0 < g.failN → MainMove rand held cur g (.selecting r) (.renamingPart (rand % g.failN)) g
  | next (r : Int) : g.failN = 0 → MainMove rand held cur g (.selecting r) (.round (r - 1)) g
  | rename (k : Nat) : MainMove rand held cur g (.renamingPart k) (.removing 0 (failFile (g.totalFailN + 1)))
      { g with totalFailN := g.totalFailN + 1 }
  | remove (i : Nat) (p : Path) : MainMove rand held cur g (.removing i p)
      (if i + 1 < threadN then .removing (i + 1) p else .recursing p) g
  | recurse (p : Path) : MainMove rand held cur g (.recursing p)
      (.enter (g.inputSize - g.rs) (min g.rs (g.inputSize - g.rs - 1))) g
  | clear (i : Nat) : MainMove rand held cur g (.finishing i) (if i + 1 < threadN then .finishing (i + 1) else .ret held) g

/-- No move ends the process. -/
theorem MainMove.live {rand : Nat} {held : Path} {cur : Bytes} {g g' : Globals} {pc pc' : MainPc}
    (h : MainMove rand held cur g pc pc' g') : pc'.over = false := by
  cases h with
  | copy i r => split_ifs <;> rfl
  | remove i p => split_ifs <;> rfl
  | clear i => split_ifs <;> rfl
  | _ => rfl

theorem mainTurn_move {E : Env} {rand : Nat} {g : Globals} {pc : MainPc} {x : Code (MainPc × Globals)}
    (hx : mainTurn E rand g pc = some x) {w w' : World Vars} {r : MainPc × Globals} (hr : x w = .ok r w') :
    r.1 = .undefined ∨ MainMove rand w.own.held ((w.fs (E.key w.own.held)).getD []) g pc r.1 r.2 := by
  cases pc with
  | entry =>
    cases hx
    simp only [entryTurn, look_bind] at hr
    obtain ⟨size, w1, hsize, hr⟩ := bind_eq_ok.mp hr
    have e : size = ((w.fs (E.key w.own.held)).getD []).length := by
      simp only [byteCountFile, stat, look_bind] at hsize
      cases hf : w.fs (E.key w.own.held) <;> rw [hf] at hsize <;> cases hsize
      rfl
    cases hr
    rw [e]
    exact Or.inr .begin
  | enter size rs => cases hx; cases hr; exact Or.inr (.enter size rs)
  | copying i rs =>
    cases hx
    simp only [copyingTurn, look_bind] at hr
    obtain ⟨_, w1, -, hr⟩ := bind_eq_ok.mp hr
    cases hr; exact Or.inr (.copy i rs)
  | round rs =>
    cases hx
    split at hr <;> cases hr
    · exact Or.inr (.round rs ‹_›)
    · exact Or.inr (.finish rs (by omega))
  | settingRs rs => cases hx; cases hr; exact Or.inr (.setRs rs)
  | settingExisting rs =>
    cases hx
    simp only [settingExistingTurn] at hr
    split at hr <;> cases hr
    · exact Or.inl rfl
    · exact Or.inr (.setExisting rs (by omega))
  | pushing rs b =>
    cases hx
    split at hr <;> cases hr
    · exact Or.inr (.push rs b ‹_›)
    · exact Or.inr (.pushed rs b (by omega))
  | posting rs b => cases hx; cases hr; exact Or.inr (.post rs b)
  | waiting rs =>
    simp only [mainTurn, Option.ite_none_right_eq_some, Option.some.injEq] at hx
    obtain ⟨hq, rfl⟩ := hx
    cases hr; exact Or.inr (.wait rs hq)
  | selecting rs =>
    cases hx; cases hr
    split
    · exact Or.inr (.select rs ‹_›)
    · exact Or.inr (.next rs (by omega))
  | renamingPart k =>
    cases hx
    simp only [renamingTurn] at hr
    obtain ⟨done, w1, -, hr⟩ := bind_eq_ok.mp hr
    split at hr <;> cases hr
    exact Or.inr (.rename k)
  | removing i p =>
    cases hx
    obtain ⟨_, w1, -, hr⟩ := bind_eq_ok.mp hr
    cases hr; exact Or.inr (.remove i p)
  | recursing p =>
    cases hx
    obtain ⟨_, w1, -, hr⟩ := bind_eq_ok.mp hr
    cases hr; exact Or.inr (.recurse p)
  | finishing i =>
    cases hx
    simp only [remove, act_bind, look_bind] at hr
    cases hr; exact Or.inr (.clear i)
  | ret p => cases hx
  | exited e => cases hx
  | hung => cases hx
  | undefined => cases hx

/-- The main thread copies no blocks, so no turn of it hangs. -/
theorem mainTurn_settles {E : Env} {rand : Nat} {g : Globals} {pc : MainPc} {x : Code (MainPc × Globals)}
    (hx : mainTurn E rand g pc = some x) : Settles x := by
  cases pc with
  | entry =>
    cases hx
    refine .bind .look fun held => .bind (.bind .look fun n => ?_) fun _ => .pure
    cases n with
    | none => exact .exit
    | some n => exact .pure
  | copying i rs =>
    cases hx
    refine .bind .look fun held => .bind (.bind .look fun c => ?_) fun _ => .pure
    cases c with
    | none => exact .exit
    | some c => exact .bind .look fun there => .ite .exit .act
  | enter size rs => cases hx; exact .bind .look fun _ => .pure
  | round rs => cases hx; exact .ite .pure .pure
  | settingExisting rs => cases hx; exact .ite .pure .pure
  | pushing rs b => cases hx; exact .ite .pure .pure
  | waiting rs =>
    simp only [mainTurn, Option.ite_none_right_eq_some, Option.some.injEq] at hx
    obtain ⟨-, rfl⟩ := hx
    exact .pure
  | renamingPart k => cases hx; exact .bind .act fun done => .ite .pure .exit
  | removing i p => cases hx; exact .bind .act fun _ => .pure
  | recursing p => cases hx; exact .bind .act fun _ => .pure
  | finishing i => cases hx; exact .bind .act fun _ => .bind .look fun _ => .pure
  | settingRs rs => cases hx; exact .pure
  | posting rs b => cases hx; exact .pure
  | selecting rs => cases hx; exact .pure
  | ret p => cases hx
  | exited e => cases hx
  | hung => cases hx
  | undefined => cases hx

/-- The ways the main thread ends in `exit(1)`. -/
theorem mainTurn_exit {E : Env} {rand : Nat} {g : Globals} {pc : MainPc} {x : Code (MainPc × Globals)}
    (hx : mainTurn E rand g pc = some x) {w w' : World Vars} {e : Exit} (hr : x w = .exit e w') :
    (∃ p, e = .stat p) ∨ (∃ p, e = .copySrc p) ∨ e = .copyExists ∨ e = .renamePart := by
  cases pc with
  | entry =>
    cases hx
    simp only [entryTurn, look_bind] at hr
    rcases bind_eq_exit.mp hr with hr | ⟨_, _, -, hr⟩
    · exact Or.inl ⟨_, byteCountFile_exit hr⟩
    · cases hr
  | copying i rs =>
    cases hx
    simp only [copyingTurn, look_bind] at hr
    rcases bind_eq_exit.mp hr with hr | ⟨_, _, -, hr⟩
    · exact Or.inr ((copy_exit hr).imp (fun h => ⟨_, h⟩) Or.inl)
    · cases hr
  | renamingPart k =>
    cases hx
    simp only [renamingTurn] at hr
    rcases bind_eq_exit.mp hr with hr | ⟨done, _, -, hr⟩
    · cases hr
    · split at hr <;> cases hr
      exact Or.inr (Or.inr (Or.inr rfl))
  | settingExisting rs =>
    cases hx
    simp only [settingExistingTurn] at hr
    split at hr <;> cases hr
  | round rs => cases hx; split at hr <;> cases hr
  | pushing rs b => cases hx; split at hr <;> cases hr
  | waiting rs =>
    simp only [mainTurn, Option.ite_none_right_eq_some, Option.some.injEq] at hx
    obtain ⟨-, rfl⟩ := hx
    cases hr
  | ret p => cases hx
  | exited e => cases hx
  | hung => cases hx
  | undefined => cases hx
  | _ => cases hx; cases hr

/-- What one step does while the process lives on. -/
inductive Moved (E : Env) (s : St) : Move → St → Prop
  | main (rand : Nat) {pc : MainPc} {g : Globals} (w : World Vars)
      (h : MainMove rand s.w.own.held ((s.w.fs (E.key s.w.own.held)).getD []) s.g s.main pc g) :
      Moved E s (.main rand) ⟨pc, s.workers, g, w⟩
  | worker (th : Worker) {pc : WorkerPc} {g : Globals} (w : World Vars) (h : WorkerMove th s.g (s.workers th) pc g) :
      Moved E s (.worker th) ⟨s.main, Function.update s.workers th pc, g, w⟩
  | stuck (th : Worker) (w : World Vars) : (∀ pc, s.workers th ≠ .stuck pc) →
      Moved E s (.worker th) ⟨s.main, Function.update s.workers th (.stuck (s.workers th)), s.g, w⟩

theorem step_main {E : Env} {rand : Nat} {s t : St} (h : step E (.main rand) s = some t) :
    s.main.over = false ∧ ∃ x, mainTurn E rand s.g s.main = some x ∧ t = afterMain s (x s.w) := by
  unfold step at h
  cases ho : s.main.over with
  | true => rw [if_pos ho] at h; cases h
  | false =>
    rw [if_neg (by rw [ho]; nofun)] at h
    obtain ⟨x, hx, rfl⟩ := Option.map_eq_some_iff.mp h
    exact ⟨rfl, x, hx, rfl⟩

theorem step_worker {E : Env} {th : Worker} {s t : St} (h : step E (.worker th) s = some t) :
    s.main.over = false ∧ ∃ x, workerTurn E th s.g (s.workers th) = some x ∧ t = afterWorker s th (x s.w) := by
  unfold step at h
  cases ho : s.main.over with
  | true => rw [if_pos ho] at h; cases h
  | false =>
    rw [if_neg (by rw [ho]; nofun)] at h
    obtain ⟨x, hx, rfl⟩ := Option.map_eq_some_iff.mp h
    exact ⟨rfl, x, hx, rfl⟩

/-- Inversion of a step. -/
theorem step_cases {E : Env} {m : Move} {s t : St} (h : step E m s = some t) :
    s.main.over = false ∧ (t.main.over = true ∨ Moved E s m t) := by
  cases m with
  | main rand =>
    obtain ⟨ho, x, hx, rfl⟩ := step_main h
    refine ⟨ho, ?_⟩
    cases hr : x s.w with
    | ok r w => exact (mainTurn_move hx hr).imp (fun h => by rw [show (afterMain s _).main = r.1 from rfl, h]; rfl) fun hm => .main rand w hm
    | exit e w => exact Or.inl rfl
    | hang w => exact absurd hr (mainTurn_settles hx _ _)
  | worker th =>
    obtain ⟨ho, x, hx, rfl⟩ := step_worker h
    refine ⟨ho, ?_⟩
    cases hr : x s.w with
    | ok r w => exact Or.inr (.worker th w (workerTurn_move hx hr))
    | exit e w => exact Or.inl rfl
    | hang w => exact Or.inr (.stuck th w fun pc e => by rw [e] at hx; cases hx)

end DiyDdmin.Range
