/-
  DiyDdmin.Range.Code — `range` (`src/range.c`): the main thread (`range`, `_range`) and
  the `THREAD_N` workers (`test_range`).

  The state is what each thread is at, the global variables, and the directory. A step is
  one thread's: a semaphore operation, a section under a mutex, one other access to global
  variables, or one call on files of its own. The section under `end_mt` is one step, and
  releasing the mutex another. A semaphore at zero or a mutex that is held has no step. A
  test is one step: how calls of `runner` that overlap disturb each other is
  `Runner.Threads`.

  The choices left open are which thread moves and what `rand` gives. `exit` in any thread
  ends all of them. An `int` that overflows ends the run as `undefined`. `rs` of a queued
  job is carried along and never read. `log` is not in the source: it records what was
  popped, tried and posted since the round began (ghost). Log output and `file_no`, which
  only it reads, are left out.
-/

import DiyDdmin.Tester.Candidate
import DiyDdmin.Tester.Names
import DiyDdmin.Systems.Reach
import Mathlib.Logic.Function.Basic

namespace DiyDdmin.Range

open Posix Tester Numeric Systems

/-- `THREAD_N` -/
abbrev threadN : Nat := 4

abbrev Worker := Fin threadN

/-- `struct node` -/
structure Node where
  rs : Int
  begin : Nat
  deriving DecidableEq, Repr

/-- One test of a round: who, where the range left out starts, what the candidate file
    held, and the verdict. -/
structure Tried where
  worker : Worker
  begin : Nat
  bytes : Bytes
  failed : Bool

structure Log where
  /-- What the input held when the call of `_range` began. -/
  input : Bytes
  popped : List (Worker × Nat)
  tried : List Tried
  posts : Nat

/-- The global variables. `failLen` is the number of entries `fail_arr` was last allocated
    for. -/
structure Globals where
  inputSize : Int
  rs : Int
  existing : Int
  failN : Nat
  failMax : Nat
  failLen : Nat
  failArr : Nat → Path
  outFiles : Worker → Path
  failStack : Worker → Nat
  totalFailN : Nat
  qSem : Nat
  queue : List Node
  terminatedSem : Nat
  endMt : Option Worker
  log : Log

inductive WorkerPc where
  /-- `sem_wait(&q_sem)` -/
  | idle
  /-- `pop_queue`, under `start_mt` -/
  | popping
  | opening (n : Node)
  | prefixing (n : Node) (inFp : Reader) (outFp : Writer)
  | skipping (n : Node) (inFp : Reader) (outFp : Writer)
  | postfixing (n : Node) (inFp : Reader) (outFp : Writer)
  | flushing (n : Node) (outFp : Writer)
  | fitting (n : Node)
  | testing (n : Node)
  /-- `fail_idx = fail_n; fail_n++`, under `find_mt` -/
  | reserving (n : Node)
  /-- `if (fail_n >= (fail_max - THREAD_N))` -/
  | checking (n : Node) (failIdx : Nat)
  | doubling (n : Node) (failIdx : Nat)
  | reallocating (n : Node) (failIdx : Nat)
  | storing (n : Node) (failIdx : Nat)
  | naming (n : Node)
  /-- The section under `end_mt`. -/
  | closing (n : Node)
  | unlocking (n : Node)
  /-- In a loop that makes no progress. -/
  | stuck (pc : WorkerPc)

inductive MainPc where
  /-- `range`, up to its call of `_range` -/
  | entry
  /-- `_range` is called. -/
  | enter (size rs : Int)
  | copying (i : Nat) (rSize : Int)
  /-- `r_size > 0` -/
  | round (rSize : Int)
  | settingRs (rSize : Int)
  | settingExisting (rSize : Int)
  | pushing (rSize : Int) (begin : Nat)
  /-- `sem_post(&q_sem)` -/
  | posting (rSize : Int) (begin : Nat)
  /-- `sem_wait(&terminated_sem)` -/
  | waiting (rSize : Int)
  /-- `if (fail_n > 0)` -/
  | selecting (rSize : Int)
  | renamingPart (selectIdx : Nat)
  | removing (i : Nat) (failPath : Path)
  /-- `return _range(fail_path, ...)` -/
  | recursing (failPath : Path)
  | finishing (i : Nat)
  | ret (path : Path)
  | exited (e : Exit)
  | hung
  | undefined
  deriving DecidableEq

structure St where
  main : MainPc
  workers : Worker → WorkerPc
  g : Globals
  w : World Vars

section

variable (E : Env)

/-! ## `test_range` -/

def Globals.push (g : Globals) (n : Node) : Globals := { g with queue := g.queue ++ [n] }

/-- `out_files` after `fail_stack` has been raised. -/
def Globals.rename (g : Globals) (th : Worker) : Globals :=
  { g with
    failStack := Function.update g.failStack th (g.failStack th + 1)
    outFiles := Function.update g.outFiles th (threadPartFile (th + threadN * (g.failStack th + 1))) }

/-- `existing--; if (existing == 0) sem_post(&terminated_sem);` -/
def Globals.finish (g : Globals) (th : Worker) : Globals :=
  let posted := if g.existing - 1 = 0 then 1 else 0
  { g with
    existing := g.existing - 1
    terminatedSem := g.terminatedSem + posted
    endMt := some th
    log := { g.log with posts := g.log.posts + posted } }

def openingTurn (th : Worker) (g : Globals) (n : Node) : Code (WorkerPc × Globals) := do
  let inFp ← fopenRead (E.key (originFile th))
  match inFp with
  | none => exit (.nullInput (originFile th))
  | some inFp => do
    let outFp ← fopenWrite E.dirs (E.key (g.outFiles th))
    match outFp with
    | none => exit (.nullOutput (g.outFiles th))
    | some outFp => pure (.prefixing n inFp outFp, g)

def testingTurn (th : Worker) (g : Globals) (n : Node) : Code (WorkerPc × Globals) := do
  let bytes ← look fun _ fs => (fs (E.key (g.outFiles th))).getD []
  let eCode ← testBufferOverflowThread E (g.outFiles th) th
  pure (if eCode then .reserving n else .closing n,
    { g with log := { g.log with tried := g.log.tried ++ [⟨th, n.begin, bytes, eCode⟩] } })

def workerTurn (th : Worker) (g : Globals) : WorkerPc → Option (Code (WorkerPc × Globals))
  | .idle => if 0 < g.qSem then some (pure (.popping, { g with qSem := g.qSem - 1 })) else none
  | .popping => match g.queue with
    | [] => some (exit .popQueue)
    | n :: q => some (pure (.opening n,
        { g with queue := q, log := { g.log with popped := g.log.popped ++ [(th, n.begin)] } }))
  | .opening n => some (openingTurn E th g n)
  | .prefixing n inFp outFp => some do
    let r ← readAndWrite E inFp outFp n.begin
    pure (.skipping n r.1 r.2, g)
  | .skipping n inFp outFp => some do
    let r ← readAndWrite E inFp nullWriter g.rs
    pure (.postfixing n r.1 outFp, g)
  | .postfixing n inFp outFp => some do
    let r ← readAndWrite E inFp outFp (g.inputSize - (n.begin + g.rs))
    pure (.flushing n r.2, g)
  | .flushing n outFp => some do
    let _ ← fflush outFp
    pure (.fitting n, g)
  | .fitting n => some do
    fitSize E (g.outFiles th) (g.inputSize - g.rs)
    pure (.testing n, g)
  | .testing n => some (testingTurn E th g n)
  | .reserving n => some (pure (.checking n g.failN, { g with failN := g.failN + 1 }))
  | .checking n failIdx =>
    some (pure (if g.failMax - threadN ≤ g.failN then .doubling n failIdx else .storing n failIdx, g))
  | .doubling n failIdx => some (pure (.reallocating n failIdx, { g with failMax := g.failMax * 2 }))
  | .reallocating n failIdx => some (pure (.storing n failIdx, { g with failLen := g.failMax }))
  | .storing n failIdx =>
    some (pure (.naming n, { g with failArr := Function.update g.failArr failIdx (g.outFiles th) }))
  | .naming n => some (pure (.closing n, g.rename th))
  | .closing n => if g.endMt = none then some (pure (.unlocking n, g.finish th)) else none
  | .unlocking _ => some (pure (.idle, { g with endMt := none }))
  | .stuck _ => none

/-! ## `range` and `_range` -/

def entryTurn (g : Globals) : Code (MainPc × Globals) := do
  let held ← look fun v _ => v.held
  let size ← byteCountFile E held
  pure (.enter (toInt size) (toInt (size - 1)), g)

def copyingTurn (g : Globals) (i : Nat) (rSize : Int) : Code (MainPc × Globals) := do
  let held ← look fun v _ => v.held
  copy E held (originFile i)
  pure (if i + 1 < threadN then .copying (i + 1) rSize else .round rSize, g)

/-- `existing = input_size - r_size + 1`, and a new page of the log. -/
def settingExistingTurn (g : Globals) (rSize : Int) : Code (MainPc × Globals) :=
  if g.inputSize - rSize < -2 ^ 31 then pure (.undefined, g)
  else pure (.pushing rSize 0,
    { g with existing := g.inputSize - rSize + 1, log := { g.log with popped := [], tried := [], posts := 0 } })

def renamingTurn (g : Globals) (selectIdx : Nat) : Code (MainPc × Globals) := do
  let failPath := failFile (g.totalFailN + 1)
  let done ← rename (E.key (g.failArr selectIdx)) (E.key failPath)
  if done then pure (.removing 0 failPath, { g with totalFailN := g.totalFailN + 1 })
  else exit .renamePart

def mainTurn (rand : Nat) (g : Globals) : MainPc → Option (Code (MainPc × Globals))
  | .entry => some (entryTurn E g)
  | .enter size rs => some do
    let bytes ← look fun v fs => (fs (E.key v.held)).getD []
    pure (.copying 0 rs, { g with inputSize := size, log := { g.log with input := bytes } })
  | .copying i rSize => some (copyingTurn E g i rSize)
  | .round rSize => some (if 0 < rSize then pure (.settingRs rSize, { g with failN := 0 }) else pure (.finishing 0, g))
  | .settingRs rSize => some (pure (.settingExisting rSize, { g with rs := rSize }))
  | .settingExisting rSize => some (settingExistingTurn g rSize)
  | .pushing rSize begin =>
    some (if (begin : Int) ≤ g.inputSize - rSize then pure (.posting rSize begin, g.push ⟨rSize, begin⟩)
      else pure (.waiting rSize, g))
  | .posting rSize begin => some (pure (.pushing rSize (begin + 1), { g with qSem := g.qSem + 1 }))
  | .waiting rSize =>
    if 0 < g.terminatedSem then some (pure (.selecting rSize, { g with terminatedSem := g.terminatedSem - 1 })) else none
  | .selecting rSize => some (pure (if 0 < g.failN then .renamingPart (rand % g.failN) else .round (rSize - 1), g))
  | .renamingPart selectIdx => some (renamingTurn E g selectIdx)
  | .removing i failPath => some do
    let _ ← remove (E.key (originFile i))
    pure (if i + 1 < threadN then .removing (i + 1) failPath else .recursing failPath, g)
  | .recursing failPath => some do
    hold failPath
    pure (.enter (g.inputSize - g.rs) (min g.rs (g.inputSize - g.rs - 1)), g)
  | .finishing i => some do
    let _ ← remove (E.key (originFile i))
    let held ← look fun v _ => v.held
    pure (if i + 1 < threadN then .finishing (i + 1) else .ret held, g)
  | .ret _ => none
  | .exited _ => none
  | .hung => none
  | .undefined => none

/-! ## Steps -/

inductive Move where
  | main (rand : Nat)
  | worker (th : Worker)

/-- The process is gone: no thread moves any more. -/
def MainPc.over : MainPc → Bool
  | .exited _ => true
  | .undefined => true
  | _ => false

def afterMain (s : St) : Res Vars Exit (MainPc × Globals) → St
  | .ok r w => ⟨r.1, s.workers, r.2, w⟩
  | .exit e w => ⟨.exited e, s.workers, s.g, w⟩
  | .hang w => ⟨.hung, s.workers, s.g, w⟩

def afterWorker (s : St) (th : Worker) : Res Vars Exit (WorkerPc × Globals) → St
  | .ok r w => ⟨s.main, Function.update s.workers th r.1, r.2, w⟩
  | .exit e w => ⟨.exited e, s.workers, s.g, w⟩
  | .hang w => ⟨s.main, Function.update s.workers th (.stuck (s.workers th)), s.g, w⟩

def step (m : Move) (s : St) : Option St :=
  if s.main.over then none
  else match m with
    | .main rand => (mainTurn E rand s.g s.main).map fun t => afterMain s (t s.w)
    | .worker th => (workerTurn E th s.g (s.workers th)).map fun t => afterWorker s th (t s.w)

def Globals.init : Globals where
  inputSize := 0
  rs := 0
  existing := 0
  failN := 0
  failMax := 16
  failLen := 16
  failArr _ := []
  outFiles th := threadFile th
  failStack _ := 0
  totalFailN := 0
  qSem := 0
  queue := []
  terminatedSem := 0
  endMt := none
  log := ⟨[], [], [], 0⟩

/-- The workers are created before `_range` is called. -/
def start (inputPath : Path) (fs : Fs) : St := ⟨.entry, fun _ => .idle, .init, ⟨fs, ⟨inputPath, []⟩, []⟩⟩

def system (inputPath : Path) (fs : Fs) : System St := ⟨(· = start inputPath fs), fun s t => ∃ m, step E m s = some t⟩

variable {E}

theorem follow_reach {ms : List Move} {inputPath : Path} {fs : Fs} {t : St}
    (h : System.follow (step E) ms (start inputPath fs) = some t) : (system E inputPath fs).Reach t :=
  System.Reach.follow (T := system E inputPath fs) (fun m _ _ _ h => ⟨m, h⟩) (.init rfl) h

end

end DiyDdmin.Range
