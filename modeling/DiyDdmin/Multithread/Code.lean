/-
  DiyDdmin.Multithread.Code — the `range` of `test/multithread/range.c`.

  In each round `THREAD_N - 1` threads are created, the main thread is the last one itself
  (`run_threads`), and each tests the places of its array in turn, up to the first failing
  candidate (`test_range`). Then the threads are joined in order; the first failing
  candidate in that order becomes the input, at a length of its size less one.

  The state is what each thread is at, `file_no`, and the directory. A step is one thread's:
  one loop of writes, or one other call on files of its own. The steps of the last thread
  are the main thread's, at `scanning`. The input is mapped, and the mapping read where the
  writes are. A test is one step: how calls of `runner` that overlap disturb each other is
  `Runner.Threads`. Log output and `iter_no`, which only it reads, are left out, and so are a
  failing `pthread_create` and an `open` or `mmap` failing on a file that was just sized.
-/

import DiyDdmin.Multithread.Partitions
import DiyDdmin.Tester.Candidate
import DiyDdmin.Tester.Names
import DiyDdmin.Systems.Reach
import Mathlib.Logic.Function.Basic

namespace DiyDdmin.Multithread

open Posix Tester Numeric Systems

abbrev Thread := Fin threadN

/-- A file mapped into memory, by its entry and the number of files unlinked from it before. -/
structure Mapping where
  key : Key
  gen : Nat

def Mapping.of (fs : Fs) (k : Key) : Mapping := ⟨k, (fs.unlinked k).length⟩

def Mapping.bytes (fs : Fs) (m : Mapping) : Bytes := fs.file m.key m.gen

/-- `struct pthread_data`. -/
structure PthreadData where
  part : List Int
  maxRangeN : Int
  rs : Int
  fSize : Int
  outIdx : Nat
  mmapAddr : Mapping

inductive ThreadPc where
  | absent
  | opening (d : PthreadData)
  /-- The condition of the loop. -/
  | scanning (d : PthreadData) (j : Nat) (outFp : Writer)
  | prefixing (d : PthreadData) (j : Nat) (start : Int) (outFp : Writer)
  | skipping (d : PthreadData) (j : Nat) (start : Int) (outFp : Writer)
  | postfixing (d : PthreadData) (j : Nat) (start : Int) (outFp : Writer)
  | flushing (d : PthreadData) (j : Nat) (start : Int) (outFp : Writer)
  | fitting (d : PthreadData) (j : Nat) (start : Int) (outFp : Writer)
  | testing (d : PthreadData) (j : Nat) (start : Int) (outFp : Writer)
  | returned (outPath : Option Path)

inductive MainPc where
  | entry
  /-- `rs > 0` -/
  | looping (rs : Int)
  /-- Thread `i` is to be created. -/
  | creating (rs : Int) (parts : List (List Int)) (fSize : Int) (mmapAddr : Mapping) (i : Thread)
  /-- In its own call of `test_range`. -/
  | scanning (rs : Int)
  /-- `pthread_join(p_threads[i], ...)` -/
  | joining (rs : Int) (failPath : Option Path) (retList : List Path) (i : Thread)
  /-- `ret_cnt < 1` -/
  | selecting (rs : Int) (retList : List Path)
  | ret (path : Path)
  | exited (e : Exit)
  | hung
  | undefined

structure Ctl where
  main : MainPc
  threads : Thread → ThreadPc
  fileNo : Nat

structure St where
  ctl : Ctl
  w : World Vars

def Ctl.put (c : Ctl) (i : Thread) (pc : ThreadPc) : Ctl := { c with threads := Function.update c.threads i pc }

def Ctl.goto (c : Ctl) (pc : MainPc) : Ctl := { c with main := pc }

section

variable (E : Env)

/-! ## `test_range` -/

def PthreadData.outPath (d : PthreadData) : Path := partFile d.outIdx

/-- `while (n > 0)`: write a block of at most 2048 bytes from `mmap_addr + off`. Each turn
    writes a byte or more, so `n` turns are enough. -/
def writeTurns (mmapAddr : Mapping) : Nat → Nat → Nat → Writer → Code Writer
  | 0, _, _, outFp => pure outFp
  | turns + 1, off, n, outFp =>
    if n = 0 then pure outFp
    else do
      let bytes ← look fun _ fs => ((mmapAddr.bytes fs).drop off).take (min n 2048)
      let outFp ← fwrite E.io outFp bytes
      writeTurns mmapAddr turns (off + min n 2048) (n - min n 2048) outFp

def writeMapped (mmapAddr : Mapping) (off n : Int) (outFp : Writer) : Code Writer :=
  writeTurns E mmapAddr n.toNat off.toNat n.toNat outFp

def scanningTurn (d : PthreadData) (j : Nat) (outFp : Writer) : ThreadPc :=
  if j < d.maxRangeN then
    if d.part.getD j (-1) = -1 then .scanning d (j + 1) outFp else .prefixing d j (d.part.getD j (-1)) outFp
  else .returned none

def threadTurn : ThreadPc → Option (Code ThreadPc)
  | .absent => none
  | .opening d => some do
    let outFp ← fopenWrite E.dirs (E.key d.outPath)
    match outFp with
    | none => exit (.nullOutput d.outPath)
    | some outFp => pure (.scanning d 0 outFp)
  | .scanning d j outFp => some (pure (scanningTurn d j outFp))
  | .prefixing d j start outFp => some do
    let outFp ← writeMapped E d.mmapAddr 0 start outFp.rewind
    pure (.skipping d j start outFp)
  | .skipping d j start outFp => some do
    let _ ← writeMapped E d.mmapAddr start d.rs nullWriter
    pure (.postfixing d j start outFp)
  | .postfixing d j start outFp => some do
    let outFp ← writeMapped E d.mmapAddr (start + d.rs) (d.fSize - (start + d.rs)) outFp
    pure (.flushing d j start outFp)
  | .flushing d j start outFp => some do
    let outFp ← fflush outFp
    pure (.fitting d j start outFp)
  | .fitting d j start outFp => some do
    fitSize E d.outPath (d.fSize - d.rs)
    pure (.testing d j start outFp)
  | .testing d j _ outFp => some do
    let eCode ← testBufferOverflow E d.outPath d.outPath
    pure (if eCode then .returned (some d.outPath) else .scanning d (j + 1) outFp)
  | .returned _ => none

/-! ## `range`, `range_thread` and `run_threads` -/

def entryTurn (c : Ctl) : Code Ctl := do
  let held ← look fun v _ => v.held
  let size ← byteCountFile E held
  pure (c.goto (.looping (size - 1)))

/-- The loop's condition, and `range_thread` up to the threads. -/
def loopingTurn (c : Ctl) (rs : Int) : Code Ctl := do
  let held ← look fun v _ => v.held
  if 0 < rs then do
    let fSize ← byteCountFile E held
    match partitions (blank (maxRangeN fSize (toInt rs))) fSize (toInt rs) with
    | none => pure (c.goto .undefined)
    | some parts => do
      let mmapAddr ← look fun _ fs => Mapping.of fs (E.key held)
      pure (c.goto (.creating rs parts fSize mmapAddr 0))
  else pure (c.goto (.ret held))

def creatingTurn (c : Ctl) (rs : Int) (parts : List (List Int)) (fSize : Int) (mmapAddr : Mapping) (i : Thread) : Ctl :=
  let d : PthreadData := ⟨parts.getD i [], maxRangeN fSize (toInt rs), toInt rs, fSize, c.fileNo + i, mmapAddr⟩
  (c.put i (.opening d)).goto
    (if h : i.val + 1 < threadN then .creating rs parts fSize mmapAddr ⟨i + 1, h⟩ else .scanning rs)

/-- The last thread is the main thread's own call. -/
def own : Thread := Fin.last 7

/-- `ret_list`, and the thread to join next if there is one. -/
def joiningTurn (c : Ctl) (rs : Int) (failPath : Option Path) (retList : List Path) (i : Thread) (outPath : Option Path) : Ctl :=
  (c.put i .absent).goto
    (if h : i.val + 2 < threadN then .joining rs failPath (retList ++ outPath.toList) ⟨i + 1, by omega⟩
    else .selecting rs (retList ++ outPath.toList ++ failPath.toList))

def selectingTurn (c : Ctl) (rs : Int) : List Path → Code Ctl
  | [] => pure (c.goto (.looping (rs - 1)))
  | inputPath :: _ => do
    hold inputPath
    let size ← byteCountFile E inputPath
    pure ({ c with fileNo := c.fileNo + threadN }.goto (.looping (size - 1)))

def mainTurn (c : Ctl) : Option (Code Ctl) :=
  match c.main with
  | .entry => some (entryTurn E c)
  | .looping rs => some (loopingTurn E c rs)
  | .creating rs parts fSize mmapAddr i => some (pure (creatingTurn c rs parts fSize mmapAddr i))
  | .scanning rs => match c.threads own with
    | .returned failPath => some (pure ((c.put own .absent).goto (.joining rs failPath [] 0)))
    | _ => none
  | .joining rs failPath retList i => match c.threads i with
    | .returned outPath => some (pure (joiningTurn c rs failPath retList i outPath))
    | _ => none
  | .selecting rs retList => some (selectingTurn E c rs retList)
  | .ret _ => none
  | .exited _ => none
  | .hung => none
  | .undefined => none

/-! ## Steps -/

inductive Move where
  | main
  | thread (i : Thread)

/-- The process is gone: no thread moves any more. -/
def MainPc.over : MainPc → Bool
  | .exited _ => true
  | .undefined => true
  | _ => false

def afterMain (s : St) : Res Vars Exit Ctl → St
  | .ok c w => ⟨c, w⟩
  | .exit e w => ⟨s.ctl.goto (.exited e), w⟩
  | .hang w => ⟨s.ctl.goto .hung, w⟩

def afterThread (s : St) (i : Thread) : Res Vars Exit ThreadPc → St
  | .ok pc w => ⟨s.ctl.put i pc, w⟩
  | .exit e w => ⟨s.ctl.goto (.exited e), w⟩
  | .hang w => ⟨s.ctl.put i .absent, w⟩

def step (m : Move) (s : St) : Option St :=
  if s.ctl.main.over then none
  else match m with
    | .main => (mainTurn E s.ctl).map fun t => afterMain s (t s.w)
    | .thread i => (threadTurn E (s.ctl.threads i)).map fun t => afterThread s i (t s.w)

def start (inputPath : Path) (fs : Fs) : St := ⟨⟨.entry, fun _ => .absent, 0⟩, ⟨fs, ⟨inputPath, []⟩, []⟩⟩

def system (inputPath : Path) (fs : Fs) : System St := ⟨(· = start inputPath fs), fun s t => ∃ m, step E m s = some t⟩

end

end DiyDdmin.Multithread
