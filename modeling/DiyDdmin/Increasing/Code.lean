/-
  DiyDdmin.Increasing.Code — `range_increasing` (`src/range.c`).

  The two nested loops, one turn per evaluation of a loop condition: the outer turn looks
  at the size of the input and starts a scan or returns, the inner turn tries the cut at
  `begin` or goes on to the next `rs`. The size is a `long` kept in an `int`. Log output
  and `file_no`, which only it reads, are left out.
-/

import DiyDdmin.Tester.Candidate
import DiyDdmin.Tester.Names
import DiyDdmin.Posix.Loop

namespace DiyDdmin.Increasing

open Posix Tester Numeric Systems

structure Locals where
  inFp : Reader
  outFp : Writer
  outFile : Path

inductive Pc where
  | entry
  /-- The condition of the outer loop. -/
  | outer (l : Locals)
  /-- The condition and body of the inner loop. -/
  | inner (l : Locals) (begin : Int)
  | ret (path : Path)
  | exited (e : Exit)
  | hung

structure Ctl where
  pc : Pc
  rs : Int
  failNo : Nat

abbrev St := LoopSt Vars Ctl

section

variable (E : Env)

/-- Open the input, and the output file `failNo`. -/
def openFiles (inputPath : Path) (failNo : Nat) : Code Locals := do
  let inFp ← fopenRead (E.key inputPath)
  let outFp ← fopenWrite E.dirs (E.key (partFile failNo))
  match inFp, outFp with
  | none, _ => exit (.nullInput inputPath)
  | some _, none => exit (.nullOutput (partFile failNo))
  | some inFp, some outFp => pure ⟨inFp, outFp, partFile failNo⟩

def inputSize : Code Int := do
  let held ← look fun v _ => v.held
  let size ← byteCountFile E held
  pure (toInt size)

def entryTurn (rs : Int) (failNo : Nat) : Code Ctl := do
  let held ← look fun v _ => v.held
  let l ← openFiles E held (failNo + 1)
  pure ⟨.outer l, rs, failNo + 1⟩

def outerTurn (rs : Int) (failNo : Nat) (l : Locals) : Code Ctl := do
  let size ← inputSize E
  if rs < size then pure ⟨.inner l 0, rs, failNo⟩
  else do
    let held ← look fun v _ => v.held
    pure ⟨.ret held, rs, failNo⟩

def innerTurn (rs : Int) (failNo : Nat) (l : Locals) (begin : Int) : Code Ctl := do
  let size ← inputSize E
  if begin ≤ size - rs then do
    let r ← writeCut E l.inFp.rewind l.outFp.rewind l.outFile size rs begin
    let eCode ← testBufferOverflow E l.outFile l.outFile
    if eCode then do
      hold l.outFile
      let l ← openFiles E l.outFile (failNo + 1)
      pure ⟨.inner l (max (begin - rs + 1) 0), rs, failNo + 1⟩
    else pure ⟨.inner ⟨r.1, r.2, l.outFile⟩ (begin + 1), rs, failNo⟩
  else pure ⟨.outer l, rs + 1, failNo⟩

def turn (c : Ctl) : Option (Code Ctl) :=
  match c.pc with
  | .entry => some (entryTurn E c.rs c.failNo)
  | .outer l => some (outerTurn E c.rs c.failNo l)
  | .inner l begin => some (innerTurn E c.rs c.failNo l begin)
  | .ret _ => none
  | .exited _ => none
  | .hung => none

def loop : Loop Vars Exit Ctl :=
  ⟨turn E, fun c e => { c with pc := .exited e }, fun c => { c with pc := .hung }⟩

def next (s : St) : Option St := (loop E).next s

def start (inputPath : Path) (fs : Fs) : St := ⟨⟨.entry, 1, 0⟩, ⟨fs, ⟨inputPath, []⟩, []⟩⟩

def machine (inputPath : Path) (fs : Fs) : Machine St := (loop E).machine (start inputPath fs)

end

end DiyDdmin.Increasing
