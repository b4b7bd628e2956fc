/-
  DiyDdmin.Ddmin.Code — `ddmin` and `ddmin_dir` (`src/ddmin.c`).

  The two functions are one loop with different names and tests, so the loop is written
  once over a `Variant`: what the input check looks at, where the first input is, how an
  output file is called, and how the two phases run a candidate. One step of the machine
  is one turn of the outer loop's head or of one of the two inner loops, with every
  system call of the turn recorded as a moment. `int` variables are integers; a `long`
  stored in an `int` goes through `toInt`.
-/

import DiyDdmin.Tester.Names
import DiyDdmin.Tester.Candidate
import DiyDdmin.Posix.Loop

namespace DiyDdmin.Ddmin

open Posix Tester Numeric Systems

structure Variant where
  /-- What the second `access` looks at. -/
  inputPath : Path
  /-- The first value of `minimized_fname`. -/
  firstFile : Path
  outFile : Nat → Path
  testSubset : Path → Code Bool
  testComplement : Path → Code Bool

/-- The variables of one turn of the outer loop. -/
structure Locals where
  inFp : Reader
  outFp : Writer
  outFile : Path
  fSize : Nat

inductive Pc where
  | entry
  /-- The condition of the outer loop. -/
  | head
  /-- The subset loop, with `_f_size` and `_n`. -/
  | subset (l : Locals) (fSizeLeft nLeft : Int)
  /-- The complement loop, with `c_start` and `_n`. -/
  | complement (l : Locals) (cStart nLeft : Int)
  | ret (path : Path)
  | exited (e : Exit)
  | hung

structure Ctl where
  pc : Pc
  n : Int
  fileNo : Nat

abbrev St := LoopSt Vars Ctl

section

variable (E : Env) (V : Variant)

def entryTurn (fileNo : Nat) : Code Ctl := do
  let program ← access (E.key E.programPath)
  if ¬program then exit (.noProgramPath E.programPath)
  else do
    let input ← access (E.key V.inputPath)
    if ¬input then exit (.noInputPath V.inputPath)
    else do
      hold V.firstFile
      pure ⟨.head, 2, fileNo⟩

/-- `while ((f_size = byte_count_file(minimized_fname)) > 1)`, and the opening of the
    two streams. -/
def headTurn (n : Int) (fileNo : Nat) : Code Ctl := do
  let held ← look fun v _ => v.held
  let fSize ← byteCountFile E held
  if 1 < fSize then do
    let inFp ← fopenRead (E.key held)
    match inFp with
    | none => exit (.inFp held)
    | some inFp => do
      let outFp ← fopenWrite E.dirs (E.key (V.outFile fileNo))
      match outFp with
      | none => exit (.nullOutput (V.outFile fileNo))
      | some outFp => pure ⟨.subset ⟨inFp, outFp, V.outFile fileNo, fSize⟩ (toInt fSize) n, n, fileNo + 1⟩
  else pure ⟨.ret held, n, fileNo⟩

/-- The next `part_size` bytes of the input become the output file. -/
def writeSubset (l : Locals) (partSize : Int) : Code Locals := do
  let r ← copyLoop E.io 2048 partSize.toNat l.inFp l.outFp.rewind
  let outFp ← fflush r.2
  let bt ← byteCountFile E l.outFile
  if partSize < bt then do
    truncateTo E l.outFile partSize
    pure { l with inFp := r.1, outFp := outFp }
  else pure { l with inFp := r.1, outFp := outFp }

def subsetTurn (n : Int) (fileNo : Nat) (l : Locals) (fSizeLeft nLeft : Int) : Code Ctl := do
  let partSize := ceilfDiv fSizeLeft nLeft
  let l ← writeSubset E l partSize
  let eCode ← V.testSubset l.outFile
  if eCode then do
    hold l.outFile
    pure ⟨.head, 2, fileNo⟩
  else if 0 < nLeft - 1 then pure ⟨.subset l (fSizeLeft - partSize) (nLeft - 1), n, fileNo⟩
  else pure ⟨.complement l 0 n, n, fileNo⟩

/-- The input without `[c_start, c_start + part_size)` becomes the output file. -/
def writeComplement (l : Locals) (cStart partSize : Int) : Code Locals := do
  let r ← copyLoop E.io 2048 cStart.toNat l.inFp.rewind l.outFp.rewind
  let s ← fread E.io partSize.toNat r.1
  if (s.1.length : Int) ≠ partSize then exit .complementSpace
  else do
    let r ← copyLoop E.io 2048 (l.fSize - (cStart + partSize)).toNat s.2 r.2
    let outFp ← fflush r.2
    let bt ← byteCountFile E l.outFile
    if (bt : Int) ≠ l.fSize - partSize then do
      truncateTo E l.outFile (l.fSize - partSize)
      pure { l with inFp := r.1, outFp := outFp }
    else pure { l with inFp := r.1, outFp := outFp }

def complementTurn (n : Int) (fileNo : Nat) (l : Locals) (cStart nLeft : Int) : Code Ctl := do
  let partSize := ceilfDiv (l.fSize - cStart) nLeft
  let l ← writeComplement E l cStart partSize
  let eCode ← V.testComplement l.outFile
  if eCode then do
    hold l.outFile
    pure ⟨.head, max (n - 1) 2, fileNo⟩
  else if cStart + partSize < l.fSize then pure ⟨.complement l (cStart + partSize) (nLeft - 1), n, fileNo⟩
  else if n < l.fSize then pure ⟨.head, min (n * 2) l.fSize, fileNo⟩
  else do
    let held ← look fun v _ => v.held
    pure ⟨.ret held, n, fileNo⟩

def turn (c : Ctl) : Option (Code Ctl) :=
  match c.pc with
  | .entry => some (entryTurn E V c.fileNo)
  | .head => some (headTurn E V c.n c.fileNo)
  | .subset l fSizeLeft nLeft => some (subsetTurn E V c.n c.fileNo l fSizeLeft nLeft)
  | .complement l cStart nLeft => some (complementTurn E V c.n c.fileNo l cStart nLeft)
  | .ret _ => none
  | .exited _ => none
  | .hung => none

def loop : Loop Vars Exit Ctl :=
  ⟨turn E V, fun c e => { c with pc := .exited e }, fun c => { c with pc := .hung }⟩

def next (s : St) : Option St := (loop E V).next s

/-- Nothing reads `minimized_fname` before it is first set, so it starts as that value. -/
def start (fs : Fs) : St := ⟨⟨.entry, 2, 0⟩, ⟨fs, ⟨V.firstFile, []⟩, []⟩⟩

def machine (fs : Fs) : Machine St := (loop E V).machine (start V fs)

end

/-! ## The two functions -/

def ddmin (E : Env) (byteSeqPath : Path) : Variant where
  inputPath := byteSeqPath
  firstFile := byteSeqPath
  outFile := partFile
  testSubset outFile := testBufferOverflow E outFile outFile
  testComplement outFile := testBufferOverflow E outFile outFile

/-- `../%s/%d.part` -/
def dirPartFile (exeDir : Path) (fileNo : Nat) : Path :=
  ("../".toList ++ exeDir) ++ '/' :: (decimal fileNo ++ ".part".toList)

/-- `%s/test_input` -/
def testInput (dir : Path) : Path := dir ++ '/' :: "test_input".toList

/-- The candidate replaces `test_input` in the input directory, which is what runs. -/
def installAndTest (E : Env) (inputDir outFile : Path) : Code Bool := do
  let gone ← remove (E.key (testInput inputDir))
  if ¬gone then exit .removeTestInput
  else do
    copy E outFile (testInput inputDir)
    testBufferOverflow E inputDir outFile

/-- The complement phase runs the output file itself. -/
def ddminDir (E : Env) (inputDir exeDir : Path) : Variant where
  inputPath := inputDir
  firstFile := testInput ("../".toList ++ exeDir)
  outFile := dirPartFile exeDir
  testSubset outFile := installAndTest E inputDir outFile
  testComplement outFile := testBufferOverflow E outFile outFile

end DiyDdmin.Ddmin
