/-
  DiyDdmin.Tester.Overflow — running the program under test on a candidate and reading
  its verdict (`src/ddmin.c`: `test_buffer_overflow`, `test_buffer_overflow_thread`,
  `byte_count_file`, `copy`).

  The program under test, with `runner` around it, is a function of the run's number, the
  path it is given and the directory (`Program`): nothing is assumed of it. What it wrote
  to its standard error is scanned line by line for the message.

  Proved: a test changes no entry but its own two output files, records itself, and
  answers what the scan of the program's standard error says (`runTest_spec`).
-/

import Mathlib.Data.List.Infix
import DiyDdmin.Posix.Streams

namespace DiyDdmin.Tester

open Posix

/-- `enum E_Type`. -/
inductive EType where
  | noError
  | eFork
  | eTimeoutKill
  deriving DecidableEq, Repr

/-- What one call of `runner` comes to: the type it returns, and what the program wrote. -/
structure Outcome where
  type : EType
  out : Bytes
  err : Bytes
  deriving DecidableEq

abbrev Program := Nat → Path → Fs → Outcome

/-- The ways the tool ends in `exit(1)`. -/
inductive Exit where
  /-- `no program path: %s` -/
  | noProgramPath (p : Path)
  /-- `no input path: %s` -/
  | noInputPath (p : Path)
  /-- `in_fp: minimized_fname:%s` -/
  | inFp (p : Path)
  /-- `stat errno: %d (%s)` -/
  | stat (p : Path)
  /-- `no: %s`, the standard error file, before or after the run -/
  | noStderr (p : Path)
  /-- `ERROR: subset truncate` -/
  | subsetTruncate
  /-- `ERROR: complement (space)` -/
  | complementSpace
  /-- `ERROR: few written. bt:%d, correct: %d` -/
  | fewWritten (bt correct : Int)
  /-- `ERROR: fail to remove test_input` -/
  | removeTestInput
  /-- `Can not open src file : %s` -/
  | copySrc (p : Path)
  /-- `already exist file in copy()` -/
  | copyExists
  /-- `cannot pop_queue()` -/
  | popQueue
  /-- `fail to rename n.part` -/
  | renamePart
  /-- `fopen` of the input gave a null pointer that the code goes on to use. -/
  | nullInput (p : Path)
  /-- The same of an output file. -/
  | nullOutput (p : Path)
  deriving DecidableEq

/-- One run of the program: the path it was given, the file its candidate was written to,
    the directory it found, and what came of it. -/
structure Test where
  given : Path
  file : Path
  fs : Fs
  outcome : Outcome

/-- The variables a snapshot records: the name of the file held as the minimized input,
    and the runs so far. -/
structure Vars where
  held : Path
  tests : List Test

abbrev Code (α : Type) := Prog Vars Exit α

/-- What a run of the tool is given. `dirs` are the directories there are, the working
    directory among them; the tool makes none and removes none. -/
structure Env where
  cwd : Key
  dirs : Key → Bool := fun k => decide (k = cwd)
  cwd_dir : dirs cwd = true := by simp
  io : Stdio
  programPath : Path
  program : Program
  errMsg : Bytes

def Env.key (E : Env) (p : Path) : Key := resolve E.cwd p

/-- The directory that is to hold `p` is there. -/
def Env.Holds (E : Env) (p : Path) : Prop := E.dirs (E.key p).dropLast = true

instance (E : Env) (p : Path) : Decidable (E.Holds p) := inferInstanceAs (Decidable (_ = true))

theorem Env.holds_of {E : Env} {p : Path} {n : Name} (h : E.key p = E.cwd ++ [n]) : E.Holds p := by
  rw [Env.Holds, h, List.dropLast_concat]
  exact E.cwd_dir

/-! ## The verdict -/

/-- The successive lines `fgets(line, size, fp)` delivers: up to a newline, at most
    `size - 1` bytes at a time. `cur` is the part of the present line already read. -/
def fgetsLines (size : Nat) : Bytes → Bytes → List Bytes
  | cur, [] => if cur = [] then [] else [cur]
  | cur, b :: bs =>
    if b = 10 ∨ (cur ++ [b]).length + 1 = size then (cur ++ [b]) :: fgetsLines size [] bs
    else fgetsLines size (cur ++ [b]) bs

/-- The C string at the start of a buffer. -/
def cstr (bs : Bytes) : Bytes := bs.takeWhile (· ≠ 0)

/-- `strstr(line, msg) != NULL`. -/
def strstr (line msg : Bytes) : Bool := decide (cstr msg <:+: cstr line)

/-- The `while (fgets(...))` loop: does any line contain the message? -/
def scan (errMsg err : Bytes) : Bool := (fgetsLines 512 [] err).any (strstr · errMsg)

/-- The verdict on a run. A failed fork leaves the standard error file empty. -/
def verdict (errMsg : Bytes) (o : Outcome) : Bool :=
  match o.type with
  | .eTimeoutKill => false
  | .eFork => scan errMsg []
  | .noError => scan errMsg o.err

/-! ## The test -/

/-- `runner`, seen from the directory: the child opens both output files without
    truncating them and writes from their start. -/
def runner (E : Env) (given file outPath errPath : Path) : Code Outcome := do
  let o ← look fun v fs => E.program v.tests.length given fs
  act fun v fs => ((), { v with tests := v.tests ++ [⟨given, file, fs, o⟩] }, fs)
  if o.type = .eFork then pure o
  else do
    openWrite (E.key outPath) o.out
    openWrite (E.key errPath) o.err
    pure o

/-- The body the two test functions share. `clean`: a timed-out run removes its output
    files too. -/
def runTest (E : Env) (given file outPath errPath : Path) (clean : Bool) : Code Bool := do
  let tFp ← fopenWrite E.dirs (E.key errPath)
  if tFp.isNone then exit (.noStderr errPath)
  else do
    let o ← runner E given file outPath errPath
    if o.type = .eTimeoutKill then
      if clean then do
        let _ ← remove (E.key outPath)
        let _ ← remove (E.key errPath)
        pure false
      else pure false
    else do
      let err ← look fun _ fs => fs (E.key errPath)
      match err with
      | none => exit (.noStderr errPath)
      | some err => do
        let _ ← remove (E.key outPath)
        let _ ← remove (E.key errPath)
        pure (scan E.errMsg err)

def stdoutPath (p : Path) : Path := "./".toList ++ p ++ ".stdout".toList
def stderrPath (p : Path) : Path := "./".toList ++ p ++ ".stderr".toList

def testBufferOverflow (E : Env) (inputSeqPath file : Path) : Code Bool :=
  runTest E inputSeqPath file (stdoutPath inputSeqPath) (stderrPath inputSeqPath) false

def dummyOut (outIdx : Nat) : Path := "./".toList ++ ("dummy".toList ++ (decimal outIdx ++ ".stdout".toList))
def dummyErr (outIdx : Nat) : Path := "./".toList ++ ("dummy".toList ++ (decimal outIdx ++ ".stderr".toList))

def testBufferOverflowThread (E : Env) (inputSeqPath : Path) (outIdx : Nat) : Code Bool :=
  runTest E inputSeqPath inputSeqPath (dummyOut outIdx) (dummyErr outIdx) true

def byteCountFile (E : Env) (path : Path) : Code Nat := do
  let s ← stat (E.key path)
  match s with
  | none => exit (.stat path)
  | some n => pure n

/-- `copy`: the destination must not exist yet. -/
def copy (E : Env) (src dst : Path) : Code Unit := do
  let s ← look fun _ fs => fs (E.key src)
  match s with
  | none => exit (.copySrc src)
  | some c => do
    let there ← access (E.key dst)
    if there then exit .copyExists
    else openWrite (E.key dst) c

/-- `strcpy(minimized_fname, p)`. -/
def hold (p : Path) : Code Unit := act fun v fs => ((), { v with held := p }, fs)

/-! ## What a test does -/

/-- The record of a run on the directory the test's first call leaves. -/
def testOf (E : Env) (given file errPath : Path) (w : World Vars) : Test :=
  let fs := w.fs.put (E.key errPath) (some [])
  ⟨given, file, fs, E.program w.own.tests.length given fs⟩

theorem byteCountFile_ok {E : Env} {p : Path} {w w' : World Vars} {n : Nat} (h : byteCountFile E p w = .ok n w') :
    w' = w ∧ ∃ c, w.fs (E.key p) = some c ∧ c.length = n := by
  simp only [byteCountFile, stat, look_bind] at h
  cases hf : w.fs (E.key p) <;> rw [hf] at h <;> cases h
  exact ⟨rfl, _, rfl, rfl⟩

theorem byteCountFile_exit {E : Env} {p : Path} {w w' : World Vars} {e : Exit} (h : byteCountFile E p w = .exit e w') : e = .stat p := by
  simp only [byteCountFile, stat, look_bind] at h
  cases hf : (w.fs (E.key p)).map List.length <;> rw [hf] at h <;> cases h
  rfl

theorem copy_exit {E : Env} {src dst : Path} {w w' : World Vars} {e : Exit} (h : copy E src dst w = .exit e w') :
    e = .copySrc src ∨ e = .copyExists := by
  simp only [copy, access, look_bind] at h
  cases hf : w.fs (E.key src) <;> rw [hf] at h
  · cases h
    exact Or.inl rfl
  · simp only [look_bind] at h
    split at h <;> cases h
    exact Or.inr rfl

theorem openWrite_fresh (fs : Fs) (k : Key) (bs : Bytes) (h : (fs k).getD [] = []) :
    ((fs.put k (some ((fs k).getD []))).writeAt k 0 bs) k = some bs := by
  by_cases hb : bs = []
  · simp [Fs.writeAt, h, hb, overwrite]
  · simp [Fs.writeAt, h, hb, overwrite]

theorem openWrite_ne (fs : Fs) {k k' : Key} (bs : Bytes) (h : k' ≠ k) :
    ((fs.put k (some ((fs k).getD []))).writeAt k 0 bs) k' = fs k' := by
  rw [Fs.writeAt_ne _ _ _ h, Fs.put_ne _ _ h]

theorem openWrite_same (fs : Fs) {k k' : Key} (bs : Bytes) (h : k' ≠ k) :
    Fs.Same fs ((fs.put k (some ((fs k).getD []))).writeAt k 0 bs) k' :=
  ⟨openWrite_ne fs bs h, by rw [Fs.writeAt_unlinked, Fs.put_unlinked]⟩

theorem copy_run {E : Env} {src dst : Path} {w : World Vars} {c : Bytes} (hs : w.fs (E.key src) = some c)
    (hd : w.fs (E.key dst) = none) :
    ∃ w', copy E src dst w = .ok () w' ∧ w'.own = w.own ∧ w'.fs (E.key dst) = some c ∧
      ∀ k, k ≠ E.key dst → Fs.Same w.fs w'.fs k := by
  refine ⟨⟨((w.fs.put (E.key dst) (some ((w.fs (E.key dst)).getD []))).writeAt (E.key dst) 0 c), w.own,
    w.past ++ [(w.own, w.fs)]⟩, ?_, rfl, openWrite_fresh _ _ _ (by rw [hd]; rfl), fun k hk => openWrite_same _ _ hk⟩
  simp [copy, hs, access, hd, openWrite, act]

/-- A copy unlinks nothing. -/
theorem copy_unlinked {E : Env} {src dst : Path} {w w' : World Vars} (h : copy E src dst w = .ok () w') :
    w'.fs.unlinked = w.fs.unlinked := by
  simp only [copy, look_bind] at h
  cases hs : w.fs (E.key src) with
  | none => simp only [hs] at h; cases h
  | some c =>
    simp only [hs, access, look_bind] at h
    split at h
    · cases h
    · cases h
      rw [Fs.writeAt_unlinked, Fs.put_unlinked]

/-- What the standard error file holds after the run. -/
def Outcome.written (o : Outcome) : Bytes := if o.type = .eFork then [] else o.err

theorem runner_spec (E : Env) (given file : Path) {outPath errPath : Path}
    (hne : E.key outPath ≠ E.key errPath) {w : World Vars} (hw : w.fs (E.key errPath) = some []) :
    ∃ w', runner E given file outPath errPath w = .ok (E.program w.own.tests.length given w.fs) w' ∧
      w'.own = { w.own with
        tests := w.own.tests ++ [⟨given, file, w.fs, E.program w.own.tests.length given w.fs⟩] } ∧
      w'.fs (E.key errPath) = some (E.program w.own.tests.length given w.fs).written ∧
      ∀ k, k ≠ E.key outPath → k ≠ E.key errPath → Fs.Same w.fs w'.fs k := by
  simp only [runner, look_bind, act_bind]
  generalize E.program w.own.tests.length given w.fs = o
  by_cases hf : o.type = .eFork
  · simp only [if_pos hf]
    exact ⟨_, rfl, rfl, by simp [Outcome.written, hf, hw], fun _ _ _ => .refl⟩
  · simp only [if_neg hf, openWrite, act_bind]
    refine ⟨_, rfl, rfl, ?_, ?_⟩
    · rw [Outcome.written, if_neg hf]
      exact openWrite_fresh _ _ _ (by rw [openWrite_ne _ _ hne.symm, hw]; rfl)
    · intro k h1 h2
      exact (openWrite_same _ _ h1).trans (openWrite_same _ _ h2)

theorem verdict_written (errMsg : Bytes) {o : Outcome} (h : o.type ≠ .eTimeoutKill) :
    verdict errMsg o = scan errMsg o.written := by
  unfold verdict Outcome.written
  cases ht : o.type <;> simp_all

theorem runTest_spec (E : Env) (given file : Path) {outPath errPath : Path} (clean : Bool)
    (hne : E.key outPath ≠ E.key errPath) (hdir : E.Holds errPath) (w : World Vars) :
    ∃ w', runTest E given file outPath errPath clean w
        = .ok (verdict E.errMsg (testOf E given file errPath w).outcome) w' ∧
      w'.own = { w.own with tests := w.own.tests ++ [testOf E given file errPath w] } ∧
      ∀ k, k ≠ E.key outPath → k ≠ E.key errPath → Fs.Same w.fs w'.fs k := by
  obtain ⟨w1, hrun, hown, herr, hfs⟩ := runner_spec E given file hne
    (w := ⟨w.fs.put (E.key errPath) (some []), w.own, w.past ++ [(w.own, w.fs)]⟩) (by simp)
  have hfs' : ∀ k, k ≠ E.key outPath → k ≠ E.key errPath → Fs.Same w.fs w1.fs k :=
    fun k h1 h2 => (Fs.Same.put _ _ h2).trans (hfs k h1 h2)
  change w1.own = { w.own with tests := w.own.tests ++ [testOf E given file errPath w] } at hown
  generalize ho : (testOf E given file errPath w).outcome = o
  change runner E given file outPath errPath _ = .ok (testOf E given file errPath w).outcome w1 at hrun
  change w1.fs _ = some (testOf E given file errPath w).outcome.written at herr
  rw [ho] at hrun herr
  rw [runTest, bind_ok (fopenWrite_run hdir w)]
  simp only [Option.isNone_some, Bool.false_eq_true, if_false]
  rw [bind_ok hrun]
  by_cases ht : o.type = .eTimeoutKill
  · have hv : verdict E.errMsg o = false := by simp [verdict, ht]
    rw [if_pos ht, hv]
    cases clean
    · exact ⟨w1, rfl, hown, hfs'⟩
    · simp only [remove]
      exact ⟨_, rfl, hown, fun k h1 h2 => ((hfs' k h1 h2).trans (Fs.Same.put _ _ h1)).trans (Fs.Same.put _ _ h2)⟩
  · rw [if_neg ht, verdict_written _ ht]
    simp only [look_bind, herr, remove, act_bind]
    exact ⟨_, rfl, hown, fun k h1 h2 => ((hfs' k h1 h2).trans (Fs.Same.put _ _ h1)).trans (Fs.Same.put _ _ h2)⟩

theorem runner_outcome {E : Env} {given file outPath errPath : Path} {w w' : World Vars} {o : Outcome}
    (h : runner E given file outPath errPath w = .ok o w') : o = E.program w.own.tests.length given w.fs := by
  simp only [runner, look_bind, act_bind] at h
  split at h
  · cases h; rfl
  · simp only [openWrite, act_bind] at h
    cases h; rfl

/-- A test that cleans up leaves neither output file, however it ends; one that does not
    leaves them only when the program was timed out. -/
theorem runTest_swept {E : Env} {given file outPath errPath : Path} {clean : Bool} (hne : E.key outPath ≠ E.key errPath)
    (hclean : clean = true ∨ ∀ i fs, (E.program i given fs).type ≠ .eTimeoutKill) {w w' : World Vars} {v : Bool}
    (h : runTest E given file outPath errPath clean w = .ok v w') :
    w'.fs (E.key outPath) = none ∧ w'.fs (E.key errPath) = none := by
  have gone : ∀ fs : Fs, ((fs.put (E.key outPath) none).put (E.key errPath) none) (E.key outPath) = none ∧
      ((fs.put (E.key outPath) none).put (E.key errPath) none) (E.key errPath) = none := fun fs =>
    ⟨(Fs.put_ne _ _ hne).trans (Fs.put_same _ _ _), Fs.put_same _ _ _⟩
  obtain ⟨tFp, w0, -, h⟩ := bind_eq_ok.mp h
  split at h
  · cases h
  obtain ⟨o, w1, hrun, h⟩ := bind_eq_ok.mp h
  split at h
  · rename_i ht
    obtain rfl : clean = true := hclean.resolve_right fun hno => hno _ _ (runner_outcome hrun ▸ ht)
    simp only [if_true, remove, act_bind] at h
    cases h
    exact gone w1.fs
  · simp only [look_bind] at h
    cases hf : w1.fs (E.key errPath) <;> rw [hf] at h
    · cases h
    · simp only [remove, act_bind] at h
      cases h
      exact gone w1.fs

/-! ## What a test leaves alone -/

section

variable {P : Vars → Fs → Prop}

/-- One more run of `given` keeps `P`. -/
def BlindTo (P : Vars → Fs → Prop) (given : Path) : Prop :=
  ∀ v fs t, t.given = given → P v fs → P { v with tests := v.tests ++ [t] } fs

theorem runTest_keeps (E : Env) (given file : Path) {outPath errPath : Path} (clean : Bool)
    (ho : Blind P (E.key outPath)) (he : Blind P (E.key errPath)) (ht : BlindTo P given) :
    Keeps P (runTest E given file outPath errPath clean) fun _ => True := by
  have hrun : Keeps P (runner E given file outPath errPath) fun _ => True := by
    refine Keeps.bind Keeps.read fun o _ => ?_
    refine Keeps.bind (Q := fun _ => True) (Keeps.act fun v fs h => ⟨ht _ _ _ rfl h, trivial⟩) fun _ _ => ?_
    refine Keeps.ite (fun _ => Keeps.pure trivial) fun _ => ?_
    exact Keeps.bind (openWrite_keeps ho _) fun _ _ => Keeps.bind (openWrite_keeps he _) fun _ _ => Keeps.pure trivial
  have hrm : ∀ b : Bool, Keeps P (do
      let _ ← remove (E.key outPath)
      let _ ← remove (E.key errPath)
      pure b : Code Bool) fun _ => True := fun b =>
    Keeps.bind (remove_keeps ho) fun _ _ => Keeps.bind (remove_keeps he) fun _ _ => Keeps.pure trivial
  refine Keeps.bind (fopenWrite_keeps he) fun _ _ => Keeps.ite (fun _ => Keeps.exit) fun _ => Keeps.bind hrun fun o _ => ?_
  refine Keeps.ite (fun _ => Keeps.ite (fun _ => hrm false) fun _ => Keeps.pure trivial) fun _ => ?_
  refine Keeps.bind Keeps.read fun err _ => ?_
  cases err with
  | none => exact Keeps.exit
  | some err => exact hrm _

/-- Without the directory to hold it the file is not opened. -/
theorem fopenWrite_null {E : Env} {p : Path} (h : ¬ E.Holds p) : Keeps P (fopenWrite E.dirs (E.key p) : Code _) (· = none) := by
  refine Keeps.act fun v fs hP => ?_
  simp only [if_neg (show ¬ E.dirs (E.key p).dropLast = true from h)]
  exact ⟨hP, trivial⟩

theorem byteCountFile_keeps (E : Env) (p : Path) : Keeps P (byteCountFile E p) fun _ => True := by
  refine Keeps.bind Keeps.read fun s _ => ?_
  cases s with
  | none => exact Keeps.exit
  | some n => exact Keeps.pure trivial

theorem copy_keeps (E : Env) (src : Path) {dst : Path} (h : Blind P (E.key dst)) :
    Keeps P (copy E src dst) fun _ => True := by
  refine Keeps.bind Keeps.read fun s _ => ?_
  cases s with
  | none => exact Keeps.exit
  | some c =>
    refine Keeps.bind Keeps.read fun there _ => ?_
    exact Keeps.ite (fun _ => Keeps.exit) fun _ => openWrite_keeps h c

end

/-! ## Verdict functions -/

/-- Given a path that holds `c`, the program's verdict is `D c`, in every run. -/
def Judges (E : Env) (D : Bytes → Bool) : Prop :=
  ∀ i p fs c, fs (E.key p) = some c → verdict E.errMsg (E.program i p fs) = D c

theorem root_listed : decide (([] : Key) = []) = true := by decide

/-- A program that says the message on the bytes `D` calls failing. -/
def judging (D : Bytes → Bool) : Env where
  cwd := []
  cwd_dir := root_listed
  io := ⟨fun m => (4096 - m % 4096) % 4096, fun n => n - n % 4096⟩
  programPath := "exe".toList
  program _ p fs := ⟨.noError, [], if ((fs (resolve [] p)).map D).getD false then [33] else []⟩
  errMsg := [33]

theorem judging_judges (D : Bytes → Bool) : Judges (judging D) D := by
  intro i p fs c hc
  change fs (resolve [] p) = some c at hc
  simp only [judging, hc, verdict, Option.map_some, Option.getD_some]
  cases D c <;> decide

theorem Judges.testOf {E : Env} {D : Bytes → Bool} (h : Judges E D) {given file errPath : Path} {w : World Vars}
    {c : Bytes} (hg : w.fs (E.key given) = some c) (hne : E.key given ≠ E.key errPath) :
    verdict E.errMsg (testOf E given file errPath w).outcome = D c :=
  h _ _ _ _ ((Fs.put_ne _ _ hne).trans hg)

theorem byteCountFile_run {E : Env} {p : Path} {c : Bytes} {w : World Vars} (h : w.fs (E.key p) = some c) :
    byteCountFile E p w = .ok c.length w := by
  simp [byteCountFile, stat, h]

end DiyDdmin.Tester
