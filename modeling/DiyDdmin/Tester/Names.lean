/-
  DiyDdmin.Tester.Names — the file names the tool makes up in the directory it runs in.

  Every such name is a decimal between two fixed strings, with or without `./` in front:
  the candidates `./%d.part` of `ddmin` and `range_increasing` with the two output files
  of a test on one, and the inputs, candidates, results and output files of `range`.

  Proved: such a name resolves to the working directory and itself (`key_numbered`,
  `key_dot_numbered`), so two of them name one entry only when they are the same
  (`key_numbered_inj`).
-/

import DiyDdmin.Tester.Overflow

namespace DiyDdmin.Tester

open Posix

/-- `"<pre>%d<suf>"` -/
def numbered (pre : Name) (i : Nat) (suf : Name) : Name := pre ++ (decimal i ++ suf)

theorem numbered_plain {pre suf : Name} (i : Nat) (hp : '/' ∉ pre) (hs : '/' ∉ suf) : Plain (numbered pre i suf) := by
  obtain ⟨c, hc⟩ := List.exists_mem_of_ne_nil _ (decimal_ne_nil i)
  have hd := decimal_digit hc
  have hmem : c ∈ numbered pre i suf := by simp [numbered, hc]
  refine ⟨?_, ?_, ?_, ?_⟩
  · simp only [numbered, List.mem_append, not_or]
    exact ⟨hp, fun h => by have := decimal_digit h; simp at this, hs⟩
  · exact List.ne_nil_of_mem hmem
  all_goals
    intro e
    rw [e] at hmem
    simp only [List.mem_cons, List.not_mem_nil, or_false, or_self] at hmem
    rw [hmem] at hd
    simp at hd

section

variable (E : Env) {pre suf pre' suf' : Name}

theorem key_numbered (i : Nat) (hp : '/' ∉ pre) (hs : '/' ∉ suf) :
    E.key (numbered pre i suf) = E.cwd ++ [numbered pre i suf] := resolve_plain _ (numbered_plain i hp hs)

theorem key_dot (p : Path) (h : '/' ∉ p) : E.key ("./".toList ++ p) = E.key p :=
  resolve_dot E.cwd fun e => h (List.mem_of_head? e)

theorem key_dot_numbered (i : Nat) (hp : '/' ∉ pre) (hs : '/' ∉ suf) :
    E.key ("./".toList ++ numbered pre i suf) = E.cwd ++ [numbered pre i suf] :=
  (key_dot E _ (numbered_plain i hp hs).1).trans (key_numbered E i hp hs)

end

theorem numbered_inj {pre suf suf' : Name} {i j : Nat} (hs : ∀ c ∈ suf.head?, c.isDigit = false)
    (hs' : ∀ c ∈ suf'.head?, c.isDigit = false) (h : numbered pre i suf = numbered pre j suf') : i = j ∧ suf = suf' :=
  decimal_append_inj hs hs' (List.append_cancel_left h)

/-- A name that does not start with a digit is not a number and a suffix. -/
theorem ne_numbered {n : Name} (h : ∀ c ∈ n.head?, c.isDigit = false) (i : Nat) (suf : Name) : n ≠ numbered [] i suf := by
  rintro rfl
  obtain ⟨c, cs, hc⟩ := List.exists_cons_of_ne_nil (decimal_ne_nil i)
  have hd : c.isDigit = true := decimal_digit (k := i) (by rw [hc]; simp)
  have := h c (by simp [numbered, hc])
  rw [hd] at this; cases this

theorem numbered_ne {pre pre' : Name} (h : pre.head? ≠ pre'.head?) (hp : pre ≠ []) (hp' : pre' ≠ []) (i j : Nat) (suf suf' : Name) :
    numbered pre i suf ≠ numbered pre' j suf' := by
  intro e
  have e' := congrArg List.head? e
  rw [numbered, numbered, List.head?_append_of_ne_nil _ hp, List.head?_append_of_ne_nil _ hp'] at e'
  exact h e'

theorem last_ne {k k' : Key} {n m : Name} (h : n ≠ m) : k ++ [n] ≠ k' ++ [m] := fun e =>
  h (List.singleton_injective (List.append_inj' e rfl).2)

theorem key_ne (E : Env) {n m : Name} (h : n ≠ m) : E.cwd ++ [n] ≠ E.cwd ++ [m] := last_ne h

/-- Two names with suffixes of which neither ends the other differ. -/
theorem suffix_ne {n m s t : Name} (h1 : ¬ s <:+ t) (h2 : ¬ t <:+ s) : n ++ s ≠ m ++ t := by
  intro e
  have hs : s <:+ m ++ t := e ▸ List.suffix_append n s
  rcases Nat.le_total s.length t.length with hl | hl
  · exact h1 (List.suffix_of_suffix_length_le hs (List.suffix_append m t) hl)
  · exact h2 (List.suffix_of_suffix_length_le (List.suffix_append m t) hs hl)

/-! ## Output files of a test -/

section

variable (E : Env)

/-- The output files of a test, whatever path it is given, end in their suffix. -/
theorem side_suffix (p : Path) :
    (∃ k n, E.key (stdoutPath p) = k ++ [n ++ ".stdout".toList]) ∧
    ∃ k n, E.key (stderrPath p) = k ++ [n ++ ".stderr".toList] :=
  ⟨resolve_suffix _ _ (by decide) (by decide), resolve_suffix _ _ (by decide) (by decide)⟩

theorem side_ne (p : Path) : E.key (stdoutPath p) ≠ E.key (stderrPath p) := by
  obtain ⟨⟨k, n, ho⟩, k', n', he⟩ := side_suffix E p
  rw [ho, he]
  exact last_ne (suffix_ne (by decide) (by decide))

end

/-! ## Candidates of `ddmin` and `range_increasing` -/

/-- `./%d.part` -/
def partFile (fileNo : Nat) : Path := "./".toList ++ numbered [] fileNo ".part".toList

section

variable (E : Env) (i : Nat)

theorem key_partFile : E.key (partFile i) = E.cwd ++ [numbered [] i ".part".toList] :=
  key_dot_numbered E i (by decide) (by decide)

theorem key_side (s : Name) (hs : '/' ∉ s) : E.key ("./".toList ++ partFile i ++ s) =
    E.cwd ++ [numbered [] i (".part".toList ++ s)] := by
  have e : "./".toList ++ partFile i ++ s = "./".toList ++ ("./".toList ++ numbered [] i (".part".toList ++ s)) := by
    simp [partFile, numbered]
  rw [e, Env.key]
  change resolve E.cwd ('.' :: '/' :: ('.' :: '/' :: numbered [] i (".part".toList ++ s))) = _
  rw [resolve_dot _ (by simp)]
  exact key_dot_numbered E i (by decide) (by simpa using hs)

theorem key_stdoutPath : E.key (stdoutPath (partFile i)) = E.cwd ++ [numbered [] i ".part.stdout".toList] :=
  key_side E i ".stdout".toList (by decide)

theorem key_stderrPath : E.key (stderrPath (partFile i)) = E.cwd ++ [numbered [] i ".part.stderr".toList] :=
  key_side E i ".stderr".toList (by decide)

end

section

variable (E : Env)

theorem partFile_inj {i j : Nat} (h : E.key (partFile i) = E.key (partFile j)) : i = j := by
  rw [key_partFile, key_partFile] at h
  exact (numbered_inj (by decide) (by decide) (List.singleton_injective (List.append_cancel_left h))).1

theorem partFile_ne_side (i j : Nat) :
    E.key (partFile i) ≠ E.key (stdoutPath (partFile j)) ∧ E.key (partFile i) ≠ E.key (stderrPath (partFile j)) := by
  rw [key_partFile, key_stdoutPath, key_stderrPath]
  constructor <;>
  · apply key_ne E
    intro h
    have := (numbered_inj (by decide) (by decide) h).2
    revert this; decide

/-- A test on `./i.part`: one run is recorded, given the bytes there, and only its two
    output files change. -/
theorem testPart_spec (i : Nat) {w : World Vars} {c : Bytes} (hc : w.fs (E.key (partFile i)) = some c) :
    ∃ t w', testBufferOverflow E (partFile i) (partFile i) w = .ok (verdict E.errMsg t.outcome) w' ∧
      w'.own = { w.own with tests := w.own.tests ++ [t] } ∧
      (∀ k, k ≠ E.key (stdoutPath (partFile i)) → k ≠ E.key (stderrPath (partFile i)) → Fs.Same w.fs w'.fs k) ∧
      t.given = partFile i ∧ t.file = partFile i ∧ t.fs (E.key (partFile i)) = some c ∧
      ∀ D, Judges E D → verdict E.errMsg t.outcome = D c := by
  obtain ⟨w', hrun, hown, hfs⟩ := runTest_spec E (partFile i) (partFile i) false (side_ne E (partFile i))
    (Env.holds_of (key_stderrPath E i)) w
  have herr := (partFile_ne_side E i i).2
  exact ⟨testOf E (partFile i) (partFile i) (stderrPath (partFile i)) w, w', hrun, hown, hfs, rfl, rfl,
    (Fs.put_ne _ _ herr).trans hc, fun D hD => hD.testOf hc herr⟩

end

/-! ## What a test leaves alone -/

section

variable {E : Env} {k : Key} {c : Option Bytes}

/-- What `k` holds is still `c`. -/
def Unchanged (k : Key) (c : Option Bytes) (_ : Vars) (fs : Fs) : Prop := fs k = c

theorem Unchanged.blind {k' : Key} (h : k ≠ k') : Blind (Unchanged k c) k' := fun _ _ _ hc => (Fs.put_ne _ _ h).trans hc

/-- From `w` to `w'` a test was run of which `k` is an output file. -/
def TestedOver (E : Env) (k : Key) (w w' : World Vars) : Prop :=
  ∃ x ∈ w'.own.tests.drop w.own.tests.length, k = E.key (stdoutPath x.given) ∨ k = E.key (stderrPath x.given)

instance (w w' : World Vars) : Decidable (TestedOver E k w w') :=
  inferInstanceAs (Decidable (∃ x ∈ w'.own.tests.drop w.own.tests.length, _))

/-- A test on `./i.part` is recorded, so it leaves `k` alone unless it counts as one over it. -/
theorem test_unchanged {α : Type} {i : Nat} {g : Bool → Code α} {w w0 : World Vars} (hw : w.All (Unchanged k c))
    (h0 : w.own.tests = w0.own.tests) (hg : ∀ v w1, (g v w1).world.own.tests = w1.own.tests)
    (hno : ¬ TestedOver E k w0 ((testBufferOverflow E (partFile i) (partFile i) >>= g) w).world) :
    ∃ v w1, testBufferOverflow E (partFile i) (partFile i) w = .ok v w1 ∧ w1.All (Unchanged k c) ∧
      (∃ x, w1.own = { w.own with tests := w.own.tests ++ [x] }) ∧ Fs.Same w.fs w1.fs (E.key (partFile i)) := by
  obtain ⟨w1, hrun, hown, hfs⟩ := runTest_spec E (partFile i) (partFile i) false (side_ne E _)
    (Env.holds_of (key_stderrPath E i)) w
  have hrun' : testBufferOverflow E (partFile i) (partFile i) w = _ := hrun
  have hrecord : testOf E (partFile i) (partFile i) (stderrPath (partFile i)) w ∈
      ((testBufferOverflow E (partFile i) (partFile i) >>= g) w).world.own.tests.drop w0.own.tests.length := by
    rw [bind_ok hrun', hg, hown, ← h0, List.drop_left]
    exact List.mem_singleton_self _
  have hside : ¬ (k = E.key (stdoutPath (partFile i)) ∨ k = E.key (stderrPath (partFile i))) := fun h => hno ⟨_, hrecord, h⟩
  obtain ⟨ho, he⟩ := not_or.mp hside
  have hk : Keeps (Unchanged k c) (testBufferOverflow E (partFile i) (partFile i)) fun _ => True :=
    runTest_keeps E _ _ false (Unchanged.blind ho) (Unchanged.blind he) fun _ _ _ _ h => h
  have hall := hk.all hw
  rw [hrun'] at hall
  exact ⟨_, w1, hrun', hall, ⟨_, hown⟩, hfs _ (partFile_ne_side E i i).1 (partFile_ne_side E i i).2⟩

end

/-- The names `ddmin` and `range_increasing` make up. -/
inductive PartName : Name → Prop
  | part (i : Nat) : PartName (numbered [] i ".part".toList)
  | out (i : Nat) : PartName (numbered [] i ".part.stdout".toList)
  | err (i : Nat) : PartName (numbered [] i ".part.stderr".toList)

/-! ## Names of `range` -/

/-- `thread%d`, the first candidate file of a worker. -/
def threadFile (i : Nat) : Path := numbered "thread".toList i []

/-- `./thread%d.part`, its later ones. -/
def threadPartFile (i : Nat) : Path := "./".toList ++ numbered "thread".toList i ".part".toList

/-- `origin_input%d`, a worker's copy of the input. -/
def originFile (i : Nat) : Path := numbered "origin_input".toList i []

/-- `%u.part`, an accepted candidate. -/
def failFile (i : Nat) : Path := numbered [] i ".part".toList

inductive RangeName : Name → Prop
  | thread (i : Nat) : RangeName (numbered "thread".toList i [])
  | threadPart (i : Nat) : RangeName (numbered "thread".toList i ".part".toList)
  | origin (i : Nat) : RangeName (numbered "origin_input".toList i [])
  | fail (i : Nat) : RangeName (numbered [] i ".part".toList)
  | out (i : Nat) : RangeName (numbered "dummy".toList i ".stdout".toList)
  | err (i : Nat) : RangeName (numbered "dummy".toList i ".stderr".toList)

section

variable (E : Env) (i : Nat)

theorem key_threadFile : E.key (threadFile i) = E.cwd ++ [numbered "thread".toList i []] :=
  key_numbered E i (by decide) (by decide)

theorem key_threadPartFile : E.key (threadPartFile i) = E.cwd ++ [numbered "thread".toList i ".part".toList] :=
  key_dot_numbered E i (by decide) (by decide)

theorem key_originFile : E.key (originFile i) = E.cwd ++ [numbered "origin_input".toList i []] :=
  key_numbered E i (by decide) (by decide)

theorem key_failFile : E.key (failFile i) = E.cwd ++ [numbered [] i ".part".toList] :=
  key_numbered E i (by decide) (by decide)

theorem key_dummyOut : E.key (dummyOut i) = E.cwd ++ [numbered "dummy".toList i ".stdout".toList] := by
  have e : dummyOut i = "./".toList ++ numbered "dummy".toList i ".stdout".toList := rfl
  rw [e]
  exact key_dot_numbered E i (by decide) (by decide)

theorem key_dummyErr : E.key (dummyErr i) = E.cwd ++ [numbered "dummy".toList i ".stderr".toList] := by
  have e : dummyErr i = "./".toList ++ numbered "dummy".toList i ".stderr".toList := rfl
  rw [e]
  exact key_dot_numbered E i (by decide) (by decide)

theorem holds_dummyErr : E.Holds (dummyErr i) := Env.holds_of (key_dummyErr E i)

theorem dummyOut_ne_dummyErr (j : Nat) : E.key (dummyOut i) ≠ E.key (dummyErr j) := by
  rw [key_dummyOut, key_dummyErr]
  apply key_ne E
  intro h
  have := (numbered_inj (by decide) (by decide) h).2
  revert this; decide

end

/-- The entry is none of the working directory's entries with such a name. -/
def Unnamed (E : Env) (N : Name → Prop) (k : Key) : Prop := ∀ n, N n → k ≠ E.cwd ++ [n]

/-- A plain name that starts with no digit is none of `ddmin`'s. -/
theorem unnamed_part {E : Env} {n : Name} (hn : Plain n) (hd : ∀ c ∈ n.head?, c.isDigit = false) :
    Unnamed E PartName (E.key n) := by
  intro m hm
  rw [Env.key, resolve_plain _ hn]
  apply key_ne E
  cases hm with
  | part i => exact ne_numbered hd i _
  | out i => exact ne_numbered hd i _
  | err i => exact ne_numbered hd i _

/-- A plain name is none of `range`'s when it starts with no digit and no letter of theirs. -/
theorem unnamed_range {E : Env} {n : Name} (hn : Plain n) (hd : ∀ c ∈ n.head?, c.isDigit = false ∧ c ≠ 't' ∧ c ≠ 'o' ∧ c ≠ 'd') :
    Unnamed E RangeName (E.key n) := by
  intro m hm
  rw [Env.key, resolve_plain _ hn]
  apply key_ne E
  cases hm with
  | fail i => exact ne_numbered (fun c hc => (hd c hc).1) i _
  | thread i => rintro rfl; exact (hd 't' rfl).2.1 rfl
  | threadPart i => rintro rfl; exact (hd 't' rfl).2.1 rfl
  | origin i => rintro rfl; exact (hd 'o' rfl).2.2.1 rfl
  | out i => rintro rfl; exact (hd 'd' rfl).2.2.2 rfl
  | err i => rintro rfl; exact (hd 'd' rfl).2.2.2 rfl

/-! ## One input -/

/-- A directory with the program `judging` runs and one input. -/
def soleInput (n : Name) (X : Bytes) : Fs := .of fun k =>
  if k = ["exe".toList] then some [] else if k = [n] then some X else none

section

variable (D : Bytes → Bool)

theorem sole_in (X : Bytes) : soleInput "in".toList X ((judging D).key "in".toList) = some X := by
  rw [Env.key, resolve_plain _ (by decide)]; rfl

theorem unnamed_in : Unnamed (judging D) PartName ((judging D).key "in".toList) := unnamed_part (by decide) (by decide)

theorem unnamed_range_in : Unnamed (judging D) RangeName ((judging D).key "in".toList) :=
  unnamed_range (by decide) (by decide)

end

end DiyDdmin.Tester
