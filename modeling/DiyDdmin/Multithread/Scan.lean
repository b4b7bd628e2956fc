/-
  DiyDdmin.Multithread.Scan — what one thread does in a round (`test/multithread/range.c`:
  `test_range`), whatever the other threads do meanwhile.

  A thread reads the mapped input and no file but its candidate's and that candidate's two
  output files, which are those of its number in the round (`Own`).

  Proved: each turn of a thread in a round ends, leaves the entries of the other threads and
  the input alone, brings it nearer to its end, and tests no place twice (`thread_turn`); it
  returns the candidate that leaves out the first of its places whose candidate fails, or
  none if there is no such place (`Stage`).
-/

import DiyDdmin.Multithread.Code
import DiyDdmin.Reduction.Leftmost

namespace DiyDdmin.Multithread

open Posix Tester Numeric Systems Reduction

/-- What a round is over: the input and its mapping, the length of the ranges, and `file_no`. -/
structure Round where
  input : Bytes
  mapping : Mapping
  rs : Nat
  fileNo : Nat

section

variable (E : Env) (D : Bytes → Bool) (R : Round) (i : Thread)

def Round.size : Nat := R.input.length

/-- The places dealt to a thread. -/
def Round.places : List Nat := part threadN (List.range (R.size - R.rs + 1)) i

/-- What a thread is handed. -/
def Round.data : PthreadData :=
  ⟨share (R.size - R.rs + 1) threadN (maxRangeN R.size R.rs).toNat i, maxRangeN R.size R.rs, R.rs, R.size, R.fileNo + i, R.mapping⟩

/-- The candidate that leaves out the range at `b`. -/
def Round.candidate (b : Nat) : Bytes := cut b R.rs R.input

/-- The first place of a thread whose candidate fails. -/
def Round.found : Option Nat := (R.places i).find? fun b => D (R.candidate b)

/-- What the thread returns. -/
def Round.result : Option Path := (R.found D i).map fun _ => partFile (R.fileNo + i)

def Round.outKey : Key := E.key (partFile (R.fileNo + i))

/-- The entries a test of `./j.part` may change. -/
def Own (j : Nat) (k : Key) : Prop :=
  k = E.key (partFile j) ∨ k = E.key (stdoutPath (partFile j)) ∨ k = E.key (stderrPath (partFile j))

/-- A round of `R` can be run: its input is there, apart from the threads' own entries. -/
structure Round.Over (fs : Fs) : Prop where
  pos : 0 < R.rs
  lt : R.rs < R.size
  small : R.size ≤ 2 ^ 24
  file : R.mapping.bytes fs = R.input
  apart : ∀ j, R.fileNo ≤ j → ¬ Own E j R.mapping.key

/-! ## Where a thread is -/

/-- None of the first `j` places' candidates fails. -/
def Round.Passed (j : Nat) : Prop := ∀ b ∈ (R.places i).take j, D (R.candidate b) = false

/-- Place `j` is `b`, and those before it pass. -/
structure Round.At (j : Nat) (start : Int) (b : Nat) : Prop where
  start : start = b
  place : (R.places i)[j]? = some b
  passed : R.Passed D i j

/-- Nothing is held back, and the candidate's file holds no more than the input does. -/
def Rested (k : Key) (n : Nat) (fs : Fs) (o : Writer) : Prop :=
  o.key = some k ∧ o.buf = [] ∧ ∃ old, fs k = some old ∧ old.length ≤ n

/-- `v` has been written from the start of the candidate's file. -/
def Written (k : Key) (n : Nat) (v : Bytes) (fs : Fs) (o : Writer) : Prop := ∃ old : Bytes, old.length ≤ n ∧ o.Holds fs k old v

def Stage (fs : Fs) : ThreadPc → Prop
  | .absent => False
  | .opening d => d = R.data i
  | .scanning d j outFp => d = R.data i ∧ R.Passed D i j ∧ Rested (R.outKey E i) R.size fs outFp
  | .prefixing d j start outFp => d = R.data i ∧ ∃ b, R.At D i j start b ∧ Rested (R.outKey E i) R.size fs outFp
  | .skipping d j start outFp => d = R.data i ∧ ∃ b, R.At D i j start b ∧ Written (R.outKey E i) R.size (R.input.take b) fs outFp
  | .postfixing d j start outFp => d = R.data i ∧ ∃ b, R.At D i j start b ∧ Written (R.outKey E i) R.size (R.input.take b) fs outFp
  | .flushing d j start outFp => d = R.data i ∧ ∃ b, R.At D i j start b ∧ Written (R.outKey E i) R.size (R.candidate b) fs outFp
  | .fitting d j start outFp => d = R.data i ∧ ∃ b t, R.At D i j start b ∧ outFp.key = some (R.outKey E i) ∧ outFp.buf = [] ∧
      t.length ≤ R.size ∧ fs (R.outKey E i) = some (R.candidate b ++ t)
  | .testing d j start outFp => d = R.data i ∧ ∃ b, R.At D i j start b ∧ outFp.key = some (R.outKey E i) ∧ outFp.buf = [] ∧
      fs (R.outKey E i) = some (R.candidate b)
  | .returned outPath => outPath = R.result D i ∧ ∀ b, R.found D i = some b → fs (R.outKey E i) = some (R.candidate b)

end

/-- How far a thread is from its end. -/
def ThreadPc.rank : ThreadPc → Nat
  | .absent => 0
  | .opening d => 7 * d.maxRangeN.toNat + 2
  | .scanning d j _ => 7 * (d.maxRangeN.toNat - j) + 1
  | .prefixing d j _ _ => 7 * (d.maxRangeN.toNat - (j + 1)) + 7
  | .skipping d j _ _ => 7 * (d.maxRangeN.toNat - (j + 1)) + 6
  | .postfixing d j _ _ => 7 * (d.maxRangeN.toNat - (j + 1)) + 5
  | .flushing d j _ _ => 7 * (d.maxRangeN.toNat - (j + 1)) + 4
  | .fitting d j _ _ => 7 * (d.maxRangeN.toNat - (j + 1)) + 3
  | .testing d j _ _ => 7 * (d.maxRangeN.toNat - (j + 1)) + 2
  | .returned _ => 0

/-- How many of its `m` places a thread has still to test. -/
def ThreadPc.left (m : Nat) : ThreadPc → Nat
  | .absent => 0
  | .opening _ => m
  | .scanning _ j _ => m - j
  | .prefixing _ j _ _ => m - j
  | .skipping _ j _ _ => m - j
  | .postfixing _ j _ _ => m - j
  | .flushing _ j _ _ => m - j
  | .fitting _ j _ _ => m - j
  | .testing _ j _ _ => m - j
  | .returned _ => 0

variable {E : Env} {D : Bytes → Bool} {R : Round} {i : Thread} {fs : Fs}

/-! ## Entries -/

theorem Mapping.of_bytes {k : Key} {X : Bytes} (h : fs k = some X) : (Mapping.of fs k).bytes fs = X :=
  Fs.file_of_entry (Nat.le_refl _) h

theorem not_own_part {j j' : Nat} (h : j ≠ j') : ¬ Own E j' (E.key (partFile j)) := by
  intro hown
  rcases hown with h' | h' | h'
  · exact h (partFile_inj E h')
  · exact (partFile_ne_side E j j').1 h'
  · exact (partFile_ne_side E j j').2 h'

theorem not_own_unnamed {k : Key} (h : Unnamed E PartName k) (j : Nat) : ¬ Own E j k := by
  intro hown
  rcases hown with h' | h' | h'
  · exact h _ (.part j) (h'.trans (key_partFile E j))
  · exact h _ (.out j) (h'.trans (key_stdoutPath E j))
  · exact h _ (.err j) (h'.trans (key_stderrPath E j))

theorem outKey_own : Own E (R.fileNo + i) (R.outKey E i) := Or.inl rfl

/-- A stage is about the thread's own candidate only. -/
theorem Stage.congr {fs' : Fs} {pc : ThreadPc} (h : Stage E D R i fs pc) (hfs : fs' (R.outKey E i) = fs (R.outKey E i)) :
    Stage E D R i fs' pc := by
  have hrested : ∀ o, Rested (R.outKey E i) R.size fs o → Rested (R.outKey E i) R.size fs' o := by
    intro o ⟨hk, hb, old, hold, hlen⟩
    exact ⟨hk, hb, old, hfs.trans hold, hlen⟩
  have hwritten : ∀ v o, Written (R.outKey E i) R.size v fs o → Written (R.outKey E i) R.size v fs' o := by
    intro v o ⟨old, hlen, hH⟩
    exact ⟨old, hlen, hH.key, hH.le, hH.buf, hfs.trans hH.file⟩
  cases pc with
  | absent => exact h
  | opening d => exact h
  | scanning d j o => exact ⟨h.1, h.2.1, hrested o h.2.2⟩
  | prefixing d j start o =>
    obtain ⟨hd, b, hat, ho⟩ := h
    exact ⟨hd, b, hat, hrested o ho⟩
  | skipping d j start o =>
    obtain ⟨hd, b, hat, ho⟩ := h
    exact ⟨hd, b, hat, hwritten _ o ho⟩
  | postfixing d j start o =>
    obtain ⟨hd, b, hat, ho⟩ := h
    exact ⟨hd, b, hat, hwritten _ o ho⟩
  | flushing d j start o =>
    obtain ⟨hd, b, hat, ho⟩ := h
    exact ⟨hd, b, hat, hwritten _ o ho⟩
  | fitting d j start o =>
    obtain ⟨hd, b, t, hat, hk, hb, hlen, hfile⟩ := h
    exact ⟨hd, b, t, hat, hk, hb, hlen, hfs.trans hfile⟩
  | testing d j start o =>
    obtain ⟨hd, b, hat, hk, hb, hfile⟩ := h
    exact ⟨hd, b, hat, hk, hb, hfs.trans hfile⟩
  | returned p => exact ⟨h.1, fun b hb => hfs.trans (h.2 b hb)⟩

/-! ## Places -/

theorem place_le (hR : R.Over E fs) {b : Nat} (hb : b ∈ R.places i) : b + R.rs ≤ R.size := by
  have hmem : b ∈ List.range (R.size - R.rs + 1) := by
    unfold Round.places part at hb
    exact List.mem_of_mem_drop (List.mem_of_mem_take hb)
  have := List.mem_range.mp hmem
  have := hR.lt
  omega

theorem At.le {j : Nat} {start : Int} {b : Nat} (hR : R.Over E fs) (h : R.At D i j start b) : b + R.rs ≤ R.size :=
  place_le hR (List.mem_of_getElem? h.place)

theorem length_candidate {b : Nat} (h : b + R.rs ≤ R.size) : (R.candidate b).length = R.size - R.rs := length_cut h

/-- Entry `j` of the thread's array: place `j`, or -1 where there are fewer. -/
theorem part_getD (R : Round) (i : Thread) (j : Nat) :
    (R.data i).part.getD j (-1) = ((R.places i)[j]?.map Int.ofNat).getD (-1) := by
  unfold Round.data share Round.places
  rw [List.getD_eq_getElem?_getD]
  rcases Nat.lt_or_ge j ((part threadN (List.range (R.size - R.rs + 1)) i).map Int.ofNat).length with hj | hj
  · rw [List.getElem?_append_left hj, List.getElem?_map]
  · have hnone : (part threadN (List.range (R.size - R.rs + 1)) i)[j]? = none := List.getElem?_eq_none (by simpa using hj)
    rw [List.getElem?_append_right hj, List.getElem?_replicate, hnone]
    split <;> rfl

theorem places_le (hR : R.Over E fs) : ((R.places i).length : Int) ≤ (R.data i).maxRangeN := by
  obtain ⟨-, hmax⟩ := partitions_eq hR.pos hR.lt.le hR.small
  change _ ≤ maxRangeN R.size R.rs
  rw [hmax, Round.places, length_part i.isLt, List.length_range]
  exact Int.ofNat_le.mpr size_le_first

theorem Passed.next {j b : Nat} (h : R.Passed D i j) (hb : (R.places i)[j]? = some b) (hD : D (R.candidate b) = false) :
    R.Passed D i (j + 1) := by
  intro b' hb'
  rw [List.take_add_one, List.mem_append, hb] at hb'
  rcases hb' with hb' | hb'
  · exact h b' hb'
  · obtain rfl : b' = b := by simpa using hb'
    exact hD

theorem Passed.skip {j : Nat} (h : R.Passed D i j) (hb : (R.places i)[j]? = none) : R.Passed D i (j + 1) := by
  intro b' hb'
  rw [List.take_add_one, hb, Option.toList_none, List.append_nil] at hb'
  exact h b' hb'

theorem found_none {j : Nat} (h : R.Passed D i j) (hj : (R.places i).length ≤ j) : R.found D i = none := by
  unfold Round.found
  rw [List.find?_eq_none]
  intro b hb
  rw [h b (by rwa [List.take_of_length_le hj])]
  exact Bool.false_ne_true

theorem found_some {j : Nat} {start : Int} {b : Nat} (h : R.At D i j start b) (hD : D (R.candidate b) = true) : R.found D i = some b := by
  obtain ⟨hj, hb⟩ := List.getElem?_eq_some_iff.mp h.place
  unfold Round.found
  rw [List.find?_eq_some_iff_append]
  refine ⟨hD, (R.places i).take j, (R.places i).drop (j + 1), ?_, ?_⟩
  · rw [← hb, ← List.drop_eq_getElem_cons hj, List.take_append_drop]
  · intro b' hb'
    rw [h.passed b' hb']
    rfl

/-! ## The writes -/

/-- Each turn writes the next block of the input. -/
theorem writeTurns_spec {I : Bytes → Writer → Fs → Prop} {src : Mapping} {X : Bytes} (hI : Sink E.io I src.bytes X) :
    ∀ (turns off n : Nat) (o : Writer) (v : Bytes) (w : World Vars), n ≤ turns → I v o w.fs →
      ∃ o' w', writeTurns E src turns off n o w = .ok o' w' ∧ I (v ++ (X.drop off).take n) o' w'.fs ∧ w'.own = w.own := by
  intro turns
  induction turns with
  | zero =>
    intro off n o v w hn hv
    obtain rfl : n = 0 := by omega
    exact ⟨o, w, rfl, by rwa [List.take_zero, List.append_nil], rfl⟩
  | succ turns ih =>
    intro off n o v w hn hv
    rw [writeTurns]
    by_cases h0 : n = 0
    · subst h0
      exact ⟨o, w, rfl, by rwa [List.take_zero, List.append_nil], rfl⟩
    rw [if_neg h0]
    simp only [look_bind, fwrite, act_bind, hI.source _ _ _ hv]
    obtain ⟨o', w', hrun, hI', hown⟩ := ih (off + min n 2048) (n - min n 2048) _ _
      ⟨(o.write E.io ((X.drop off).take (min n 2048)) w.fs).2, w.own, w.past ++ [(w.own, w.fs)]⟩ (by omega)
      (hI.write _ _ _ ((X.drop off).take (min n 2048)) hv)
    refine ⟨o', w', hrun, ?_, hown⟩
    rwa [List.append_assoc, ← List.drop_drop, ← List.take_add, Nat.add_sub_cancel' (Nat.min_le_left n 2048)] at hI'

theorem mappedSink {base : Fs} {k : Key} {old X : Bytes} {src : Mapping} (hne : src.key ≠ k) (hX : src.bytes base = X) :
    Sink E.io (FileSink base k old) src.bytes X :=
  fileSink (j := ⟨src.key, src.gen, 0, [], false⟩) hne hX

/-- Writing a part of the input to the thread's candidate. -/
theorem writeMapped_file {w : World Vars} {o : Writer} {v : Bytes} (m n : Nat) (hR : R.Over E w.fs)
    (h : Written (R.outKey E i) R.size v w.fs o) :
    ∃ o' w', writeMapped E R.mapping m n o w = .ok o' w' ∧
      Written (R.outKey E i) R.size (v ++ (R.input.drop m).take n) w'.fs o' ∧ w'.own = w.own ∧
      ∀ k, k ≠ R.outKey E i → Fs.Same w.fs w'.fs k := by
  obtain ⟨old, hlen, hH⟩ := h
  have hne : R.mapping.key ≠ R.outKey E i := fun e => hR.apart (R.fileNo + i) (by omega) (e ▸ outKey_own)
  obtain ⟨o', w', hrun, ⟨hH', hfr⟩, hown⟩ := writeTurns_spec (mappedSink hne hR.file) n m n o v w
    (Nat.le_refl n) ⟨hH, fun _ _ => .refl⟩
  exact ⟨o', w', hrun, ⟨old, hlen, hH'⟩, hown, hfr⟩

/-- Writing a part of it to the null device. -/
theorem writeMapped_null {w : World Vars} (m n : Nat) (hR : R.Over E w.fs) :
    ∃ o' w', writeMapped E R.mapping m n nullWriter w = .ok o' w' ∧ w'.fs = w.fs ∧ w'.own = w.own := by
  obtain ⟨o', w', hrun, ⟨-, hfs⟩, hown⟩ := writeTurns_spec (nullSink hR.file) n m n nullWriter [] w
    (Nat.le_refl n) ⟨rfl, rfl⟩
  exact ⟨o', w', hrun, hfs, hown⟩

/-! ## One turn -/

variable {w : World Vars} {d : PthreadData} {j : Nat} {start : Int} {o : Writer} {x : Code ThreadPc}

/-- The tests so far, and those thread `i` has still to make. -/
def paid (R : Round) (i : Thread) (pc : ThreadPc) (w : World Vars) : Nat := w.own.tests.length + pc.left (R.places i).length

/-- What a turn of thread `i` comes to. -/
structure Turned (E : Env) (D : Bytes → Bool) (R : Round) (i : Thread) (pc : ThreadPc) (w : World Vars) (pc' : ThreadPc) (w' : World Vars) :
    Prop where
  stage : Stage E D R i w'.fs pc'
  held : w'.own.held = w.own.held
  frame : ∀ k, ¬ Own E (R.fileNo + i) k → Fs.Same w.fs w'.fs k
  rank : pc'.rank < pc.rank
  /-- A failing candidate saves the thread the rest of its places. -/
  tests : paid R i pc' w' ≤ paid R i pc w
  exact : (∀ c, D c = false) → paid R i pc' w' = paid R i pc w

/-- A turn without a test. -/
theorem Turned.quiet {pc pc' : ThreadPc} {w w' : World Vars} (hown : w'.own = w.own) (hstage : Stage E D R i w'.fs pc')
    (hleft : pc'.left (R.places i).length = pc.left (R.places i).length) (hframe : ∀ k, ¬ Own E (R.fileNo + i) k → Fs.Same w.fs w'.fs k)
    (hrank : pc'.rank < pc.rank) : Turned E D R i pc w pc' w' := by
  have hpaid : paid R i pc' w' = paid R i pc w := by rw [paid, paid, hown, hleft]
  exact ⟨hstage, congrArg Vars.held hown, hframe, hrank, hpaid.le, fun _ => hpaid⟩

theorem Rested.rewind {k : Key} {n : Nat} {o : Writer} (h : Rested k n fs o) : Written k n [] fs o.rewind := by
  obtain ⟨hk, hb, old, hold, hlen⟩ := h
  exact ⟨old, hlen, .start hk hb hold⟩

theorem opening_turn (hs : Stage E D R i w.fs (.opening d)) (hx : threadTurn E (.opening d) = some x) :
    ∃ pc' w', x w = .ok pc' w' ∧ Turned E D R i (.opening d) w pc' w' := by
  cases hx
  obtain rfl : d = R.data i := hs
  have hdir : E.Holds (R.data i).outPath := Env.holds_of (key_partFile E _)
  refine ⟨_, _, bind_ok (fopenWrite_run hdir w), .quiet rfl ⟨rfl, nofun, rfl, rfl, [], Fs.put_same _ _ _, Nat.zero_le _⟩ rfl ?_ ?_⟩
  · intro k hk
    exact .put _ _ fun e => hk (Or.inl e)
  · simp only [ThreadPc.rank]
    omega

theorem scanning_turn (hR : R.Over E w.fs) (hs : Stage E D R i w.fs (.scanning d j o))
    (hx : threadTurn E (.scanning d j o) = some x) : ∃ pc' w', x w = .ok pc' w' ∧ Turned E D R i (.scanning d j o) w pc' w' := by
  cases hx
  obtain ⟨rfl, hpassed, ho⟩ := hs
  refine ⟨_, w, rfl, ?_⟩
  have hplaces := places_le (i := i) hR
  unfold scanningTurn
  by_cases hj : (j : Int) < (R.data i).maxRangeN
  · rw [if_pos hj, part_getD]
    cases hb : (R.places i)[j]? with
    | none =>
      rw [Option.map_none, Option.getD_none, if_pos rfl]
      have hover := List.getElem?_eq_none_iff.mp hb
      refine .quiet rfl ⟨rfl, Passed.skip hpassed hb, ho⟩ ?_ (fun _ _ => .refl) ?_
      · simp only [ThreadPc.left]
        omega
      · simp only [ThreadPc.rank]
        omega
    | some b =>
      have hne : (Option.map Int.ofNat (some b)).getD (-1) ≠ -1 := by
        simp only [Option.map_some, Option.getD_some, Int.ofNat_eq_natCast]
        omega
      rw [if_neg hne]
      refine .quiet rfl ⟨rfl, b, ⟨rfl, hb, hpassed⟩, ho⟩ rfl (fun _ _ => .refl) ?_
      simp only [ThreadPc.rank]
      omega
  · rw [if_neg hj]
    have hnone : R.found D i = none := found_none hpassed (by omega)
    refine .quiet rfl ⟨by rw [Round.result, hnone]; rfl, fun b hb => ?_⟩ ?_ (fun _ _ => .refl) ?_
    · rw [hnone] at hb
      cases hb
    · simp only [ThreadPc.left]
      omega
    · simp only [ThreadPc.rank]
      omega

theorem prefixing_turn (hR : R.Over E w.fs) (hs : Stage E D R i w.fs (.prefixing d j start o))
    (hx : threadTurn E (.prefixing d j start o) = some x) :
    ∃ pc' w', x w = .ok pc' w' ∧ Turned E D R i (.prefixing d j start o) w pc' w' := by
  cases hx
  obtain ⟨rfl, b, hat, ho⟩ := hs
  obtain ⟨o', w', hrun, hwritten, hown, hfr⟩ := writeMapped_file 0 b hR ho.rewind
  obtain rfl := hat.start
  refine ⟨_, w', bind_ok hrun, .quiet hown ⟨rfl, b, hat, ?_⟩ rfl ?_ ?_⟩
  · exact hwritten
  · intro k hk
    exact hfr k fun e => hk (Or.inl e)
  · simp only [ThreadPc.rank]
    omega

theorem skipping_turn (hR : R.Over E w.fs) (hs : Stage E D R i w.fs (.skipping d j start o))
    (hx : threadTurn E (.skipping d j start o) = some x) :
    ∃ pc' w', x w = .ok pc' w' ∧ Turned E D R i (.skipping d j start o) w pc' w' := by
  cases hx
  obtain ⟨rfl, b, hat, ho⟩ := hs
  obtain ⟨o', w', hrun, hfs, hown⟩ := writeMapped_null b R.rs hR
  obtain rfl := hat.start
  refine ⟨_, w', bind_ok hrun, .quiet hown ⟨rfl, b, hat, by rw [hfs]; exact ho⟩ rfl (fun k _ => by rw [hfs]; exact .refl) ?_⟩
  simp only [ThreadPc.rank]
  omega

theorem postfixing_turn (hR : R.Over E w.fs) (hs : Stage E D R i w.fs (.postfixing d j start o))
    (hx : threadTurn E (.postfixing d j start o) = some x) :
    ∃ pc' w', x w = .ok pc' w' ∧ Turned E D R i (.postfixing d j start o) w pc' w' := by
  cases hx
  obtain ⟨rfl, b, hat, ho⟩ := hs
  have hle := At.le hR hat
  obtain ⟨o', w', hrun, hwritten, hown, hfr⟩ := writeMapped_file (b + R.rs) (R.size - (b + R.rs)) hR ho
  have hcut : R.input.take b ++ (R.input.drop (b + R.rs)).take (R.size - (b + R.rs)) = R.candidate b := by
    rw [Round.candidate, cut, Round.size, ← List.length_drop, List.take_length]
  have e1 : ((b + R.rs : Nat) : Int) = start + (R.data i).rs := by
    rw [hat.start]
    rfl
  have e2 : ((R.size - (b + R.rs) : Nat) : Int) = (R.data i).fSize - (start + (R.data i).rs) := by
    rw [← e1]
    exact Int.ofNat_sub hle
  rw [e1, e2] at hrun
  refine ⟨_, w', bind_ok hrun, .quiet hown ⟨rfl, b, hat, hcut ▸ hwritten⟩ rfl ?_ ?_⟩
  · intro k hk
    exact hfr k fun e => hk (Or.inl e)
  · simp only [ThreadPc.rank]
    omega

theorem flushing_turn (hs : Stage E D R i w.fs (.flushing d j start o)) (hx : threadTurn E (.flushing d j start o) = some x) :
    ∃ pc' w', x w = .ok pc' w' ∧ Turned E D R i (.flushing d j start o) w pc' w' := by
  cases hx
  obtain ⟨rfl, b, hat, old, hlen, hH⟩ := hs
  obtain ⟨hfile, hbuf, hkey⟩ := flush_holds hH
  refine ⟨_, _, rfl, .quiet rfl ⟨rfl, b, old.drop (R.candidate b).length, hat, hkey, hbuf, ?_, hfile⟩ rfl ?_ ?_⟩
  · rw [List.length_drop]
    omega
  · intro k hk
    exact drain_same hH.key _ _ fun e => hk (Or.inl e)
  · simp only [ThreadPc.rank]
    omega

theorem fitting_turn (hR : R.Over E w.fs) (hs : Stage E D R i w.fs (.fitting d j start o))
    (hx : threadTurn E (.fitting d j start o) = some x) :
    ∃ pc' w', x w = .ok pc' w' ∧ Turned E D R i (.fitting d j start o) w pc' w' := by
  cases hx
  obtain ⟨rfl, b, t, hat, hkey, hbuf, ht, hfile⟩ := hs
  have hcand := length_candidate (At.le hR hat)
  have hsmall := hR.small
  obtain ⟨w', hrun, hown, hfit, hfr⟩ := fitSize_run hfile (by rw [List.length_append]; omega)
  have hsize : ((R.candidate b).length : Int) = (R.data i).fSize - (R.data i).rs := by
    rw [hcand]
    exact Int.ofNat_sub hR.lt.le
  rw [hsize] at hrun
  refine ⟨_, w', bind_ok hrun, .quiet hown ⟨rfl, b, hat, hkey, hbuf, hfit⟩ rfl ?_ ?_⟩
  · intro k hk
    exact hfr k fun e => hk (Or.inl e)
  · simp only [ThreadPc.rank]
    omega

/-- The test's verdict ends the scan or takes it to the next place. -/
theorem testing_turn (hD : Judges E D) (hR : R.Over E w.fs) (hs : Stage E D R i w.fs (.testing d j start o))
    (hx : threadTurn E (.testing d j start o) = some x) :
    ∃ pc' w', x w = .ok pc' w' ∧ Turned E D R i (.testing d j start o) w pc' w' := by
  cases hx
  obtain ⟨rfl, b, hat, hkey, hbuf, hfile⟩ := hs
  obtain ⟨t, w', hrun, hown, hfr, -, -, -, hverdict⟩ := testPart_spec E (R.fileNo + i) hfile
  rw [hverdict D hD] at hrun
  have hfile' : w'.fs (R.outKey E i) = some (R.candidate b) :=
    (hfr _ (partFile_ne_side E _ _).1 (partFile_ne_side E _ _).2).1.trans hfile
  have hheld : w'.own.held = w.own.held := by rw [hown]
  have hframe : ∀ k, ¬ Own E (R.fileNo + i) k → Fs.Same w.fs w'.fs k := by
    intro k hk
    exact hfr k (fun e => hk (Or.inr (Or.inl e))) fun e => hk (Or.inr (Or.inr e))
  have htests : w'.own.tests.length = w.own.tests.length + 1 := by rw [hown, List.length_append, List.length_singleton]
  obtain ⟨hj, -⟩ := List.getElem?_eq_some_iff.mp hat.place
  refine ⟨_, w', bind_ok hrun, ?_⟩
  cases hDb : D (R.candidate b) with
  | true =>
    have hfound := found_some hat hDb
    rw [if_pos rfl]
    refine ⟨⟨by rw [Round.result, hfound]; rfl, fun b' hb' => ?_⟩, hheld, hframe, ?_, ?_, fun hno => ?_⟩
    · obtain rfl : b = b' := Option.some.inj (hfound.symm.trans hb')
      exact hfile'
    · simp only [ThreadPc.rank]
      omega
    · simp only [paid, ThreadPc.left, htests]
      omega
    · rw [hno] at hDb
      cases hDb
  | false =>
    have hcand := length_candidate (At.le hR hat)
    rw [if_neg Bool.false_ne_true]
    have hpaid : paid R i (.scanning (R.data i) (j + 1) o) w' = paid R i (.testing (R.data i) j start o) w := by
      simp only [paid, ThreadPc.left, htests]
      omega
    refine ⟨⟨rfl, Passed.next hat.passed hat.place hDb, hkey, hbuf, _, hfile', by omega⟩, hheld, hframe, ?_, hpaid.le, fun _ => hpaid⟩
    simp only [ThreadPc.rank]
    omega

/-- Every turn of a thread in a round is as it should be. -/
theorem thread_turn (hD : Judges E D) {pc : ThreadPc} (hR : R.Over E w.fs) (hs : Stage E D R i w.fs pc)
    (hx : threadTurn E pc = some x) : ∃ pc' w', x w = .ok pc' w' ∧ Turned E D R i pc w pc' w' := by
  cases pc with
  | absent => exact hs.elim
  | opening d => exact opening_turn hs hx
  | scanning d j o => exact scanning_turn hR hs hx
  | prefixing d j start o => exact prefixing_turn hR hs hx
  | skipping d j start o => exact skipping_turn hR hs hx
  | postfixing d j start o => exact postfixing_turn hR hs hx
  | flushing d j start o => exact flushing_turn hs hx
  | fitting d j start o => exact fitting_turn hR hs hx
  | testing d j start o => exact testing_turn hD hR hs hx
  | returned p => cases hx

end DiyDdmin.Multithread
