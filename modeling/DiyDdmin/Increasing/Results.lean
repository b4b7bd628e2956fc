/-
  DiyDdmin.Increasing.Results — what `range_increasing` guarantees.

  Proved: it returns for every input and every verdicts, and tries only cuts inside the
  input (`increasing_inside`); every entry it does not name is left alone
  (`increasing_frame`). For inputs below 2^31 bytes: the held file only shrinks by failing
  cuts (`increasing_shrinks`), no cut longer than the last accepted one fails at the end,
  and where the verdict function is monotone the result is 1-minimal
  (`increasing_minimal`). Without monotonicity it need not be
  (`a_longer_cut_leaves_a_failing_byte`), and where the size does not fit an `int` the held
  file need not be a part of the input
  (`a_narrowed_size_accepts_what_is_no_part_of_the_input`).
-/

import DiyDdmin.Increasing.Refine

namespace DiyDdmin.Increasing

open Posix Tester Numeric Systems Reduction Abstract

section

variable {E : Env} {inputPath : Path} {fs : Fs} {X : Bytes} {D : Bytes → Bool} (hp : Unnamed E PartName (E.key inputPath))
  (hX : fs (E.key inputPath) = some X)
include hp hX

/-! ## Every size -/

/-- A scan in progress starts at 0 or later, and a cut is tried only inside the input. -/
def Inside (E : Env) (s : St) : Prop :=
  match s.ctl.pc with
  | .inner _ begin => ∃ T, s.w.fs (E.key s.w.own.held) = some T ∧ 1 ≤ s.ctl.rs ∧ 0 ≤ begin ∧
      (begin ≤ toInt T.length - s.ctl.rs → begin + s.ctl.rs ≤ toInt T.length ∧ toInt T.length ≤ T.length)
  | .exited _ => False
  | .hung => False
  | _ => True

theorem increasing_inside {s : St} (hs : (machine E inputPath fs).Reach s) : Inside E s := by
  rcases reach_match hp hX hs with rfl | ⟨a, hm⟩
  · trivial
  · obtain ⟨⟨pc, rs, failNo⟩, w⟩ := s
    have hpc := hm.pc
    have hrs := hm.rs
    have hone := hm.one
    cases hph : a.phase <;> cases pc <;> simp only [PcMatch, hph] at hpc
    · trivial
    · obtain ⟨-, rfl⟩ := hpc
      refine ⟨a.cur, hm.file, by simp only at hrs ⊢; omega, by omega, fun h => ⟨by omega, toInt_le (by omega)⟩⟩
    · trivial

/-! ## Below 2^31 bytes -/

/-- What holds along a run with verdict function `D`. -/
structure Good (E : Env) (inputPath : Path) (D : Bytes → Bool) (X : Bytes) (s : St) (a : Scan UInt8) : Prop where
  matched : Match E inputPath s a
  small : a.cur.length < 2 ^ 31
  longer : LongerPass D a
  singles : Monotone D → SinglesPass D a
  shrinks : Shrinks E D X s.w
  lastCut : lastCut E s.w = a.last

theorem reach_good (hl : X.length < 2 ^ 31) (hD : Judges E D) {s : St} (hs : (machine E inputPath fs).Reach s) :
    s = start inputPath fs ∨ ∃ a, Good E inputPath D X s a := by
  have hkeep := reach_turns hp hX (P := fun s a => Good E inputPath D X s a) (fun t he => ?_) (fun s a t c v _ hm hg ht _ => ?_) hs
  · rcases hkeep with rfl | ⟨a, -, hg⟩
    · exact Or.inl rfl
    · exact Or.inr ⟨a, hg⟩
  · exact ⟨he.matched, hl, ⟨fun l h1 h2 => by simp only [Scan.init] at h1 h2; omega, trivial⟩,
      fun _ => ⟨fun h1 => by simp [Scan.init] at h1, trivial⟩, he.shrinks D, he.lastCut⟩
  · have hc : ∀ b, a.Tries b → Fits a b c ∧ v = D c := fun b hb => ⟨(ht.ran b hb).1, (ht.ran b hb).2 D hD⟩
    exact ⟨ht.matched, next_small hg.small fun b hb => (hc b hb).1, longer_next hg.small hg.longer hc,
      fun hM => singles_next hM hm.one hg.small (hg.singles hM) hc, ht.shrinks hg.small D X hD hg.shrinks, ht.lastCut hg.small hg.lastCut⟩

/-- At every moment the held file is `X` or a failing reduction of it, each newly held
    file has fewer bytes, and the result is the file held last. -/
theorem increasing_shrinks (hl : X.length < 2 ^ 31) (hD : Judges E D) {s : St} (hs : (machine E inputPath fs).Reach s) :
    Shrinks E D X s.w ∧ ∀ q, s.ctl.pc = .ret q → q = s.w.own.held := by
  rcases reach_good hp hX hl hD hs with rfl | ⟨a, hg⟩
  · exact ⟨Shrinks.start rfl hX, nofun⟩
  · exact ⟨hg.shrinks, fun q hq => (match_ret hg.matched hq).2⟩

/-- `range_increasing` returns; no cut longer than the last one it accepted fails, and for
    a monotone verdict function neither does the deletion of any one byte. -/
theorem increasing_minimal (hl : X.length < 2 ^ 31) (hD : Judges E D) :
    (∃ s q, (machine E inputPath fs).Ends s ∧ s.ctl.pc = .ret q) ∧
    ∀ s q, (machine E inputPath fs).Reach s → s.ctl.pc = .ret q → ∃ T, s.w.fs (E.key q) = some T ∧
      (∀ l, lastCut E s.w < l → l < T.length → NoCut D l T) ∧ (Monotone D → 2 ≤ T.length → OneMinimal D T) := by
  refine ⟨returns hp hX, ?_⟩
  intro s q hs hq
  rcases reach_good hp hX hl hD hs with rfl | ⟨a, hg⟩
  · cases hq
  · obtain ⟨hd, rfl⟩ := match_ret hg.matched hq
    obtain ⟨hlong, hdone⟩ := hg.longer
    rw [hd] at hdone
    refine ⟨a.cur, hg.matched.file, fun l h1 h2 => hlong l (hg.lastCut ▸ h1) (by simp only at hdone; omega), ?_⟩
    intro hM h2
    exact ((hg.singles hM).1 (by simp only at hdone; omega)).oneMinimal

/-- Where the size comes out as 1 or less, as it does just above 2^31 bytes, the input is
    returned as it is. -/
theorem returns_unscanned (hsize : toInt X.length ≤ 1) :
    ∃ s, (machine E inputPath fs).Reach s ∧ s.ctl.pc = .ret inputPath ∧ s.w.fs (E.key inputPath) = some X := by
  obtain ⟨t, hn, hm, hown, -⟩ := enter hp hX
  obtain ⟨t', ht⟩ := turn_outer hm rfl
  have hm' := ht.matched
  rw [next_end _ _ rfl (show ¬ ((1 : Nat) : Int) < toInt X.length by omega)] at hm'
  have hheld' : t'.w.own.held = inputPath := (ht.held (Or.inr rfl)).trans (by rw [hown])
  have hpc := hm'.pc
  rw [PcMatch] at hpc
  cases hq : t'.ctl.pc with
  | ret q =>
    rw [hq] at hpc
    obtain rfl : q = inputPath := hpc.trans hheld'
    exact ⟨t', (Machine.Reach.init.next hn).next ht.next, hq, by have := hm'.file; rwa [hheld'] at this⟩
  | _ => rw [hq] at hpc; exact hpc.elim

/-! ## Nothing else is touched -/

omit hp hX in
/-- Every entry of the directory that `range_increasing` does not name keeps its bytes at
    every moment, whatever the sizes and verdicts. -/
theorem increasing_frame {k : Key} (hk : Unnamed E PartName k) {s : St} (hs : (machine E inputPath fs).Reach s) :
    s.w.All fun _ fs' => fs' k = fs k := by
  let P : Vars → Fs → Prop := fun _ fs' => fs' k = fs k
  have blind : ∀ {k' : Key}, k ≠ k' → Blind P k' := fun hne v fs' c hP => (Fs.put_ne _ _ hne).trans hP
  have part : ∀ i, Blind P (E.key (partFile i)) := fun i => blind (key_partFile E i ▸ hk _ (.part i))
  have test : ∀ i, Keeps P (testBufferOverflow E (partFile i) (partFile i)) fun _ => True := fun i =>
    testPart_keeps (blind (key_stdoutPath E i ▸ hk _ (.out i))) (blind (key_stderrPath E i ▸ hk _ (.err i))) fun _ _ _ _ h => h
  let Q : Ctl → Prop := fun c => match c.pc with
    | .outer l => l.outFp.Off P ∧ l.outFile = partFile c.failNo
    | .inner l _ => l.outFp.Off P ∧ l.outFile = partFile c.failNo
    | _ => True
  refine Loop.reach_keeps (L := loop E) (Q := Q) ?_ (fun _ _ => trivial) (fun _ => trivial)
    (start inputPath fs) ⟨⟨rfl, fun _ hm => nomatch hm⟩, trivial⟩ hs
  intro c x hc hx
  obtain ⟨pc, rs, failNo⟩ := c
  cases pc with
  | entry =>
    cases hx
    exact Keeps.bind Keeps.read fun h _ => Keeps.bind (openFiles_keeps (part _) h) fun l hl => Keeps.pure hl
  | outer l =>
    cases hx
    refine Keeps.bind inputSize_keeps fun n _ => Keeps.ite (fun _ => Keeps.pure hc) fun _ => ?_
    exact Keeps.bind Keeps.read fun _ _ => Keeps.pure trivial
  | inner l begin =>
    cases hx
    obtain ⟨hoff, hout⟩ : l.outFp.Off P ∧ l.outFile = partFile failNo := hc
    refine Keeps.bind inputSize_keeps fun n _ => Keeps.ite (fun _ => ?_) fun _ => Keeps.pure ⟨hoff, hout⟩
    refine Keeps.bind (writeCut_keeps (o := l.outFp.rewind) hoff (hout ▸ part failNo) _ _ _ _) fun r hr => ?_
    refine Keeps.bind (hout ▸ test failNo) fun e _ => Keeps.ite (fun _ => ?_) fun _ => Keeps.pure ⟨hr, hout⟩
    refine Keeps.bind (Q := fun _ => True) (Keeps.act fun v fs' h => ⟨h, trivial⟩) fun _ _ => ?_
    exact Keeps.bind (openFiles_keeps (part _) _) fun l hl => Keeps.pure hl
  | ret p => cases hx
  | exited e => cases hx
  | hung => cases hx

end

/-! ## Where the guarantees stop -/

def retFile (E : Env) (s : St) : Option (Path × Option Bytes) :=
  match s.ctl.pc with
  | .ret q => some (q, s.w.fs (E.key q))
  | _ => none

/-- `[3, 4]` fails, and so does `[3]`. -/
def failsOnThree (c : Bytes) : Bool := c == [3, 4] || c == [3]

theorem increasing_minimal_four :
    ∃ s q T, (machine (judging failsOnThree) "in".toList (soleInput "in".toList [1, 2, 3, 4])).Ends s ∧ s.ctl.pc = .ret q ∧
      s.w.fs ((judging failsOnThree).key q) = some T ∧
      ∀ l, lastCut (judging failsOnThree) s.w < l → l < T.length → NoCut failsOnThree l T := by
  obtain ⟨⟨s, q, hs, hq⟩, hmin⟩ := increasing_minimal (unnamed_in failsOnThree) (sole_in failsOnThree [1, 2, 3, 4]) (by decide)
    (judging_judges failsOnThree)
  obtain ⟨T, hT, h, -⟩ := hmin s q hs.1 hq
  exact ⟨s, q, T, hs, hq, hT, h⟩

/-- No single byte of `[1, 2, 3, 4]` can be deleted, so its first two bytes are cut, and
    the last byte, which can be deleted then, is not tried again; and an input of 2^31 + 1
    bytes is returned as it is, whatever fails. -/
theorem a_longer_cut_leaves_a_failing_byte :
    (Judges (judging failsOnThree) failsOnThree ∧
      ∃ s, (machine (judging failsOnThree) "in".toList (soleInput "in".toList [1, 2, 3, 4])).Reach s ∧
        s.ctl.pc = .ret (partFile 1) ∧ s.w.fs ((judging failsOnThree).key (partFile 1)) = some [3, 4] ∧
        ¬ OneMinimal failsOnThree [3, 4]) ∧
    Judges (judging fun _ => true) (fun _ => true) ∧
      ∃ s, (machine (judging fun _ => true) "in".toList (soleInput "in".toList (List.replicate (2 ^ 31 + 1) 0))).Reach s ∧
        s.ctl.pc = .ret "in".toList ∧
        s.w.fs ((judging fun _ => true).key "in".toList) = some (List.replicate (2 ^ 31 + 1) 0) ∧
        ¬ OneMinimal (fun _ => true) (List.replicate (2 ^ 31 + 1) (0 : UInt8)) := by
  refine ⟨⟨judging_judges _, ?_⟩, judging_judges _, ?_⟩
  · have hrun : retFile (judging failsOnThree)
        ((machine (judging failsOnThree) "in".toList (soleInput "in".toList [1, 2, 3, 4])).run 12) =
          some (partFile 1, some [3, 4]) := by
      decide +kernel
    have hnot : ¬ OneMinimal failsOnThree [3, 4] := by
      intro h
      have := h 1 (by decide)
      revert this; decide
    unfold retFile at hrun
    split at hrun
    · rename_i q hq
      obtain ⟨rfl, hT⟩ := by simpa using hrun
      exact ⟨_, Machine.run_reach 12, hq, hT, hnot⟩
    · cases hrun
  · have hlen : (List.replicate (2 ^ 31 + 1) (0 : UInt8)).length = 2 ^ 31 + 1 := List.length_replicate
    obtain ⟨s, hs, hq, hT⟩ := returns_unscanned (unnamed_in fun _ => true) (sole_in (fun _ => true) (List.replicate (2 ^ 31 + 1) 0))
      (by rw [hlen]; decide +kernel)
    refine ⟨s, hs, hq, hT, ?_⟩
    intro h
    have := h 0 (by rw [hlen]; omega)
    cases this

/-- 2^32 + 3000 bytes, which an `int` takes for 3000. -/
@[irreducible] def wide : Bytes := 1 :: List.replicate (2 ^ 32 + 2999) 0

theorem length_wide : wide.length = 2 ^ 32 + 3000 := by
  rw [wide, List.length_cons, List.length_replicate]

theorem drop_wide (n : Nat) : wide.drop (n + 1) = List.replicate (2 ^ 32 + 2999 - n) 0 := by
  rw [wide, List.drop_succ_cons, List.drop_replicate]

theorem toInt_wide : toInt wide.length = (3000 : Nat) := by
  rw [length_wide]; decide +kernel

def hasOne (c : Bytes) : Bool := c.contains 1

/-- The read of one byte fills the buffer of 4096, which serves the rest of the turn. -/
theorem first_cut_off {E : Env} (hio : E.io.ahead 1 = 4095) {k : Key} {g : Nat} {X : Bytes} {w : World Vars} {o : Writer}
    {p : Path} (hX : w.fs.file k g = X) (hlen : 4096 ≤ X.length) {r : Reader × Writer} {w' : World Vars}
    (h : writeCut E ⟨k, g, 0, [], false⟩ o p (3000 : Nat) (1 : Nat) (0 : Nat) w = .ok r w') : r.1.off = 4096 := by
  obtain ⟨i1, o1, w1, hrun1, hbuf, hoff⟩ : ∃ i1 o1 w1, readAndWrite E ⟨k, g, 0, [], false⟩ nullWriter (1 : Nat) w = .ok (i1, o1) w1 ∧
      i1.buf.length = 4095 ∧ i1.off = 4096 := by
    have hread : Reader.read E.io w.fs 1 ⟨k, g, 0, [], false⟩ = (X.take 1, ⟨k, g, 4096, (X.take 4096).drop 1, false⟩) := by
      have h4096 : (X.take 4096).length = 4096 := by rw [List.length_take]; omega
      simp [Reader.read, Reader.file, hX, hio, h4096, List.take_take]
    have hone : (X.take 1).length = 1 := by rw [List.length_take]; omega
    have hne : X.take 1 ≠ [] := by intro e; rw [e] at hone; cases hone
    refine ⟨⟨k, g, 4096, (X.take 4096).drop 1, false⟩, (nullWriter.write E.io (X.take 1) w.fs).1,
      ⟨(nullWriter.write E.io (X.take 1) w.fs).2, w.own, w.past ++ [(w.own, w.fs)]⟩, ?_,
      by rw [List.length_drop, List.length_take]; omega, rfl⟩
    simp only [readAndWrite, copyLoop, Int.toNat_natCast, copyTurns, fread, look_bind, Nat.one_ne_zero, if_false,
      show min 1 2048 = 1 from rfl, hread, hne, fwrite, act_bind, hone, Nat.sub_self, if_true]
    rfl
  rw [writeCut] at h
  change (readAndWrite E ⟨k, g, 0, [], false⟩ nullWriter (1 : Nat) >>= _) w = _ at h
  rw [bind_ok hrun1, bind_run] at h
  cases hrun2 : readAndWrite E i1 o (3000 - ((0 : Nat) + (1 : Nat))) w1 with
  | ok r2 w2 =>
    have hoff2 : r2.1.off = i1.off := copyTurns_off _ _ _ _ _ (by rw [hbuf]; decide) _ _ hrun2
    simp only [Nat.cast_ofNat, hrun2] at h
    simp only [fflush, act_bind] at h
    rw [bind_run] at h
    split at h
    · cases h; exact hoff2.trans hoff
    · cases h
    · cases h
  | exit e w2 => simp only [Nat.cast_ofNat, hrun2] at h; cases h
  | hang w2 => simp only [Nat.cast_ofNat, hrun2] at h; cases h

theorem hasOne_replicate (n : Nat) : hasOne (List.replicate n 0) = false := by
  simp [hasOne, List.mem_replicate]

theorem hasOne_append (a b : Bytes) : hasOne (a ++ 1 :: b) = true := by simp [hasOne]

/-- What follows the first element of a part of `wide` has no 1. -/
theorem not_sublist_wide {c : Bytes} (h : hasOne c = true) : ¬ (0 :: c).Sublist wide := by
  intro hs
  rw [wide] at hs
  cases hs with
  | cons _ hs =>
    have hc : c.Sublist (List.replicate (2 ^ 32 + 2999) 0) := (List.sublist_cons_self 0 c).trans hs
    obtain ⟨n, -, rfl⟩ := List.sublist_replicate_iff.mp hc
    rw [hasOne_replicate] at h; cases h

/-- `wide` after its first candidate: what that turn read ahead, and the loop did not take,
    is put in front of the input. -/
structure ReadAhead (E : Env) (l : Locals) (w : World Vars) : Prop where
  held : w.own.held = "in".toList
  file : w.fs (E.key w.own.held) = some wide
  streams : Streams E w l wide 1
  rest : l.inFp.rewind.rest wide = 0 :: 0 :: (List.replicate 1094 0 ++ wide)

theorem size_wide (p : Abstract.Phase) : (⟨wide, 1, p, 0⟩ : Abstract.Scan UInt8).size = (3000 : Nat) := toInt_wide

/-- The first candidate is all zeros, and passes. -/
theorem wide_read_ahead : ∃ l w, (machine (judging hasOne) "in".toList (soleInput "in".toList wide)).Reach ⟨⟨.inner l 1, 1, 1⟩, w⟩ ∧
    ReadAhead (judging hasOne) l w := by
  let E := judging hasOne
  have hp := unnamed_in hasOne
  obtain ⟨l, w0, hn0, he, hfresh⟩ := enter_open hp (sole_in hasOne wide)
  have hheld : w0.own.held = "in".toList := congrArg Vars.held he.own
  have hfile : w0.fs (E.key w0.own.held) = some wide := he.matched.file
  have hS : Streams E w0 l wide 1 := he.matched.pc
  have hsize : inputSize E w0 = .ok (3000 : Nat) w0 := toInt_wide ▸ inputSize_run hfile
  have houter : outerTurn E 1 1 l w0 = .ok ⟨.inner l 0, 1, 1⟩ w0 := by
    rw [outerTurn, bind_ok hsize, if_pos (by decide)]; rfl
  -- the candidate
  obtain ⟨i, o, w1, c, hrun1, hown1, hfr1, hc1, -, hS1, hc, hrest⟩ :=
    write_run hp (a := ⟨wide, 1, .inner 0, 0⟩) hS hfile (Or.inl hheld) ⟨rfl, by rw [size_wide]; decide⟩
  have hstart : l.inFp.rewind.rest wide = wide := by rw [hfresh]; rfl
  rw [size_wide, Int.toNat_natCast, hstart] at hc hrest
  rw [size_wide] at hrun1
  have hzeros : c = List.replicate 2999 0 := by
    rw [hc, cutOf, List.take_zero, List.nil_append, drop_wide, List.take_replicate]; rfl
  have hoff : i.off = 4096 := by
    have hon := hS.inFile.file hfile
    rw [hfresh] at hon hrun1
    exact first_cut_off (E := E) (by decide) hon (by rw [length_wide]; decide) hrun1
  -- its test
  obtain ⟨t, w2, hrun2, hown2, hfr2, -, -, -, hD⟩ := testPart_spec E 1 hc1
  have hv : verdict E.errMsg t.outcome = false := by
    rw [hD hasOne (judging_judges hasOne), hzeros, hasOne_replicate]
  have hinner : innerTurn E 1 1 l 0 w0 = .ok ⟨.inner ⟨i, o, l.outFile⟩ 1, 1, 1⟩ w2 := by
    refine (innerTurn_tried 1 hsize (by decide) hrun1 (hS.outFile ▸ hrun2)).trans ?_
    rw [hv]; rfl
  have hheld2 : w2.own.held = "in".toList := by rw [hown2, hown1, hheld]
  have hside := HeldBelow.ne_side (b := 1) hp (Or.inl rfl) 1
  have hne := HeldBelow.ne (b := 1) hp (Or.inl rfl)
  -- what is left in the buffer
  have hbuf : i.buf = List.replicate 1096 0 := by
    rw [Reader.rest, hoff, drop_wide, drop_wide] at hrest
    have h := congrArg List.length hrest
    simp only [List.length_append, List.length_replicate] at h
    have h1096 : i.buf.length = 1096 := by omega
    have ht := congrArg (List.take 1096) hrest
    rw [List.take_left' h1096, List.take_replicate] at ht
    exact ht
  have hn1 : next E ⟨⟨.outer l, 1, 1⟩, w0⟩ = some ⟨⟨.inner l 0, 1, 1⟩, w0⟩ := Loop.next_run rfl houter
  have hn2 : next E ⟨⟨.inner l 0, 1, 1⟩, w0⟩ = some ⟨⟨.inner ⟨i, o, l.outFile⟩ 1, 1, 1⟩, w2⟩ := Loop.next_run rfl hinner
  let M := machine E "in".toList (soleInput "in".toList wide)
  have hr0 : M.Reach ⟨⟨.outer l, 1, 1⟩, w0⟩ := Machine.Reach.init.next hn0
  have hr1 : M.Reach ⟨⟨.inner l 0, 1, 1⟩, w0⟩ := hr0.next hn1
  refine ⟨⟨i, o, l.outFile⟩, w2, hr1.next hn2, hheld2, ?_, ?_, ?_⟩
  · rw [hheld2, (hfr2 _ hside.1 hside.2).1, (hfr1 _ hne).1, ← hheld]; exact hfile
  · exact hS1.congr (by rw [hheld2, hown1, hheld]) (by rw [hown1, hheld]; exact hfr2 _ hside.1 hside.2)
      (hfr2 _ (partFile_ne_side E 1 1).1 (partFile_ne_side E 1 1).2).1
  · simp only [Reader.rest, Reader.rewind, hbuf, List.drop_zero]
    rw [show 1096 = 1094 + 1 + 1 from rfl, List.replicate_succ, List.replicate_succ]
    rfl

/-- Above 2^32 bytes the buffer keeps what the loop does not read, and a rewind puts it in
    front: the second candidate starts with bytes 3000 to 4095 and goes on with byte 0. It
    fails, and is held, though it is not a part of the input. -/
theorem a_narrowed_size_accepts_what_is_no_part_of_the_input :
    Judges (judging hasOne) hasOne ∧
    ∃ s T, (machine (judging hasOne) "in".toList (soleInput "in".toList wide)).Reach s ∧
      s.w.fs ((judging hasOne).key s.w.own.held) = some T ∧ T ≠ wide ∧ ¬ T.Sublist wide := by
  let E := judging hasOne
  have hp := unnamed_in hasOne
  obtain ⟨l, w, hr, hheld, hfile, hS, hrest⟩ := wide_read_ahead
  have hsize : inputSize E w = .ok (3000 : Nat) w := toInt_wide ▸ inputSize_run hfile
  obtain ⟨i, o, w1, c, hrun1, hown1, hfr1, hc1, -, -, hc, -⟩ :=
    write_run hp (a := ⟨wide, 1, .inner 1, 0⟩) hS hfile (Or.inl hheld) ⟨rfl, by rw [size_wide]; decide⟩
  rw [size_wide, Int.toNat_natCast, hrest] at hc
  rw [size_wide] at hrun1
  have hmixed : c = 0 :: (List.replicate 1094 0 ++ 1 :: (List.replicate (2 ^ 32 + 2999) 0).take 1903) := by
    rw [hc, cutOf, List.take_succ_cons, List.take_zero, List.drop_succ_cons, List.drop_succ_cons, List.drop_zero, List.take_append,
      List.length_replicate, List.take_replicate, wide]
    rfl
  have hone : hasOne (List.replicate 1094 0 ++ 1 :: (List.replicate (2 ^ 32 + 2999) 0).take 1903) = true := hasOne_append _ _
  obtain ⟨t, w2, hrun2, hown2, hfr2, -, -, -, hD⟩ := testPart_spec E 1 hc1
  have hv : verdict E.errMsg t.outcome = true := by
    rw [hD hasOne (judging_judges hasOne), hmixed]
    exact hasOne_append (0 :: List.replicate 1094 0) _
  -- it becomes the held input
  have hc2 := (hfr2 _ (partFile_ne_side E 1 1).1 (partFile_ne_side E 1 1).2).1.trans hc1
  obtain ⟨l', w3, hrun3, hown3, hfile3, -, -⟩ := openFiles_run (E := E) (j := 2) hp
    (w := ⟨w2.fs, { w2.own with held := partFile 1 }, w2.past ++ [(w2.own, w2.fs)]⟩) hc2 (Or.inr ⟨1, by decide, rfl⟩)
  have hinner : innerTurn E 1 1 l 1 w = .ok ⟨.inner l' 1, 1, 2⟩ w3 := by
    refine (innerTurn_tried 1 hsize (by decide) hrun1 (hS.outFile ▸ hrun2)).trans ?_
    rw [hv, if_pos rfl, hS.outFile]
    simp only [hold, act_bind]
    rw [bind_ok hrun3]; rfl
  have hn : next E ⟨⟨.inner l 1, 1, 1⟩, w⟩ = some ⟨⟨.inner l' 1, 1, 2⟩, w3⟩ := Loop.next_run rfl hinner
  have hheld3 : w3.own.held = partFile 1 := by rw [hown3]
  refine ⟨judging_judges _, _, c, hr.next hn, by rw [hheld3]; exact hfile3, ?_, hmixed ▸ not_sublist_wide hone⟩
  rw [hmixed, wide]
  intro e
  injection e with e
  exact absurd e (by decide)

end DiyDdmin.Increasing
