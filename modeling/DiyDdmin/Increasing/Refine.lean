/-
  DiyDdmin.Increasing.Refine — the code of `range_increasing` scans as the abstract loop.

  `Match` ties a state of the code to a state of the scan: the held file contains the
  current sequence, the streams are on it and on the next output file, and `rs` and
  `begin` are the scan's. Below 2^31 bytes the input stream's buffer is empty between
  turns, so that a rewind starts afresh; from 2^31 on the loop reads fewer bytes than the
  file has, and the buffer keeps some of the rest.

  Proved: every turn from a matched state is a step of the scan with a candidate that
  fits (`match_next`), so no turn exits or hangs and every run ends (`ends`).
-/

import DiyDdmin.Increasing.Code
import DiyDdmin.Increasing.Abstract
import DiyDdmin.Tester.Held

namespace DiyDdmin.Increasing

open Posix Tester Numeric Systems Reduction Abstract

/-- The held file is the input or one of the output files before `b`. -/
def HeldBelow (inputPath : Path) (p : Path) (b : Nat) : Prop := p = inputPath ∨ ∃ i < b, p = partFile i

structure Streams (E : Env) (w : World Vars) (l : Locals) (X : Bytes) (j : Nat) : Prop where
  outFile : l.outFile = partFile j
  inFile : l.inFp.On w.fs (E.key w.own.held)
  eof : l.inFp.eof = false
  exact : X.length < 2 ^ 31 → l.inFp.buf = []
  outKey : l.outFp.key = some (E.key (partFile j))
  outBuf : l.outFp.buf = []
  out : ∃ old, w.fs (E.key (partFile j)) = some old ∧ old.length < 2 ^ 31

def PcMatch (E : Env) (s : St) (a : Scan UInt8) : Prop :=
  match s.ctl.pc, a.phase with
  | .outer l, .outer => Streams E s.w l a.cur s.ctl.failNo
  | .inner l begin, .inner b => Streams E s.w l a.cur s.ctl.failNo ∧ begin = b
  | .ret p, .done => p = s.w.own.held
  | _, _ => False

structure Match (E : Env) (inputPath : Path) (s : St) (a : Scan UInt8) : Prop where
  file : s.w.fs (E.key s.w.own.held) = some a.cur
  held : HeldBelow inputPath s.w.own.held s.ctl.failNo
  rs : s.ctl.rs = a.rs
  one : 1 ≤ a.rs
  pc : PcMatch E s a

/-- One turn of the code: a step of the scan, with a run on the candidate where there is one. -/
structure Turn (E : Env) (inputPath : Path) (s : St) (a : Scan UInt8) (s' : St) (c : Bytes) (v : Bool) : Prop where
  next : Increasing.next E s = some s'
  matched : Match E inputPath s' (a.next c v)
  held : (∀ b, ¬ a.Tries b) ∨ v = false → s'.w.own.held = s.w.own.held
  ran : ∀ b, a.Tries b → Fits a b c ∧ ∀ D, Judges E D → v = D c
  shrinks : a.cur.length < 2 ^ 31 → ∀ D X, Judges E D → Shrinks E D X s.w → Shrinks E D X s'.w
  lastCut : a.cur.length < 2 ^ 31 → lastCut E s.w = a.last → lastCut E s'.w = (a.next c v).last

/-- What a turn records: one run on the candidate, with the verdict on it, where there is one. -/
structure Records (E : Env) (s : St) (a : Scan UInt8) (s' : St) (c : Bytes) (v : Bool) : Prop where
  none : (∀ b, ¬ a.Tries b) → s'.w.own.tests = s.w.own.tests
  one : ∀ b, a.Tries b → ∃ t, s'.w.own.tests = s.w.own.tests ++ [t] ∧ t.given = t.file ∧ t.fs (E.key t.file) = some c ∧
    verdict E.errMsg t.outcome = v

/-! ## What a turn leaves alone -/

section

variable {E : Env} {P : Vars → Fs → Prop}

theorem inputSize_keeps : Keeps P (inputSize E) fun _ => True :=
  Keeps.bind Keeps.read fun _ _ => Keeps.bind (byteCountFile_keeps E _) fun _ _ => Keeps.pure trivial

theorem openFiles_keeps {j : Nat} (h : Blind P (E.key (partFile j))) (p : Path) :
    Keeps P (openFiles E p j) fun l => l.outFp.Off P ∧ l.outFile = partFile j := by
  refine Keeps.bind Keeps.read fun i _ => Keeps.bind (fopenWrite_keeps h) fun o ho => ?_
  cases i with
  | none => exact Keeps.exit
  | some i =>
    cases o with
    | none => exact Keeps.exit
    | some o => exact Keeps.pure ⟨ho o rfl, rfl⟩

theorem testPart_keeps {j : Nat} (ho : Blind P (E.key (stdoutPath (partFile j)))) (he : Blind P (E.key (stderrPath (partFile j))))
    (ht : BlindTo P (partFile j)) : Keeps P (testBufferOverflow E (partFile j) (partFile j)) fun _ => True :=
  runTest_keeps E _ _ false ho he ht

end

section

variable {E : Env} {inputPath : Path} (hp : Unnamed E PartName (E.key inputPath))
include hp

theorem HeldBelow.ne {p : Path} {b : Nat} (h : HeldBelow inputPath p b) : E.key p ≠ E.key (partFile b) := by
  rcases h with rfl | ⟨i, hi, rfl⟩
  · exact key_partFile E b ▸ hp _ (.part b)
  · intro e; have := partFile_inj E e; omega

theorem HeldBelow.ne_side {p : Path} {b : Nat} (h : HeldBelow inputPath p b) (i : Nat) :
    E.key p ≠ E.key (stdoutPath (partFile i)) ∧ E.key p ≠ E.key (stderrPath (partFile i)) := by
  rcases h with rfl | ⟨j, -, rfl⟩
  · exact ⟨key_stdoutPath E i ▸ hp _ (.out i), key_stderrPath E i ▸ hp _ (.err i)⟩
  · exact partFile_ne_side E j i

omit hp in
theorem Streams.congr {w w' : World Vars} {l : Locals} {X : Bytes} {j : Nat} (h : Streams E w l X j) (hheld : w'.own.held = w.own.held)
    (hin : Fs.Same w.fs w'.fs (E.key w.own.held)) (hfile : w'.fs (E.key (partFile j)) = w.fs (E.key (partFile j))) :
    Streams E w' l X j :=
  ⟨h.outFile, by rw [hheld]; exact h.inFile.same hin .refl, h.eof, h.exact, h.outKey, h.outBuf, by rw [hfile]; exact h.out⟩

omit hp in
theorem inputSize_run {w : World Vars} {X : Bytes} (h : w.fs (E.key w.own.held) = some X) :
    inputSize E w = .ok (toInt X.length) w := by
  simp only [inputSize, look_bind]
  rw [bind_ok (byteCountFile_run h)]
  rfl

omit hp in
theorem openFiles_there {w : World Vars} {q : Path} {X : Bytes} (h : w.fs (E.key q) = some X) (j : Nat) :
    openFiles E q j w = .ok ⟨.opened w.fs (E.key q), ⟨some (E.key (partFile j)), 0, []⟩, partFile j⟩
      ⟨w.fs.put (E.key (partFile j)) (some []), w.own, w.past ++ [(w.own, w.fs)]⟩ := by
  rw [openFiles, bind_ok (fopenRead_run h), bind_ok (fopenWrite_run (Env.holds_of (key_partFile E j)) w)]
  rfl

/-- Opening the next output file beside a held file that exists. -/
theorem openFiles_run {w : World Vars} {X : Bytes} {j : Nat} (h : w.fs (E.key w.own.held) = some X)
    (hh : HeldBelow inputPath w.own.held j) :
    ∃ l w', openFiles E w.own.held j w = .ok l w' ∧ w'.own = w.own ∧ w'.fs (E.key w.own.held) = some X ∧
      Streams E w' l X j ∧ l.inFp = .opened w.fs (E.key w.own.held) := by
  have hne := hh.ne hp
  refine ⟨_, _, openFiles_there h j, rfl, (Fs.put_ne _ _ hne).trans h, ?_, rfl⟩
  exact ⟨rfl, ⟨rfl, by rw [Fs.put_unlinked]; rfl⟩, rfl, fun _ => rfl, rfl, rfl, [], Fs.put_same _ _ _, by decide⟩

omit hp in
theorem turn_outer_records {s : St} {a : Scan UInt8} (h : Match E inputPath s a) (hph : a.phase = .outer) :
    ∃ s', Turn E inputPath s a s' a.cur false ∧ Records E s a s' a.cur false := by
  obtain ⟨⟨pc, rs, failNo⟩, w⟩ := s
  obtain ⟨file, held, hrs, one, hpc⟩ := h
  rw [PcMatch, hph] at hpc
  obtain rfl : rs = a.rs := hrs
  cases pc with
  | outer l =>
    have hS : Streams E w l a.cur failNo := hpc
    have hsize : inputSize E w = .ok a.size w := inputSize_run file
    have hno : ∀ b, ¬ a.Tries b := fun b hb => nomatch hph.symm.trans hb.1
    by_cases hlt : a.rs < a.size
    · have hrun : outerTurn E a.rs failNo l w = .ok ⟨.inner l 0, a.rs, failNo⟩ w := by
        rw [outerTurn, bind_ok hsize, if_pos hlt]; rfl
      have hnext := next_scan a.cur false hph hlt
      refine ⟨_, ⟨Loop.next_run (L := loop E) rfl hrun, ?_, fun _ => rfl, fun b hb => absurd hb (hno b), fun _ _ _ _ h => h,
        fun _ h => hnext ▸ h⟩, fun _ => rfl, fun b hb => absurd hb (hno b)⟩
      rw [hnext]
      exact ⟨file, held, rfl, one, hS, rfl⟩
    · have hrun : outerTurn E a.rs failNo l w = .ok ⟨.ret w.own.held, a.rs, failNo⟩ w := by
        rw [outerTurn, bind_ok hsize, if_neg hlt]; rfl
      have hnext := next_end a.cur false hph hlt
      refine ⟨_, ⟨Loop.next_run (L := loop E) rfl hrun, ?_, fun _ => rfl, fun b hb => absurd hb (hno b), fun _ _ _ _ h => h,
        fun _ h => hnext ▸ h⟩, fun _ => rfl, fun b hb => absurd hb (hno b)⟩
      rw [hnext]
      exact ⟨file, held, rfl, one, rfl⟩
  | _ => exact hpc.elim

omit hp in
theorem turn_outer {s : St} {a : Scan UInt8} (h : Match E inputPath s a) (hph : a.phase = .outer) :
    ∃ s', Turn E inputPath s a s' a.cur false := by
  obtain ⟨s', ht, -⟩ := turn_outer_records h hph
  exact ⟨s', ht⟩

/-- The candidate at `b`, and the streams after it is written. -/
theorem write_run {w : World Vars} {l : Locals} {a : Scan UInt8} {b j : Nat} (hS : Streams E w l a.cur j)
    (hfile : w.fs (E.key w.own.held) = some a.cur) (hh : HeldBelow inputPath w.own.held j) (ht : a.Tries b) :
    ∃ i' o' w' c, writeCut E l.inFp.rewind l.outFp.rewind l.outFile a.size a.rs b w = .ok (i', o') w' ∧
      w'.own = w.own ∧ (∀ k, k ≠ E.key (partFile j) → Fs.Same w.fs w'.fs k) ∧ w'.fs (E.key (partFile j)) = some c ∧
      Fits a b c ∧ Streams E w' ⟨i', o', l.outFile⟩ a.cur j ∧ c = cutOf a.size.toNat a.rs b (l.inFp.rewind.rest a.cur) ∧
      i'.rest a.cur = (l.inFp.rewind.rest a.cur).drop a.size.toNat := by
  have hne := hh.ne hp
  have hin := ht.2
  have hle := size_le a
  have hlt := size_lt a
  obtain ⟨n, hn⟩ : ∃ n : Nat, a.size = n := ⟨a.size.toNat, by omega⟩
  rw [hn] at hin hle hlt
  obtain ⟨old, hold, hshort⟩ := hS.out
  have hY : n ≤ (l.inFp.rewind.rest a.cur).length := by
    have := le_rest_rewind a.cur l.inFp
    omega
  obtain ⟨i', o', w', hrun, hown, hc, hfr, hk', he', hrest, hok, hob⟩ :=
    writeCut_run (E := E) (p := partFile j) (r := a.rs) (b := b) (n := n) (Y := l.inFp.rewind.rest a.cur)
      (i := l.inFp.rewind) (o := l.outFp.rewind) (X := a.cur) (hS.inFile.file hfile) hS.eof rfl
      (hS.inFile.1 ▸ hne) (Writer.Holds.start hS.outKey hS.outBuf hold) hY (by omega) (by omega) hshort
  have hlen : (cutOf n a.rs b (l.inFp.rewind.rest a.cur)).length = n - a.rs := length_cutOf hY (by omega)
  have hexact : a.cur.length < 2 ^ 31 → l.inFp.rewind.rest a.cur = a.cur ∧ n = a.cur.length := fun h => by
    refine ⟨by simp [Reader.rest, Reader.rewind, hS.exact h], ?_⟩
    have := size_of_small h
    omega
  refine ⟨i', o', w', _, by rw [hn, hS.outFile]; exact hrun, hown, hfr, hc, ⟨by omega, by omega, ?_⟩, ?_,
    by rw [hn, Int.toNat_natCast], by rw [hn, Int.toNat_natCast]; exact hrest⟩
  · intro h
    obtain ⟨h1, h2⟩ := hexact h
    rw [h1, cutOf_eq h2]
  · refine ⟨hS.outFile, by rw [hown]; exact hS.inFile.same (hfr _ hne) hk', he', ?_, hok, hob, _, hc, by omega⟩
    intro h
    obtain ⟨h1, h2⟩ := hexact h
    rw [h1, h2, List.drop_length] at hrest
    exact (List.append_eq_nil_iff.mp hrest).1

omit hp in
/-- A turn that tries a candidate, as far as the verdict. -/
theorem innerTurn_tried {w w1 w2 : World Vars} {size rs : Int} (failNo : Nat) {l : Locals} {begin : Int} {r : Reader × Writer}
    {v : Bool} (hsize : inputSize E w = .ok size w) (hin : begin ≤ size - rs)
    (hwrite : writeCut E l.inFp.rewind l.outFp.rewind l.outFile size rs begin w = .ok r w1)
    (htest : testBufferOverflow E l.outFile l.outFile w1 = .ok v w2) :
    innerTurn E rs failNo l begin w =
      (if v then do
          hold l.outFile
          let l ← openFiles E l.outFile (failNo + 1)
          pure ⟨.inner l (max (begin - rs + 1) 0), rs, failNo + 1⟩
        else pure ⟨.inner ⟨r.1, r.2, l.outFile⟩ (begin + 1), rs, failNo⟩ : Code Ctl) w2 := by
  rw [innerTurn, bind_ok hsize, if_pos hin, bind_ok hwrite, bind_ok htest]

/-- The candidate `c` has been written and tested, and the held file is still the one it was. -/
structure Tried (E : Env) (w : World Vars) (a : Scan UInt8) (b j : Nat) (w' : World Vars) (l : Locals) (c : Bytes) (t : Test) :
    Prop where
  held : w'.own.held = w.own.held
  file : w'.fs (E.key w'.own.held) = some a.cur
  candidate : w'.fs (E.key (partFile j)) = some c
  fits : Fits a b c
  streams : Streams E w' l a.cur j
  tests : w'.own.tests = w.own.tests ++ [t]
  given : t.given = t.file
  handed : t.fs (E.key t.file) = some c
  judged : ∀ D, Judges E D → verdict E.errMsg t.outcome = D c
  shrinks : ∀ D X, Shrinks E D X w → Shrinks E D X w'
  lastCut : Tester.lastCut E w' = Tester.lastCut E w

/-- The candidate at `b`, up to the verdict on it. -/
theorem try_run {w : World Vars} {l : Locals} {a : Scan UInt8} {b j : Nat} (hS : Streams E w l a.cur j)
    (file : w.fs (E.key w.own.held) = some a.cur) (held : HeldBelow inputPath w.own.held j) (ht : a.Tries b) :
    ∃ (r : Reader × Writer) (w' : World Vars) (c : Bytes) (t : Test), innerTurn E a.rs j l b w =
        (if verdict E.errMsg t.outcome then do
            hold l.outFile
            let l ← openFiles E l.outFile (j + 1)
            pure ⟨.inner l (max ((b : Int) - a.rs + 1) 0), a.rs, j + 1⟩
          else pure ⟨.inner ⟨r.1, r.2, l.outFile⟩ ((b : Int) + 1), a.rs, j⟩ : Code Ctl) w' ∧
      Tried E w a b j w' ⟨r.1, r.2, l.outFile⟩ c t := by
  obtain ⟨i', o', w1, c, hrun1, hown1, hfr1, hc1, hfits, hS1, -⟩ := write_run hp hS file held ht
  obtain ⟨t, w2, hrun2, hown2, hfr2, hgiven, hfileT, hcT, hD⟩ := testPart_spec E j hc1
  have hne := held.ne hp
  have hside := held.ne_side hp j
  have hsize : inputSize E w = .ok a.size w := inputSize_run file
  have hheld2 : w2.own.held = w.own.held := by rw [hown2, hown1]
  have hfile2 : w2.fs (E.key w2.own.held) = some a.cur := by
    rw [hheld2, (hfr2 _ hside.1 hside.2).1, (hfr1 _ hne).1]; exact file
  have hc2 : w2.fs (E.key (partFile j)) = some c := by
    rw [(hfr2 _ (partFile_ne_side E _ _).1 (partFile_ne_side E _ _).2).1]; exact hc1
  -- neither the writing nor the test touches the held file
  have blind : Blind (Holding E w.own.held a.cur) (E.key (partFile j)) := Holding.blind hne
  have hoff : Writer.Off (Holding E w.own.held a.cur) l.outFp.rewind := fun k hk => by
    rw [show k = E.key (partFile j) from Option.some.inj (hk.symm.trans hS.outKey)]; exact blind
  have hwrite := writeCut_keeps hoff (hS.outFile ▸ blind) l.inFp.rewind a.size a.rs b
  have htest := testPart_keeps (Holding.blind hside.1) (Holding.blind hside.2) (Holding.blindTo w.own.held a.cur (partFile j))
  have hh1 : Holding E w.own.held a.cur w1.own w1.fs := ⟨by rw [hown1], by rw [(hfr1 _ hne).1]; exact file⟩
  exact ⟨(i', o'), w2, c, t, innerTurn_tried j hsize ht.2 hrun1 (hS.outFile ▸ hrun2),
    { held := hheld2
      file := hfile2
      candidate := hc2
      fits := hfits
      streams := hS1.congr (by rw [hheld2, hown1]) (by rw [hown1]; exact hfr2 _ hside.1 hside.2) (hc2.trans hc1.symm)
      tests := by rw [hown2, hown1]
      given := hgiven.trans hfileT.symm
      handed := by rw [hfileT]; exact hcT
      judged := hD
      shrinks := fun D X hs => ((hs.of_ok hwrite hrun1 ⟨rfl, file⟩).1.of_ok htest hrun2 hh1).1
      lastCut := (lastCut_of_ok htest hrun2 hh1).trans (lastCut_of_ok hwrite hrun1 ⟨rfl, file⟩) }⟩

section

variable {s : St} {a : Scan UInt8} {b : Nat} {w : World Vars} {l : Locals} {c : Bytes} {t : Test}

omit hp in
theorem Tried.records {s' : St} {v : Bool} (h : Tried E s.w a b s.ctl.failNo w l c t) (ht : a.Tries b)
    (htests : s'.w.own.tests = w.own.tests) (hv : verdict E.errMsg t.outcome = v) : Records E s a s' c v :=
  ⟨fun hno => absurd ht (hno b), fun _ _ => ⟨t, htests.trans h.tests, h.given, h.handed, hv⟩⟩

omit hp in
theorem Tried.ran {v : Bool} (h : Tried E s.w a b s.ctl.failNo w l c t) (ht : a.Tries b) (hv : verdict E.errMsg t.outcome = v) :
    ∀ b', a.Tries b' → Fits a b' c ∧ ∀ D, Judges E D → v = D c := fun b' ht' => by
  obtain rfl : b = b' := by injection ht.1.symm.trans ht'.1
  exact ⟨h.fits, fun D hD => hv.symm.trans (h.judged D hD)⟩

omit hp in
/-- A candidate that passes. -/
theorem turn_reject (hm : Match E inputPath s a) (h : Tried E s.w a b s.ctl.failNo w l c t) (ht : a.Tries b)
    (hv : verdict E.errMsg t.outcome = false) (hn : next E s = some ⟨⟨.inner l ((b : Int) + 1), a.rs, s.ctl.failNo⟩, w⟩) :
    Turn E inputPath s a ⟨⟨.inner l ((b : Int) + 1), a.rs, s.ctl.failNo⟩, w⟩ c false := by
  refine ⟨hn, ?_, fun _ => h.held, h.ran ht hv, fun _ D X _ hs => h.shrinks D X hs, ?_⟩
  · rw [next_reject c ht]
    exact ⟨h.file, by simp only [h.held]; exact hm.held, rfl, hm.one, h.streams, by push_cast; rfl⟩
  · intro _ hl
    rw [next_reject c ht]
    exact h.lastCut.trans hl

omit hp in
/-- A candidate that fails becomes the held input, and the next output file is opened. -/
theorem turn_accept (hm : Match E inputPath s a) (h : Tried E s.w a b s.ctl.failNo w l c t) (ht : a.Tries b)
    (hv : verdict E.errMsg t.outcome = true) {l' : Locals} {w' : World Vars}
    (hopen : openFiles E (partFile s.ctl.failNo) (s.ctl.failNo + 1)
      ⟨w.fs, { w.own with held := partFile s.ctl.failNo }, w.past ++ [(w.own, w.fs)]⟩ = .ok l' w')
    (hheld : w'.own.held = partFile s.ctl.failNo) (hfile : w'.fs (E.key (partFile s.ctl.failNo)) = some c)
    (hS : Streams E w' l' c (s.ctl.failNo + 1))
    (hn : next E s = some ⟨⟨.inner l' ((b + 1 - a.rs : Nat) : Int), a.rs, s.ctl.failNo + 1⟩, w'⟩) :
    Turn E inputPath s a ⟨⟨.inner l' ((b + 1 - a.rs : Nat) : Int), a.rs, s.ctl.failNo + 1⟩, w'⟩ c true := by
  have hh : Holding E s.w.own.held a.cur w.own w.fs := ⟨h.held, h.held ▸ h.file⟩
  have hlen := h.fits.length
  have hin := h.fits.inside
  have hshort : c.length < a.cur.length := by
    have hle := size_le a
    have := hm.one
    omega
  have hkeep := openFiles_keeps (E := E) (P := Holding E (partFile s.ctl.failNo) c) (j := s.ctl.failNo + 1)
    (Holding.blind fun e => by have := partFile_inj E e; omega) (partFile s.ctl.failNo)
  refine ⟨hn, ?_, ?_, h.ran ht hv, ?_, ?_⟩
  · rw [next_accept c ht]
    refine ⟨?_, Or.inr ⟨s.ctl.failNo, by simp, hheld⟩, rfl, hm.one, hS, rfl⟩
    simp only [hheld]; exact hfile
  · rintro (hno | hf)
    · exact absurd ht (hno b)
    · cases hf
  · intro hsm D X hD hs
    have hcut := h.fits.exact hsm
    have hs' := (h.shrinks D X hs).hold hh h.candidate ((h.judged D hD).symm.trans hv) (hcut ▸ cut_sublist _ _ _) hshort
    exact (hs'.of_ok hkeep hopen ⟨rfl, h.candidate⟩).1
  · intro hsm _
    rw [lastCut_of_ok hkeep hopen ⟨rfl, h.candidate⟩, lastCut_hold hh h.candidate hshort, next_accept c ht]
    have := size_of_small hsm
    simp only
    omega

end

theorem turn_inner_records {s : St} {a : Scan UInt8} {b : Nat} (h : Match E inputPath s a) (hph : a.phase = .inner b) :
    ∃ s' c v, Turn E inputPath s a s' c v ∧ Records E s a s' c v := by
  have hm := h
  obtain ⟨⟨pc, rs, failNo⟩, w⟩ := s
  obtain ⟨file, held, hrs, one, hpc⟩ := h
  rw [PcMatch, hph] at hpc
  obtain rfl : rs = a.rs := hrs
  cases pc with
  | inner l begin =>
    obtain ⟨hS, rfl⟩ : Streams E w l a.cur failNo ∧ begin = b := hpc
    by_cases ht : a.Tries b
    · obtain ⟨r, w', c, t, hrun, htried⟩ := try_run hp hS file held ht
      cases hv : verdict E.errMsg t.outcome with
      | true =>
        obtain ⟨l', w1, hopen, hown, hfile, hS', -⟩ := openFiles_run (E := E) (j := failNo + 1) hp
          (w := ⟨w'.fs, { w'.own with held := partFile failNo }, w'.past ++ [(w'.own, w'.fs)]⟩) htried.candidate
          (Or.inr ⟨failNo, by omega, rfl⟩)
        have hb : max ((b : Int) - a.rs + 1) 0 = ((b + 1 - a.rs : Nat) : Int) := by omega
        rw [hv, if_pos rfl, hS.outFile, hb] at hrun
        simp only [hold, act_bind] at hrun
        rw [bind_ok hopen] at hrun
        have hheld : w1.own.held = partFile failNo := by rw [hown]
        exact ⟨_, c, true, turn_accept hm htried ht hv hopen hheld hfile hS' (Loop.next_run (L := loop E) rfl hrun),
          htried.records ht (by rw [hown]) hv⟩
      | false =>
        rw [hv, if_neg (by decide)] at hrun
        exact ⟨_, c, false, turn_reject hm htried ht hv (Loop.next_run (L := loop E) rfl hrun), htried.records ht rfl hv⟩
    · have hsize : inputSize E w = .ok a.size w := inputSize_run file
      have hno : ¬ (b : Int) ≤ a.size - a.rs := fun h' => ht ⟨hph, h'⟩
      have only : ∀ {b'}, ¬ a.Tries b' := fun ht' => by
        injection hph.symm.trans ht'.1 with e
        exact ht (e ▸ ht')
      have hrun : innerTurn E a.rs failNo l b w = .ok ⟨.outer l, a.rs + 1, failNo⟩ w := by
        rw [innerTurn, bind_ok hsize, if_neg hno]; rfl
      have hnext := next_wrap a.cur false hph ht
      refine ⟨_, a.cur, false, ⟨Loop.next_run (L := loop E) rfl hrun, ?_, fun _ => rfl, fun b' ht' => absurd ht' only,
        fun _ _ _ _ h => h, fun _ h => hnext ▸ h⟩, fun _ => rfl, fun b' ht' => absurd ht' only⟩
      rw [hnext]
      exact ⟨file, held, by push_cast; rfl, by simp only; omega, hS⟩
  | _ => exact hpc.elim

/-- Step lemma of the simulation, with what is recorded. -/
theorem match_records {s : St} {a : Scan UInt8} (h : Match E inputPath s a) (hd : a.phase ≠ .done) :
    ∃ s' c v, Turn E inputPath s a s' c v ∧ Records E s a s' c v := by
  cases hph : a.phase with
  | outer => obtain ⟨s', ht⟩ := turn_outer_records h hph; exact ⟨s', _, _, ht⟩
  | inner b => exact turn_inner_records hp h hph
  | done => exact absurd hph hd

theorem match_next {s : St} {a : Scan UInt8} (h : Match E inputPath s a) (hd : a.phase ≠ .done) :
    ∃ s' c v, Turn E inputPath s a s' c v := by
  obtain ⟨s', c, v, ht, -⟩ := match_records hp h hd
  exact ⟨s', c, v, ht⟩

omit hp in
theorem match_done {s : St} {a : Scan UInt8} (h : Match E inputPath s a) : a.phase = .done ↔ next E s = none := by
  obtain ⟨⟨pc, rs, failNo⟩, w⟩ := s
  have hpc := h.pc
  cases hph : a.phase <;> cases pc <;> simp_all [PcMatch, next, Loop.next, loop, turn]

/-- The turn that a step from a matched state is. -/
theorem turn_of_next {s t : St} {a : Scan UInt8} (h : Match E inputPath s a) (hn : next E s = some t) :
    ∃ c v, Turn E inputPath s a t c v ∧ Records E s a t c v := by
  have hd : a.phase ≠ .done := fun hd => by rw [(match_done h).mp hd] at hn; cases hn
  obtain ⟨t', c, v, ht, hrec⟩ := match_records hp h hd
  obtain rfl : t' = t := Option.some.inj (ht.next.symm.trans hn)
  exact ⟨c, v, ht, hrec⟩

omit hp in
theorem match_ret {s : St} {a : Scan UInt8} {q : Path} (h : Match E inputPath s a) (hq : s.ctl.pc = .ret q) :
    a.phase = .done ∧ q = s.w.own.held := by
  have hd : a.phase = .done := (match_done h).mpr (by simp [next, Loop.next, loop, turn, hq])
  have hpc := h.pc
  rw [PcMatch, hq, hd] at hpc
  exact ⟨hd, hpc⟩

/-! ## Runs -/

variable {fs : Fs} {X : Bytes} (hX : fs (E.key inputPath) = some X)
include hX

/-- What the first turn comes to. -/
structure Entered (E : Env) (inputPath : Path) (X : Bytes) (t : St) : Prop where
  matched : Match E inputPath t (.init X)
  own : t.w.own = ⟨inputPath, []⟩
  shrinks : ∀ D, Shrinks E D X t.w
  lastCut : lastCut E t.w = 0

/-- The first turn, with the input at its beginning and nothing read ahead. -/
theorem enter_open : ∃ l w, next E (start inputPath fs) = some ⟨⟨.outer l, 1, 1⟩, w⟩ ∧
    Entered E inputPath X ⟨⟨.outer l, 1, 1⟩, w⟩ ∧ l.inFp = .opened fs (E.key inputPath) := by
  let w : World Vars := ⟨fs, ⟨inputPath, []⟩, []⟩
  obtain ⟨l, w', hrun, hown, hfile, hS, hfresh⟩ := openFiles_run (E := E) (j := 1) hp (w := w) hX (Or.inl rfl)
  have hentry : entryTurn E 1 0 w = .ok ⟨.outer l, 1, 1⟩ w' := by
    simp only [entryTurn, look_bind, Nat.zero_add]
    rw [bind_ok hrun]; rfl
  have hopen := openFiles_keeps (E := E) (P := Holding E inputPath X) (j := 1)
    (Holding.blind (HeldBelow.ne hp (Or.inl rfl))) inputPath
  refine ⟨l, w', Loop.next_run (L := loop E) rfl hentry, ⟨⟨?_, Or.inl (by rw [hown]), rfl, Nat.le_refl _, hS⟩, hown, ?_, ?_⟩,
    hfresh⟩
  · simp only [hown]; exact hfile
  · intro D
    exact ((Shrinks.start (w := w) rfl hX).of_ok hopen hrun ⟨rfl, hX⟩).1
  · exact (lastCut_of_ok hopen hrun ⟨rfl, hX⟩).trans (lastCut_start rfl)

theorem enter : ∃ t, next E (start inputPath fs) = some t ∧ Entered E inputPath X t := by
  obtain ⟨l, w, hn, he, -⟩ := enter_open hp hX
  exact ⟨_, hn, he⟩

/-- Run lemma: what the first turn sets up and every turn keeps holds of every state but
    the start, with the scan it is in step with. -/
theorem reach_turns {P : St → Scan UInt8 → Prop} (h0 : ∀ t, Entered E inputPath X t → P t (.init X))
    (hP : ∀ s a t c v, (machine E inputPath fs).Reach s → Match E inputPath s a → P s a → Turn E inputPath s a t c v →
      Records E s a t c v → P t (a.next c v)) {s : St} (hs : (machine E inputPath fs).Reach s) :
    s = start inputPath fs ∨ ∃ a, Match E inputPath s a ∧ P s a := by
  refine hs.invariant (P := fun s => s = start inputPath fs ∨ ∃ a, Match E inputPath s a ∧ P s a) (Or.inl rfl)
    fun s t hr hs hn => Or.inr ?_
  change next E s = some t at hn
  rcases hs with rfl | ⟨a, hm, ha⟩
  · obtain ⟨t', ht', he⟩ := enter hp hX
    obtain rfl : t' = t := Option.some.inj (ht'.symm.trans hn)
    exact ⟨_, he.matched, h0 _ he⟩
  · obtain ⟨c, v, ht, hrec⟩ := turn_of_next hp hm hn
    exact ⟨_, ht.matched, hP s a t c v hr hm ha ht hrec⟩

/-- Every state is the start or in step with a scan. -/
theorem reach_match {s : St} (hs : (machine E inputPath fs).Reach s) :
    s = start inputPath fs ∨ ∃ a, Match E inputPath s a := by
  rcases reach_turns hp hX (P := fun _ _ => True) (fun _ _ => trivial) (fun _ _ _ _ _ _ _ _ _ _ => trivial) hs with rfl | ⟨a, hm, -⟩
  · exact Or.inl rfl
  · exact Or.inr ⟨a, hm⟩

/-- Every run ends, and returns. -/
theorem returns : ∃ s q, (machine E inputPath fs).Ends s ∧ s.ctl.pc = .ret q := by
  obtain ⟨t, hn, he⟩ := enter hp hX
  obtain ⟨s, hs, hend⟩ := Machine.ends_of_matched (M := machine E inputPath fs) (r := (· < ·)) wellFounded_lt rank
    (R := Match E inputPath) (fun s a _ hm => by
      by_cases hd : a.phase = .done
      · exact Or.inl ((match_done hm).mp hd)
      · obtain ⟨t, c, v, ht⟩ := match_next hp hm hd
        exact Or.inr ⟨t, a.next c v, ht.next, ht.matched, rank_next hm.one hd fun b hb => (ht.ran b hb).1⟩)
    (Machine.Reach.init.next hn) he.matched
  change next E s = none at hend
  rcases reach_match hp hX hs with rfl | ⟨a, hm⟩
  · rw [hn] at hend; cases hend
  · have hpc := hm.pc
    rw [PcMatch, (match_done hm).mpr hend] at hpc
    cases hq : s.ctl.pc with
    | ret q => exact ⟨s, q, ⟨hs, hend⟩, hq⟩
    | _ => rw [hq] at hpc; exact hpc.elim

end

end DiyDdmin.Increasing
