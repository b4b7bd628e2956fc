/-
  DiyDdmin.Ddmin.Refine — the code's loop refines delta debugging on sequences.

  `Match` ties a state of the code to a state of the abstract loop: the file held as the
  minimized input holds the current sequence, the input stream will deliver what is left
  of it (nothing more after the subset phase, so that a rewind starts afresh), the write
  buffer is empty, and the runs so far were on the candidates tried.

  `I` says for which output files a test leaves the first input alone: while that is still
  the held file, only those are relied on.

  Proved: with sizes up to 2^24, from matching states the code's next turn is the
  abstract one with the verdict of the run it records (`match_next`); so no turn exits or
  hangs and every file tested holds exactly its candidate.
-/

import DiyDdmin.Ddmin.Code
import DiyDdmin.Ddmin.Abstract

namespace DiyDdmin.Ddmin

open Posix Tester Numeric Systems Reduction Abstract

section

variable (E : Env) (V : Variant) (I : Nat → Prop)

/-- The bytes a run was on. -/
def candOf (t : Test) : Option Bytes := t.fs (E.key t.file)

/-- The entries the loop itself relies on in a test on output file `i`. -/
def Own (i : Nat) (k : Key) : Prop := (k = E.key V.firstFile ∧ I i) ∨ ∃ j, k = E.key (V.outFile j)

/-- Running the candidate in output file `i`: one run is recorded, its verdict is the
    answer, and the loop's own files are left alone. `seen c t` is what else is known of a
    run `t` on `c`; `G` is what the directory must satisfy. -/
def Runs (G : Fs → Prop) (seen : Bytes → Test → Prop) (i : Nat) (x : Code Bool) : Prop :=
  ∀ w c, G w.fs → w.fs (E.key (V.outFile i)) = some c →
    ∃ t w', x w = .ok (verdict E.errMsg t.outcome) w' ∧ w'.own = { w.own with tests := w.own.tests ++ [t] } ∧
      G w'.fs ∧ (∀ k, Own E V I i k → Fs.Same w.fs w'.fs k) ∧ t.file = V.outFile i ∧ candOf E t = some c ∧ seen c t

structure Layout (G : Fs → Prop) (seenS seenC : Bytes → Test → Prop) : Prop where
  partInj : ∀ i j, E.key (V.outFile i) = E.key (V.outFile j) → i = j
  firstNe : ∀ i, E.key V.firstFile ≠ E.key (V.outFile i)
  holds : ∀ i, E.Holds (V.outFile i)
  part : ∀ i fs fs', G fs → (∀ k, k ≠ E.key (V.outFile i) → fs' k = fs k) → G fs'
  subset : ∀ i, Runs E V I G seenS i (V.testSubset (V.outFile i))
  complement : ∀ i, Runs E V I G seenC i (V.testComplement (V.outFile i))

/-- The held file is the first input or one of the first `b` output files. -/
def HeldBelow (p : Path) (b : Nat) : Prop := p = V.firstFile ∨ ∃ i < b, p = V.outFile i

/-- The streams of a turn on an input holding `X`, writing output file `j`. -/
structure Streams (w : World Vars) (l : Locals) (X : Bytes) (j : Nat) : Prop where
  outFile : l.outFile = V.outFile j
  fSize : l.fSize = X.length
  file : w.fs (E.key w.own.held) = some X
  inFile : l.inFp.On w.fs (E.key w.own.held)
  eof : l.inFp.eof = false
  outKey : l.outFp.key = some (E.key (V.outFile j))
  outBuf : l.outFp.buf = []
  out : (w.fs (E.key (V.outFile j))).isSome = true
  apart : E.key w.own.held ≠ E.key (V.outFile j)

end

variable {E : Env} {V : Variant} {I : Nat → Prop}

theorem HeldBelow.ne {G : Fs → Prop} {s1 s2 : Bytes → Test → Prop} (L : Layout E V I G s1 s2) {p : Path} {b : Nat}
    (h : HeldBelow V p b) : E.key p ≠ E.key (V.outFile b) := by
  rcases h with rfl | ⟨i, hi, rfl⟩
  · exact L.firstNe b
  · intro e; have := L.partInj _ _ e; omega

theorem HeldBelow.own {p : Path} {b i : Nat} (h : HeldBelow V p b) (hI : p = V.firstFile → I i) : Own E V I i (E.key p) := by
  rcases h with rfl | ⟨j, -, rfl⟩
  · exact Or.inl ⟨rfl, hI rfl⟩
  · exact Or.inr ⟨j, rfl⟩

theorem Layout.mono {J : Nat → Prop} {G : Fs → Prop} {s1 s2 : Bytes → Test → Prop} (hJ : ∀ i, J i → I i)
    (L : Layout E V I G s1 s2) : Layout E V J G s1 s2 := by
  have own : ∀ {i : Nat} {k : Key}, Own E V J i k → Own E V I i k := fun hk => hk.imp_left fun h => ⟨h.1, hJ _ h.2⟩
  have runs : ∀ {seen : Bytes → Test → Prop} {i : Nat} {x : Code Bool}, Runs E V I G seen i x → Runs E V J G seen i x := by
    intro seen i x hx w c hG hc
    obtain ⟨t, w', hrun, hown, hgood, hkeep, hrest⟩ := hx w c hG hc
    exact ⟨t, w', hrun, hown, hgood, fun k hk => hkeep k (own hk), hrest⟩
  exact ⟨L.partInj, L.firstNe, L.holds, L.part, fun i => runs (L.subset i), fun i => runs (L.complement i)⟩

theorem Streams.ne {w : World Vars} {l : Locals} {X : Bytes} {j : Nat} (h : Streams E V w l X j) :
    l.inFp.key ≠ E.key (V.outFile j) := h.inFile.1 ▸ h.apart

theorem Streams.source {w : World Vars} {l : Locals} {X : Bytes} {j : Nat} (h : Streams E V w l X j) : l.inFp.file w.fs = X :=
  h.inFile.file h.file

/-! ## Writing a candidate -/

theorem fSizeCeil {X : Bytes} {n c k : Nat} (h : PartsLeft X.length n c k) (hX : X.length ≤ 2 ^ 24) :
    ceilfDiv ((X.length : Int) - c) k = (partSize X.length c k : Int) := by
  have h1 := h.room
  have h2 := h.pos
  have : (X.length : Int) - c = ((X.length - c : Nat) : Int) := by omega
  rw [this, ceilfDiv_nat (by omega) h2 (by omega), partSize]

theorem writeSubset_run {w : World Vars} {l : Locals} {X : Bytes} {j c p : Nat} (h : Streams E V w l X j)
    (hr : l.inFp.rest X = X.drop c) (hp : c + p ≤ X.length) :
    ∃ l' w', writeSubset E l p w = .ok l' w' ∧ w'.own = w.own ∧ Streams E V w' l' X j ∧
      l'.inFp.rest X = X.drop (c + p) ∧ w'.fs (E.key (V.outFile j)) = some ((X.drop c).take p) ∧
      ∀ k, k ≠ E.key (V.outFile j) → Fs.Same w.fs w'.fs k := by
  obtain ⟨old, hold⟩ := Option.isSome_iff_exists.mp h.out
  have hlen : ((X.drop c).take p).length = p := by simp only [List.length_take, List.length_drop]; omega
  obtain ⟨i', o', w1, hrun, hH, hk', he', hrest, hown⟩ :=
    copyLoop_spec (γ := Vars) (ε := Exit) (n := p) (v := []) (w := w)
      (fileSink h.ne h.source) 2048 (by decide)
      ⟨Writer.Holds.start h.outKey h.outBuf hold, fun _ _ => .refl⟩ .refl h.eof (by rw [hr, List.length_drop]; omega)
  rw [hr, List.nil_append] at hH
  obtain ⟨o2, w2, hrun2, hown2, hkey2, hbuf2, hfile2, hfr2⟩ :=
    flush_fit_run (E := E) (f := fun o => { l with inFp := i', outFp := o }) (fun bt => (p : Int) < bt) hH
      (fun n hn => by rw [hlen]; omega)
  refine ⟨{ l with inFp := i', outFp := o2 }, w2, ?_, hown2.trans hown, ?_, ?_, hfile2, hfr2⟩
  · rw [hlen, ← h.outFile] at hrun2
    rw [writeSubset, Int.toNat_natCast, bind_ok hrun]
    exact hrun2
  · have hown' : w2.own = w.own := hown2.trans hown
    exact ⟨h.outFile, h.fSize, by rw [hown', (hfr2 _ h.apart).1]; exact h.file,
      by rw [hown']; exact h.inFile.same (hfr2 _ h.apart) hk', he', hkey2, hbuf2,
      by rw [hfile2]; rfl, by rw [hown']; exact h.apart⟩
  · rw [hrest, hr, List.drop_drop]

theorem writeComplement_run {w : World Vars} {l : Locals} {X : Bytes} {j c p : Nat} (h : Streams E V w l X j)
    (hr : l.inFp.rest X = []) (hp : c + p ≤ X.length) :
    ∃ l' w', writeComplement E l c p w = .ok l' w' ∧ w'.own = w.own ∧ Streams E V w' l' X j ∧
      l'.inFp.rest X = [] ∧ w'.fs (E.key (V.outFile j)) = some (cut c p X) ∧
      ∀ k, k ≠ E.key (V.outFile j) → Fs.Same w.fs w'.fs k := by
  obtain ⟨old, hold⟩ := Option.isSome_iff_exists.mp h.out
  -- the prefix
  obtain ⟨i1, o1, w1, hrun1, hH1, hk1, he1, hrest1, hown1⟩ :=
    copyLoop_spec (γ := Vars) (ε := Exit) (n := c) (v := []) (w := w)
      (fileSink h.ne h.source) 2048 (by decide) (i := l.inFp.rewind)
      ⟨Writer.Holds.start h.outKey h.outBuf hold, fun _ _ => .refl⟩ .refl h.eof (by rw [rest_rewind hr]; omega)
  rw [rest_rewind hr, List.nil_append] at hH1
  rw [rest_rewind hr] at hrest1
  -- the skipped part
  obtain ⟨hs1, hs2, hs3⟩ := read_spec E.io (n := p) (i := i1) (X := X)
    (((hk1.file w1.fs).trans ((hH1.2 _ h.ne).file _)).trans h.source) he1 (by rw [hrest1, List.length_drop]; omega)
  have hslen : ((i1.read E.io w1.fs p).1).length = p := by
    rw [hs1, hrest1, List.length_take, List.length_drop]; omega
  rw [hrest1, List.drop_drop] at hs2
  -- the rest
  obtain ⟨i3, o3, w3, hrun3, hH3, hk3, he3, hrest3, hown3⟩ :=
    copyLoop_spec (γ := Vars) (ε := Exit) (n := X.length - (c + p)) (w := w1)
      (fileSink h.ne h.source) 2048 (by decide) hH1 ((read_same _ _ _ _).trans hk1) hs3
      (by rw [hs2, List.length_drop])
  have htake : (X.drop (c + p)).take (X.length - (c + p)) = X.drop (c + p) :=
    List.take_of_length_le (by rw [List.length_drop])
  have hdrop : (X.drop (c + p)).drop (X.length - (c + p)) = [] := List.drop_of_length_le (by rw [List.length_drop])
  rw [hs2, htake] at hH3
  rw [hs2, hdrop] at hrest3
  change FileSink w.fs (E.key (V.outFile j)) old (cut c p X) o3 w3.fs at hH3
  have hlen : (cut c p X).length = X.length - p := length_cut hp
  obtain ⟨o4, w4, hrun4, hown4, hkey4, hbuf4, hfile4, hfr4⟩ :=
    flush_fit_run (E := E) (f := fun o => { l with inFp := i3, outFp := o })
      (fun bt => (bt : Int) ≠ ((X.length - p : Nat) : Int)) hH3
      (fun n hn => by rw [hlen]; omega)
  have hown' : w4.own = w.own := hown4.trans (hown3.trans hown1)
  refine ⟨{ l with inFp := i3, outFp := o4 }, w4, ?_, hown', ?_, hrest3, hfile4, hfr4⟩
  · rw [hlen, ← h.outFile] at hrun4
    have e1 : (((l.fSize : Int) - (c + p))).toNat = X.length - (c + p) := by rw [h.fSize]; omega
    have e2 : ((l.fSize : Int) - p) = ((X.length - p : Nat) : Int) := by rw [h.fSize]; omega
    rw [writeComplement, Int.toNat_natCast, bind_ok hrun1, Int.toNat_natCast]
    simp only [fread, look_bind, hslen, ne_eq, not_true_eq_false, if_false]
    rw [e1, bind_ok hrun3, e2]
    exact hrun4
  · exact ⟨h.outFile, h.fSize, by rw [hown', (hfr4 _ h.apart).1]; exact h.file,
      by rw [hown']; exact h.inFile.same (hfr4 _ h.apart) hk3, he3, hkey4, hbuf4, by rw [hfile4]; rfl, by rw [hown']; exact h.apart⟩

/-! ## The simulation -/

def PcMatch (E : Env) (V : Variant) (s : St) (a : Abs UInt8) : Prop :=
  match s.ctl.pc, a.phase with
  | .head, .head => HeldBelow V s.w.own.held s.ctl.fileNo
  | .subset l fSizeLeft nLeft, .subset c k =>
    ∃ j, s.ctl.fileNo = j + 1 ∧ HeldBelow V s.w.own.held j ∧ Streams E V s.w l a.cur j ∧
      l.inFp.rest a.cur = a.cur.drop c ∧ fSizeLeft = (a.cur.length : Int) - c ∧ nLeft = k
  | .complement l cStart nLeft, .complement c k =>
    ∃ j, s.ctl.fileNo = j + 1 ∧ HeldBelow V s.w.own.held j ∧ Streams E V s.w l a.cur j ∧
      l.inFp.rest a.cur = [] ∧ cStart = c ∧ nLeft = k
  | .ret p, .done => p = s.w.own.held
  | _, _ => False

/-- The test of the turn under way leaves the held file alone. -/
def Spared (V : Variant) (I : Nat → Prop) (s : St) : Prop := ∀ j, s.ctl.fileNo = j + 1 → s.w.own.held = V.firstFile → I j

theorem spared_all {s : St} : Spared V (fun _ => True) s := fun _ _ _ => trivial

structure Match (E : Env) (V : Variant) (G : Fs → Prop) (s : St) (a : Abs UInt8) : Prop where
  good : G s.w.fs
  file : s.w.fs (E.key s.w.own.held) = some a.cur
  tried : s.w.own.tests.map (candOf E) = a.tried.map some
  small : a.cur.length ≤ 2 ^ 24
  wf : WF a
  n : s.ctl.n = a.n
  pc : PcMatch E V s a

/-- One turn of the code, told by the run it records. -/
structure Turn (E : Env) (V : Variant) (G : Fs → Prop) (seenS seenC : Bytes → Test → Prop) (s : St) (a : Abs UInt8)
    (s' : St) (v : Bool) : Prop where
  next : Ddmin.next E V s = some s'
  matched : Match E V G s' (a.next v)
  held : v = false → s'.w.own.held = s.w.own.held
  quiet : a.phase = .head → v = false ∧ s'.w.own.tests = s.w.own.tests
  ran : a.phase ≠ .head → ∃ t, s'.w.own.tests = s.w.own.tests ++ [t] ∧ v = verdict E.errMsg t.outcome ∧
    candOf E t = some a.cand ∧ (∀ c k, a.phase = .subset c k → seenS a.cand t) ∧
    ∀ c k, a.phase = .complement c k → seenC a.cand t

theorem next_run {c c' : Ctl} {w w' : World Vars} {x : Code Ctl} (ht : turn E V c = some x) (hx : x w = .ok c' w') :
    next E V ⟨c, w⟩ = some ⟨c', w'⟩ := Loop.next_run ht hx

section

variable {G : Fs → Prop} {seenS seenC : Bytes → Test → Prop}

/-- A candidate just written is tested: one run on it is recorded, and the streams and the
    two files stay as they are. -/
theorem test_run {x : Code Bool} {seen : Bytes → Test → Prop} {j : Nat} (hx : Runs E V I G seen j x)
    {w : World Vars} {l : Locals} {X c : Bytes} (hG : G w.fs) (hheld : Own E V I j (E.key w.own.held))
    (hS : Streams E V w l X j) (hc : w.fs (E.key (V.outFile j)) = some c) :
    ∃ t w', x w = .ok (verdict E.errMsg t.outcome) w' ∧ w'.own = { w.own with tests := w.own.tests ++ [t] } ∧
      G w'.fs ∧ Streams E V w' l X j ∧ w'.fs (E.key (V.outFile j)) = some c ∧ candOf E t = some c ∧ seen c t := by
  obtain ⟨t, w', hrun, hown, hgood, hkeep, -, htc, hseen⟩ := hx w c hG hc
  have hout : w'.fs (E.key (V.outFile j)) = some c := (hkeep _ (Or.inr ⟨j, rfl⟩)).1.trans hc
  have hin : w'.fs (E.key w.own.held) = some X := (hkeep _ hheld).1.trans hS.file
  have hh : w'.own.held = w.own.held := by rw [hown]
  refine ⟨t, w', hrun, hown, hgood, ?_, hout, htc, hseen⟩
  exact ⟨hS.outFile, hS.fSize, hh ▸ hin, hh ▸ hS.inFile.same (hkeep _ hheld) .refl, hS.eof, hS.outKey, hS.outBuf, by rw [hout]; rfl, hh ▸ hS.apart⟩

theorem tried_append {w : World Vars} {a : Abs UInt8} {own : Vars} {t : Test}
    (h : w.own.tests.map (candOf E) = a.tried.map some) (ho : own.tests = w.own.tests ++ [t])
    (hc : candOf E t = some a.cand) : own.tests.map (candOf E) = (a.tried ++ [a.cand]).map some := by
  rw [ho, List.map_append, List.map_append, h]
  simp [hc]

/-- An accepted candidate becomes the held input. -/
theorem match_accept {w : World Vars} {c : Bytes} {j n : Nat} {tried : List Bytes} {v : Vars × Fs} (hG : G w.fs)
    (hc : w.fs (E.key (V.outFile j)) = some c) (small : c.length ≤ 2 ^ 24)
    (ht : w.own.tests.map (candOf E) = tried.map some) (hwf : WF (⟨c, n, .head, tried⟩ : Abs UInt8)) :
    Match E V G ⟨⟨.head, n, j + 1⟩, ⟨w.fs, { w.own with held := V.outFile j }, w.past ++ [v]⟩⟩ ⟨c, n, .head, tried⟩ :=
  ⟨hG, hc, ht, small, hwf, rfl, Or.inr ⟨j, by simp, rfl⟩⟩

variable (L : Layout E V I G seenS seenC)
include L

theorem turn_head {s : St} {a : Abs UInt8} (h : Match E V G s a) (hp : a.phase = .head) :
    ∃ s', Turn E V G seenS seenC s a s' false := by
  obtain ⟨⟨pc, n, fileNo⟩, w⟩ := s
  obtain ⟨good, file, tried, small, wf, hn, hpc⟩ := h
  rw [PcMatch, hp] at hpc
  obtain rfl : n = a.n := hn
  cases pc with
  | head =>
    have hheld : HeldBelow V w.own.held fileNo := hpc
    have hne : E.key w.own.held ≠ E.key (V.outFile fileNo) := hheld.ne L
    have hbt : byteCountFile E w.own.held w = .ok a.cur.length w := byteCountFile_run file
    change w.fs (E.key w.own.held) = some a.cur at file
    by_cases hlen : 1 < a.cur.length
    · -- both streams are opened
      have hrun : headTurn E V a.n fileNo w = .ok ⟨.subset ⟨.opened w.fs (E.key w.own.held),
            ⟨some (E.key (V.outFile fileNo)), 0, []⟩, V.outFile fileNo, a.cur.length⟩ (toInt a.cur.length) a.n,
            a.n, fileNo + 1⟩
          ⟨w.fs.put (E.key (V.outFile fileNo)) (some []), w.own, w.past ++ [(w.own, w.fs)]⟩ := by
        simp only [headTurn, look_bind]
        rw [bind_ok hbt, if_pos hlen, bind_ok (fopenRead_run file)]
        simp only
        rw [bind_ok (fopenWrite_run (L.holds fileNo) w)]
        rfl
      have hnext := Abs.next_head_long hp false hlen
      have hint : toInt a.cur.length = a.cur.length := toInt_of_lt (by omega) (by omega)
      refine ⟨_, next_run rfl hrun, ?_, fun _ => rfl, fun _ => ⟨rfl, rfl⟩, fun hh => absurd hp hh⟩
      rw [hnext]
      refine ⟨L.part fileNo _ _ good fun k hk => Fs.put_ne _ _ hk, (Fs.put_ne _ _ hne).trans file, tried, small,
        by rw [← hnext]; exact next_wf wf false, rfl, fileNo, rfl, hheld, ?_, rfl, by simp [hint], rfl⟩
      exact ⟨rfl, rfl, (Fs.put_ne _ _ hne).trans file, ⟨rfl, by rw [Fs.put_unlinked]; rfl⟩, rfl, rfl, rfl, by simp, hne⟩
    · have hrun : headTurn E V a.n fileNo w = .ok ⟨.ret w.own.held, a.n, fileNo⟩ w := by
        simp only [headTurn, look_bind]
        rw [bind_ok hbt, if_neg hlen]
        rfl
      have hnext := Abs.next_head_short hp false hlen
      refine ⟨_, next_run rfl hrun, ?_, fun _ => rfl, fun _ => ⟨rfl, rfl⟩, fun hh => absurd hp hh⟩
      rw [hnext]
      exact ⟨good, file, tried, small, trivial, rfl, rfl⟩
  | _ => exact hpc.elim

theorem turn_subset {s : St} {a : Abs UInt8} {c k : Nat} (h : Match E V G s a) (hI : Spared V I s)
    (hp : a.phase = .subset c k) : ∃ s' v, Turn E V G seenS seenC s a s' v := by
  obtain ⟨⟨pc, n, fileNo⟩, w⟩ := s
  obtain ⟨good, file, tried, small, wf, hn, hpc⟩ := h
  rw [PcMatch, hp] at hpc
  obtain rfl : n = a.n := hn
  cases pc with
  | subset l fSizeLeft nLeft =>
    obtain ⟨j, hj, hheld, hS, hrest, rfl, rfl⟩ := hpc
    obtain rfl : fileNo = j + 1 := hj
    have hl := wf.parts (Or.inl hp)
    have hle := hl.size_le
    have hsize := fSizeCeil hl small
    have hcand := Abs.cand_subset hp
    obtain ⟨l1, w1, hrun1, hown1, hS1, hrest1, hfile1, hfr1⟩ :=
      writeSubset_run (p := partSize a.cur.length c k) hS hrest (by omega)
    rw [← hcand] at hfile1
    obtain ⟨t, w2, hrun2, hown2, hgood2, hS2, hfile2, htc, hseen⟩ :=
      test_run (L.subset j) (L.part j _ _ good fun k hk => (hfr1 k hk).1) (by rw [hown1]; exact hheld.own (hI j rfl)) hS1 hfile1
    have hheld2 : w2.own.held = w.own.held := by rw [hown2, hown1]
    have htests : w2.own.tests = w.own.tests ++ [t] := by rw [hown2, hown1]
    have htried := tried_append tried htests htc
    have hrun : subsetTurn E V a.n (j + 1) l ((a.cur.length : Int) - c) k w =
        (if verdict E.errMsg t.outcome then do
            hold l1.outFile
            pure ⟨.head, 2, j + 1⟩
          else if (0 : Int) < k - 1 then
            pure ⟨.subset l1 ((a.cur.length : Int) - c - partSize a.cur.length c k) (k - 1), a.n, j + 1⟩
          else pure ⟨.complement l1 0 a.n, a.n, j + 1⟩ : Code Ctl) w2 := by
      rw [subsetTurn, hsize, bind_ok hrun1, hS1.outFile, bind_ok hrun2]
    have ran : ∀ own : Vars, own.tests = w2.own.tests → ∃ t', own.tests = w.own.tests ++ [t'] ∧
        verdict E.errMsg t.outcome = verdict E.errMsg t'.outcome ∧ candOf E t' = some a.cand ∧
        (∀ c k, a.phase = .subset c k → seenS a.cand t') ∧ ∀ c k, a.phase = .complement c k → seenC a.cand t' :=
      fun own ho => ⟨t, ho.trans htests, rfl, htc, fun _ _ _ => hseen, fun _ _ e => (by cases hp.symm.trans e)⟩
    have hwf := next_wf wf
    cases hv : verdict E.errMsg t.outcome with
    | true =>
      rw [hv, if_pos rfl, hS1.outFile] at hrun
      have hnext := Abs.next_subset_true hp
      refine ⟨_, true, next_run rfl hrun, ?_, fun e => (by cases e), fun e => (by cases hp.symm.trans e), fun _ => hv ▸ ran _ rfl⟩
      rw [hnext]
      exact match_accept hgood2 hfile2 ((cand_sublist a).length_le.trans small) htried (hnext ▸ hwf true)
    | false =>
      rw [hv, if_neg (by decide)] at hrun
      by_cases hk : 1 < k
      · have hnext := Abs.next_subset_more hp hk
        rw [if_pos (by omega)] at hrun
        refine ⟨_, false, next_run rfl hrun, ?_, fun _ => hheld2, fun e => (by cases hp.symm.trans e), fun _ => hv ▸ ran _ rfl⟩
        have hwf' := hwf false
        rw [hnext] at hwf' ⊢
        exact ⟨hgood2, hS2.file, htried, small, hwf', rfl, j, rfl, hheld2 ▸ hheld, hS2, hrest1, by push_cast; omega,
          by omega⟩
      · have hnext := Abs.next_subset_last hp hk
        obtain rfl : k = 1 := by have := hl.pos; omega
        rw [if_neg (by omega)] at hrun
        refine ⟨_, false, next_run rfl hrun, ?_, fun _ => hheld2, fun e => (by cases hp.symm.trans e), fun _ => hv ▸ ran _ rfl⟩
        have hwf' := hwf false
        rw [hnext] at hwf' ⊢
        -- the subset phase has read the input to its end
        rw [partSize_last] at hrest1
        have hend : l1.inFp.rest a.cur = [] := hrest1.trans (List.drop_of_length_le (by have := hl.room; omega))
        exact ⟨hgood2, hS2.file, htried, small, hwf', rfl, j, rfl, hheld2 ▸ hheld, hS2, hend, rfl, rfl⟩
  | _ => exact hpc.elim

theorem turn_complement {s : St} {a : Abs UInt8} {c k : Nat} (h : Match E V G s a) (hI : Spared V I s)
    (hp : a.phase = .complement c k) : ∃ s' v, Turn E V G seenS seenC s a s' v := by
  obtain ⟨⟨pc, n, fileNo⟩, w⟩ := s
  obtain ⟨good, file, tried, small, wf, hn, hpc⟩ := h
  rw [PcMatch, hp] at hpc
  obtain rfl : n = a.n := hn
  cases pc with
  | complement l cStart nLeft =>
    obtain ⟨j, hj, hheld, hS, hrest, rfl, rfl⟩ := hpc
    obtain rfl : fileNo = j + 1 := hj
    have hl := wf.parts (Or.inr hp)
    have hle := hl.size_le
    have hsize := fSizeCeil hl small
    have hcand := Abs.cand_complement hp
    obtain ⟨l1, w1, hrun1, hown1, hS1, hrest1, hfile1, hfr1⟩ :=
      writeComplement_run (c := c) (p := partSize a.cur.length c k) hS hrest (by omega)
    rw [← hcand] at hfile1
    obtain ⟨t, w2, hrun2, hown2, hgood2, hS2, hfile2, htc, hseen⟩ :=
      test_run (L.complement j) (L.part j _ _ good fun k hk => (hfr1 k hk).1) (by rw [hown1]; exact hheld.own (hI j rfl)) hS1 hfile1
    have hheld2 : w2.own.held = w.own.held := by rw [hown2, hown1]
    have htests : w2.own.tests = w.own.tests ++ [t] := by rw [hown2, hown1]
    have htried := tried_append tried htests htc
    have hrun : complementTurn E V a.n (j + 1) l c k w =
        (if verdict E.errMsg t.outcome then do
            hold l1.outFile
            pure ⟨.head, max ((a.n : Int) - 1) 2, j + 1⟩
          else if (c : Int) + partSize a.cur.length c k < l1.fSize then
            pure ⟨.complement l1 (c + partSize a.cur.length c k) (k - 1), a.n, j + 1⟩
          else if (a.n : Int) < l1.fSize then pure ⟨.head, min ((a.n : Int) * 2) l1.fSize, j + 1⟩
          else do
            let held ← look fun v _ => v.held
            pure ⟨.ret held, a.n, j + 1⟩ : Code Ctl) w2 := by
      rw [complementTurn, hS.fSize, hsize, bind_ok hrun1, hS1.outFile, bind_ok hrun2]
    rw [hS1.fSize] at hrun
    have ran : ∀ own : Vars, own.tests = w2.own.tests → ∃ t', own.tests = w.own.tests ++ [t'] ∧
        verdict E.errMsg t.outcome = verdict E.errMsg t'.outcome ∧ candOf E t' = some a.cand ∧
        (∀ c k, a.phase = .subset c k → seenS a.cand t') ∧ ∀ c k, a.phase = .complement c k → seenC a.cand t' :=
      fun own ho => ⟨t, ho.trans htests, rfl, htc, fun _ _ e => (by cases hp.symm.trans e), fun _ _ _ => hseen⟩
    have hwf := next_wf wf
    have hlow := hl.two_le
    have hhigh := hl.le
    cases hv : verdict E.errMsg t.outcome with
    | true =>
      rw [hv, if_pos rfl, hS1.outFile] at hrun
      have hnext := Abs.next_complement_true hp
      have hn : max ((a.n : Int) - 1) 2 = ((max (a.n - 1) 2 : Nat) : Int) := by omega
      rw [hn] at hrun
      refine ⟨_, true, next_run rfl hrun, ?_, fun e => (by cases e), fun e => (by cases hp.symm.trans e), fun _ => hv ▸ ran _ rfl⟩
      rw [hnext]
      exact match_accept hgood2 hfile2 ((cand_sublist a).length_le.trans small) htried (hnext ▸ hwf true)
    | false =>
      rw [hv, if_neg (by decide)] at hrun
      have hwf' := hwf false
      by_cases hmore : c + partSize a.cur.length c k < a.cur.length
      · have hnext := Abs.next_complement_more hp hmore
        have := hl.pos
        rw [if_pos (by omega)] at hrun
        refine ⟨_, false, next_run rfl hrun, ?_, fun _ => hheld2, fun e => (by cases hp.symm.trans e), fun _ => hv ▸ ran _ rfl⟩
        rw [hnext] at hwf' ⊢
        exact ⟨hgood2, hS2.file, htried, small, hwf', rfl, j, rfl, hheld2 ▸ hheld, hS2, hrest1, by push_cast; rfl,
          by omega⟩
      · rw [if_neg (by omega)] at hrun
        by_cases hfine : a.n < a.cur.length
        · have hnext := Abs.next_complement_finer hp hmore hfine
          have hn : min ((a.n : Int) * 2) a.cur.length = ((min (a.n * 2) a.cur.length : Nat) : Int) := by omega
          rw [if_pos (by omega), hn] at hrun
          refine ⟨_, false, next_run rfl hrun, ?_, fun _ => hheld2, fun e => (by cases hp.symm.trans e), fun _ => hv ▸ ran _ rfl⟩
          rw [hnext] at hwf' ⊢
          refine ⟨hgood2, hS2.file, htried, small, hwf', rfl, ?_⟩
          rcases hheld with hh | ⟨i, hi, hh⟩
          · exact Or.inl (hheld2.trans hh)
          · exact Or.inr ⟨i, Nat.lt_succ_of_lt hi, hheld2.trans hh⟩
        · have hnext := Abs.next_complement_last hp hmore hfine
          rw [if_neg (by omega)] at hrun
          refine ⟨_, false, next_run rfl hrun, ?_, fun _ => hheld2, fun e => (by cases hp.symm.trans e), fun _ => hv ▸ ran _ rfl⟩
          rw [hnext] at hwf' ⊢
          exact ⟨hgood2, hS2.file, htried, small, hwf', rfl, rfl⟩
  | _ => exact hpc.elim

/-- Step lemma of the simulation. -/
theorem match_next {s : St} {a : Abs UInt8} (h : Match E V G s a) (hI : Spared V I s) (hd : a.phase ≠ .done) :
    ∃ s' v, Turn E V G seenS seenC s a s' v := by
  cases hp : a.phase with
  | head => obtain ⟨s', ht⟩ := turn_head L h hp; exact ⟨s', false, ht⟩
  | subset c k => exact turn_subset L h hI hp
  | complement c k => exact turn_complement L h hI hp
  | done => exact absurd hp hd

omit L in
/-- The code stops where the abstract loop does, on the file it holds. -/
theorem match_done {s : St} {a : Abs UInt8} (h : Match E V G s a) :
    a.phase = .done ↔ next E V s = none := by
  obtain ⟨⟨pc, n, fileNo⟩, w⟩ := s
  have hpc := h.pc
  cases hp : a.phase <;> cases pc <;> simp_all [PcMatch, next, Loop.next, loop, turn]

end

end DiyDdmin.Ddmin
