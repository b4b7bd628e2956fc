/-
  DiyDdmin.Tester.Candidate — writing a candidate to its file.

  What all the minimizers do: `read_and_write` between two streams, the input without
  `[begin, begin + rs)` written by three of them (`range_increasing` and the workers of
  `range`), and cutting the file to size (`truncate`), since an output file that is
  written again still holds the end of a longer candidate.

  Proved: over enough input a cut leaves exactly its bytes in the file (`writeCut_run`),
  and no other file is touched (`writeCut_keeps`).
-/

import DiyDdmin.Tester.Overflow
import DiyDdmin.Numeric.Binary32
import DiyDdmin.Reduction.Cut

namespace DiyDdmin.Tester

open Posix Numeric Reduction

section

variable (E : Env)

/-- `truncate` to an `int` length; a negative one is refused. -/
def truncateTo (path : Path) (n : Int) : Code Unit :=
  if n < 0 then exit .subsetTruncate
  else do
    let done ← truncate (E.key path) n.toNat
    if done then pure () else exit .subsetTruncate

/-- `read_and_write` -/
def readAndWrite (inFp : Reader) (outFp : Writer) (n : Int) : Code (Reader × Writer) :=
  copyLoop E.io 2048 n.toNat inFp outFp

/-- Cut the file to `size` bytes; fewer is an error. -/
def fitSize (outFile : Path) (size : Int) : Code Unit := do
  let bt ← byteCountFile E outFile
  if size < toInt bt then truncateTo E outFile size
  else if toInt bt < size then exit (.fewWritten (toInt bt) size)
  else pure ()

/-- The first `input_size` bytes of the input without `[begin, begin + rs)`. -/
def writeCut (inFp : Reader) (outFp : Writer) (outFile : Path) (inputSize rs begin : Int) : Code (Reader × Writer) := do
  let r ← readAndWrite E inFp outFp begin
  let s ← readAndWrite E r.1 nullWriter rs
  let r ← readAndWrite E s.1 r.2 (inputSize - (begin + rs))
  let outFp ← fflush r.2
  fitSize E outFile (inputSize - rs)
  pure (r.1, outFp)

end

/-! ## Sizes -/

theorem resize_append (c t : Bytes) : resize (c ++ t) c.length = c := by
  simp [resize]

theorem truncateTo_run {E : Env} {p : Path} {c : Bytes} {w : World Vars} {n : Int} (h : w.fs (E.key p) = some c)
    (hn : 0 ≤ n) :
    truncateTo E p n w = .ok () ⟨w.fs.put (E.key p) (some (resize c n.toNat)), w.own, w.past ++ [(w.own, w.fs)]⟩ := by
  have h0 : ¬ n < 0 := by omega
  simp [truncateTo, h0, truncate, h]

variable {E : Env}

theorem length_resize (c : Bytes) (n : Nat) : (resize c n).length = n := by
  simp only [resize, List.length_append, List.length_take, List.length_replicate]; omega

theorem truncateTo_ok {p : Path} {n : Int} {w w' : World Vars} (h : truncateTo E p n w = .ok () w') :
    ∃ c, w'.fs (E.key p) = some c ∧ (c.length : Int) = n := by
  by_cases hn : n < 0
  · rw [truncateTo, if_pos hn] at h; cases h
  · cases hf : w.fs (E.key p) with
    | none => simp [truncateTo, hn, truncate, hf, exit] at h
    | some c =>
      rw [truncateTo_run hf (by omega)] at h
      cases h
      exact ⟨_, Fs.put_same _ _ _, by rw [length_resize]; omega⟩

/-- Whatever the file held, it is cut to `n` bytes or was not to be. -/
theorem fit_sized {β : Type} {p : Path} {n : Int} {q : Nat → Prop} [∀ n, Decidable (q n)] {a b : β} {w w' : World Vars}
    (h : (do
        let bt ← byteCountFile E p
        if q bt then do
          truncateTo E p n
          pure a
        else pure a : Code β) w = .ok b w') :
    b = a ∧ ∃ c, w'.fs (E.key p) = some c ∧ ((c.length : Int) = n ∨ ¬q c.length) := by
  obtain ⟨bt, w1, hbt, h⟩ := bind_eq_ok.mp h
  obtain ⟨rfl, c, hc, rfl⟩ := byteCountFile_ok hbt
  split at h
  · obtain ⟨u, w2, htrunc, h⟩ := bind_eq_ok.mp h
    obtain ⟨d, hd, hlen⟩ := truncateTo_ok htrunc
    cases h
    exact ⟨rfl, d, hd, Or.inl hlen⟩
  · cases h
    exact ⟨rfl, c, hc, Or.inr ‹_›⟩

/-- The file holds `c` and some leftover `t`: cutting it to `c`'s length when there may be
    one leaves `c`. -/
theorem fit_run {β : Type} {p : Path} {c t : Bytes} {w : World Vars} {q : Prop} [Decidable q] (a : β)
    (h : w.fs (E.key p) = some (c ++ t)) (hq : ¬q → t = []) :
    ∃ w', (if q then (do truncateTo E p c.length; pure a) else pure a : Code β) w = .ok a w' ∧ w'.own = w.own ∧
      w'.fs (E.key p) = some c ∧ ∀ k, k ≠ E.key p → Fs.Same w.fs w'.fs k := by
  by_cases hqq : q
  · rw [if_pos hqq, bind_ok (truncateTo_run h (by omega))]
    refine ⟨_, rfl, rfl, ?_, fun k hk => .put _ _ hk⟩
    simp only [Int.toNat_natCast, resize_append, Fs.put_same]
  · rw [if_neg hqq]
    refine ⟨w, rfl, rfl, ?_, fun _ _ => .refl⟩
    rw [h, hq hqq, List.append_nil]

/-- What both phases do once the candidate `v` is written over `old`: flush, and cut the
    file to size. -/
theorem flush_fit_run {w1 : World Vars} {base : Fs} {o : Writer} {p : Path} {old v : Bytes} {β : Type}
    (f : Writer → β) (q : Nat → Prop) [∀ n, Decidable (q n)] (hH : FileSink base (E.key p) old v o w1.fs)
    (hq : ∀ n, ¬q n → n ≤ v.length) :
    ∃ o' w', (do
        let outFp ← fflush o
        let bt ← byteCountFile E p
        if q bt then do
          truncateTo E p v.length
          pure (f outFp)
        else pure (f outFp) : Code β) w1 = .ok (f o') w' ∧ w'.own = w1.own ∧ o'.key = some (E.key p) ∧ o'.buf = [] ∧
      w'.fs (E.key p) = some v ∧ ∀ k, k ≠ E.key p → Fs.Same base w'.fs k := by
  obtain ⟨hfile, hbuf, hkey⟩ := flush_holds hH.1
  have hfr : ∀ k, k ≠ E.key p → Fs.Same base (o.flush w1.fs).2 k := fun k hk =>
    (hH.2 k hk).trans (drain_same hH.1.key _ _ hk)
  simp only [fflush, act_bind]
  rw [bind_ok (byteCountFile_run hfile)]
  obtain ⟨w', hrun, hown, hc, hother⟩ := fit_run (E := E) (q := q (v ++ old.drop v.length).length)
    (f (o.flush w1.fs).1) (w := ⟨(o.flush w1.fs).2, w1.own, w1.past ++ [(w1.own, w1.fs)]⟩) hfile fun hn => by
      have := hq _ hn
      exact List.eq_nil_of_length_eq_zero (by simp only [List.length_append] at this; omega)
  exact ⟨_, w', hrun, hown, hkey, hbuf, hc, fun k hk => (hfr k hk).trans (hother k hk)⟩

/-! ## Cuts -/

/-- What `writeCut` writes when the stream has `Y` to deliver. -/
def cutOf (n rs b : Nat) (Y : Bytes) : Bytes := Y.take b ++ (Y.drop (b + rs)).take (n - (b + rs))

theorem length_cutOf {n rs b : Nat} {Y : Bytes} (hn : n ≤ Y.length) (hb : b + rs ≤ n) : (cutOf n rs b Y).length = n - rs := by
  simp only [cutOf, List.length_append, List.length_take, List.length_drop]; omega

theorem cutOf_eq {n rs b : Nat} {Y : Bytes} (hn : n = Y.length) : cutOf n rs b Y = cut b rs Y := by
  rw [cutOf, cut, List.take_of_length_le (l := Y.drop (b + rs)) (by rw [List.length_drop]; omega)]

theorem cutOf_sublist (n rs b : Nat) (Y : Bytes) : (cutOf n rs b Y).Sublist Y :=
  ((List.Sublist.refl _).append (List.take_sublist _ _)).trans (cut_sublist b rs Y)

theorem fitSize_run {p : Path} {c t : Bytes} {w : World Vars} (h : w.fs (E.key p) = some (c ++ t))
    (hlen : (c ++ t).length < 2 ^ 31) :
    ∃ w', fitSize E p c.length w = .ok () w' ∧ w'.own = w.own ∧ w'.fs (E.key p) = some c ∧
      ∀ k, k ≠ E.key p → Fs.Same w.fs w'.fs k := by
  have hint : toInt ((c ++ t).length : Nat) = ((c ++ t).length : Nat) := toInt_of_lt (by omega) (by omega)
  rw [fitSize, bind_ok (byteCountFile_run h), hint]
  by_cases ht : t = []
  · subst ht
    simp only [List.append_nil] at h ⊢
    rw [if_neg (by omega), if_neg (by omega)]
    exact ⟨w, rfl, rfl, h, fun _ _ => .refl⟩
  · have hpos := List.length_pos_iff.mpr ht
    rw [if_pos (by rw [List.length_append]; omega), truncateTo_run h (by omega)]
    refine ⟨_, rfl, rfl, ?_, fun k hk => .put _ _ hk⟩
    simp only [Int.toNat_natCast, resize_append, Fs.put_same]

/-- A cut that was fitted is there. -/
theorem fitSize_there {p : Path} {n : Int} {w w' : World Vars} (h : fitSize E p n w = .ok () w') : (w'.fs (E.key p)).isSome = true := by
  obtain ⟨bt, w1, hbt, hcut⟩ := bind_eq_ok.mp h
  obtain ⟨rfl, c, hc, -⟩ := byteCountFile_ok hbt
  split at hcut
  · obtain ⟨d, hd, -⟩ := truncateTo_ok hcut
    rw [hd]; rfl
  · split at hcut <;> cases hcut
    rw [hc]; rfl

theorem writeCut_there {i : Reader} {o : Writer} {p : Path} {n rs b : Int} {w w' : World Vars} {r : Reader × Writer}
    (h : writeCut E i o p n rs b w = .ok r w') : (w'.fs (E.key p)).isSome = true := by
  obtain ⟨r1, w1, -, h⟩ := bind_eq_ok.mp h
  obtain ⟨r2, w2, -, h⟩ := bind_eq_ok.mp h
  obtain ⟨r3, w3, -, h⟩ := bind_eq_ok.mp h
  obtain ⟨o', w4, -, h⟩ := bind_eq_ok.mp h
  obtain ⟨u, w5, hfit, h⟩ := bind_eq_ok.mp h
  cases h
  exact fitSize_there hfit

/-- With `Y` to come from a file holding `X`, over an output file holding `old`. -/
theorem writeCut_run {w : World Vars} {i : Reader} {o : Writer} {p : Path} {X Y old : Bytes} {n r b : Nat}
    (hX : i.file w.fs = X) (he : i.eof = false) (hY : i.rest X = Y) (hne : i.key ≠ E.key p)
    (ho : o.Holds w.fs (E.key p) old []) (hn : n ≤ Y.length) (hb : b + r ≤ n) (hsmall : n < 2 ^ 31)
    (hold : old.length < 2 ^ 31) :
    ∃ i' o' w', writeCut E i o p n r b w = .ok (i', o') w' ∧ w'.own = w.own ∧
      w'.fs (E.key p) = some (cutOf n r b Y) ∧ (∀ k, k ≠ E.key p → Fs.Same w.fs w'.fs k) ∧
      i'.Same i ∧ i'.eof = false ∧ i'.rest X = Y.drop n ∧ o'.key = some (E.key p) ∧ o'.buf = [] := by
  subst hY
  -- the prefix
  obtain ⟨i1, o1, w1, hrun1, hH1, hk1, he1, hr1, hown1⟩ :=
    copyLoop_spec (γ := Vars) (ε := Exit) (n := b) (v := []) (w := w)
      (fileSink hne hX) 2048 (by decide) ⟨ho, fun _ _ => .refl⟩ .refl he (by omega)
  -- the range left out
  obtain ⟨i2, o2, w2, hrun2, hN, hk2, he2, hr2, hown2⟩ :=
    copyLoop_spec (γ := Vars) (ε := Exit) (n := r) (v := []) (w := w1) (o := nullWriter)
      (nullSink (((hH1.2 _ hne).file i.gen).trans hX)) 2048 (by decide) ⟨rfl, rfl⟩ hk1 he1
      (by rw [hr1, List.length_drop]; omega)
  rw [hr1, List.drop_drop] at hr2
  have hfs2 : w2.fs = w1.fs := hN.2
  -- the rest
  obtain ⟨i3, o3, w3, hrun3, hH3, hk3, he3, hr3, hown3⟩ :=
    copyLoop_spec (γ := Vars) (ε := Exit) (n := n - (b + r)) (w := w2)
      (fileSink hne hX) 2048 (by decide) (hfs2 ▸ hH1) hk2 he2
      (by rw [hr2, List.length_drop]; omega)
  rw [hr2, List.nil_append] at hH3
  rw [hr2, List.drop_drop, Nat.add_sub_cancel' hb] at hr3
  change FileSink w.fs (E.key p) old (cutOf n r b (i.rest X)) o3 w3.fs at hH3
  -- flush and fit
  obtain ⟨hfile, hbuf, hkey⟩ := flush_holds hH3.1
  have hlen := length_cutOf hn hb
  obtain ⟨w4, hrun4, hown4, hfile4, hfr4⟩ := fitSize_run (E := E) (w := ⟨(o3.flush w3.fs).2, w3.own, w3.past ++ [(w3.own, w3.fs)]⟩)
    hfile (by rw [List.length_append, List.length_drop, hlen]; omega)
  refine ⟨i3, (o3.flush w3.fs).1, w4, ?_, hown4.trans (hown3.trans (hown2.trans hown1)), hfile4, ?_, hk3, he3, hr3, hkey, hbuf⟩
  · have e3 : ((n : Int) - (b + r)).toNat = n - (b + r) := by omega
    have e4 : (n : Int) - r = ((n - r : Nat) : Int) := by omega
    rw [writeCut, readAndWrite, Int.toNat_natCast, bind_ok hrun1]
    simp only [readAndWrite, Int.toNat_natCast, e3]
    rw [bind_ok hrun2, bind_ok hrun3]
    simp only [fflush, act_bind]
    rw [e4, ← hlen, bind_ok hrun4]
    rfl
  · intro k hk
    exact ((hH3.2 k hk).trans (drain_same hH3.1.key _ _ hk)).trans (hfr4 k hk)

/-! ## What is run -/

/-- From `w` to `w'` one more run of the program is recorded, on a file that holds `c`. -/
def Hands (E : Env) (w w' : World Vars) (c : Bytes) : Prop :=
  ∃ t, w'.own.tests = w.own.tests ++ [t] ∧ t.given = t.file ∧ t.fs (E.key t.given) = some c

/-- Every run so far was on a file with a byte in it. -/
def Fed (E : Env) (w : World Vars) : Prop := ∀ t ∈ w.own.tests, ∃ c, t.fs (E.key t.given) = some c ∧ 0 < c.length

theorem Fed.of_tests {w w' : World Vars} (h : Fed E w) (ht : w'.own.tests = w.own.tests) : Fed E w' := by
  rw [Fed, ht]
  exact h

theorem Fed.hands {w w' : World Vars} {c : Bytes} (h : Fed E w) (hc : Hands E w w' c) (hpos : 0 < c.length) : Fed E w' := by
  obtain ⟨t, ht, -, hfile⟩ := hc
  intro t' ht'
  rw [ht] at ht'
  rcases List.mem_append.mp ht' with hold | hnew
  · exact h t' hold
  · rw [List.mem_singleton.mp hnew]
    exact ⟨c, hfile, hpos⟩

/-! ## What a cut leaves alone -/

theorem truncateTo_keeps {P : Vars → Fs → Prop} {p : Path} (h : Blind P (E.key p)) (n : Int) :
    Keeps P (truncateTo E p n) fun _ => True := by
  refine Keeps.ite (fun _ => Keeps.exit) fun _ => Keeps.bind (truncate_keeps h _) fun done _ => ?_
  exact Keeps.ite (fun _ => Keeps.pure trivial) fun _ => Keeps.exit

theorem fitSize_keeps {P : Vars → Fs → Prop} {p : Path} (h : Blind P (E.key p)) (n : Int) :
    Keeps P (fitSize E p n) fun _ => True := by
  refine Keeps.bind (byteCountFile_keeps E p) fun bt _ => Keeps.ite (fun _ => truncateTo_keeps h n) fun _ => ?_
  exact Keeps.ite (fun _ => Keeps.exit) fun _ => Keeps.pure trivial

theorem writeCut_keeps {P : Vars → Fs → Prop} {o : Writer} {p : Path} (ho : o.Off P) (hp : Blind P (E.key p)) (i : Reader)
    (n rs b : Int) : Keeps P (writeCut E i o p n rs b) fun r => r.2.Off P := by
  refine Keeps.bind (copyLoop_keeps ho) fun r hr => ?_
  refine Keeps.bind (copyLoop_keeps (o := nullWriter) fun _ e => by cases e) fun s _ => ?_
  refine Keeps.bind (copyLoop_keeps hr) fun r' hr' => ?_
  refine Keeps.bind (fflush_keeps hr') fun o' ho' => ?_
  exact Keeps.bind (fitSize_keeps hp _) fun _ _ => Keeps.pure ho'

end DiyDdmin.Tester
