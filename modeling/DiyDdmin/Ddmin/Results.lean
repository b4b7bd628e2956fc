/-
  DiyDdmin.Ddmin.Results — what `ddmin` guarantees.

  The names `ddmin` makes up do not clash, so while its tests leave the input alone
  (`Clear`) its runs follow delta debugging on sequences (`ddmin_layout_clear`).

  Proved: the held file only loses bytes (`ddmin_shrinks`), no other entry is touched
  (`ddmin_frame`), and `2 ≤ n ≤ f_size` in every round (`ddmin_granular`).
-/

import DiyDdmin.Ddmin.Runs
import DiyDdmin.Ddmin.Frame
import DiyDdmin.Tester.Held

namespace DiyDdmin.Ddmin

open Posix Tester Numeric Systems Reduction Abstract

/-- What is known of a run `t` on `c`: where the program judges by `D`, its verdict. -/
def Judged (E : Env) (c : Bytes) (t : Test) : Prop := ∀ D, Judges E D → verdict E.errMsg t.outcome = D c

/-- The path is neither output file of a test on `./i.part`. -/
def Clear (E : Env) (p : Path) (i : Nat) : Prop :=
  E.key p ≠ E.key (stdoutPath (partFile i)) ∧ E.key p ≠ E.key (stderrPath (partFile i))

section

variable {E : Env} {p : Path} {seen : Bytes → Test → Prop}

/-- Whatever follows from the path the program is given and the verdict function is known of
    a run. -/
theorem ddmin_runs_of (hseen : ∀ c t, t.given = t.file → Judged E c t → seen c t) (i : Nat) :
    Runs E (ddmin E p) (Clear E p) (fun _ => True) seen i (testBufferOverflow E (partFile i) (partFile i)) := by
  intro w c _ hc
  obtain ⟨t, w', hrun, hown, hfs, hgiven, hfile, hcand, hD⟩ := testPart_spec E i hc
  refine ⟨t, w', hrun, hown, trivial, ?_, hfile, by rw [candOf, hfile]; exact hcand, hseen c t (hgiven.trans hfile.symm) hD⟩
  rintro k (⟨rfl, hclear⟩ | ⟨j, rfl⟩)
  · exact hfs _ hclear.1 hclear.2
  · exact hfs _ (partFile_ne_side E j i).1 (partFile_ne_side E j i).2

/-- An input under any name but those of the candidates. -/
theorem ddmin_layout_clear (hp : ∀ i, E.key p ≠ E.key (partFile i)) (hseen : ∀ c t, t.given = t.file → Judged E c t → seen c t) :
    Layout E (ddmin E p) (Clear E p) (fun _ => True) seen seen where
  partInj _ _ h := partFile_inj E h
  firstNe := hp
  holds i := Env.holds_of (key_partFile E i)
  part _ _ _ _ _ := trivial
  subset := ddmin_runs_of hseen
  complement := ddmin_runs_of hseen

theorem unnamed_clear (hp : Unnamed E PartName (E.key p)) (i : Nat) : Clear E p i :=
  ⟨key_stdoutPath E i ▸ hp _ (.out i), key_stderrPath E i ▸ hp _ (.err i)⟩

theorem unnamed_ne_part (hp : Unnamed E PartName (E.key p)) (i : Nat) : E.key p ≠ E.key (partFile i) :=
  key_partFile E i ▸ hp _ (.part i)

theorem ddmin_layout_of (hp : Unnamed E PartName (E.key p)) (hseen : ∀ c t, t.given = t.file → Judged E c t → seen c t) :
    Layout E (ddmin E p) (fun _ => True) (fun _ => True) seen seen :=
  (ddmin_layout_clear (unnamed_ne_part hp) hseen).mono fun i _ => unnamed_clear hp i

theorem ddmin_layout (hp : Unnamed E PartName (E.key p)) :
    Layout E (ddmin E p) (fun _ => True) (fun _ => True) (Judged E) (Judged E) := ddmin_layout_of hp fun _ _ _ h => h

/-- A test runs the program on the file that it tests. -/
theorem ddmin_layout_given (hp : Unnamed E PartName (E.key p)) :
    Layout E (ddmin E p) (fun _ => True) (fun _ => True) (fun _ t => t.given = t.file) fun _ t => t.given = t.file :=
  ddmin_layout_of hp fun _ _ h _ => h

end

/-- Any verdicts at all. -/
theorem ddmin_ready {E : Env} {p : Path} {fs : Fs} {X : Bytes} (hp : Unnamed E PartName (E.key p))
    (hX : fs (E.key p) = some X) (hl : X.length ≤ 2 ^ 24) :
    Ready E (ddmin E p) (fun _ => True) (Judged E) (Judged E) (fun _ _ => True) X fs :=
  ⟨ddmin_layout hp, trivial, by rw [Option.isSome_iff_exists]; exact ⟨X, hX⟩, hX, hl, fun _ _ _ => trivial,
    fun _ _ _ => trivial⟩

/-- The verdicts of a function. -/
theorem ddmin_ready_of_judges {E : Env} {p : Path} {fs : Fs} {X : Bytes} {D : Bytes → Bool}
    (hp : Unnamed E PartName (E.key p)) (hX : fs (E.key p) = some X) (hl : X.length ≤ 2 ^ 24) (hD : Judges E D) :
    Ready E (ddmin E p) (fun _ => True) (Judged E) (Judged E) (fun c v => v = D c) X fs :=
  ⟨ddmin_layout hp, trivial, by rw [Option.isSome_iff_exists]; exact ⟨X, hX⟩, hX, hl, fun _ _ h => h D hD,
    fun _ _ h => h D hD⟩

/-! ## The held file -/

theorem HeldBelow.unnamed {E : Env} {p h : Path} {b : Nat} (hp : Unnamed E PartName (E.key p))
    (hh : HeldBelow (ddmin E p) h b) (i : Nat) : Clear E h i := by
  rcases hh with rfl | ⟨j, -, rfl⟩
  · exact unnamed_clear hp i
  · exact partFile_ne_side E j i

/-- A turn does not touch the held file before it accepts a candidate. -/
theorem holding_framed {E : Env} {p h : Path} {b : Nat} (c : Bytes) (hp : Unnamed E PartName (E.key p))
    (hh : HeldBelow (ddmin E p) h b) :
    Framed E (ddmin E p) (Holding E h c) fun i => E.key h ≠ E.key (partFile i) := by
  have blind : ∀ {k : Key}, E.key h ≠ k → Blind (Holding E h c) k := fun hne v fs c' hP =>
    ⟨hP.1, (Fs.put_ne _ _ hne).trans hP.2⟩
  have test : ∀ i, Keeps (Holding E h c) (testBufferOverflow E (partFile i) (partFile i)) fun _ => True := fun i =>
    runTest_keeps E _ _ false (blind (hh.unnamed hp i).1) (blind (hh.unnamed hp i).2) fun _ _ _ _ hP => hP
  exact ⟨fun i hi => blind hi, fun i _ => test i, fun i _ => test i⟩

theorem match_off {E : Env} {p : Path} {G : Fs → Prop} {s : St} {a : Abs UInt8} (hp : Unnamed E PartName (E.key p))
    (hm : Match E (ddmin E p) G s a) (hd : a.phase ≠ .done) :
    (∃ b, HeldBelow (ddmin E p) s.w.own.held b) ∧
    s.ctl.Off (ddmin E p) (Holding E s.w.own.held a.cur) fun i => E.key s.w.own.held ≠ E.key (partFile i) := by
  have streams : ∀ {l : Locals} {X : Bytes} {j : Nat}, Streams E (ddmin E p) s.w l X j → HeldBelow (ddmin E p) s.w.own.held j →
      l.Off (ddmin E p) (Holding E s.w.own.held a.cur) fun i => E.key s.w.own.held ≠ E.key (partFile i) := by
    intro l X j hS hh
    refine ⟨?_, j, hh.ne (ddmin_layout hp), hS.outFile⟩
    intro k hk
    rw [hS.outKey] at hk; cases hk
    exact fun v fs c' hP => ⟨hP.1, (Fs.put_ne _ _ hS.apart).trans hP.2⟩
  obtain ⟨⟨pc, n, fileNo⟩, w⟩ := s
  have hpc := hm.pc
  cases hph : a.phase <;> cases pc <;> simp only [PcMatch, hph] at hpc
  · exact ⟨⟨_, hpc⟩, HeldBelow.ne (ddmin_layout hp) hpc⟩
  · obtain ⟨j, -, hh, hS, -⟩ := hpc
    exact ⟨⟨j, hh⟩, streams hS hh⟩
  · obtain ⟨j, -, hh, hS, -⟩ := hpc
    exact ⟨⟨j, hh⟩, streams hS hh⟩
  · exact absurd hph hd

/-- Step lemma: one turn keeps the held file until it supersedes it. -/
theorem shrinks_next {E : Env} {p h : Path} {b : Nat} {D : Bytes → Bool} {X c : Bytes} {s t : St}
    (hp : Unnamed E PartName (E.key p)) (hh : HeldBelow (ddmin E p) h b) (hold : Holding E h c s.w.own s.w.fs)
    (hoff : s.ctl.Off (ddmin E p) (Holding E h c) fun i => E.key h ≠ E.key (partFile i))
    (hn : next E (ddmin E p) s = some t) (hs : Shrinks E D X s.w)
    (hsup : Supersedes E D (s.w.own, s.w.fs) (t.w.own, t.w.fs)) : Shrinks E D X t.w := by
  obtain ⟨x, hx, hw⟩ := Loop.next_world hn
  obtain ⟨l, hl, hk⟩ := turn_trails (holding_framed c hp hh) hoff hx s.w hold
  exact hs.extend hold (by rw [hw, hl]) hk hsup

/-- Run lemma. -/
theorem reach_shrinks {E : Env} {p : Path} {fs : Fs} {X : Bytes} {D : Bytes → Bool}
    (hp : Unnamed E PartName (E.key p)) (hX : fs (E.key p) = some X) (hl : X.length ≤ 2 ^ 24) (hD : Judges E D)
    {s : St} (hs : (machine E (ddmin E p) fs).Reach s) : Shrinks E D X s.w := by
  have hr := ddmin_ready_of_judges hp hX hl hD
  refine hs.invariant (P := fun s => Shrinks E D X s.w) (Shrinks.start rfl hX) ?_
  intro s t hreach hshr hn
  change next E (ddmin E p) s = some t at hn
  cases reach_tracked hr hreach with
  | start =>
    obtain ⟨t', ht', -, hfs, hown, -⟩ := start_next hr
    obtain rfl : t' = t := Option.some.inj (ht'.symm.trans hn)
    refine shrinks_next hp (b := 0) (Or.inl rfl) (c := X) ⟨rfl, hX⟩ ?_ hn hshr (Or.inl ?_)
    · trivial
    rw [hfs, hown]
    exact ⟨rfl, rfl⟩
  | noProgram _ he _ =>
    simp [next, Loop.next, loop, turn, he] at hn
  | loop a ha hm =>
    have hd : a.phase ≠ .done := fun hd => by rw [(match_done hm).mp hd] at hn; cases hn
    obtain ⟨t', v, ht⟩ := match_next (ddmin_layout hp) hm spared_all hd
    obtain rfl : t' = t := Option.some.inj (ht.next.symm.trans hn)
    obtain ⟨⟨b, hh⟩, hoff⟩ := match_off hp hm hd
    refine shrinks_next hp hh ⟨rfl, hm.file⟩ hoff hn hshr ?_
    have hfile := ht.matched.file
    cases v with
    | false =>
      rw [next_false_cur] at hfile
      exact Or.inl ⟨ht.held rfl, hfile.trans hm.file.symm⟩
    | true =>
      have hh : a.phase ≠ .head := fun h => by have := (ht.quiet h).1; cases this
      obtain ⟨c, k, hph⟩ := phase_cases hh hd
      obtain ⟨r, -, hv, -, hS, hC⟩ := ht.ran hh
      have hjudged : Judged E a.cand r := by
        rcases hph with h | h
        · exact hS c k h
        · exact hC c k h
      rw [next_true_cur hph] at hfile
      exact Or.inr ⟨a.cur, a.cand, hm.file, hfile, (hjudged D hD).symm.trans hv.symm, cand_sublist a,
        (cand_shorter hph hm.wf).2⟩

/-- At every moment of a run of `ddmin` the held file is `X` or a failing reduction of it,
    each newly held file has fewer bytes, and the result is the file held last. -/
theorem ddmin_shrinks {E : Env} {p : Path} {fs : Fs} {X : Bytes} {D : Bytes → Bool}
    (hp : Unnamed E PartName (E.key p)) (hX : fs (E.key p) = some X) (hl : X.length ≤ 2 ^ 24) (hD : Judges E D)
    {s : St} (hs : (machine E (ddmin E p) fs).Reach s) :
    Shrinks E D X s.w ∧ ∀ q, s.ctl.pc = .ret q → q = s.w.own.held := by
  refine ⟨reach_shrinks hp hX hl hD hs, ?_⟩
  intro q hq
  obtain ⟨a, -, -, -, hheld⟩ := ret_tracked (ddmin_ready_of_judges hp hX hl hD) hs hq
  exact hheld

/-! ## Nothing else is touched -/

/-- Every entry of the directory that `ddmin` does not name keeps its bytes at every
    moment, whatever the sizes and verdicts. -/
theorem ddmin_frame {E : Env} {p : Path} {fs : Fs} {k : Key} (hk : Unnamed E PartName k) {s : St}
    (hs : (machine E (ddmin E p) fs).Reach s) : s.w.All fun _ fs' => fs' k = fs k := by
  have blind : ∀ {k' : Key}, k ≠ k' → Blind (fun (_ : Vars) fs' => fs' k = fs k) k' := fun hne v fs' c hP =>
    (Fs.put_ne _ _ hne).trans hP
  have test : ∀ i, Keeps (fun (_ : Vars) fs' => fs' k = fs k) (testBufferOverflow E (partFile i) (partFile i)) fun _ => True :=
    fun i => runTest_keeps E _ _ false (blind (key_stdoutPath E i ▸ hk _ (.out i)))
      (blind (key_stderrPath E i ▸ hk _ (.err i))) fun _ _ _ _ h => h
  have F : Framed E (ddmin E p) (fun _ fs' => fs' k = fs k) fun _ => True :=
    ⟨fun i _ => blind (key_partFile E i ▸ hk _ (.part i)), fun i _ => test i, fun i _ => test i⟩
  exact reach_keeps F (fun _ => trivial) (fun _ _ _ h => h) rfl hs

/-! ## Granularity -/

/-- In each round of two bytes or more `2 ≤ n ≤ f_size`, and in both inner loops the
    divisor is positive and the next part is not empty. -/
def Granular (E : Env) (s : St) : Prop :=
  match s.ctl.pc with
  | .entry => True
  | .head => ∃ T, s.w.fs (E.key s.w.own.held) = some T ∧ (1 < T.length → 2 ≤ s.ctl.n ∧ s.ctl.n ≤ T.length)
  | .subset l fSizeLeft nLeft => 2 ≤ s.ctl.n ∧ s.ctl.n ≤ l.fSize ∧ 0 < nLeft ∧ 0 < ceilfDiv fSizeLeft nLeft
  | .complement l cStart nLeft => 2 ≤ s.ctl.n ∧ s.ctl.n ≤ l.fSize ∧ 0 < nLeft ∧ 0 < ceilfDiv (l.fSize - cStart) nLeft
  | .ret _ => True
  | .exited e => e = .noProgramPath E.programPath
  | .hung => False

theorem ddmin_granular {E : Env} {p : Path} {fs : Fs} {X : Bytes} (hp : Unnamed E PartName (E.key p))
    (hX : fs (E.key p) = some X) (hl : X.length ≤ 2 ^ 24) {s : St} (hs : (machine E (ddmin E p) fs).Reach s) :
    Granular E s := by
  cases reach_tracked (ddmin_ready hp hX hl) hs with
  | start => trivial
  | noProgram _ he _ => rw [Granular, he]
  | loop a ha hm =>
    obtain ⟨⟨pc, n, fileNo⟩, w⟩ := s
    have hwf := hm.wf
    obtain rfl : n = a.n := hm.n
    have hpc := hm.pc
    cases hph : a.phase <;> cases pc <;> simp only [PcMatch, hph] at hpc
    · have hwf' := hwf.head hph
      refine ⟨a.cur, hm.file, ?_⟩
      intro h1
      simp only; omega
    · obtain ⟨j, -, -, hS, -, rfl, rfl⟩ := hpc
      rename_i c k _
      have hwf' := hwf.parts (Or.inl hph)
      have := hwf'.two_le; have := hwf'.le; have := hwf'.pos; have := hwf'.size_pos
      simp only [Granular, fSizeCeil hwf' hm.small, hS.fSize]
      omega
    · obtain ⟨j, -, -, hS, -, rfl, rfl⟩ := hpc
      rename_i c k _
      have hwf' := hwf.parts (Or.inr hph)
      have := hwf'.two_le; have := hwf'.le; have := hwf'.pos; have := hwf'.size_pos
      simp only [Granular, hS.fSize, fSizeCeil hwf' hm.small]
      omega
    · trivial

end DiyDdmin.Ddmin
