/-
  DiyDdmin.Ddmin.Dir — `ddmin_dir` against `ddmin`.

  The subset phase of `ddmin_dir` installs its candidate as `test_input` in the input
  directory and runs that; the complement phase runs the output file. A test writes the
  standard error of the program to `./<input_dir>.stderr` and exits where that file cannot
  be opened, as for most absolute paths. `Agrees` is what the two functions should have in
  common. Proved: they do exactly when the input has at most one byte, or this file can be
  opened, `test_input` is there to be replaced and halving alone brings the input down
  (`dir_agrees_iff`).
-/

import DiyDdmin.Ddmin.Results
import DiyDdmin.Ddmin.Halving

namespace DiyDdmin.Ddmin

open Posix Tester Numeric Systems Reduction Abstract

/-! ## Names -/

section

variable (E : Env)

theorem key_testInput {d : Path} (hd : d ≠ []) : E.key (testInput d) = E.key d ++ ["test_input".toList] :=
  resolve_slash E.cwd hd (by decide)

theorem key_dirPartFile (exeDir : Path) (i : Nat) :
    E.key (dirPartFile exeDir i) = E.key ("../".toList ++ exeDir) ++ [numbered [] i ".part".toList] :=
  resolve_slash E.cwd (by simp) (numbered_plain i (show '/' ∉ ([] : Name) by decide) (by decide))

theorem holds_dirPartFile {exeDir : Path} (h : E.dirs (E.key ("../".toList ++ exeDir)) = true) (i : Nat) :
    E.Holds (dirPartFile exeDir i) := by
  rw [Env.Holds, key_dirPartFile, List.dropLast_concat]
  exact h

/-- `./../<exe_dir>/N.part.stderr` is in `../<exe_dir>` too. -/
theorem holds_dirPart_stderr {exeDir : Path} (h : E.dirs (E.key ("../".toList ++ exeDir)) = true) (i : Nat) :
    E.Holds (stderrPath (dirPartFile exeDir i)) := by
  have e : stderrPath (dirPartFile exeDir i) =
      ('.' :: '/' :: ("../".toList ++ exeDir)) ++ '/' :: numbered [] i ".part.stderr".toList := by
    simp [stderrPath, dirPartFile, numbered]
  rw [Env.Holds, e, Env.key, resolve_slash E.cwd (by simp) (numbered_plain i (show '/' ∉ ([] : Name) by decide) (by decide)),
    List.dropLast_concat, resolve_dot _ (by simp)]
  exact h

theorem testInput_ne_side {d : Path} (hd : d ≠ []) (p : Path) :
    E.key (testInput d) ≠ E.key (stdoutPath p) ∧ E.key (testInput d) ≠ E.key (stderrPath p) := by
  obtain ⟨⟨k, n, ho⟩, k', n', he⟩ := side_suffix E p
  rw [ho, he, key_testInput E hd]
  exact ⟨last_ne (suffix_ne (n := []) (by decide) (by decide)), last_ne (suffix_ne (n := []) (by decide) (by decide))⟩

theorem dirPart_ne_side (exeDir p : Path) (i : Nat) :
    E.key (dirPartFile exeDir i) ≠ E.key (stdoutPath p) ∧ E.key (dirPartFile exeDir i) ≠ E.key (stderrPath p) := by
  obtain ⟨⟨k, n, ho⟩, k', n', he⟩ := side_suffix E p
  rw [ho, he, key_dirPartFile]
  change _ ++ [decimal i ++ ".part".toList] ≠ _ ∧ _ ++ [decimal i ++ ".part".toList] ≠ _
  exact ⟨last_ne (suffix_ne (by decide) (by decide)), last_ne (suffix_ne (by decide) (by decide))⟩

theorem testInput_ne_dirPart {d : Path} (hd : d ≠ []) (exeDir : Path) (i : Nat) :
    E.key (testInput d) ≠ E.key (dirPartFile exeDir i) := by
  rw [key_testInput E hd, key_dirPartFile]
  exact last_ne (ne_numbered (by decide) i _)

end

/-- A run of `ddmin_dir` as it is meant: two different directories, the program, and an
    input of at most 2^24 bytes in the second one's `test_input`. -/
structure DirInput (E : Env) (inputDir exeDir : Path) (X : Bytes) (fs : Fs) : Prop where
  named : inputDir ≠ []
  apart : E.key inputDir ≠ E.key ("../".toList ++ exeDir)
  exe : E.dirs (E.key ("../".toList ++ exeDir)) = true
  there : (fs (E.key inputDir)).isSome = true
  program : (fs (E.key E.programPath)).isSome = true
  first : fs (E.key (testInput ("../".toList ++ exeDir))) = some X
  small : X.length ≤ 2 ^ 24

/-- Given the input directory, the program's verdict is `D` of the bytes in `test_input`. -/
def JudgesDir (E : Env) (inputDir : Path) (D : Bytes → Bool) : Prop :=
  ∀ i fs c, fs (E.key (testInput inputDir)) = some c → verdict E.errMsg (E.program i inputDir fs) = D c

/-- The input directory is none of the files that `ddmin_dir` opens for its candidates. -/
def Apart (inputDir exeDir : Path) : Prop := ∀ i, inputDir ≠ dirPartFile exeDir i

/-- `test_input` is there to be replaced. -/
def Replaceable (E : Env) (inputDir : Path) (fs : Fs) : Prop := (fs (E.key (testInput inputDir))).isSome = true

/-- The run was given the input directory, with `test_input` holding its candidate, and
    answered as the program does there. -/
structure Installed (E : Env) (inputDir : Path) (c : Bytes) (t : Test) : Prop where
  given : t.given = inputDir
  testInput : t.fs (E.key (testInput inputDir)) = some c
  judged : ∀ D, JudgesDir E inputDir D → verdict E.errMsg t.outcome = D c

section

variable {E : Env} {inputDir exeDir : Path} {X : Bytes} {fs : Fs} (h : DirInput E inputDir exeDir X fs)
include h

theorem first_ne_input : E.key (testInput ("../".toList ++ exeDir)) ≠ E.key (testInput inputDir) := by
  rw [key_testInput E (by simp), key_testInput E h.named]
  intro e
  exact h.apart (List.append_inj' e rfl).1.symm

omit h in
theorem own_ne_side {k : Key} {i : Nat} (hk : Own E (ddminDir E inputDir exeDir) (fun _ => True) i k) (p : Path) :
    k ≠ E.key (stdoutPath p) ∧ k ≠ E.key (stderrPath p) := by
  rcases hk with ⟨rfl, -⟩ | ⟨j, rfl⟩
  · exact testInput_ne_side E (by simp) p
  · exact dirPart_ne_side E exeDir p j

theorem own_ne_input {k : Key} {i : Nat} (hk : Own E (ddminDir E inputDir exeDir) (fun _ => True) i k) :
    k ≠ E.key (testInput inputDir) := by
  rcases hk with ⟨rfl, -⟩ | ⟨j, rfl⟩
  · exact first_ne_input h
  · exact (testInput_ne_dirPart E h.named exeDir j).symm

theorem installAndTest_runs (hdir : E.Holds (stderrPath inputDir)) (i : Nat) :
    Runs E (ddminDir E inputDir exeDir) (fun _ => True) (Replaceable E inputDir) (Installed E inputDir) i
      (installAndTest E inputDir (dirPartFile exeDir i)) := by
  intro w c hG hc
  have hown : Own E (ddminDir E inputDir exeDir) (fun _ => True) i (E.key (dirPartFile exeDir i)) := Or.inr ⟨i, rfl⟩
  have hside := testInput_ne_side E h.named inputDir
  obtain ⟨w2, hcopy, hown2, hti, hother⟩ := copy_run (E := E)
    (w := ⟨w.fs.put (E.key (testInput inputDir)) none, w.own, w.past ++ [(w.own, w.fs)]⟩) (c := c)
    ((Fs.put_ne _ _ (own_ne_input h hown)).trans hc) (Fs.put_same _ _ _)
  have hkeep : ∀ k, k ≠ E.key (testInput inputDir) → Fs.Same w.fs w2.fs k := fun k hk =>
    (Fs.Same.put _ _ hk).trans (hother k hk)
  obtain ⟨w', hrun, hown', hfs⟩ := runTest_spec E inputDir (dirPartFile exeDir i) false (side_ne E inputDir) hdir w2
  refine ⟨testOf E inputDir (dirPartFile exeDir i) (stderrPath inputDir) w2, w', ?_, by rw [hown', hown2], ?_, ?_, rfl, ?_, ?_⟩
  · rw [Replaceable] at hG
    simp only [installAndTest, remove, act_bind, hG, not_true_eq_false, if_false]
    rw [bind_ok hcopy]
    exact hrun
  · rw [Replaceable, (hfs _ hside.1 hside.2).1, hti]; rfl
  · intro k hk
    exact (hkeep k (own_ne_input h hk)).trans (hfs _ (own_ne_side hk _).1 (own_ne_side hk _).2)
  · exact (Fs.put_ne _ _ (own_ne_side hown _).2).trans ((hkeep _ (own_ne_input h hown)).1.trans hc)
  · have hseen : (w2.fs.put (E.key (stderrPath inputDir)) (some [])) (E.key (testInput inputDir)) = some c :=
      (Fs.put_ne _ _ hside.2).trans hti
    exact ⟨rfl, hseen, fun D hD => hD _ _ _ hseen⟩

theorem testDirPart_runs (i : Nat) :
    Runs E (ddminDir E inputDir exeDir) (fun _ => True) (Replaceable E inputDir) (fun _ t => t.given = dirPartFile exeDir i) i
      (testBufferOverflow E (dirPartFile exeDir i) (dirPartFile exeDir i)) := by
  intro w c hG hc
  have hside := testInput_ne_side E h.named (dirPartFile exeDir i)
  obtain ⟨w', hrun, hown, hfs⟩ := runTest_spec E (dirPartFile exeDir i) (dirPartFile exeDir i) false (side_ne E _)
    (holds_dirPart_stderr E h.exe i) w
  refine ⟨testOf E _ _ _ w, w', hrun, hown, ?_, fun k hk => hfs _ (own_ne_side hk _).1 (own_ne_side hk _).2, rfl,
    (Fs.put_ne _ _ (dirPart_ne_side E exeDir _ i).2).trans hc, rfl⟩
  rw [Replaceable, (hfs _ hside.1 hside.2).1]; exact hG

/-- Whatever follows from the path the program is given is known of a run of the complement
    phase. -/
theorem dir_layout_of {seen : Bytes → Test → Prop} (hdir : E.Holds (stderrPath inputDir))
    (hseen : ∀ i c t, t.given = dirPartFile exeDir i → seen c t) :
    Layout E (ddminDir E inputDir exeDir) (fun _ => True) (Replaceable E inputDir) (Installed E inputDir) seen where
  partInj i j e := by
    change E.key (dirPartFile exeDir i) = E.key (dirPartFile exeDir j) at e
    rw [key_dirPartFile, key_dirPartFile] at e
    exact (numbered_inj (by decide) (by decide) (List.singleton_injective (List.append_cancel_left e))).1
  firstNe i := testInput_ne_dirPart E (by simp) exeDir i
  holds := holds_dirPartFile E h.exe
  part i fs fs' hG hk := by
    rw [Replaceable, hk _ (testInput_ne_dirPart E h.named exeDir i)]; exact hG
  subset := installAndTest_runs h hdir
  complement i := fun w c hG hc => by
    obtain ⟨t, w', h1, h2, h3, h4, h5, h6, h7⟩ := testDirPart_runs h i w c hG hc
    exact ⟨t, w', h1, h2, h3, h4, h5, h6, hseen i c t h7⟩

theorem dir_layout (hpart : Apart inputDir exeDir) (hdir : E.Holds (stderrPath inputDir)) :
    Layout E (ddminDir E inputDir exeDir) (fun _ => True) (Replaceable E inputDir) (Installed E inputDir)
      fun _ t => t.given ≠ inputDir :=
  dir_layout_of h hdir fun i _ _ hg e => hpart i (e.symm.trans hg)

theorem dir_ready_of {seen : Bytes → Test → Prop} (hdir : E.Holds (stderrPath inputDir))
    (hseen : ∀ i c t, t.given = dirPartFile exeDir i → seen c t) (hti : Replaceable E inputDir fs) :
    Ready E (ddminDir E inputDir exeDir) (Replaceable E inputDir) (Installed E inputDir) seen (fun _ _ => True) X fs :=
  ⟨dir_layout_of h hdir hseen, hti, h.there, h.first, h.small, fun _ _ _ => trivial, fun _ _ _ => trivial⟩

theorem dir_ready (hpart : Apart inputDir exeDir) (hdir : E.Holds (stderrPath inputDir)) (hti : Replaceable E inputDir fs) :
    Ready E (ddminDir E inputDir exeDir) (Replaceable E inputDir) (Installed E inputDir) (fun _ t => t.given ≠ inputDir)
      (fun _ _ => True) X fs :=
  dir_ready_of h hdir (fun i _ _ hg e => hpart i (e.symm.trans hg)) hti

end

/-! ## Agreement -/

/-- Every candidate is judged by `D` as installed in `test_input`, and the run returns what
    `ddmin` returns for `D`, after the same candidates. -/
structure Agrees (E : Env) (inputDir exeDir : Path) (D : Bytes → Bool) (X : Bytes) (fs : Fs) : Prop where
  installed : ∀ s, (machine E (ddminDir E inputDir exeDir) fs).Reach s → ∀ t ∈ s.w.own.tests,
    ∃ c, candOf E t = some c ∧ t.given = inputDir ∧ t.fs (E.key (testInput inputDir)) = some c ∧
      verdict E.errMsg t.outcome = D c
  same : ∃ s q, (machine E (ddminDir E inputDir exeDir) fs).Ends s ∧ s.ctl.pc = .ret q ∧
    ∀ E' p' fs', Judges E' D → Unnamed E' PartName (E'.key p') → fs' (E'.key p') = some X →
      ∀ s' q', (machine E' (ddmin E' p') fs').Reach s' → s'.ctl.pc = .ret q' →
        s.w.own.tests.map (candOf E) = s'.w.own.tests.map (candOf E') ∧ s.w.fs (E.key q) = s'.w.fs (E'.key q')

section

variable {E : Env} {inputDir exeDir : Path} {X : Bytes} {fs : Fs} {D : Bytes → Bool}

/-- Every run so far was on the installed candidate. -/
def AllInstalled (E : Env) (inputDir : Path) (D : Bytes → Bool) (s : St) : Prop :=
  ∀ t ∈ s.w.own.tests, ∃ c, candOf E t = some c ∧ t.given = inputDir ∧
    t.fs (E.key (testInput inputDir)) = some c ∧ verdict E.errMsg t.outcome = D c

variable (h : DirInput E inputDir exeDir X fs) (hpart : Apart inputDir exeDir) (hdir : E.Holds (stderrPath inputDir))
  (hJ : JudgesDir E inputDir D)
include h

section

include hpart hdir hJ

/-- Outside the complement phase a turn is the one `D` gives, and installs its candidate. -/
theorem dir_turn {s : St} {a : Abs UInt8}
    (hm : Match E (ddminDir E inputDir exeDir) (Replaceable E inputDir) s a) (hd : a.phase ≠ .done)
    (hc : ∀ c k, a.phase ≠ .complement c k) :
    ∃ s', next E (ddminDir E inputDir exeDir) s = some s' ∧
      Match E (ddminDir E inputDir exeDir) (Replaceable E inputDir) s' (a.next (D a.cand)) ∧
      (AllInstalled E inputDir D s → AllInstalled E inputDir D s') := by
  obtain ⟨s', v, ht⟩ := match_next (dir_layout h hpart hdir) hm spared_all hd
  refine ⟨s', ht.next, ?_⟩
  by_cases hp : a.phase = .head
  · have htests := (ht.quiet hp).2
    refine ⟨?_, fun hall t htt => hall t (htests ▸ htt)⟩
    have := ht.matched
    rwa [next_head hp] at this ⊢
  · obtain ⟨c, k, hph⟩ := phase_cases hp hd
    have hph := hph.resolve_right (hc c k)
    obtain ⟨t, htests, hv, hcand, hS, -⟩ := ht.ran hp
    have hI : Installed E inputDir a.cand t := hS c k hph
    have hvD : verdict E.errMsg t.outcome = D a.cand := hI.judged D hJ
    refine ⟨by rw [← hvD, ← hv]; exact ht.matched, ?_⟩
    intro hall t' ht'
    rw [htests] at ht'
    rcases List.mem_append.mp ht' with ht' | ht'
    · exact hall t' ht'
    · rw [List.mem_singleton.mp ht']
      exact ⟨a.cand, hcand, hI.given, hI.testInput, hvD⟩

/-- While halving goes through, the run is the one of `det D`. -/
theorem dir_follows (hti : Replaceable E inputDir fs) (hX : Halves D X) {s : St}
    (hs : (machine E (ddminDir E inputDir exeDir) fs).Reach s) :
    s = start (ddminDir E inputDir exeDir) fs ∨ AllInstalled E inputDir D s ∧ ∃ a, (det D X).Reach a ∧
      Match E (ddminDir E inputDir exeDir) (Replaceable E inputDir) s a := by
  refine hs.invariant (P := fun s => s = start (ddminDir E inputDir exeDir) fs ∨ AllInstalled E inputDir D s ∧
    ∃ a, (det D X).Reach a ∧ Match E (ddminDir E inputDir exeDir) (Replaceable E inputDir) s a) (Or.inl rfl)
    fun s t _ hs hn => Or.inr ?_
  change next E (ddminDir E inputDir exeDir) s = some t at hn
  rcases hs with rfl | ⟨hall, a, ha, hm⟩
  · obtain ⟨t', ht', -, -, hown, hm⟩ := enter (dir_ready h hpart hdir hti) h.program
    obtain rfl : t' = t := Option.some.inj (ht'.symm.trans hn)
    exact ⟨fun t ht => (by rw [hown] at ht; cases ht), _, Machine.Reach.init, hm⟩
  · have hd : a.phase ≠ .done := fun hd => by rw [(match_done hm).mp hd] at hn; cases hn
    obtain ⟨t', ht', hm', hall'⟩ := dir_turn h hpart hdir hJ hm hd (halves_iff.mpr hX a ha)
    obtain rfl : t' = t := Option.some.inj (ht'.symm.trans hn)
    exact ⟨hall' hall, _, Reach.det_step ha hd, hm'⟩

/-- Every state of `det D` is matched, or some run was not given the input directory. -/
theorem dir_matches (hti : Replaceable E inputDir fs) {a : Abs UInt8}
    (ha : (det D X).Reach a) :
    (∃ s, (machine E (ddminDir E inputDir exeDir) fs).Reach s ∧
      Match E (ddminDir E inputDir exeDir) (Replaceable E inputDir) s a) ∨
    ∃ s, (machine E (ddminDir E inputDir exeDir) fs).Reach s ∧ ∃ t ∈ s.w.own.tests, t.given ≠ inputDir := by
  refine Machine.Reach.invariant (M := det D X) (P := fun a =>
    (∃ s, (machine E (ddminDir E inputDir exeDir) fs).Reach s ∧
      Match E (ddminDir E inputDir exeDir) (Replaceable E inputDir) s a) ∨
    ∃ s, (machine E (ddminDir E inputDir exeDir) fs).Reach s ∧ ∃ t ∈ s.w.own.tests, t.given ≠ inputDir) ?_ ?_ ha
  · obtain ⟨t, ht, -, -, -, hm⟩ := enter (dir_ready h hpart hdir hti) h.program
    exact Or.inl ⟨t, Machine.Reach.init.next ht, hm⟩
  · intro a b _ ih hn
    obtain ⟨hd, rfl⟩ := det_next.mp hn
    rcases ih with ⟨s, hs, hm⟩ | hbad
    · by_cases hc : ∃ c k, a.phase = .complement c k
      · -- the complement phase runs the output file
        obtain ⟨c, k, hp⟩ := hc
        obtain ⟨s', v, ht⟩ := match_next (dir_layout h hpart hdir) hm spared_all hd
        obtain ⟨t, htests, -, -, -, hC⟩ := ht.ran (by rw [hp]; simp)
        exact Or.inr ⟨s', hs.next ht.next, t, by rw [htests]; simp, hC c k hp⟩
      · obtain ⟨s', hn', hm', -⟩ := dir_turn h hpart hdir hJ hm hd fun c k hp => hc ⟨c, k, hp⟩
        exact Or.inl ⟨s', hs.next hn', hm'⟩
    · exact Or.inr hbad

end

omit h in
/-- `ddmin` run with `D` ends where `det D` does. -/
theorem ddmin_det {p : Path} (hp : Unnamed E PartName (E.key p)) (hX : fs (E.key p) = some X) (hl : X.length ≤ 2 ^ 24)
    (hD : Judges E D) {s : St} (hs : (machine E (ddmin E p) fs).Reach s) {q : Path} (hq : s.ctl.pc = .ret q) :
    ∃ a, (det D X).Ends a ∧ s.w.own.tests.map (candOf E) = a.tried.map some ∧ s.w.fs (E.key q) = some a.cur := by
  obtain ⟨a, ha, hm, hd, rfl⟩ := ret_tracked (ddmin_ready_of_judges hp hX hl hD) hs hq
  exact ⟨a, det_ends_of_done (reach_det (fun _ _ h => h) ha) hd, hm.tried, hm.file⟩

theorem same_of_ends {s : St} {q : Path} {a : Abs UInt8} (ha : (det D X).Ends a)
    (htried : s.w.own.tests.map (candOf E) = a.tried.map some) (hfile : s.w.fs (E.key q) = some a.cur)
    (E' : Env) (p' : Path) (fs' : Fs) (hD : Judges E' D) (hp : Unnamed E' PartName (E'.key p'))
    (hX : fs' (E'.key p') = some X) (s' : St) (q' : Path) (hs : (machine E' (ddmin E' p') fs').Reach s')
    (hq : s'.ctl.pc = .ret q') :
    s.w.own.tests.map (candOf E) = s'.w.own.tests.map (candOf E') ∧ s.w.fs (E.key q) = s'.w.fs (E'.key q') := by
  obtain ⟨b, hb, htried', hfile'⟩ := ddmin_det hp hX h.small hD hs hq
  obtain rfl := ha.unique hb
  exact ⟨htried.trans htried'.symm, hfile.trans hfile'.symm⟩

theorem agrees_of_halves (hpart : Apart inputDir exeDir) (hdir : E.Holds (stderrPath inputDir)) (hJ : JudgesDir E inputDir D) (hti : Replaceable E inputDir fs) (hX : Halves D X) :
    Agrees E inputDir exeDir D X fs := by
  obtain ⟨t, ht, -⟩ := enter (dir_ready h hpart hdir hti) h.program
  constructor
  · intro s hs t' ht'
    rcases dir_follows h hpart hdir hJ hti hX hs with rfl | ⟨hall, -⟩
    · cases ht'
    · exact hall t' ht'
  · obtain ⟨s, hs, hn⟩ := ends (dir_ready h hpart hdir hti)
    change next E _ s = none at hn
    rcases dir_follows h hpart hdir hJ hti hX hs with rfl | ⟨-, a, ha, hm⟩
    · rw [ht] at hn; cases hn
    · have hd := (match_done hm).mpr hn
      have hpc := hm.pc
      rw [PcMatch, hd] at hpc
      cases hq : s.ctl.pc with
      | ret q =>
        rw [hq] at hpc
        obtain rfl : q = s.w.own.held := hpc
        exact ⟨s, _, ⟨hs, hn⟩, hq, same_of_ends h (det_ends_of_done ha hd) hm.tried hm.file⟩
      | _ => rw [hq] at hpc; exact hpc.elim

/-- With at most one byte the run is two turns, and tries nothing. -/
theorem short_run (hX : X.length ≤ 1) : ∃ s1 s2, next E (ddminDir E inputDir exeDir) (start (ddminDir E inputDir exeDir) fs) = some s1 ∧
    next E (ddminDir E inputDir exeDir) s1 = some s2 ∧ s2.ctl.pc = .ret (testInput ("../".toList ++ exeDir)) ∧
    s1.w.own.tests = [] ∧ s2.w.own.tests = [] ∧ s2.w.fs = fs := by
  have hp := h.program
  have hin := h.there
  let w1 : World Vars := ⟨fs, ⟨testInput ("../".toList ++ exeDir), []⟩, [(⟨testInput ("../".toList ++ exeDir), []⟩, fs)]⟩
  have hbt : byteCountFile E w1.own.held w1 = .ok X.length w1 := byteCountFile_run h.first
  refine ⟨⟨⟨.head, 2, 0⟩, w1⟩, ⟨⟨.ret (testInput ("../".toList ++ exeDir)), 2, 0⟩, w1⟩, ?_, ?_, rfl, rfl, rfl, rfl⟩
  · exact next_run rfl (by simp [entryTurn, access, ddminDir, hp, hin, hold, w1])
  · apply next_run rfl
    simp only [headTurn, look_bind]
    rw [bind_ok hbt, if_neg (by omega)]
    rfl

theorem agrees_of_short (hX : X.length ≤ 1) : Agrees E inputDir exeDir D X fs := by
  obtain ⟨s1, s2, h1, h2, hq, ht1, ht2, hfs⟩ := short_run h hX
  have hend : next E (ddminDir E inputDir exeDir) s2 = none := by simp [next, Loop.next, loop, turn, hq]
  have htests : ∀ s, (machine E (ddminDir E inputDir exeDir) fs).Reach s → s.w.own.tests = [] := by
    intro s hs
    have hcases := hs.invariant (P := fun s => s = start (ddminDir E inputDir exeDir) fs ∨ s = s1 ∨ s = s2) (Or.inl rfl)
      fun s t _ hs hn => by
        change next E _ s = some t at hn
        rcases hs with rfl | rfl | rfl
        · exact Or.inr (Or.inl (Option.some.inj (hn.symm.trans h1)))
        · exact Or.inr (Or.inr (Option.some.inj (hn.symm.trans h2)))
        · rw [hend] at hn; cases hn
    rcases hcases with rfl | rfl | rfl
    · rfl
    · exact ht1
    · exact ht2
  have hr : (machine E (ddminDir E inputDir exeDir) fs).Reach s2 := (Machine.Reach.init.next h1).next h2
  have hdone : (det D X).Reach { Abs.init X with phase := .done } := by
    have : (Abs.init X).next (D (Abs.init X).cand) = { Abs.init X with phase := .done } :=
      if_neg (Nat.not_lt.mpr hX)
    exact this ▸ Reach.det_step (D := D) Machine.Reach.init (by simp [Abs.init])
  refine ⟨fun s hs t ht => (by rw [htests s hs] at ht; cases ht), s2, _, ⟨hr, hend⟩, hq, ?_⟩
  exact same_of_ends h (det_ends_of_done hdone rfl) (by rw [ht2]; rfl) (by rw [hfs]; exact h.first)

/-- Without a `test_input` to replace, or room for what the program says, no run is ever
    given the input directory. -/
theorem none_installed (hpart : Apart inputDir exeDir) (hno : ¬ (E.Holds (stderrPath inputDir) ∧ Replaceable E inputDir fs)) {s : St}
    (hs : (machine E (ddminDir E inputDir exeDir) fs).Reach s) : ∀ t ∈ s.w.own.tests, t.given ≠ inputDir := by
  let P : Vars → Fs → Prop := fun v fs =>
    (E.Holds (stderrPath inputDir) → fs (E.key (testInput inputDir)) = none) ∧ ∀ t ∈ v.tests, t.given ≠ inputDir
  have blind : ∀ {k : Key}, E.key (testInput inputDir) ≠ k → Blind P k := fun hne v fs c hP =>
    ⟨fun hd => (Fs.put_ne _ _ hne).trans (hP.1 hd), hP.2⟩
  have hsub : ∀ i, Keeps P (installAndTest E inputDir (dirPartFile exeDir i)) fun _ => True := by
    intro i
    have hremove : Keeps P (remove (E.key (testInput inputDir)) : Code Bool) fun gone => E.Holds (stderrPath inputDir) → gone = false :=
      Keeps.act fun v fs hP => ⟨⟨fun _ => Fs.put_same _ _ _, hP.2⟩, fun hd => by rw [hP.1 hd]; rfl⟩
    refine Keeps.bind hremove fun gone hgone => Keeps.ite (fun _ => Keeps.exit) fun hg => ?_
    -- `test_input` was there, so the test ends at its standard error file
    have hd : ¬ E.Holds (stderrPath inputDir) := fun hd => absurd (hgone hd) (by simpa using hg)
    refine Keeps.bind (copy_keeps E _ fun v fs c hP => ⟨fun h => absurd h hd, hP.2⟩) fun _ _ => ?_
    exact Keeps.bind (fopenWrite_null hd) fun o ho => Keeps.ite (fun _ => Keeps.exit) fun hne => absurd (by rw [ho]; rfl) hne
  have hcomp : ∀ i, Keeps P (testBufferOverflow E (dirPartFile exeDir i) (dirPartFile exeDir i)) fun _ => True := by
    intro i
    have hside := testInput_ne_side E h.named (dirPartFile exeDir i)
    refine runTest_keeps E _ _ false (blind hside.1) (blind hside.2) fun v fs t ht hP => ⟨hP.1, fun t' ht' => ?_⟩
    rcases List.mem_append.mp ht' with ht' | ht'
    · exact hP.2 t' ht'
    · rw [List.mem_singleton.mp ht', ht]
      exact (hpart i).symm
  have F : Framed E (ddminDir E inputDir exeDir) P fun _ => True :=
    ⟨fun i _ => blind (testInput_ne_dirPart E h.named exeDir i), fun i _ => hsub i, fun i _ => hcomp i⟩
  have hnone : E.Holds (stderrPath inputDir) → fs (E.key (testInput inputDir)) = none := fun hd => by
    simpa [Replaceable] using not_and.mp hno hd
  exact (reach_keeps F (fun _ => trivial) (fun _ _ _ hP => hP) ⟨hnone, nofun⟩ hs).1.2

omit h in
/-- Without room for what the program says the first test ends the run. -/
theorem none_tested (hdir : ¬ E.Holds (stderrPath inputDir)) {s : St} (hs : (machine E (ddminDir E inputDir exeDir) fs).Reach s) :
    s.w.own.tests = [] := by
  let P : Vars → Fs → Prop := fun v _ => v.tests = []
  let Q : Ctl → Prop := fun c => match c.pc with
    | .subset l _ _ => l.Off (ddminDir E inputDir exeDir) P fun _ => True
    | .complement _ _ _ => False
    | _ => True
  have blind : ∀ k, Blind P k := fun _ _ _ _ h => h
  have hpart : ∀ i, True → Blind P (E.key ((ddminDir E inputDir exeDir).outFile i)) := fun i _ => blind _
  have hsub : ∀ i, Keeps P (installAndTest E inputDir (dirPartFile exeDir i)) fun _ => False := by
    intro i
    refine Keeps.bind (remove_keeps (blind _)) fun gone _ => Keeps.ite (fun _ => Keeps.exit) fun _ => ?_
    refine Keeps.bind (copy_keeps E _ (blind _)) fun _ _ => Keeps.bind (fopenWrite_null hdir) fun o ho => ?_
    exact Keeps.ite (fun _ => Keeps.exit) fun hne => absurd (by rw [ho]; rfl) hne
  have hturn : ∀ c x, Q c → turn E (ddminDir E inputDir exeDir) c = some x → Keeps P x Q := by
    rintro ⟨pc, n, fileNo⟩ x hc hx
    cases pc with
    | entry =>
      cases hx
      refine Keeps.bind Keeps.read fun a _ => Keeps.ite (fun _ => Keeps.exit) fun _ => ?_
      refine Keeps.bind Keeps.read fun b _ => Keeps.ite (fun _ => Keeps.exit) fun _ => ?_
      exact Keeps.bind (Q := fun _ => True) (Keeps.act fun v fs hP => ⟨hP, trivial⟩) fun _ _ => Keeps.pure trivial
    | head =>
      cases hx
      refine Keeps.bind Keeps.read fun held _ => Keeps.bind (byteCountFile_keeps E _) fun fSize _ => ?_
      refine Keeps.ite (fun _ => Keeps.bind Keeps.read fun inFp _ => ?_) fun _ => Keeps.pure trivial
      cases inFp with
      | none => exact Keeps.exit
      | some inFp =>
        refine Keeps.bind (fopenWrite_keeps (blind _)) fun o ho => ?_
        cases o with
        | none => exact Keeps.exit
        | some o => exact Keeps.pure ⟨ho o rfl, fileNo, trivial, rfl⟩
    | subset l f k =>
      cases hx
      refine Keeps.bind (writeSubset_keeps hpart hc _) fun l' hl' => ?_
      obtain ⟨j, -, hj⟩ := hl'.2
      have hnever : Keeps P ((ddminDir E inputDir exeDir).testSubset l'.outFile) fun _ => False := hj ▸ hsub j
      exact Keeps.bind hnever fun _ hf => hf.elim
    | complement l f k => exact hc.elim
    | ret p => cases hx
    | exited e => cases hx
    | hung => cases hx
  exact (Loop.reach_keeps (L := loop E (ddminDir E inputDir exeDir)) (Q := Q) hturn (fun _ _ => trivial) (fun _ => trivial)
    (start (ddminDir E inputDir exeDir) fs) ⟨⟨rfl, fun _ hm => nomatch hm⟩, trivial⟩ hs).1

omit h in
/-- From two elements on something is tried. -/
theorem det_tries (hX : 1 < X.length) {a : Abs UInt8} (ha : (det D X).Ends a) : a.tried ≠ [] := by
  have hinv := Machine.Reach.invariant (M := det D X) (P := fun a => a.tried ≠ [] ∨ a.phase ≠ .done ∧ 1 < a.cur.length)
    (Or.inr ⟨by simp [det, Abs.init], hX⟩) (fun a b _ hs hn => by
      obtain ⟨hd, rfl⟩ := det_next.mp hn
      cases hp : a.phase with
      | head =>
        rcases hs with hs | ⟨-, hlt⟩
        · left; simp only [Abs.next, hp]; split <;> exact hs
        · right; simp only [Abs.next, hp, if_pos hlt]; exact ⟨by simp, hlt⟩
      | subset c k => left; simp only [Abs.next, hp]; split <;> simp
      | complement c k => left; simp only [Abs.next, hp]; split <;> (try split) <;> (try split) <;> simp
      | done => exact absurd hp hd) ha.1
  have hdone : a.phase = .done := by
    by_contra hd
    have := ha.2
    simp [det, hd] at this
  exact hinv.resolve_right fun hr => hr.1 hdone

theorem halves_of_agrees (hpart : Apart inputDir exeDir) (hJ : JudgesDir E inputDir D) (hA : Agrees E inputDir exeDir D X fs)
    (hX : 1 < X.length) : E.Holds (stderrPath inputDir) ∧ Replaceable E inputDir fs ∧ Halves D X := by
  have hboth : E.Holds (stderrPath inputDir) ∧ Replaceable E inputDir fs := by
    by_contra hno
    -- `ddmin` tries something, `ddmin_dir` never gets to
    obtain ⟨s, q, hs, -, hsame⟩ := hA.same
    have hin : Unnamed (judging D) PartName ((judging D).key "in".toList) := unnamed_part (by decide) (by decide)
    let fs' : Fs := .of fun k => if k = ["in".toList] then some X else some []
    have hfs' : fs' ((judging D).key "in".toList) = some X := by
      rw [Env.key, resolve_plain _ (by decide)]; rfl
    obtain ⟨s', q', hs', hq'⟩ := returns (ddmin_ready_of_judges hin hfs' h.small (judging_judges D)) (by
      simp only [fs', Fs.of_entry]; split <;> rfl)
    obtain ⟨a, ha, htried, -⟩ := ddmin_det hin hfs' h.small (judging_judges D) hs'.1 hq'
    have hnone : s.w.own.tests = [] := by
      apply List.eq_nil_iff_forall_not_mem.mpr
      intro t ht
      obtain ⟨c, -, hg, -⟩ := hA.installed s hs.1 t ht
      exact none_installed h hpart hno hs.1 t ht hg
    have := (hsame _ _ _ (judging_judges D) hin hfs' s' q' hs'.1 hq').1
    rw [hnone, htried] at this
    exact det_tries hX ha (List.map_eq_nil_iff.mp this.symm)
  obtain ⟨hdir, hti⟩ := hboth
  refine ⟨hdir, hti, halves_iff.mp ?_⟩
  intro a ha c k hp
  have good : ∀ s, (machine E (ddminDir E inputDir exeDir) fs).Reach s → ∀ t ∈ s.w.own.tests, t.given = inputDir :=
    fun s hs t ht => by obtain ⟨-, -, hg, -⟩ := hA.installed s hs t ht; exact hg
  -- a turn of the complement phase would run the output file
  rcases dir_matches h hpart hdir hJ hti ha with ⟨s, hs, hm⟩ | ⟨s, hs, t, ht, hg⟩
  · obtain ⟨s', v, ht⟩ := match_next (dir_layout h hpart hdir) hm spared_all (by rw [hp]; simp)
    obtain ⟨t, htests, -, -, -, hC⟩ := ht.ran (by rw [hp]; simp)
    exact hC c k hp (good s' (hs.next ht.next) t (by rw [htests]; simp))
  · exact hg (good s hs t ht)

/-- `ddmin_dir` agrees with `ddmin` exactly when there is nothing to try, or the test can
    open its standard error file `./<input_dir>.stderr`, `test_input` can be replaced, and
    halving alone brings the input down. -/
theorem dir_agrees_iff (hpart : Apart inputDir exeDir) (hJ : JudgesDir E inputDir D) :
    Agrees E inputDir exeDir D X fs ↔
      X.length ≤ 1 ∨ E.Holds (stderrPath inputDir) ∧ Replaceable E inputDir fs ∧ Halves D X := by
  constructor
  · intro hA
    by_cases hX : X.length ≤ 1
    · exact Or.inl hX
    · exact Or.inr (halves_of_agrees h hpart hJ hA (by omega))
  · rintro (hX | ⟨hdir, hti, hX⟩)
    · exact agrees_of_short h hX
    · exact agrees_of_halves h hpart hdir hJ hti hX

end

/-- A program that reads `test_input` in the directory it is given, run in `run`. -/
def dirJudging (D : Bytes → Bool) : Env where
  cwd := ["run".toList]
  dirs k := decide (k ∈ [["run".toList], ["run".toList, "in".toList], ["exe".toList]])
  cwd_dir := by decide
  io := ⟨fun m => (4096 - m % 4096) % 4096, fun n => n - n % 4096⟩
  programPath := "prog".toList
  program _ p fs := ⟨.noError, [], if ((fs (resolve ["run".toList] (testInput p))).map D).getD false then [33] else []⟩
  errMsg := [33]

/-- The program, the input directory, and `X` both there and in `../exe`. -/
def dirFs (X : Bytes) : Fs := .of fun k =>
  if k = ["run".toList, "prog".toList] ∨ k = ["run".toList, "in".toList] then some []
  else if k = ["run".toList, "in".toList, "test_input".toList] ∨ k = ["exe".toList, "test_input".toList] then some X
  else none

def firstAndLast (c : Bytes) : Bool := c.contains 1 && c.contains 3

theorem dirJudging_judges (D : Bytes → Bool) : JudgesDir (dirJudging D) "in".toList D := by
  intro i fs c hc
  change fs (resolve ["run".toList] (testInput "in".toList)) = some c at hc
  simp only [dirJudging, hc, verdict, Option.map_some, Option.getD_some]
  cases D c <;> decide

theorem dirJudging_input {D : Bytes → Bool} {X : Bytes} (hX : X.length ≤ 2 ^ 24) :
    DirInput (dirJudging D) "in".toList "exe".toList X (dirFs X) where
  named := by decide
  apart := by change resolve ["run".toList] "in".toList ≠ resolve ["run".toList] ("../".toList ++ "exe".toList); decide
  exe := by
    change decide (resolve ["run".toList] ("../".toList ++ "exe".toList) ∈ [["run".toList], ["run".toList, "in".toList], ["exe".toList]]) = true
    decide
  there := by
    change (dirFs X (resolve ["run".toList] "in".toList)).isSome = true
    rw [show resolve ["run".toList] "in".toList = ["run".toList, "in".toList] by decide]; rfl
  program := by
    change (dirFs X (resolve ["run".toList] "prog".toList)).isSome = true
    rw [show resolve ["run".toList] "prog".toList = ["run".toList, "prog".toList] by decide]; rfl
  first := by
    change dirFs X (resolve ["run".toList] (testInput ("../".toList ++ "exe".toList))) = some X
    rw [show resolve ["run".toList] (testInput ("../".toList ++ "exe".toList)) = ["exe".toList, "test_input".toList] by decide]
    rfl
  small := hX

theorem in_apart : Apart "in".toList "exe".toList := fun i e => by
  have := congrArg List.head? e
  simp [dirPartFile] at this

theorem dir_agrees_iff_three : Agrees (dirJudging firstAndLast) "in".toList "exe".toList firstAndLast [1, 2, 3] (dirFs [1, 2, 3]) ↔
    [1, 2, 3].length ≤ 1 ∨ (dirJudging firstAndLast).Holds (stderrPath "in".toList) ∧
      Replaceable (dirJudging firstAndLast) "in".toList (dirFs [1, 2, 3]) ∧ Halves firstAndLast [1, 2, 3] :=
  dir_agrees_iff (dirJudging_input (by decide)) in_apart (dirJudging_judges _)

/-- Where the failure needs the first and the last byte the halves both pass, and the
    complement phase runs files the program was never meant to be given. -/
theorem dir_runs_uninstalled_complements :
    ¬ Agrees (dirJudging firstAndLast) "in".toList "exe".toList firstAndLast [1, 2, 3] (dirFs [1, 2, 3]) := by
  intro hA
  obtain ⟨-, -, hH⟩ := halves_of_agrees (dirJudging_input (by decide)) in_apart (dirJudging_judges _) hA (by decide)
  cases hH with
  | one h => revert h; decide
  | left h => revert h; decide
  | right _ h => revert h; decide

end DiyDdmin.Ddmin
