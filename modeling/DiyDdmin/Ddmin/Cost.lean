/-
  DiyDdmin.Ddmin.Cost — how many tests `ddmin` and `ddmin_dir` run.

  A round in `n` parts tests at most `2 * n` candidates. Where it accepts none, `n` doubles
  up to the length, so the rounds on one sequence of `f` elements test at most `6 * f`;
  where it accepts one, fewer elements are left. `rounds f n` pays for all of that from the
  head of a round, and each phase gives up one unit for each candidate tried.

  Proved: for any verdicts, `f` elements take at most `f * f + 5 * f - 6` tests
  (`ddmin_tests_le`); and where halving goes through, as it does for a failure that no cut
  into two pieces tears apart, at most `2 * ⌈log₂ f⌉` (`ddmin_bisects`).
-/

import DiyDdmin.Ddmin.Dir
import Mathlib.Data.Nat.Log

namespace DiyDdmin.Ddmin.Abstract

open Systems Reduction

/-! ## What is paid for -/

/-- What the rounds from here on may cost, with `f` elements in `n` parts. -/
def rounds (f n : Nat) : Nat := if 1 < f then f * f + 5 * f - 2 - (if n = f then 4 * f else 2 * n) else 0

section

variable {f n p : Nat}

theorem rounds_short (h : f ≤ 1) : rounds f n = 0 := by rw [rounds, if_neg (by omega)]

theorem rounds_add (h2 : 2 ≤ n) (hn : n ≤ f) : rounds f n + (if n = f then 4 * f else 2 * n) + 2 = f * f + 5 * f := by
  have h1 : 1 < f := by omega
  have hsq : 2 * f ≤ f * f := Nat.mul_le_mul_right f (by omega)
  rw [rounds, if_pos h1]
  split <;> omega

/-- A round that accepts nothing, and the next one in twice as many parts. -/
theorem rounds_finer (h2 : 2 ≤ n) (hn : n < f) : 2 * n + rounds f (min (n * 2) f) ≤ rounds f n := by
  have h1 := rounds_add h2 hn.le
  have h3 := rounds_add (f := f) (n := min (n * 2) f) (by omega) (by omega)
  rw [if_neg hn.ne] at h1
  split at h3 <;> omega

theorem rounds_round (h2 : 2 ≤ n) (hn : n ≤ f) : 2 * n ≤ rounds f n := by
  rcases hn.lt_or_eq with hn | rfl
  · exact (Nat.le_add_right _ _).trans (rounds_finer h2 hn)
  · have h1 := rounds_add h2 (Nat.le_refl n)
    have hsq : 2 * n ≤ n * n := Nat.mul_le_mul_right n h2
    rw [if_pos rfl] at h1
    omega

/-- A round whose subset phase accepts a part of `p` elements. -/
theorem rounds_subset (h2 : 2 ≤ n) (hp : 0 < p) (hle : p + (n - 1) ≤ f) : n + rounds p 2 ≤ rounds f n := by
  have hround := rounds_round h2 (by omega : n ≤ f)
  by_cases h1 : p ≤ 1
  · rw [rounds_short h1]
    omega
  · have ha := rounds_add h2 (by omega : n ≤ f)
    have hb := rounds_add (Nat.le_refl 2) (by omega : 2 ≤ p)
    rw [if_neg (by omega)] at ha
    have hpart : rounds p 2 + 6 ≤ p * p + 5 * p := by split at hb <;> omega
    have hsq : (p + (n - 1)) * (p + (n - 1)) ≤ f * f := Nat.mul_le_mul hle hle
    have hexp : (p + (n - 1)) * (p + (n - 1)) = p * p + 2 * (p * (n - 1)) + (n - 1) * (n - 1) := by ring
    have hone : n - 1 ≤ p * (n - 1) := Nat.le_mul_of_pos_left _ hp
    omega

/-- A round whose complement phase drops a part of `p` elements. -/
theorem rounds_complement (h2 : 2 ≤ n) (hp : 0 < p) (hle : p + (n - 1) ≤ f) (hone : n = f → p = 1) :
    2 * n + rounds (f - p) (max (n - 1) 2) ≤ rounds f n := by
  have hround := rounds_round h2 (by omega : n ≤ f)
  by_cases h1 : f - p ≤ 1
  · rw [rounds_short h1]
    omega
  · obtain ⟨g, rfl⟩ : ∃ g, f = g + p := ⟨f - p, by omega⟩
    rw [Nat.add_sub_cancel] at h1 ⊢
    have ha := rounds_add h2 (by omega : n ≤ g + p)
    have hb := rounds_add (by omega : 2 ≤ max (n - 1) 2) (by omega : max (n - 1) 2 ≤ g)
    have hexp : (g + p) * (g + p) = g * g + 2 * (g * p) + p * p := by ring
    have hgp : g ≤ g * p := Nat.le_mul_of_pos_right _ hp
    have hpp : p ≤ p * p := Nat.le_mul_of_pos_right _ hp
    by_cases hn : n = g + p
    · obtain rfl := hone hn
      rw [if_pos hn] at ha
      split at hb <;> omega
    · rw [if_neg hn] at ha
      split at hb <;> omega

end

/-! ## Any verdicts -/

variable {α : Type}

/-- What is left of the payment, the candidates tried in this round being taken off. -/
def potential (a : Abs α) : Nat :=
  match a.phase with
  | .head => rounds a.cur.length a.n
  | .subset _ k => rounds a.cur.length a.n - (a.n - k)
  | .complement _ k => rounds a.cur.length a.n - (2 * a.n - k)
  | .done => 0

/-- No more parts are left than the round has. -/
def FewLeft (a : Abs α) : Prop :=
  match a.phase with
  | .subset _ k => k ≤ a.n
  | .complement _ k => k ≤ a.n
  | _ => True

theorem fewLeft_next {a : Abs α} (h : FewLeft a) (v : Bool) : FewLeft (a.next v) := by
  cases hp : a.phase with
  | head =>
    by_cases hlt : 1 < a.cur.length
    · rw [Abs.next_head_long hp v hlt]; exact Nat.le_refl a.n
    · rw [Abs.next_head_short hp v hlt]; trivial
  | subset c k =>
    have hk : k ≤ a.n := by simpa [FewLeft, hp] using h
    cases v with
    | true => rw [Abs.next_subset_true hp]; trivial
    | false =>
      by_cases h1 : 1 < k
      · rw [Abs.next_subset_more hp h1]; exact (Nat.sub_le k 1).trans hk
      · rw [Abs.next_subset_last hp h1]; exact Nat.le_refl a.n
  | complement c k =>
    have hk : k ≤ a.n := by simpa [FewLeft, hp] using h
    cases v with
    | true => rw [Abs.next_complement_true hp]; trivial
    | false =>
      by_cases hlt : c + partSize a.cur.length c k < a.cur.length
      · rw [Abs.next_complement_more hp hlt]; exact (Nat.sub_le k 1).trans hk
      · by_cases hn : a.n < a.cur.length
        · rw [Abs.next_complement_finer hp hlt hn]; trivial
        · rw [Abs.next_complement_last hp hlt hn]; trivial
  | done => rw [Abs.next_done hp]; exact h

theorem next_tried {a : Abs α} {c k : Nat} (h : a.phase = .subset c k ∨ a.phase = .complement c k) (v : Bool) :
    (a.next v).tried = a.tried ++ [a.cand] := by
  rcases h with h | h <;> cases v
  · by_cases hk : 1 < k
    · rw [Abs.next_subset_more h hk]
    · rw [Abs.next_subset_last h hk]
  · rw [Abs.next_subset_true h]
  · simp only [Abs.next, h, Bool.false_eq_true, if_false]
    split
    · rfl
    · split <;> rfl
  · rw [Abs.next_complement_true h]

/-- An accepted candidate pays for the rounds on it. -/
theorem potential_accept {a : Abs α} (h : WF a) (hk : FewLeft a) {c k : Nat} (hp : a.phase = .subset c k ∨ a.phase = .complement c k) :
    1 + potential (a.next true) ≤ potential a := by
  have hl := h.parts hp
  have hpos := hl.size_pos
  have hle := hl.size_le
  have hdone := hl.done
  have hkpos := hl.pos
  rcases hp with hp | hp
  · have hk : k ≤ a.n := by simpa [FewLeft, hp] using hk
    have hlen : a.cand.length = partSize a.cur.length c k := by rw [Abs.cand_subset hp, length_subset rfl hl.pos hl.room]
    have hpay := rounds_subset hl.two_le hpos (by omega : partSize a.cur.length c k + (a.n - 1) ≤ a.cur.length)
    rw [Abs.next_subset_true hp]
    simp only [potential, hp, hlen]
    omega
  · have hk : k ≤ a.n := by simpa [FewLeft, hp] using hk
    have hlen : a.cand.length = a.cur.length - partSize a.cur.length c k := by
      rw [Abs.cand_complement hp]; exact length_cut (by omega)
    -- at the finest granularity the part dropped is one element
    have hone : a.n = a.cur.length → partSize a.cur.length c k = 1 := fun hn =>
      partSize_unit hl.pos (by have := hl.room; omega)
    have hpay := rounds_complement hl.two_le hpos (by omega : partSize a.cur.length c k + (a.n - 1) ≤ a.cur.length) hone
    rw [Abs.next_complement_true hp]
    simp only [potential, hp, hlen]
    omega

/-- A rejected candidate is paid for by the round it is in. -/
theorem potential_reject {a : Abs α} (h : WF a) (hk : FewLeft a) {c k : Nat} (hp : a.phase = .subset c k ∨ a.phase = .complement c k) :
    1 + potential (a.next false) ≤ potential a := by
  have hl := h.parts hp
  have hround := rounds_round hl.two_le hl.le
  have hpos := hl.pos
  rcases hp with hp | hp
  · have hk : k ≤ a.n := by simpa [FewLeft, hp] using hk
    by_cases h1 : 1 < k
    · rw [Abs.next_subset_more hp h1]
      simp only [potential, hp]
      omega
    · rw [Abs.next_subset_last hp h1]
      simp only [potential, hp]
      omega
  · have hk : k ≤ a.n := by simpa [FewLeft, hp] using hk
    by_cases hlt : c + partSize a.cur.length c k < a.cur.length
    · have h1 := hl.more_iff.mp hlt
      rw [Abs.next_complement_more hp hlt]
      simp only [potential, hp]
      omega
    · by_cases hn : a.n < a.cur.length
      · have hpay := rounds_finer hl.two_le hn
        rw [Abs.next_complement_finer hp hlt hn]
        simp only [potential, hp]
        omega
      · rw [Abs.next_complement_last hp hlt hn]
        simp only [potential, hp]
        omega

/-- Step lemma. -/
theorem tried_next {a : Abs α} (h : WF a) (hk : FewLeft a) (hd : a.phase ≠ .done) (v : Bool) :
    (a.next v).tried.length + potential (a.next v) ≤ a.tried.length + potential a := by
  by_cases hp : a.phase = .head
  · by_cases hlt : 1 < a.cur.length
    · rw [Abs.next_head_long hp v hlt]
      simp only [potential, hp]
      omega
    · rw [Abs.next_head_short hp v hlt]
      exact Nat.add_le_add_left (Nat.zero_le _) _
  · obtain ⟨c, k, hph⟩ := phase_cases hp hd
    have hlen : (a.next v).tried.length = a.tried.length + 1 := by rw [next_tried hph, List.length_append]; rfl
    rw [hlen]
    cases v with
    | true => have := potential_accept h hk hph; omega
    | false => have := potential_reject h hk hph; omega

variable {X : List α} {R : List α → Bool → Prop}

/-- Run lemma. -/
theorem tried_le {a : Abs α} (h : (system X R).Reach a) : a.tried.length ≤ X.length * X.length + 5 * X.length - 6 := by
  have hfew : ∀ {a}, (system X R).Reach a → FewLeft a := fun h => by
    refine h.invariant (P := FewLeft) ?_ ?_
    · rintro a rfl
      trivial
    · rintro a b - hk ⟨-, v, -, rfl⟩
      exact fewLeft_next hk v
  refine h.amortized (fun a => a.tried.length) potential ?_ ?_
  · rintro a rfl
    change 0 + rounds X.length 2 ≤ _
    by_cases h1 : X.length ≤ 1
    · rw [rounds_short h1]
      exact Nat.zero_le _
    · have := rounds_add (Nat.le_refl 2) (by omega : 2 ≤ X.length)
      split at this <;> omega
  · rintro a b hr ⟨hd, v, -, rfl⟩
    exact tried_next (reach_wf hr) (hfew hr) hd v

/-! ## Halving -/

variable {D : List α → Bool}

/-- Two for each time the sequence can still be halved, less one after the first half. -/
def halvings (a : Abs α) : Nat :=
  match a.phase with
  | .head => 2 * Nat.clog 2 a.cur.length
  | .subset c _ => 2 * Nat.clog 2 a.cur.length - if c = 0 then 0 else 1
  | _ => 0

theorem half_eq (X : List α) : half X = (X.length + 1) / 2 := by simp [half, partSize]

theorem clog_half {f : Nat} (h : 1 < f) : Nat.clog 2 f = Nat.clog 2 ((f + 1) / 2) + 1 := Nat.clog_of_two_le Nat.one_lt_two h

/-- Step lemma. -/
theorem halvings_next {a : Abs α} (h : OnHalves D a) (hd : a.phase ≠ .done) :
    (a.next (D a.cand)).tried.length + halvings (a.next (D a.cand)) ≤ a.tried.length + halvings a := by
  cases hp : a.phase with
  | head =>
    by_cases hlt : 1 < a.cur.length
    · rw [Abs.next_head_long hp _ hlt]
      simp [halvings, hp]
    · rw [Abs.next_head_short hp _ hlt]
      exact Nat.add_le_add_left (Nat.zero_le _) _
  | subset c k =>
    obtain ⟨hn, hH, hlt, hck⟩ : a.n = 2 ∧ Halves D a.cur ∧ 1 < a.cur.length ∧
        (c = 0 ∧ k = 2 ∨ c = half a.cur ∧ k = 1 ∧ D (a.cur.take (half a.cur)) = false) := by
      simpa [OnHalves, hp] using h
    have hclog := clog_half hlt
    have hhalf := half_eq a.cur
    rcases hck with ⟨rfl, rfl⟩ | ⟨rfl, rfl, hfirst⟩
    · cases hv : D a.cand with
      | true =>
        have hlen : a.cand.length = half a.cur := by rw [cand_first hp, List.length_take]; omega
        rw [Abs.next_subset_true hp]
        simp only [halvings, hp, hlen, hhalf, List.length_append, List.length_singleton, if_true]
        omega
      | false =>
        rw [Abs.next_subset_more hp Nat.one_lt_two]
        have hpos : 0 + partSize a.cur.length 0 2 ≠ 0 := by rw [Nat.zero_add, ← half, hhalf]; omega
        simp only [halvings, hp, List.length_append, List.length_singleton, if_true]
        rw [if_neg hpos]
        omega
    · have hc := cand_second hp
      cases hH with
      | one h1 => omega
      | left hD => rw [hfirst] at hD; cases hD
      | right _ hD hH =>
        have hlen : a.cand.length = a.cur.length - half a.cur := by rw [hc, List.length_drop]
        have hmono : Nat.clog 2 (a.cur.length - half a.cur) ≤ Nat.clog 2 ((a.cur.length + 1) / 2) :=
          Nat.clog_mono_right 2 (by omega)
        rw [← hc] at hD
        rw [hD, Abs.next_subset_true hp]
        simp only [halvings, hp, hlen, List.length_append, List.length_singleton]
        rw [if_neg (by omega)]
        omega
  | complement c k => simp [OnHalves, hp] at h
  | done => exact absurd hp hd

/-- Where halving goes through, each half costs two tests at most. -/
theorem tried_le_of_halves (hX : Halves D X) {a : Abs α} (h : (det D X).Reach a) : a.tried.length ≤ 2 * Nat.clog 2 X.length := by
  refine System.Reach.amortized (T := (det D X).toSystem) (fun a => a.tried.length) halvings ?_ ?_ h
  · rintro a rfl
    exact (Nat.zero_add _).le
  · intro a b hr hn
    obtain ⟨hd, rfl⟩ := det_next.mp hn
    exact halvings_next (reach_onHalves hX hr) hd

/-- A failure that no cut into two pieces tears apart. -/
def Unsplit (D : List α → Bool) : Prop := ∀ Y Z, D (Y ++ Z) = true → D Y = true ∨ D Z = true

theorem halves_of_unsplit (hD : Unsplit D) : ∀ m {X : List α}, X.length = m → D X = true → Halves D X := by
  intro m
  induction m using Nat.strong_induction_on with
  | _ m ih =>
    intro X hm hX
    by_cases hlt : 1 < X.length
    · have hhalf := half_eq X
      have htake : (X.take (half X)).length < m := by rw [List.length_take]; omega
      have hdrop : (X.drop (half X)).length < m := by rw [List.length_drop]; omega
      cases hfirst : D (X.take (half X)) with
      | true => exact .left hfirst (ih _ htake rfl hfirst)
      | false =>
        rw [← List.take_append_drop (half X) X] at hX
        have hsecond := (hD _ _ hX).resolve_left (by rw [hfirst]; decide)
        exact .right hfirst hsecond (ih _ hdrop rfl hsecond)
    · exact .one (by omega)

/-- What halving leaves has one element. -/
theorem done_short (hX : Halves D X) {a : Abs α} (h : (det D X).Reach a) (hd : a.phase = .done) : a.cur.length ≤ 1 := by
  refine Machine.Reach.invariant (M := det D X) (P := fun a => a.phase = .done → a.cur.length ≤ 1) nofun ?_ h hd
  intro s t hr _ hn ht
  obtain ⟨hs, rfl⟩ := det_next.mp hn
  cases hp : s.phase with
  | head =>
    by_cases hlt : 1 < s.cur.length
    · rw [Abs.next_head_long hp _ hlt] at ht; cases ht
    · rw [next_head hp, next_false_cur]; omega
  | subset c k =>
    cases hv : D s.cand with
    | true => rw [hv, Abs.next_subset_true hp] at ht; cases ht
    | false =>
      rw [hv] at ht
      by_cases hk : 1 < k
      · rw [Abs.next_subset_more hp hk] at ht; cases ht
      · rw [Abs.next_subset_last hp hk] at ht; cases ht
  | complement c k => exact absurd hp (halves_iff.mpr hX s hr c k)
  | done => exact absurd hp hs

end DiyDdmin.Ddmin.Abstract

/-! ## Runs of the code -/

namespace DiyDdmin.Ddmin

open Posix Tester Numeric Systems Reduction Abstract

section

variable {E : Env} {V : Variant} {G : Fs → Prop} {seenS seenC : Bytes → Test → Prop} {R : Bytes → Bool → Prop}
  {X : Bytes} {fs : Fs}

/-- As many runs as candidates, or none yet. -/
theorem tests_tried (h : Ready E V G seenS seenC R X fs) {s : St} (hs : (machine E V fs).Reach s) :
    s.w.own.tests = [] ∨ ∃ a, (system X R).Reach a ∧ s.w.own.tests.length = a.tried.length := by
  cases reach_tracked h hs with
  | start => exact Or.inl rfl
  | noProgram _ _ hw => exact Or.inl (by rw [hw]; rfl)
  | loop a ha hm => exact Or.inr ⟨a, ha, by simpa using congrArg List.length hm.tried⟩

theorem tests_le (h : Ready E V G seenS seenC R X fs) {s : St} (hs : (machine E V fs).Reach s) :
    s.w.own.tests.length ≤ X.length * X.length + 5 * X.length - 6 := by
  rcases tests_tried h hs with hnone | ⟨a, ha, hlen⟩
  · rw [hnone]; exact Nat.zero_le _
  · rw [hlen]; exact tried_le ha

end

/-- Neither function ever runs more tests than the square of the input's length and five
    times the length, less six, whatever the verdicts. -/
theorem ddmin_tests_le {E : Env} {fs : Fs} {X : Bytes} :
    (∀ p, Unnamed E PartName (E.key p) → fs (E.key p) = some X → X.length ≤ 2 ^ 24 →
      ∀ s, (machine E (ddmin E p) fs).Reach s → s.w.own.tests.length ≤ X.length * X.length + 5 * X.length - 6) ∧
    ∀ inputDir exeDir, DirInput E inputDir exeDir X fs → Replaceable E inputDir fs →
      ∀ s, (machine E (ddminDir E inputDir exeDir) fs).Reach s →
        s.w.own.tests.length ≤ X.length * X.length + 5 * X.length - 6 := by
  refine ⟨fun _ hp hX hl _ hs => tests_le (ddmin_ready hp hX hl) hs, fun inputDir _ h hti _ hs => ?_⟩
  by_cases hdir : E.Holds (stderrPath inputDir)
  · exact tests_le (dir_ready_of h hdir (fun _ _ _ _ => trivial) hti) hs
  · rw [none_tested hdir hs]
    exact Nat.zero_le _

theorem ddmin_tests_le_three :
    (∀ n, ((machine (judging firstAndLast) (ddmin (judging firstAndLast) "in".toList)
      (soleInput "in".toList [1, 2, 3])).run n).w.own.tests.length ≤ 18) ∧
    ∀ n, ((machine (dirJudging firstAndLast) (ddminDir (dirJudging firstAndLast) "in".toList "exe".toList)
      (dirFs [1, 2, 3])).run n).w.own.tests.length ≤ 18 :=
  ⟨fun n => ddmin_tests_le.1 _ (unnamed_in firstAndLast) (sole_in firstAndLast [1, 2, 3]) (by decide) _ (Machine.run_reach n),
    fun n => ddmin_tests_le.2 _ _ (dirJudging_input (by decide)) (by rw [Replaceable]; decide +kernel) _ (Machine.run_reach n)⟩

/-- Where a failing sequence cut in two has a failing piece, `ddmin` halves its way to a
    single byte with at most two tests for each half, and returns it. -/
theorem ddmin_bisects {E : Env} {p : Path} {fs : Fs} {X : Bytes} {D : Bytes → Bool} (hp : Unnamed E PartName (E.key p))
    (hX : fs (E.key p) = some X) (hl : X.length ≤ 2 ^ 24) (hD : Judges E D) (hU : Unsplit D) (hfail : D X = true) (hpos : X ≠ []) :
    (∀ s, (machine E (ddmin E p) fs).Reach s → s.w.own.tests.length ≤ 2 * Nat.clog 2 X.length ∧
      ∀ q, s.ctl.pc = .ret q → ∃ x ∈ X, s.w.fs (E.key q) = some [x] ∧ D [x] = true) ∧
    ((fs (E.key E.programPath)).isSome = true → ∃ s q, (machine E (ddmin E p) fs).Ends s ∧ s.ctl.pc = .ret q) := by
  have hr := ddmin_ready_of_judges hp hX hl hD
  have hH := halves_of_unsplit hU _ rfl hfail
  refine ⟨fun s hs => ⟨?_, ?_⟩, returns hr⟩
  · rcases tests_tried hr hs with hnone | ⟨a, ha, hlen⟩
    · rw [hnone]; exact Nat.zero_le _
    · rw [hlen]; exact tried_le_of_halves hH (reach_det (fun _ _ h => h) ha)
  · intro q hq
    obtain ⟨a, ha, hm, hd, rfl⟩ := ret_tracked hr hs hq
    have hshort := done_short hH (reach_det (fun _ _ h => h) ha) hd
    have hlen := reach_pos (List.length_pos_of_ne_nil hpos) ha
    obtain ⟨x, hx⟩ := List.length_eq_one_iff.mp (by omega : a.cur.length = 1)
    have hg := reach_genuine (fun _ _ h => h) ha
    refine ⟨x, hg.sublist.mem (by rw [hx]; exact List.mem_singleton_self x), hx ▸ hm.file, ?_⟩
    rw [← hx]
    rcases hg with he | ⟨h, -⟩
    · rw [he]; exact hfail
    · exact h

theorem unsplit_contains (x : UInt8) : Unsplit fun c : Bytes => c.contains x := by
  intro Y Z h
  simpa using h

theorem ddmin_bisects_two :
    ∃ s q, (machine (judging fun c => c.contains 2) (ddmin (judging fun c => c.contains 2) "in".toList)
        (soleInput "in".toList [1, 2])).Ends s ∧ s.ctl.pc = .ret q ∧
      s.w.own.tests.length ≤ 2 * Nat.clog 2 2 ∧
      ∃ x ∈ [(1 : UInt8), 2], s.w.fs ((judging fun c => c.contains 2).key q) = some [x] ∧ [x].contains 2 = true := by
  let D : Bytes → Bool := fun c => c.contains 2
  obtain ⟨hbound, hends⟩ := ddmin_bisects (unnamed_in D) (sole_in D [1, 2]) (by decide) (judging_judges D) (unsplit_contains 2)
    (by decide) (by decide)
  obtain ⟨s, q, hs, hq⟩ := hends (by decide +kernel)
  obtain ⟨hle, hret⟩ := hbound s hs.1
  exact ⟨s, q, hs, hq, hle, hret q hq⟩

end DiyDdmin.Ddmin
