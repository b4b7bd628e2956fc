/-
  DiyDdmin.Candidates — the files that the program under test is run on.

  Proved, for any directory, any program, buffers of any size and, for `range`, any
  interleaving and choice of `rand`: every run of `range_increasing` and of a worker of
  `range` is on a file with exactly the bytes of the held input but for the range left out,
  when the input has fewer than 2^31 bytes, and too few written bytes are never the end of
  either (`cuts_handed_exactly`). From 2^32 bytes on the file may lack the end of the input
  too (`a_narrowed_size_hands_a_short_candidate`). `ddmin` and `range` run the program on
  no empty file and return none, and `range_increasing` does neither exactly when it accepts
  no cut of half of the held input near its start (`a_byte_is_kept`); otherwise it removes
  everything (`a_cut_of_half_removes_everything`).
-/

import DiyDdmin.Minimizers

namespace DiyDdmin

open Posix Tester Numeric Systems Reduction

/-! ## `range_increasing` -/

namespace Increasing

open Abstract

section

variable {E : Env} {inputPath : Path} {fs : Fs} {X : Bytes} (hp : Unnamed E PartName (E.key inputPath))
  (hX : fs (E.key inputPath) = some X)
include hp hX

/-- A turn hands the program the candidate of its scan, or none. -/
theorem step_hands {s t : St} (hs : (machine E inputPath fs).Reach s) (hn : next E s = some t) :
    t.w.own.tests = s.w.own.tests ∨ ∃ a b c l, Match E inputPath s a ∧ (X.length < 2 ^ 31 → a.cur.length < 2 ^ 31) ∧
      s.ctl.pc = .inner l (b : Nat) ∧ Fits a b c ∧ Hands E s.w t.w c := by
  rcases reach_turns hp hX (P := fun _ a => X.length < 2 ^ 31 → a.cur.length < 2 ^ 31) (fun _ _ h => h)
    (fun _ a _ c v _ _ ha ht _ h => next_small (ha h) fun b hb => (ht.ran b hb).1) hs with rfl | ⟨a, hm, hsmall⟩
  · left
    obtain ⟨t', ht', -, hown, -⟩ := enter hp hX
    obtain rfl : t' = t := Option.some.inj (ht'.symm.trans hn)
    rw [hown]; rfl
  · obtain ⟨c, v, ht, hrec⟩ := turn_of_next hp hm hn
    by_cases htry : ∃ b, a.Tries b
    · obtain ⟨b, hb⟩ := htry
      obtain ⟨x, htests, hgiven, hcand, -⟩ := hrec.one b hb
      have hpc := hm.pc
      rw [PcMatch, hb.1] at hpc
      cases hq : s.ctl.pc with
      | inner l begin =>
        rw [hq] at hpc
        obtain ⟨-, rfl⟩ := hpc
        exact Or.inr ⟨a, b, c, l, hm, hsmall, rfl, (ht.ran b hb).1, x, htests, hgiven, hgiven ▸ hcand⟩
      | _ => rw [hq] at hpc; exact hpc.elim
    · exact Or.inl (hrec.none fun b hb => htry ⟨b, hb⟩)

end

end Increasing

/-! ## `range` -/

namespace Range

section

variable {E : Env} {inputPath : Path} {fs : Fs} {X : Bytes}

/-- A worker tests only in a round, and hands the program the cut of its job. -/
theorem test_hands {s t : St} {th : Worker} {d : Node} (hs : (system E inputPath fs).Reach s) (hd : s.workers th = .testing d)
    (hst : step E (.worker th) s = some t) :
    (∃ q, s.main.inRound = some q) ∧ ∃ n r : Nat, s.g.inputSize = n ∧ s.g.rs = r ∧ 0 < r ∧ r < n ∧ d.begin + r ≤ n ∧
      n ≤ s.g.log.input.length ∧ (n : Int) = toInt s.g.log.input.length ∧ Hands E s.w t.w (cutOf n r d.begin s.g.log.input) := by
  obtain ⟨⟨q, hq⟩, x, y, hx, -, ⟨hgiven, hfile, -⟩, hbytes, hin⟩ := worker_tests hs hd hst
  obtain ⟨⟨⟨hsize, -⟩, hw⟩, ⟨hrs, h0, hlt⟩, -⟩ := reach_round hs hq
  have hn := hw.size
  refine ⟨⟨q, hq⟩, s.g.inputSize.toNat, s.g.rs.toNat, hn, by omega, by omega, by omega, hin, hw.le, by omega, x, hx, hgiven, ?_⟩
  rw [hfile, hbytes]

/-- `range` does not end for want of written bytes. -/
theorem never_few_written {s : St} (hs : (system E inputPath fs).Reach s) : ∀ n m, s.main ≠ .exited (.fewWritten n m) := by
  refine System.Reach.invariant (T := system E inputPath fs) (P := fun s => ∀ n m, s.main ≠ .exited (.fewWritten n m)) ?_ ?_ hs
  · intro s h
    subst h
    nofun
  · intro s t hr hi hst
    obtain ⟨m, hst⟩ := hst
    cases m with
    | main rand =>
      obtain ⟨-, x, hx, rfl⟩ := step_main hst
      cases hres : x s.w with
      | ok r w =>
        intro n m h
        have hpc : r.1 = .exited (.fewWritten n m) := h
        rcases mainTurn_move hx hres with hmove | hmove
        · cases hpc.symm.trans hmove
        · have hlive := hmove.live
          rw [hpc] at hlive
          cases hlive
      | exit e w =>
        intro n m h
        injection h with h
        rcases mainTurn_exit hx hres with ⟨p, e⟩ | ⟨p, e⟩ | e | e <;> cases h.symm.trans e
      | hang w => nofun
    | worker th =>
      cases hround : s.main.inRound with
      | none => rw [away_step hr hround hst]; exact hi
      | some q =>
        obtain ⟨pc, g, w, rfl, -⟩ := round_step hr hround hst
        exact hi

/-- In a round the call's input is what is held. -/
theorem input_held {s : St} {T : Bytes} {q : Int} (hk : Knows s T s.main) (hr : s.main.inRound = some q) : s.g.log.input = T := by
  cases hm : s.main <;> rw [hm] at hk hr <;> first | exact hk | cases hr

end

end Range

/-! ## Cuts -/

/-- Every run on a cut is on exactly its bytes, and none is given up for want of bytes. -/
theorem cuts_handed_exactly {E : Env} {p : Path} {fs : Fs} {X : Bytes} (hX : fs (E.key p) = some X) :
    (Unnamed E PartName (E.key p) →
      (∀ s, (Increasing.machine E p fs).Reach s → ∀ n m, s.ctl.pc ≠ .exited (.fewWritten n m)) ∧
      (X.length < 2 ^ 31 → ∀ s t, (Increasing.machine E p fs).Reach s → Increasing.next E s = some t →
        t.w.own.tests = s.w.own.tests ∨ ∃ (l : Increasing.Locals) (begin rs : Nat) (Y : Bytes), s.ctl.pc = .inner l begin ∧
          s.ctl.rs = rs ∧ s.w.fs (E.key s.w.own.held) = some Y ∧ begin + rs ≤ Y.length ∧ Hands E s.w t.w (cut begin rs Y))) ∧
    (Unnamed E RangeName (E.key p) →
      (∀ s, (Range.system E p fs).Reach s → ∀ n m, s.main ≠ .exited (.fewWritten n m)) ∧
      (X.length < 2 ^ 31 → ∀ s t m, (Range.system E p fs).Reach s → Range.step E m s = some t →
        t.w.own.tests = s.w.own.tests ∨ ∃ (th : Range.Worker) (d : Range.Node) (rs : Nat) (Y : Bytes), m = .worker th ∧
          s.workers th = .testing d ∧ s.g.rs = rs ∧ s.w.fs (E.key s.w.own.held) = some Y ∧ d.begin + rs ≤ Y.length ∧
          Hands E s.w t.w (cut d.begin rs Y))) := by
  refine ⟨fun hp => ⟨fun s hs n m h => ?_, fun hl s t hs hn => ?_⟩, fun hp => ⟨fun s hs => Range.never_few_written hs, fun hl s t m hs hst => ?_⟩⟩
  · have hin := Increasing.increasing_inside hp hX hs
    rw [Increasing.Inside, h] at hin
    exact hin
  · rcases Increasing.step_hands hp hX hs hn with h | ⟨a, b, c, l, hm, hsmall, hpc, hf, hc⟩
    · exact Or.inl h
    · have hsize := Increasing.Abstract.size_of_small (hsmall hl)
      have hin := hf.inside
      refine Or.inr ⟨l, b, a.rs, a.cur, hpc, hm.rs, hm.file, by omega, ?_⟩
      rw [← hf.exact (hsmall hl)]
      exact hc
  · rcases Range.step_tests hst with h | ⟨th, d, rfl, hd⟩
    · exact Or.inl h
    · obtain ⟨⟨q, hq⟩, n, r, -, hrs, -, -, hin, hle, hn, hc⟩ := Range.test_hands hs hd hst
      obtain ⟨T, hist, hshort, -⟩ := Range.reach_held hp hX hs (Range.step_cases hst).1
      rw [Range.input_held hist.knows hq] at hle hn hc
      rw [toInt_of_lt (by omega) (by omega)] at hn
      refine Or.inr ⟨th, d, r, T, rfl, hd, hrs, hist.file, by omega, ?_⟩
      rw [← cutOf_eq (n := n) (by omega)]
      exact hc

theorem cuts_handed_exactly_two :
    (∀ s t, (Increasing.machine (judging holdsOne) "in".toList (soleInput "in".toList [1, 2])).Reach s →
      Increasing.next (judging holdsOne) s = some t → t.w.own.tests = s.w.own.tests ∨ ∃ b rs Y,
        s.w.fs ((judging holdsOne).key s.w.own.held) = some Y ∧ Hands (judging holdsOne) s.w t.w (cut b rs Y)) ∧
    ∀ s t m, (Range.system (judging holdsOne) "in".toList (soleInput "in".toList [1, 2])).Reach s →
      Range.step (judging holdsOne) m s = some t → t.w.own.tests = s.w.own.tests ∨ ∃ b rs Y,
        s.w.fs ((judging holdsOne).key s.w.own.held) = some Y ∧ Hands (judging holdsOne) s.w t.w (cut b rs Y) := by
  obtain ⟨h1, h2⟩ := cuts_handed_exactly (sole_in holdsOne [1, 2])
  constructor
  · intro s t hs hn
    exact ((h1 (unnamed_in _)).2 (by decide) s t hs hn).imp id fun ⟨_, b, rs, Y, _, _, hY, _, hc⟩ => ⟨b, rs, Y, hY, hc⟩
  · intro s t m hs hst
    exact ((h2 (unnamed_range_in _)).2 (by decide) s t m hs hst).imp id fun ⟨_, d, rs, Y, _, _, _, hY, _, hc⟩ => ⟨d.begin, rs, Y, hY, hc⟩

section

open Increasing Increasing.Abstract

/-- The first candidate of an input of 2^32 + 3000 bytes is one of 2999. -/
theorem a_narrowed_size_hands_a_short_candidate :
    ∃ s t x l, (machine (judging hasOne) "in".toList (soleInput "in".toList wide)).Reach s ∧ next (judging hasOne) s = some t ∧
      s.ctl.pc = .inner l 0 ∧ s.ctl.rs = 1 ∧ s.w.fs ((judging hasOne).key s.w.own.held) = some wide ∧
      t.w.own.tests = s.w.own.tests ++ [x] ∧ x.fs ((judging hasOne).key x.given) ≠ some (cut 0 1 wide) := by
  have hp := unnamed_in hasOne
  have hsize : ∀ p, (⟨wide, 1, p, 0⟩ : Scan UInt8).size = (3000 : Nat) := fun _ => toInt_wide
  -- the scan starts
  obtain ⟨s0, hn0, he⟩ := enter hp (sole_in hasOne wide)
  obtain ⟨s, ht⟩ := turn_outer he.matched rfl
  have hm : Match (judging hasOne) "in".toList s ⟨wide, 1, .inner 0, 0⟩ := by
    have hlt : ((1 : Nat) : Int) < (Scan.init wide).size := by rw [Scan.init, hsize]; decide
    have hm := ht.matched
    rwa [next_scan _ _ rfl hlt] at hm
  -- and tries its first candidate
  have htry : (⟨wide, 1, .inner 0, 0⟩ : Scan UInt8).Tries 0 := ⟨rfl, by rw [hsize]; decide⟩
  obtain ⟨t, c, v, ht', hrec⟩ := match_records hp hm fun h => by cases h
  obtain ⟨x, htests, hgiven, hc, -⟩ := hrec.one 0 htry
  have hlen := (ht'.ran 0 htry).1.length
  rw [hsize] at hlen
  have hpc := hm.pc
  rw [PcMatch] at hpc
  cases hq : s.ctl.pc with
  | inner l begin =>
    rw [hq] at hpc
    obtain ⟨-, rfl⟩ := hpc
    refine ⟨s, t, x, l, (Machine.Reach.init.next hn0).next ht.next, ht'.next, hq, hm.rs, hm.file, htests, ?_⟩
    intro e
    rw [hgiven, hc] at e
    have hcut : (cut 0 1 wide).length = wide.length - 1 := length_cut (by rw [length_wide]; decide)
    rw [Option.some.inj e, hcut, length_wide] at hlen
    omega
  | _ => rw [hq] at hpc; exact hpc.elim

end

/-! ## A byte to go on -/

namespace Ddmin

open Abstract

section

variable {E : Env} {p : Path} {fs : Fs} {X : Bytes} (hp : Unnamed E PartName (E.key p)) (hX : fs (E.key p) = some X)
  (hl : X.length ≤ 2 ^ 24)
include hp hX hl

theorem ddmin_fed {s : St} (hs : (machine E (ddmin E p) fs).Reach s) : Fed E s.w := by
  have hr := ddmin_ready hp hX hl
  refine hs.invariant (P := fun s => Fed E s.w) (fun _ h => absurd h List.not_mem_nil) ?_
  intro s t hreach hfed hn
  change next E (ddmin E p) s = some t at hn
  cases reach_tracked hr hreach with
  | start =>
    obtain ⟨t', ht', -, -, hown, -⟩ := start_next hr
    obtain rfl : t' = t := Option.some.inj (ht'.symm.trans hn)
    exact hfed.of_tests (congrArg Vars.tests hown)
  | noProgram _ he _ => simp [next, Loop.next, loop, turn, he] at hn
  | loop a ha hm =>
    have hd : a.phase ≠ .done := fun hd => by rw [(match_done hm).mp hd] at hn; cases hn
    have L : Layout E (ddmin E p) (fun _ => True) (fun _ => True) (fun _ t => t.given = t.file) fun _ t => t.given = t.file :=
      ddmin_layout_of hp fun _ _ h _ => h
    obtain ⟨t', v, ht⟩ := match_next L hm spared_all hd
    obtain rfl : t' = t := Option.some.inj (ht.next.symm.trans hn)
    by_cases hh : a.phase = .head
    · exact hfed.of_tests (ht.quiet hh).2
    · obtain ⟨x, htests, -, hcand, hS, hC⟩ := ht.ran hh
      obtain ⟨c, k, hph⟩ := phase_cases hh hd
      have hgiven : x.given = x.file := by
        rcases hph with h | h
        · exact hS c k h
        · exact hC c k h
      exact hfed.hands ⟨x, htests, hgiven, hgiven ▸ hcand⟩ (cand_shorter hph hm.wf).1

theorem ddmin_returns_byte (hpos : 0 < X.length) {s : St} {q : Path} (hs : (machine E (ddmin E p) fs).Reach s)
    (hq : s.ctl.pc = .ret q) : ∃ T, s.w.fs (E.key q) = some T ∧ 0 < T.length := by
  obtain ⟨a, ha, hm, -, rfl⟩ := ret_tracked (ddmin_ready hp hX hl) hs hq
  exact ⟨a.cur, hm.file, reach_pos hpos ha⟩

end

end Ddmin

namespace Range

section

variable {E : Env} {inputPath : Path} {fs : Fs} {X : Bytes}

/-- A range is shorter than the input it is cut from, whatever its size. -/
theorem range_fed {s : St} (hs : (system E inputPath fs).Reach s) : Fed E s.w := by
  refine System.Reach.invariant (T := system E inputPath fs) (P := fun s => Fed E s.w) ?_ ?_ hs
  · intro s h
    subst h
    exact fun _ h => absurd h List.not_mem_nil
  · intro s t hr hi hst
    obtain ⟨m, hst⟩ := hst
    rcases step_tests hst with h | ⟨th, d, rfl, hd⟩
    · exact hi.of_tests h
    · obtain ⟨-, n, r, -, -, -, hlt, hin, hle, -, hc⟩ := test_hands hr hd hst
      exact hi.hands hc (by rw [length_cutOf hle hin]; omega)

theorem range_returns_byte (hp : Unnamed E RangeName (E.key inputPath)) (hX : fs (E.key inputPath) = some X)
    (hpos : 0 < X.length) {s : St} {q : Path} (hs : (system E inputPath fs).Reach s) (hq : s.main = .ret q) :
    ∃ T, s.w.fs (E.key q) = some T ∧ 0 < T.length := by
  obtain ⟨T, ⟨hfile, -, -, hknows⟩, -, hT⟩ := reach_held hp hX hs (by rw [hq]; rfl)
  rw [hq] at hknows
  obtain rfl : q = s.w.own.held := hknows
  exact ⟨T, hfile, hT hpos⟩

end

end Range

namespace Increasing

open Abstract

/-- The step that accepts a cut of half of what is held, at a place that the scan backs up
    from to 0. -/
def Halves (E : Env) (s t : St) : Prop :=
  ∃ l begin T x, s.ctl.pc = .inner l begin ∧ s.w.fs (E.key s.w.own.held) = some T ∧ toInt T.length = 2 * s.ctl.rs ∧
    begin < s.ctl.rs ∧ t.w.own.tests = s.w.own.tests ++ [x] ∧ verdict E.errMsg x.outcome = true

/-- The step accepts a cut that begins before the `rs`-th place. -/
def early (E : Env) (s t : St) : Bool :=
  match s.ctl.pc with
  | .inner _ begin =>
    decide (begin < s.ctl.rs) && (t.w.own.tests.drop s.w.own.tests.length).any fun x => verdict E.errMsg x.outcome
  | _ => false

theorem Halves.early {E : Env} {s t : St} (h : Halves E s t) : early E s t = true := by
  obtain ⟨l, begin, T, x, hpc, -, -, hlt, htests, hv⟩ := h
  simp only [Increasing.early, hpc, htests, List.drop_left, List.any_cons, hv, decide_eq_true hlt, Bool.true_or, Bool.true_and]

section

variable {E : Env} {inputPath : Path} {fs : Fs} {X : Bytes} (hp : Unnamed E PartName (E.key inputPath))
  (hX : fs (E.key inputPath) = some X)
include hp hX

/-- After such a step the scan tries to cut all that is left. -/
theorem halves_starves {s t : St} (hs : (machine E inputPath fs).Reach s) (hn : next E s = some t) (h : Halves E s t) :
    ∃ u, (machine E inputPath fs).Reach u ∧ ¬ Fed E u.w := by
  obtain ⟨l, begin, T, x, hpc, hT, hsize, hlt, htests, hv⟩ := h
  rcases reach_match hp hX hs with rfl | ⟨a, hm⟩
  · cases hpc
  · obtain ⟨c, v, ht, hrec⟩ := turn_of_next hp hm hn
    have hrs := hm.rs
    have hcur : a.cur = T := Option.some.inj (hm.file.symm.trans hT)
    have hasize : a.size = 2 * a.rs := by rw [Scan.size, hcur, hsize, hrs]
    obtain ⟨b, hb⟩ : ∃ b, a.Tries b := by
      by_contra hno
      rw [hrec.none fun b hb => hno ⟨b, hb⟩] at htests
      exact absurd (congrArg List.length htests) (by simp)
    -- the candidate was accepted
    obtain ⟨x', htests', -, -, hv'⟩ := hrec.one b hb
    obtain rfl : x' = x := List.singleton_injective (List.append_cancel_left (htests'.symm.trans htests))
    obtain rfl : v = true := hv'.symm.trans hv
    have hbegin : b < a.rs := by
      have hmatch := hm.pc
      rw [PcMatch, hpc, hb.1] at hmatch
      obtain ⟨-, rfl⟩ := hmatch
      omega
    have hf := (ht.ran b hb).1
    have hm' := ht.matched
    rw [next_accept c hb, show b + 1 - a.rs = 0 by omega] at hm'
    have hsize' : (⟨c, a.rs, .inner 0, a.rs⟩ : Scan UInt8).size = a.rs := by
      rw [hf.size]
      omega
    -- and the next one takes what is left
    have htry : (⟨c, a.rs, .inner 0, a.rs⟩ : Scan UInt8).Tries 0 := ⟨rfl, by rw [hsize']; simp⟩
    obtain ⟨u, c', v', hu, hrec'⟩ := match_records hp hm' fun h => by cases h
    obtain ⟨y, hy, hgiven, hc', -⟩ := hrec'.one 0 htry
    have hempty := (hu.ran 0 htry).1.length
    rw [hsize'] at hempty
    refine ⟨u, (hs.next hn).next hu.next, ?_⟩
    intro hfed
    obtain ⟨c'', hc'', hpos⟩ := hfed y (by rw [hy]; simp)
    rw [hgiven, hc'] at hc''
    obtain rfl : c' = c'' := Option.some.inj hc''
    simp only at hempty
    omega

theorem increasing_fed (hpos : 0 < X.length) (h : ∀ s t, (machine E inputPath fs).Reach s → next E s = some t → ¬ Halves E s t)
    {s : St} (hs : (machine E inputPath fs).Reach s) :
    Fed E s.w ∧ ∀ q, s.ctl.pc = .ret q → ∃ T, s.w.fs (E.key q) = some T ∧ 0 < T.length := by
  have hkeep := reach_turns hp hX (P := fun s a => Fed E s.w ∧ 0 < a.cur.length ∧ Roomy a)
    (fun t he => ⟨?_, hpos, fun b hb => by cases hb.1⟩) (fun s a t c v hr hm ha ht hrec => ?_) hs
  · rcases hkeep with rfl | ⟨a, hm, hfed, hcur, -⟩
    · exact ⟨fun _ h => absurd h List.not_mem_nil, fun q hq => by cases hq⟩
    · refine ⟨hfed, ?_⟩
      intro q hq
      obtain ⟨-, rfl⟩ := match_ret hm hq
      exact ⟨a.cur, hm.file, hcur⟩
  · rw [Fed, he.own]
    exact fun _ h => absurd h List.not_mem_nil
  · obtain ⟨hfed, hcur, hroom⟩ := ha
    have hf : ∀ b, a.Tries b → Fits a b c := fun b hb => (ht.ran b hb).1
    have hc : ∀ b, a.Tries b → 0 < c.length := fun b hb => by
      have := (hf b hb).length
      have := hroom b hb
      omega
    refine ⟨?_, ?_, roomy_next hroom hf ?_⟩
    · by_cases htry : ∃ b, a.Tries b
      · obtain ⟨b, hb⟩ := htry
        obtain ⟨x, htests, hgiven, hcand, -⟩ := hrec.one b hb
        exact hfed.hands ⟨x, htests, hgiven, hgiven ▸ hcand⟩ (hc b hb)
      · exact hfed.of_tests (hrec.none fun b hb => htry ⟨b, hb⟩)
    · rcases next_cur a c v with e | ⟨⟨b, hb⟩, e⟩ <;> rw [e]
      · exact hcur
      · exact hc b hb
    · intro b hb hsize hlt
      cases v with
      | false => rfl
      | true =>
        obtain ⟨x, htests, -, -, hv⟩ := hrec.one b hb
        have hpc := hm.pc
        rw [PcMatch, hb.1] at hpc
        cases hq : s.ctl.pc with
        | inner l begin =>
          rw [hq] at hpc
          obtain ⟨-, rfl⟩ := hpc
          have hrs := hm.rs
          refine absurd ⟨l, _, a.cur, x, hq, hm.file, ?_, by omega, htests, hv⟩ (h s t hr ht.next)
          rw [hrs]
          exact hsize
        | _ => rw [hq] at hpc; exact hpc.elim

end

end Increasing

/-- `ddmin` and `range` always keep a byte; `range_increasing` does exactly when it accepts
    no cut of half of what it holds, at a place it backs up from to 0. -/
theorem a_byte_is_kept {E : Env} {p : Path} {fs : Fs} {X : Bytes} (hX : fs (E.key p) = some X) (hne : X ≠ []) :
    (Unnamed E PartName (E.key p) → X.length ≤ 2 ^ 24 → ∀ s, (Ddmin.machine E (Ddmin.ddmin E p) fs).Reach s →
      Fed E s.w ∧ ∀ q, s.ctl.pc = .ret q → ∃ T, s.w.fs (E.key q) = some T ∧ 0 < T.length) ∧
    (Unnamed E RangeName (E.key p) → ∀ s, (Range.system E p fs).Reach s →
      Fed E s.w ∧ ∀ q, s.main = .ret q → ∃ T, s.w.fs (E.key q) = some T ∧ 0 < T.length) ∧
    (Unnamed E PartName (E.key p) →
      ((∀ s, (Increasing.machine E p fs).Reach s →
          Fed E s.w ∧ ∀ q, s.ctl.pc = .ret q → ∃ T, s.w.fs (E.key q) = some T ∧ 0 < T.length) ↔
        ∀ s t, (Increasing.machine E p fs).Reach s → Increasing.next E s = some t → ¬ Increasing.Halves E s t)) := by
  have hpos : 0 < X.length := List.length_pos_iff.mpr hne
  refine ⟨fun hp hl s hs => ⟨Ddmin.ddmin_fed hp hX hl hs, fun q hq => Ddmin.ddmin_returns_byte hp hX hl hpos hs hq⟩,
    fun hp s hs => ⟨Range.range_fed hs, fun q hq => Range.range_returns_byte hp hX hpos hs hq⟩, fun hp => ⟨fun h s t hs hn hbad => ?_,
    fun h s hs => Increasing.increasing_fed hp hX hpos h hs⟩⟩
  obtain ⟨u, hu, hstarved⟩ := Increasing.halves_starves hp hX hs hn hbad
  exact hstarved (h u hu).1

/-- `range_increasing` accepts the cut of the second of two bytes, half of the file but not
    at its start. -/
theorem a_byte_is_kept_two :
    (∀ s, (Ddmin.machine (judging holdsOne) (Ddmin.ddmin (judging holdsOne) "in".toList) (soleInput "in".toList [1, 2])).Reach s →
      Fed (judging holdsOne) s.w) ∧
    (∀ s, (Range.system (judging holdsOne) "in".toList (soleInput "in".toList [1, 2])).Reach s → Fed (judging holdsOne) s.w) ∧
    (∀ s, (Increasing.machine (judging holdsOne) "in".toList (soleInput "in".toList [1, 2])).Reach s → Fed (judging holdsOne) s.w) ∧
    Increasing.retFile (judging holdsOne)
      ((Increasing.machine (judging holdsOne) "in".toList (soleInput "in".toList [1, 2])).run 6) = some (partFile 1, some [1]) := by
  obtain ⟨h1, h2, h3⟩ := a_byte_is_kept (sole_in holdsOne [1, 2]) (by decide)
  let M := Increasing.machine (judging holdsOne) "in".toList (soleInput "in".toList [1, 2])
  have hend : M.next (M.run 6) = none := Option.isNone_iff_eq_none.mp (by decide +kernel)
  have hlate : ∀ i : Fin 7, ∀ t ∈ M.next (M.run i), Increasing.early (judging holdsOne) (M.run i) t = false := by decide +kernel
  have hkeep : ∀ s t, M.Reach s → Increasing.next (judging holdsOne) s = some t → ¬ Increasing.Halves (judging holdsOne) s t := by
    intro s t hs hn hbad
    obtain ⟨i, hi, rfl⟩ := hs.exists_run_le hend
    have hearly := hbad.early
    rw [hlate ⟨i, Nat.lt_succ_of_le hi⟩ t hn] at hearly
    cases hearly
  exact ⟨fun s hs => (h1 (unnamed_in _) (by decide) s hs).1, fun s hs => (h2 (unnamed_range_in _) s hs).1,
    fun s hs => ((h3 (unnamed_in _)).mpr hkeep s hs).1, by decide +kernel⟩

/-- What is cut out of two bytes of which everything fails: first one, then the other. -/
theorem a_cut_of_half_removes_everything :
    Judges (judging fun _ => true) (fun _ => true) ∧
    ∃ s q, (Increasing.machine (judging fun _ => true) "in".toList (soleInput "in".toList [1, 2])).Reach s ∧
      (∃ t ∈ s.w.own.tests, t.fs ((judging fun _ => true).key t.given) = some []) ∧ s.ctl.pc = .ret q ∧
      s.w.fs ((judging fun _ => true).key q) = some [] := by
  let s := (Increasing.machine (judging fun _ => true) "in".toList (soleInput "in".toList [1, 2])).run 6
  have htest : s.w.own.tests.any (fun t => t.fs ((judging fun _ => true).key t.given) == some []) = true := by decide +kernel
  have hret : Increasing.retFile (judging fun _ => true) s = some (partFile 2, some []) := by decide +kernel
  obtain ⟨t, ht, hfile⟩ := List.any_eq_true.mp htest
  rw [Increasing.retFile] at hret
  cases hq : s.ctl.pc with
  | ret q =>
    rw [hq] at hret
    injection hret with hret
    exact ⟨judging_judges _, s, q, Machine.run_reach 6, ⟨t, ht, beq_iff_eq.mp hfile⟩, hq, congrArg Prod.snd hret⟩
  | _ => rw [hq] at hret; cases hret

end DiyDdmin
