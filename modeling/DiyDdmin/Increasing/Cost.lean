/-
  DiyDdmin.Increasing.Cost — how many tests `range_increasing` runs.

  A pass over a sequence of `n` elements with cuts of `rs` tests at most `n - rs + 1` of
  them: an accepted cut takes `rs` places off the pass and backs up by `rs - 1`, so each
  test brings the pass one place nearer to its end. `passes m` pays for the passes still to
  come when cuts of `m` lengths are left.

  Proved: an input of `n` bytes takes at most `(n - 1) * (n + 2) / 2` tests, whatever the
  verdicts, and exactly as many when nothing fails (`increasing_tests_le`).
-/

import DiyDdmin.Increasing.Results
import DiyDdmin.Reduction.Count

namespace DiyDdmin.Increasing

open Posix Tester Numeric Systems Reduction Abstract

namespace Abstract

variable {α : Type}

/-- What is left of the pass, and the passes still to come. -/
def potential (a : Scan α) : Nat :=
  match a.phase with
  | .outer => passes (a.size - a.rs).toNat
  | .inner b => (a.size - a.rs - b + 1).toNat + passes (a.size - a.rs - 1).toNat
  | .done => 0

section

variable {a : Scan α} {c : List α} {v : Bool}

theorem potential_accept {b : Nat} (hrs : 1 ≤ a.rs) (h : a.Tries b) (hf : Fits a b c) : 1 + potential (a.next c true) ≤ potential a := by
  have hin := hf.inside
  have hsize : (⟨c, a.rs, .inner (b + 1 - a.rs), a.rs⟩ : Scan α).size = a.size - a.rs := hf.size _ _ _
  have hmono : passes (a.size - a.rs - a.rs - 1).toNat ≤ passes (a.size - a.rs - 1).toNat := passes_mono (by omega)
  rw [next_accept c h]
  simp only [potential, h.1, hsize]
  omega

theorem potential_reject {b : Nat} (h : a.Tries b) : 1 + potential (a.next c false) = potential a := by
  have hle := h.2
  rw [next_reject c h]
  simp only [potential, h.1]
  change 1 + ((a.size - a.rs - ((b + 1 : Nat) : Int) + 1).toNat + passes (a.size - a.rs - 1).toNat) = _
  omega

/-- Where nothing is tried, what is left to pay for stays as it is. -/
theorem potential_quiet (h : ∀ b, ¬ a.Tries b) : potential (a.next c v) = potential a := by
  cases hp : a.phase with
  | outer =>
    by_cases hlt : a.rs < a.size
    · obtain ⟨m, hm⟩ : ∃ m, (a.size - a.rs).toNat = m + 1 := ⟨(a.size - a.rs).toNat - 1, by omega⟩
      rw [next_scan c v hp hlt]
      simp only [potential, hp, hm, passes]
      change (a.size - a.rs - ((0 : Nat) : Int) + 1).toNat + passes (a.size - a.rs - 1).toNat = _
      rw [show (a.size - a.rs - 1).toNat = m by omega]
      omega
    · rw [next_end c v hp hlt]
      simp only [potential, hp]
      rw [show (a.size - a.rs).toNat = 0 by omega]
      rfl
  | inner b =>
    have hno : ¬ (b : Int) ≤ a.size - a.rs := fun hle => h b ⟨hp, hle⟩
    rw [next_wrap c v hp (h b)]
    simp only [potential, hp]
    change passes (a.size - ((a.rs + 1 : Nat) : Int)).toNat = _
    rw [show (a.size - a.rs - b + 1).toNat = 0 by omega, Nat.zero_add]
    congr 1
    omega
  | done => rw [next_done c v hp]

end

end Abstract

/-! ## Runs of the code -/

section

variable {E : Env} {inputPath : Path} {fs : Fs} {X : Bytes}

theorem potential_init (X : Bytes) : potential (.init X) = passes ((toInt X.length).toNat - 1) := by
  change passes (toInt X.length - ((1 : Nat) : Int)).toNat = _
  congr 1
  omega

/-- Step lemma: each test is paid for, and exactly so if it passes. -/
theorem tests_next {s t : St} {a : Scan UInt8} {c : Bytes} {v : Bool} (hm : Match E inputPath s a) (ht : Turn E inputPath s a t c v)
    (hrec : Records E s a t c v) :
    t.w.own.tests.length + potential (a.next c v) ≤ s.w.own.tests.length + potential a ∧
    ((∀ b, a.Tries b → v = false) → t.w.own.tests.length + potential (a.next c v) = s.w.own.tests.length + potential a) := by
  by_cases htry : ∃ b, a.Tries b
  · obtain ⟨b, hb⟩ := htry
    obtain ⟨r, htests, -⟩ := hrec.one b hb
    have hlen : t.w.own.tests.length = s.w.own.tests.length + 1 := by rw [htests, List.length_append]; rfl
    cases v with
    | true =>
      have hpay := potential_accept hm.one hb (ht.ran b hb).1
      exact ⟨by omega, fun hno => nomatch hno b hb⟩
    | false =>
      have hpay := potential_reject (c := c) hb
      exact ⟨by omega, fun _ => by omega⟩
  · have hno : ∀ b, ¬ a.Tries b := fun b hb => htry ⟨b, hb⟩
    have hpay := potential_quiet (c := c) (v := v) hno
    rw [hrec.none hno, hpay]
    exact ⟨Nat.le_refl _, fun _ => rfl⟩

theorem tests_bound (hp : Unnamed E PartName (E.key inputPath)) (hX : fs (E.key inputPath) = some X) {s : St}
    (hs : (machine E inputPath fs).Reach s) :
    s.w.own.tests.length ≤ passes ((toInt X.length).toNat - 1) ∧
    ∀ q, Judges E (fun _ => false) → s.ctl.pc = .ret q → s.w.own.tests.length = passes ((toInt X.length).toNat - 1) := by
  have hinv := reach_turns hp hX (P := fun s a =>
      s.w.own.tests.length + potential a ≤ passes ((toInt X.length).toNat - 1) ∧
      (Judges E (fun _ => false) → s.w.own.tests.length + potential a = passes ((toInt X.length).toNat - 1)))
    (fun t he => ?_) (fun s a t c v _ hm hle ht hrec => ?_) hs
  · rcases hinv with rfl | ⟨a, hm, hle, heq⟩
    · exact ⟨Nat.zero_le _, nofun⟩
    · refine ⟨(Nat.le_add_right _ _).trans hle, ?_⟩
      intro q hD hq
      have hdone : potential a = 0 := by rw [potential, (match_ret hm hq).1]
      rw [← heq hD, hdone, Nat.add_zero]
  · rw [he.own, potential_init]
    exact ⟨(Nat.zero_add _).le, fun _ => Nat.zero_add _⟩
  · obtain ⟨hstep, hquiet⟩ := tests_next hm ht hrec
    refine ⟨hstep.trans hle.1, ?_⟩
    intro hD
    rw [← hle.2 hD]
    exact hquiet fun b hb => (ht.ran b hb).2 _ hD

/-- An input of `n` bytes takes at most `(n - 1) * (n + 2) / 2` tests, `n` being what an
    `int` makes of its size, and all of them where nothing fails; and the run comes to a
    return. -/
theorem increasing_tests_le (hp : Unnamed E PartName (E.key inputPath)) (hX : fs (E.key inputPath) = some X) :
    (∀ s, (machine E inputPath fs).Reach s →
      s.w.own.tests.length ≤ ((toInt X.length).toNat - 1) * ((toInt X.length).toNat + 2) / 2 ∧
      ∀ q, Judges E (fun _ => false) → s.ctl.pc = .ret q →
        s.w.own.tests.length = ((toInt X.length).toNat - 1) * ((toInt X.length).toNat + 2) / 2) ∧
    ∃ s q, (machine E inputPath fs).Ends s ∧ s.ctl.pc = .ret q := by
  rw [← passes_all]
  exact ⟨fun s hs => tests_bound hp hX hs, returns hp hX⟩

theorem increasing_tests_le_three :
    (∀ n, ((machine (judging fun c => c.contains 1) "in".toList (soleInput "in".toList [1, 2, 3])).run n).w.own.tests.length ≤ 5) ∧
    ∃ s q, (machine (judging fun _ => false) "in".toList (soleInput "in".toList [1, 2, 3])).Ends s ∧ s.ctl.pc = .ret q ∧
      s.w.own.tests.length = 5 := by
  have hfive : ((toInt ([1, 2, 3] : Bytes).length).toNat - 1) * ((toInt ([1, 2, 3] : Bytes).length).toNat + 2) / 2 = 5 := by
    decide +kernel
  constructor
  · intro n
    exact ((increasing_tests_le (unnamed_in _) (sole_in _ [1, 2, 3])).1 _ (Machine.run_reach n)).1.trans hfive.le
  · obtain ⟨hbound, s, q, hs, hq⟩ := increasing_tests_le (unnamed_in fun _ => false) (sole_in (fun _ => false) [1, 2, 3])
    have hall := (hbound s hs.1).2 q (judging_judges _) hq
    exact ⟨s, q, hs, hq, hall.trans hfive⟩

end

end DiyDdmin.Increasing
