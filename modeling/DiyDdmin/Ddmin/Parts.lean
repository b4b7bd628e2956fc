/-
  DiyDdmin.Ddmin.Parts — the partition of a round of `ddmin`.

  A round starts at the head of the outer loop, with a file of `X` held under a name of its
  own and granularity `n` (`AtHead`): turn 1 opens the two streams, turns 2 to `n + 1` are
  those of the subset loop, and the next `n` those of the complement loop. `after k` is the
  state that `k` turns lead to, and `Rejecting k` says that none of the round's first `k`
  candidates was accepted.

  Proved, for any stdio: the two loops test the parts of one partition of `X` and what is
  left of `X` without each (`phases_agree`); and after an accepted complement the next
  subset loop is on the other parts, which were all rejected before (`parts_survive`).
-/

import DiyDdmin.Ddmin.Results
import DiyDdmin.Reduction.Partition

namespace DiyDdmin.Ddmin

open Posix Tester Numeric Systems Reduction Abstract

section

variable (E : Env) (V : Variant)

structure AtHead (s : St) (n : Nat) (X : Bytes) : Prop where
  pc : s.ctl.pc = .head
  n : s.ctl.n = n
  held : HeldBelow V s.w.own.held s.ctl.fileNo
  file : s.w.fs (E.key s.w.own.held) = some X
  /-- The tests so far were on files that were there. -/
  tests : ∀ t ∈ s.w.own.tests, (candOf E t).isSome = true

def after (s : St) (k : Nat) : St := ((loop E V).machine s).run k

/-- At no moment up to candidate `k` of the round has a candidate been accepted. -/
def Rejecting (s : St) (k : Nat) : Prop :=
  ∀ j ≤ k, ∀ t ∈ (after E V s (j + 1)).w.own.tests.drop s.w.own.tests.length, verdict E.errMsg t.outcome = false

/-- Turn `k` of the round runs the program on a file that holds `c`, and the process goes on. -/
def TestsNext (s : St) (k : Nat) (c : Bytes) : Prop :=
  (∃ t, (after E V s (k + 2)).w.own.tests = (after E V s (k + 1)).w.own.tests ++ [t] ∧ t.given = t.file ∧
    candOf E t = some c) ∧ ∀ e, (after E V s (k + 2)).ctl.pc ≠ .exited e

/-- `bt < part_size` in the subset loop: few elements were written. -/
def writesFew (l : Locals) (partSize : Int) : Code Bool := do
  let r ← copyLoop E.io 2048 partSize.toNat l.inFp l.outFp.rewind
  let _ ← fflush r.2
  let bt ← byteCountFile E l.outFile
  pure (decide ((bt : Int) < partSize))

/-- In the subset loop, about to write enough. -/
def InSubset (t : St) : Prop :=
  ∃ l fSizeLeft nLeft w', t.ctl.pc = .subset l fSizeLeft nLeft ∧
    writesFew E l (ceilfDiv fSizeLeft nLeft) t.w = .ok false w'

def InComplement (t : St) : Prop := ∃ l cStart nLeft, t.ctl.pc = .complement l cStart nLeft

/-- What candidate `k` of the round is. -/
def candAt (n : Nat) (X : Bytes) (k : Nat) : Bytes := if k < n then part n X k else without n X (k - n)

/-- Where the loop on sequences is at candidate `k`. -/
def phaseAt (n f k : Nat) : Phase :=
  if k < n then .subset (bound f n k) (n - k) else .complement (bound f n (k - n)) (2 * n - k)

end

theorem phaseAt_inner (n f k : Nat) : phaseAt n f k ≠ .head ∧ phaseAt n f k ≠ .done := by
  by_cases h : k < n
  · rw [phaseAt, if_pos h]
    exact ⟨Phase.noConfusion, Phase.noConfusion⟩
  · rw [phaseAt, if_neg h]
    exact ⟨Phase.noConfusion, Phase.noConfusion⟩

variable {E : Env} {V : Variant} {s : St} {n : Nat} {X : Bytes}

theorem after_succ {k : Nat} {t : St} (h : next E V (after E V s k) = some t) : after E V s (k + 1) = t := by
  have h' : ((loop E V).machine s).next (((loop E V).machine s).run k) = some t := h
  rw [after, Machine.run, h', Option.getD_some]

theorem reach_after {fs : Fs} (h : (machine E V fs).Reach s) (k : Nat) : (machine E V fs).Reach (after E V s k) := by
  induction k with
  | zero => exact h
  | succ k ih =>
    cases hn : next E V (after E V s k) with
    | none =>
      have hn' : ((loop E V).machine s).next (((loop E V).machine s).run k) = none := hn
      rw [after, Machine.run, hn', Option.getD_none]
      exact ih
    | some t =>
      rw [after_succ hn]
      exact ih.next hn

theorem Rejecting.mono {j k : Nat} (h : Rejecting E V s k) (hj : j ≤ k) : Rejecting E V s j :=
  fun i hi => h i (by omega)

theorem AtHead.matched (h : AtHead E V s n X) (h2 : 2 ≤ n) (hn : n ≤ X.length ∨ X.length ≤ 1) (hsmall : X.length ≤ 2 ^ 24) :
    ∃ tried, Match E V (fun _ => True) s ⟨X, n, .head, tried⟩ := by
  refine ⟨s.w.own.tests.map fun t => (candOf E t).getD [], trivial, h.file, ?_, hsmall, ⟨h2, hn⟩, h.n, ?_⟩
  · rw [List.map_map]
    apply List.map_congr_left
    intro t ht
    obtain ⟨c, hc⟩ := Option.isSome_iff_exists.mp (h.tests t ht)
    simp [hc]
  · unfold PcMatch
    rw [h.pc]
    exact h.held

/-- A state in step with a loop on sequences that is at its head. -/
theorem Match.atHead {G : Fs → Prop} {a : Abs UInt8} (h : Match E V G s a) (hp : a.phase = .head) : AtHead E V s a.n a.cur := by
  have hpc := h.pc
  unfold PcMatch at hpc
  rw [hp] at hpc
  have hhead : s.ctl.pc = .head := by
    cases hq : s.ctl.pc <;> rw [hq] at hpc <;> first | rfl | exact hpc.elim
  rw [hhead] at hpc
  refine ⟨hhead, h.n, hpc, h.file, ?_⟩
  intro t ht
  have hmem : candOf E t ∈ a.tried.map some := h.tried ▸ List.mem_map_of_mem ht
  obtain ⟨c, -, hc⟩ := List.mem_map.mp hmem
  rw [← hc]; rfl

theorem subset_writes_enough {G : Fs → Prop} {a : Abs UInt8} {c k : Nat} (h : Match E V G s a) (hp : a.phase = .subset c k) :
    InSubset E s := by
  obtain ⟨⟨pc, n, fileNo⟩, w⟩ := s
  obtain ⟨-, -, -, small, wf, -, hpc⟩ := h
  rw [PcMatch, hp] at hpc
  cases pc with
  | subset l fSizeLeft nLeft =>
    obtain ⟨j, -, -, hS, hrest, rfl, rfl⟩ := hpc
    have hl := wf.parts (Or.inl hp)
    have hle := hl.size_le
    have hsize := fSizeCeil hl small
    obtain ⟨old, hold⟩ := Option.isSome_iff_exists.mp hS.out
    obtain ⟨i', o', w1, hrun, hH, -⟩ :=
      copyLoop_spec (γ := Vars) (ε := Exit) (n := partSize a.cur.length c k) (v := []) (w := w)
        (fileSink hS.ne hS.source) 2048 (by decide)
        ⟨Writer.Holds.start hS.outKey hS.outBuf hold, fun _ _ => .refl⟩ .refl hS.eof (by rw [hrest, List.length_drop]; omega)
    rw [hrest, List.nil_append] at hH
    obtain ⟨hfile, -⟩ := flush_holds hH.1
    refine ⟨l, _, _, ⟨(o'.flush w1.fs).2, w1.own, w1.past ++ [(w1.own, w1.fs)]⟩, rfl, ?_⟩
    rw [writesFew, hsize, Int.toNat_natCast, bind_ok hrun]
    simp only [fflush, act_bind]
    rw [hS.outFile, bind_ok (byteCountFile_run hfile)]
    have hlen : ¬ ((((a.cur.drop c).take (partSize a.cur.length c k) ++
        old.drop ((a.cur.drop c).take (partSize a.cur.length c k)).length).length : Int) < partSize a.cur.length c k) := by
      simp only [List.length_append, List.length_take, List.length_drop]
      omega
    rw [pure_run, decide_eq_false hlen]
  | _ => exact hpc.elim

theorem match_complement {G : Fs → Prop} {a : Abs UInt8} {c k : Nat} (h : Match E V G s a) (hp : a.phase = .complement c k) :
    ∃ l, s.ctl.pc = .complement l c k ∧ l.fSize = a.cur.length := by
  have hpc := h.pc
  unfold PcMatch at hpc
  rw [hp] at hpc
  cases hq : s.ctl.pc with
  | complement l cStart nLeft =>
    rw [hq] at hpc
    obtain ⟨j, -, -, hS, -, rfl, rfl⟩ := hpc
    exact ⟨l, rfl, hS.fSize⟩
  | _ => rw [hq] at hpc; exact hpc.elim

/-- A state in step with a loop on sequences has not left the process. -/
theorem Match.live {G : Fs → Prop} {a : Abs UInt8} (h : Match E V G s a) (e : Exit) : s.ctl.pc ≠ .exited e := by
  intro hq
  have hpc := h.pc
  unfold PcMatch at hpc
  rw [hq] at hpc
  cases hp : a.phase <;> rw [hp] at hpc <;> exact hpc

/-! ## The phases of a round -/

section

variable {a : Abs UInt8} {k : Nat}

theorem cand_phaseAt (hX : a.cur = X) (hp : a.phase = phaseAt n X.length k) (hk : k < 2 * n) : a.cand = candAt n X k := by
  unfold phaseAt at hp
  unfold candAt part without
  by_cases hkn : k < n
  · rw [if_pos hkn] at hp ⊢
    have hceil : partSize X.length (bound X.length n k) (n - k) = size X.length n k := size_eq_ceil hkn
    rw [Abs.cand_subset hp, hX, hceil]
  · rw [if_neg hkn] at hp ⊢
    have hceil : partSize X.length (bound X.length n (k - n)) (n - (k - n)) = size X.length n (k - n) := size_eq_ceil (by omega)
    rw [Abs.cand_complement hp, hX, show 2 * n - k = n - (k - n) by omega, hceil]

/-- Without an accepted candidate the loop goes on with the next one, and leaves the round
    after `2 n`. -/
theorem next_phaseAt (h2 : 2 ≤ n) (hle : n ≤ X.length) (hX : a.cur = X) (hn : a.n = n) (hp : a.phase = phaseAt n X.length k)
    (hk : k < 2 * n) : (a.next false).cur = X ∧
      (k + 1 < 2 * n → (a.next false).n = n ∧ (a.next false).phase = phaseAt n X.length (k + 1)) ∧
      (k + 1 = 2 * n → (a.next false).phase = .head ∨ (a.next false).phase = .done) := by
  refine ⟨(next_false_cur a).trans hX, ?_⟩
  subst hX hn
  unfold phaseAt at hp
  by_cases hkn : k < a.n
  · rw [if_pos hkn] at hp
    have hceil : partSize a.cur.length (bound a.cur.length a.n k) (a.n - k) = size a.cur.length a.n k := size_eq_ceil hkn
    simp only [Abs.next, hp, Bool.false_eq_true, if_false, hceil, ← bound_succ]
    refine ⟨fun _ => ⟨trivial, ?_⟩, fun hlast => by omega⟩
    by_cases hlast : 1 < a.n - k
    · rw [if_pos hlast, phaseAt, if_pos (by omega), show a.n - k - 1 = a.n - (k + 1) by omega]
    · rw [if_neg hlast, phaseAt, if_neg (by omega), show k + 1 - a.n = 0 by omega, bound_zero, show 2 * a.n - (k + 1) = a.n by omega]
  · rw [if_neg hkn, show 2 * a.n - k = a.n - (k - a.n) by omega] at hp
    have hceil : partSize a.cur.length (bound a.cur.length a.n (k - a.n)) (a.n - (k - a.n)) = size a.cur.length a.n (k - a.n) :=
      size_eq_ceil (by omega)
    simp only [Abs.next, hp, Bool.false_eq_true, if_false, hceil, ← bound_succ]
    constructor
    · intro hmore
      -- a part that is not the last one ends before the sequence does
      have hlt := bound_lt (f := a.cur.length) (i := k - a.n + 1) (show 0 < a.n by omega) hle
      have hend := bound_le (f := a.cur.length) (show 0 < a.n by omega) (show k - a.n + 1 + 1 ≤ a.n by omega)
      rw [if_pos (by omega)]
      refine ⟨rfl, ?_⟩
      rw [phaseAt, if_neg (by omega), show k + 1 - a.n = k - a.n + 1 by omega,
        show 2 * a.n - (k + 1) = a.n - (k - a.n) - 1 by omega]
    · intro hlast
      rw [show k - a.n + 1 = a.n by omega, bound_last (by omega), if_neg (by omega)]
      split
      · exact Or.inl rfl
      · exact Or.inr rfl

end

/-! ## Runs -/

section

variable {G : Fs → Prop} {seenS seenC : Bytes → Test → Prop}
  (L : Layout E V (fun _ => True) (fun _ => True) seenS seenC)
  (hs : AtHead E V s n X) (h2 : 2 ≤ n) (hle : n ≤ X.length) (hsmall : X.length ≤ 2 ^ 24)
include L hs h2 hle hsmall

/-- Run lemma: up to candidate `k` the code is in step with the loop on sequences. -/
theorem round_match : ∀ k ≤ 2 * n, Rejecting E V s k → ∃ a, Match E V (fun _ => True) (after E V s (k + 1)) a ∧ a.cur = X ∧
    (after E V s (k + 1)).w.own.tests.length = s.w.own.tests.length + k ∧
    (k < 2 * n → a.n = n ∧ a.phase = phaseAt n X.length k) ∧ (k = 2 * n → a.phase = .head ∨ a.phase = .done) := by
  intro k
  induction k with
  | zero =>
    intro _ _
    obtain ⟨tried, hm⟩ := hs.matched h2 (Or.inl hle) hsmall
    obtain ⟨t, ht⟩ := turn_head L hm rfl
    have hnext : Abs.next ⟨X, n, .head, tried⟩ false = ⟨X, n, .subset 0 n, tried⟩ := by
      simp only [Abs.next, if_pos (show 1 < X.length by omega)]
    have hmatched := ht.matched
    rw [hnext] at hmatched
    have hafter : after E V s 1 = t := after_succ ht.next
    refine ⟨_, hafter ▸ hmatched, rfl, by rw [hafter, (ht.quiet rfl).2]; rfl, fun _ => ⟨rfl, ?_⟩, fun h0 => by omega⟩
    rw [phaseAt, if_pos (by omega), bound_zero, Nat.sub_zero]
  | succ k ih =>
    intro hk hrej
    obtain ⟨a, hm, hX, hlen, hmid, -⟩ := ih (by omega) (hrej.mono (by omega))
    obtain ⟨hn, hp⟩ := hmid (by omega)
    have hd : a.phase ≠ .done := hp ▸ (phaseAt_inner _ _ _).2
    have hh : a.phase ≠ .head := hp ▸ (phaseAt_inner _ _ _).1
    obtain ⟨t, v, ht⟩ := match_next L hm spared_all hd
    have hafter := after_succ ht.next
    -- the candidate's test is one of the round, and was not accepted
    obtain ⟨r, hr, hv, -⟩ := ht.ran hh
    have hrejected := hrej (k + 1) (Nat.le_refl _)
    rw [hafter, hr] at hrejected
    rw [List.drop_append_of_le_length (by omega)] at hrejected
    have hv' : v = false := hv.trans (hrejected r (by simp))
    subst hv'
    obtain ⟨hX', hmore, hlast⟩ := next_phaseAt h2 hle hX hn hp (by omega)
    refine ⟨_, hafter ▸ ht.matched, hX', ?_, hmore, hlast⟩
    rw [hafter, hr, List.length_append, List.length_singleton, hlen]
    omega

/-- Turn `k` of the round, with its candidate and its verdict. -/
theorem round_turn {k : Nat} (hk : k < 2 * n) (hrej : Rejecting E V s k) :
    ∃ a v t, Match E V (fun _ => True) (after E V s (k + 1)) a ∧ a.n = n ∧ a.cur = X ∧ a.phase = phaseAt n X.length k ∧
      Match E V (fun _ => True) (after E V s (k + 2)) (a.next v) ∧
      (after E V s (k + 2)).w.own.tests = (after E V s (k + 1)).w.own.tests ++ [t] ∧ v = verdict E.errMsg t.outcome ∧
      candOf E t = some (candAt n X k) ∧ (k < n → seenS (candAt n X k) t) ∧ (n ≤ k → seenC (candAt n X k) t) := by
  obtain ⟨a, hm, hX, -, hmid, -⟩ := round_match L hs h2 hle hsmall k hk.le hrej
  obtain ⟨hn, hp⟩ := hmid hk
  have hd : a.phase ≠ .done := hp ▸ (phaseAt_inner _ _ _).2
  have hh : a.phase ≠ .head := hp ▸ (phaseAt_inner _ _ _).1
  obtain ⟨u, v, ht⟩ := match_next L hm spared_all hd
  have hafter := after_succ ht.next
  obtain ⟨t, hr, hv, hc, hS, hC⟩ := ht.ran hh
  rw [cand_phaseAt hX hp hk] at hc hS hC
  refine ⟨a, v, t, hm, hn, hX, hp, hafter ▸ ht.matched, by rw [hafter, hr], hv, hc, ?_, ?_⟩
  · intro hkn
    rw [phaseAt, if_pos hkn] at hp
    exact hS _ _ hp
  · intro hkn
    rw [phaseAt, if_neg (by omega)] at hp
    exact hC _ _ hp

theorem round_tests (hgiven : ∀ c t, seenS c t ∨ seenC c t → t.given = t.file) {k : Nat} (hk : k < 2 * n) (hrej : Rejecting E V s k) :
    TestsNext E V s k (candAt n X k) := by
  obtain ⟨a, v, t, -, -, -, -, hm, ht, -, hc, hS, hC⟩ := round_turn L hs h2 hle hsmall hk hrej
  have hseen : seenS (candAt n X k) t ∨ seenC (candAt n X k) t := by
    rcases Nat.lt_or_ge k n with hkn | hkn
    · exact Or.inl (hS hkn)
    · exact Or.inr (hC hkn)
  exact ⟨⟨t, ht, hgiven _ _ hseen, hc⟩, hm.live⟩

/-- The first `n` candidates of the round are tested in the subset loop, the next `n` in the
    complement loop, and there are no more. -/
theorem round_loops {k : Nat} (hk : k ≤ 2 * n) (hrej : Rejecting E V s k) :
    (k < n → InSubset E (after E V s (k + 1))) ∧ (n ≤ k → k < 2 * n → InComplement (after E V s (k + 1))) ∧
      (k = 2 * n → (after E V s (k + 1)).ctl.pc = .head ∨ ∃ q, (after E V s (k + 1)).ctl.pc = .ret q) := by
  obtain ⟨a, hm, -, -, hmid, hend⟩ := round_match L hs h2 hle hsmall k hk hrej
  refine ⟨?_, ?_, ?_⟩
  · intro hkn
    have hp := (hmid (by omega)).2
    rw [phaseAt, if_pos hkn] at hp
    exact subset_writes_enough hm hp
  · intro hkn hk2
    have hp := (hmid hk2).2
    rw [phaseAt, if_neg (by omega)] at hp
    obtain ⟨l, hl, -⟩ := match_complement hm hp
    exact ⟨l, _, _, hl⟩
  · intro hk2
    rcases hend hk2 with hp | hp
    · exact Or.inl (hm.atHead hp).pc
    · have hpc := hm.pc
      unfold PcMatch at hpc
      rw [hp] at hpc
      cases hq : (after E V s (k + 1)).ctl.pc <;> rw [hq] at hpc <;> first | exact hpc.elim | exact Or.inr ⟨_, rfl⟩

end

/-- Both loops of a round work on one partition: with boundaries `c`, candidate `i` of the
    subset loop is part `i`, candidate `i` of the complement loop what is left without it,
    each loop has `n` candidates, no file comes out too short and the process goes on. -/
theorem phases_agree {E : Env} {p : Path} (hp : Unnamed E PartName (E.key p)) {s : St} {n : Nat} {X : Bytes}
    (hs : AtHead E (ddmin E p) s n X) (h2 : 2 ≤ n) (hle : n ≤ X.length) (hsmall : X.length ≤ 2 ^ 24) :
    ∃ c : Nat → Nat, (c 0 = 0 ∧ c n = X.length ∧ (∀ i < n, c i < c (i + 1)) ∧
        ∀ i < n, ∀ j < n, c (i + 1) - c i ≤ c (j + 1) - c j + 1) ∧
      (∀ i < n, Rejecting E (ddmin E p) s i → InSubset E (after E (ddmin E p) s (i + 1)) ∧
        TestsNext E (ddmin E p) s i ((X.drop (c i)).take (c (i + 1) - c i))) ∧
      (∀ i < n, Rejecting E (ddmin E p) s (n + i) → InComplement (after E (ddmin E p) s (n + i + 1)) ∧
        TestsNext E (ddmin E p) s (n + i) (X.take (c i) ++ X.drop (c (i + 1)))) ∧
      (Rejecting E (ddmin E p) s (2 * n) → (after E (ddmin E p) s (2 * n + 1)).ctl.pc = .head ∨
        ∃ q, (after E (ddmin E p) s (2 * n + 1)).ctl.pc = .ret q) := by
  have hn : 0 < n := by omega
  have L := ddmin_layout hp
  have Lg := ddmin_layout_given hp
  have hgiven : ∀ (_ : Bytes) (t : Test), t.given = t.file ∨ t.given = t.file → t.given = t.file := fun _ _ h => or_self_iff.mp h
  have hsize : ∀ i, bound X.length n (i + 1) - bound X.length n i = size X.length n i := fun i => by
    rw [bound_succ]; omega
  refine ⟨bound X.length n, ⟨bound_zero, bound_last hn, fun i _ => bound_lt hn hle, ?_⟩, ?_, ?_, ?_⟩
  · intro i _ j _
    rw [hsize, hsize]
    exact size_le_size
  · intro i hi hrej
    have htest := round_tests Lg hs h2 hle hsmall hgiven (show i < 2 * n by omega) hrej
    rw [candAt, if_pos hi, part, ← hsize] at htest
    exact ⟨(round_loops L hs h2 hle hsmall (by omega) hrej).1 hi, htest⟩
  · intro i hi hrej
    have htest := round_tests Lg hs h2 hle hsmall hgiven (show n + i < 2 * n by omega) hrej
    rw [candAt, if_neg (by omega), Nat.add_sub_cancel_left, without, cut, ← bound_succ] at htest
    exact ⟨(round_loops L hs h2 hle hsmall (by omega) hrej).2.1 (by omega) (by omega), htest⟩
  · intro hrej
    exact (round_loops L hs h2 hle hsmall (Nat.le_refl _) hrej).2.2 rfl

/-- The head of the loop with three bytes held, to be cut into three parts. -/
def threeParts : St :=
  ⟨⟨.head, 3, 0⟩, ⟨soleInput "in".toList [1, 2, 3], ⟨"in".toList, []⟩, []⟩⟩

theorem threeParts_head (D : Bytes → Bool) :
    AtHead (judging D) (ddmin (judging D) "in".toList) threeParts 3 [1, 2, 3] :=
  ⟨rfl, rfl, Or.inl rfl, sole_in D _, nofun⟩

/-- A round of three parts, none of which fails, alone or left out. -/
theorem phases_agree_three :
    ∃ c : Nat → Nat, c 0 = 0 ∧ c 3 = 3 ∧
      TestsNext (judging fun _ => false) (ddmin (judging fun _ => false) "in".toList) threeParts 1
        (([1, 2, 3] : Bytes).drop (c 1) |>.take (c 2 - c 1)) ∧
      TestsNext (judging fun _ => false) (ddmin (judging fun _ => false) "in".toList) threeParts (3 + 1)
        (([1, 2, 3] : Bytes).take (c 1) ++ ([1, 2, 3] : Bytes).drop (c 2)) := by
  have hrej : Rejecting (judging fun _ => false) (ddmin (judging fun _ => false) "in".toList) threeParts (3 + 1) := by
    unfold Rejecting
    decide +kernel
  obtain ⟨c, ⟨h0, h3, -⟩, hsub, hcom, -⟩ := phases_agree (unnamed_in fun _ => false) (threeParts_head fun _ => false) (by decide)
    (by decide) (by decide)
  exact ⟨c, h0, h3, (hsub 1 (by decide) (hrej.mono (by decide))).2, (hcom 1 (by decide) hrej).2⟩

/-! ## After an accepted complement -/

section

variable {p : Path} {i : Nat} {t : Test}

/-- A round's subset loop up to part `k` is on the parts of the held file, in order. -/
theorem subset_tests (hp : Unnamed E PartName (E.key p)) (hs : AtHead E (ddmin E p) s n X) (h2 : 2 ≤ n) (hle : n ≤ X.length)
    (hsmall : X.length ≤ 2 ^ 24) {k : Nat} (hk : k < n) (hrej : Rejecting E (ddmin E p) s k) :
    InSubset E (after E (ddmin E p) s (k + 1)) ∧ TestsNext E (ddmin E p) s k (part n X k) := by
  have htest := round_tests (ddmin_layout_given hp) hs h2 hle hsmall (fun _ _ h => or_self_iff.mp h) (show k < 2 * n by omega) hrej
  rw [candAt, if_pos hk] at htest
  exact ⟨(round_loops (ddmin_layout hp) hs h2 hle hsmall (by omega) hrej).1 hk, htest⟩

/-- The round after an accepted complement starts on what the complement left. -/
theorem complement_accepted (hp : Unnamed E PartName (E.key p)) (hs : AtHead E (ddmin E p) s n X) (h3 : 3 ≤ n) (hle : n ≤ X.length)
    (hsmall : X.length ≤ 2 ^ 24) (hi : i < n) (hrej : Rejecting E (ddmin E p) s (n + i))
    (ht : (after E (ddmin E p) s (n + i + 2)).w.own.tests = (after E (ddmin E p) s (n + i + 1)).w.own.tests ++ [t])
    (hacc : verdict E.errMsg t.outcome = true) :
    candOf E t = some (without n X i) ∧ AtHead E (ddmin E p) (after E (ddmin E p) s (n + i + 2)) (n - 1) (without n X i) := by
  obtain ⟨a, v, t', -, hn, hX, hphase, hm, ht', hv, hc, -⟩ :=
    round_turn (ddmin_layout hp) hs (by omega) hle hsmall (show n + i < 2 * n by omega) hrej
  obtain rfl : t = t' := by simpa using ht.symm.trans ht'
  obtain rfl : v = true := hv.trans hacc
  have hcand := cand_phaseAt hX hphase (show n + i < 2 * n by omega)
  rw [candAt, if_neg (by omega), Nat.add_sub_cancel_left] at hc hcand
  rw [phaseAt, if_neg (by omega)] at hphase
  have hnext : a.next true = ⟨without n X i, n - 1, .head, a.tried ++ [a.cand]⟩ := by
    rw [Abs.next_complement_true hphase, hcand, hn, show max (n - 1) 2 = n - 1 by omega]
  rw [hnext] at hm
  exact ⟨hc, hm.atHead rfl⟩

/-- With a verdict function, what was rejected alone before is rejected again. -/
theorem parts_rejected (hp : Unnamed E PartName (E.key p)) {D : Bytes → Bool} (hD : Judges E D) (hs : AtHead E (ddmin E p) s n X)
    (h2 : 2 ≤ n) (hle : n ≤ X.length) (hsmall : X.length ≤ 2 ^ 24) (hpass : ∀ j < n, D (part n X j) = false) :
    ∀ k ≤ n, Rejecting E (ddmin E p) s k := by
  intro k
  induction k with
  | zero =>
    intro _ j hj t ht
    obtain rfl : j = 0 := by omega
    obtain ⟨tried, hm⟩ := hs.matched h2 (Or.inl hle) hsmall
    obtain ⟨u, hu⟩ := turn_head (ddmin_layout hp) hm rfl
    have hafter : after E (ddmin E p) s 1 = u := after_succ hu.next
    rw [hafter, (hu.quiet rfl).2, List.drop_length] at ht
    cases ht
  | succ k ih =>
    intro hk
    have hrej := ih (by omega)
    have L := ddmin_layout hp
    obtain ⟨-, -, -, hlen, -⟩ := round_match L hs h2 hle hsmall k (by omega) hrej
    obtain ⟨-, -, r, -, -, -, -, -, hr, -, -, hS, -⟩ := round_turn L hs h2 hle hsmall (show k < 2 * n by omega) hrej
    have hv : verdict E.errMsg r.outcome = false := by
      rw [hS (by omega) D hD, candAt, if_pos (show k < n by omega)]
      exact hpass k (by omega)
    intro j hj t ht
    by_cases hjk : j ≤ k
    · exact hrej j hjk t ht
    · obtain rfl : j = k + 1 := by omega
      rw [hr, List.drop_append_of_le_length (by omega)] at ht
      rcases List.mem_append.mp ht with ht | ht
      · exact hrej k (Nat.le_refl _) t ht
      · rw [List.mem_singleton.mp ht]
        exact hv

/-- In a round that has come as far as its complement loop every part passed alone. -/
theorem parts_passed (hp : Unnamed E PartName (E.key p)) {D : Bytes → Bool} (hD : Judges E D) (hs : AtHead E (ddmin E p) s n X)
    (h2 : 2 ≤ n) (hle : n ≤ X.length) (hsmall : X.length ≤ 2 ^ 24) (hrej : Rejecting E (ddmin E p) s n) {j : Nat} (hj : j < n) :
    D (part n X j) = false := by
  have L := ddmin_layout hp
  have hrejj := hrej.mono hj.le
  obtain ⟨-, -, -, hlen, -⟩ := round_match L hs h2 hle hsmall j (by omega) hrejj
  obtain ⟨-, -, r, -, -, -, -, -, hr, -, -, hS, -⟩ := round_turn L hs h2 hle hsmall (show j < 2 * n by omega) hrejj
  have hv := hS hj D hD
  rw [candAt, if_pos hj] at hv
  rw [← hv]
  apply hrej (j + 1) hj r
  rw [hr, List.drop_append_of_le_length (by omega)]
  simp

end

/-- After an accepted complement that drops part `i` of `n`, the next round is on what is
    left with `n - 1`; its subset loop is on the other parts, in order and with the same
    bytes, and under a verdict function it accepts none of them. -/
theorem parts_survive {E : Env} {p : Path} (hp : Unnamed E PartName (E.key p)) {s : St} {n : Nat} {X : Bytes}
    (hs : AtHead E (ddmin E p) s n X) (h3 : 3 ≤ n) (hle : n ≤ X.length) (hsmall : X.length ≤ 2 ^ 24) {i : Nat} (hi : i < n)
    (hrej : Rejecting E (ddmin E p) s (n + i)) {t : Test}
    (ht : (after E (ddmin E p) s (n + i + 2)).w.own.tests = (after E (ddmin E p) s (n + i + 1)).w.own.tests ++ [t])
    (hacc : verdict E.errMsg t.outcome = true) :
    ∃ (ps : List Bytes) (Y : Bytes), (ps.length = n ∧ ps.flatten = X ∧ ∀ j (hj : j < ps.length), TestsNext E (ddmin E p) s j ps[j]) ∧
      (candOf E t = some Y ∧ (ps.eraseIdx i).flatten = Y) ∧
      AtHead E (ddmin E p) (after E (ddmin E p) s (n + i + 2)) (n - 1) Y ∧
      (∀ j (hj : j < (ps.eraseIdx i).length), Rejecting E (ddmin E p) (after E (ddmin E p) s (n + i + 2)) j →
        InSubset E (after E (ddmin E p) (after E (ddmin E p) s (n + i + 2)) (j + 1)) ∧
        TestsNext E (ddmin E p) (after E (ddmin E p) s (n + i + 2)) j (ps.eraseIdx i)[j]) ∧
      ∀ D, Judges E D → Rejecting E (ddmin E p) (after E (ddmin E p) s (n + i + 2)) (n - 1) ∧
        InComplement (after E (ddmin E p) (after E (ddmin E p) s (n + i + 2)) n) := by
  obtain ⟨hc, hnext⟩ := complement_accepted hp hs h3 hle hsmall hi hrej ht hacc
  have hlen := length_without (n := n) (X := X) hi
  have hrest := pred_le_length_without hi hle
  have hsmall' : (without n X i).length ≤ 2 ^ 24 := by omega
  refine ⟨parts n X, without n X i, ⟨by simp [parts], ?_, ?_⟩, ⟨hc, ?_⟩, hnext, ?_, ?_⟩
  · exact parts_flatten (by omega)
  · intro j hj
    have hj' : j < n := by simpa [parts] using hj
    have := (subset_tests hp hs (by omega) hle hsmall hj' (hrej.mono (by omega))).2
    simpa [parts] using this
  · rw [← parts_cut hi]
    exact parts_flatten (by omega)
  · intro j hj hrejj
    have hj' : j < n - 1 := by rw [← parts_cut hi] at hj; simpa [parts] using hj
    have := subset_tests hp hnext (by omega) hrest hsmall' hj' hrejj
    simp only [← parts_cut hi]
    simpa [parts] using this
  · intro D hD
    have hpass : ∀ j < n - 1, D (part (n - 1) (without n X i) j) = false := fun j hj => by
      rw [part_without hi hj]
      split
      · exact parts_passed hp hD hs (by omega) hle hsmall (hrej.mono (by omega)) (by omega)
      · exact parts_passed hp hD hs (by omega) hle hsmall (hrej.mono (by omega)) (by omega)
    have hrej' := parts_rejected hp hD hnext (by omega) hrest hsmall' hpass (n - 1) (Nat.le_refl _)
    have hin := (round_loops (ddmin_layout hp) hnext (by omega) hrest hsmall' (by omega) hrej').2.1 (Nat.le_refl _) (by omega)
    rw [show n - 1 + 1 = n by omega] at hin
    exact ⟨hrej', hin⟩

/-- The outer two of three bytes make the failure. -/
def oneAndThree (c : Bytes) : Bool := c.contains 1 && c.contains 3

/-- The middle one of three parts is dropped. -/
theorem parts_survive_three :
    ∃ (ps : List Bytes) (Y : Bytes), ps.length = 3 ∧ ps.flatten = [1, 2, 3] ∧ (ps.eraseIdx 1).flatten = Y ∧
      AtHead (judging oneAndThree) (ddmin (judging oneAndThree) "in".toList)
        (after (judging oneAndThree) (ddmin (judging oneAndThree) "in".toList) threeParts (3 + 1 + 2)) (3 - 1) Y ∧
      Rejecting (judging oneAndThree) (ddmin (judging oneAndThree) "in".toList)
        (after (judging oneAndThree) (ddmin (judging oneAndThree) "in".toList) threeParts (3 + 1 + 2)) (3 - 1) := by
  have hrej : Rejecting (judging oneAndThree) (ddmin (judging oneAndThree) "in".toList) threeParts (3 + 1) := by
    unfold Rejecting
    decide +kernel
  have hverdicts : ((after (judging oneAndThree) (ddmin (judging oneAndThree) "in".toList) threeParts (3 + 1 + 2)).w.own.tests.map
      fun t => verdict (judging oneAndThree).errMsg t.outcome).getLast? = some true := by
    decide +kernel
  obtain ⟨⟨t, ht, -⟩, -⟩ := round_tests (ddmin_layout_given (unnamed_in oneAndThree)) (threeParts_head oneAndThree) (by decide)
    (by decide) (by decide) (fun _ _ h => or_self_iff.mp h) (show 3 + 1 < 2 * 3 by decide) hrej
  rw [ht, List.map_append, List.map_singleton, List.getLast?_concat] at hverdicts
  obtain ⟨ps, Y, ⟨hlen, hflat, -⟩, ⟨-, hdrop⟩, hhead, -, hdet⟩ := parts_survive (unnamed_in oneAndThree) (threeParts_head oneAndThree) (by decide)
    (by decide) (by decide) (show 1 < 3 by decide) hrej ht (Option.some.inj hverdicts)
  exact ⟨ps, Y, hlen, hflat, hdrop, hhead, (hdet oneAndThree (judging_judges oneAndThree)).1⟩

end DiyDdmin.Ddmin
