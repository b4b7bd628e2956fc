/-
  DiyDdmin.Ddmin.Minimal — what `ddmin` returns is 1-minimal.

  The input may stand under any name but those of the candidates. Where that is an output
  file of a test on `./j.part`, the first test of round `j` removes the input from the
  directory (`runTest_swept`), and later candidates of that round are cut from a file that
  may be empty by then (`Lost`). Their sizes are still the ones delta debugging gives, so an
  accepted one is an input like any other; where none is accepted the next round finds no
  input and exits, or the path returned names nothing (`Kept`). A test leaves its output
  files only when the program is timed out, which `runner` does not report in a process
  without other threads (`Solitary`).

  Proved: what is returned, if it holds two bytes or more, has no failing single-byte
  deletion and no failing single byte (`ddmin_minimal`).
-/

import DiyDdmin.Ddmin.Results
import DiyDdmin.Runner.Timeout

namespace DiyDdmin.Ddmin

open Posix Tester Numeric Systems Reduction Abstract

/-- Each run of the program is a call of `runner` in a process without other threads that
    does little more than wait. -/
def Solitary (E : Env) : Prop := ∀ i given fs, Runner.Timeout.Alone (E.program i given fs)

theorem judging_solitary (D : Bytes → Bool) : Solitary (judging D) := fun _ _ _ => Runner.Timeout.alone_noError _ _

section

variable (E : Env) (p : Path)

/-- A round `j` that tests under the input's name: only the sizes are those of `a`. -/
def LostPc (s : St) (a : Abs UInt8) : Prop :=
  match s.ctl.pc, a.phase with
  | .subset l fSizeLeft nLeft, .subset c k =>
    ∃ j, s.ctl.fileNo = j + 1 ∧ ¬ Clear E p j ∧ l.outFile = partFile j ∧ l.fSize = a.cur.length ∧
      fSizeLeft = (a.cur.length : Int) - c ∧ nLeft = k
  | .complement l cStart nLeft, .complement c k =>
    ∃ j, s.ctl.fileNo = j + 1 ∧ ¬ Clear E p j ∧ l.outFile = partFile j ∧ l.fSize = a.cur.length ∧ cStart = c ∧ nLeft = k
  | _, _ => False

structure Lost (s : St) (a : Abs UInt8) : Prop where
  held : s.w.own.held = p
  tried : ∃ tried : List Bytes, s.w.own.tests.map (candOf E) = tried.map some
  small : a.cur.length ≤ 2 ^ 24
  wf : WF a
  n : s.ctl.n = a.n
  pc : LostPc E p s a

/-- What a run of `ddmin` comes to, wherever its input stands. -/
inductive Kept (D : Bytes → Bool) : St → Prop
  | entry (fs : Fs) : (∃ X, fs (E.key p) = some X ∧ X.length ≤ 2 ^ 24) → Kept D (start (ddmin E p) fs)
  | left {s : St} : next E (ddmin E p) s = none → (∀ q, s.ctl.pc ≠ .ret q) → Kept D s
  | sound {s : St} (a : Abs UInt8) : Match E (ddmin E p) (fun _ => True) s a → Tested D a →
      (a.phase ≠ .head → a.phase ≠ .done → Spared (ddmin E p) (Clear E p) s) → Kept D s
  | lost {s : St} (a : Abs UInt8) : Lost E p s a → Kept D s
  | gone {s : St} : s.w.own.held = p → s.w.fs (E.key p) = none → s.ctl.pc = .head ∨ s.ctl.pc = .ret p → Kept D s

end

variable {E : Env} {p : Path}

/-! ## Candidates of a lost input -/

theorem own_of_keeps {x : Code Locals} {Q : Locals → Prop} {w w' : World Vars} {l : Locals}
    (hk : Keeps (fun v _ => v = w.own) x Q) (h : x w = .ok l w') : w'.own = w.own := by
  have hown := (hk.2 w rfl).1
  rwa [h] at hown

section

variable {w w' : World Vars} {l l' : Locals} {j : Nat} (hj : l.outFile = partFile j)
include hj

theorem off_own (I : Nat → Prop) (hI : I j) : l.Off (ddmin E p) (fun v _ => v = w.own) I :=
  ⟨fun _ _ _ _ _ hv => hv, j, hI, hj⟩

/-- Whatever the input delivers, a subset has at most the size of its part. -/
theorem writeSubset_fits {q : Int} (h : writeSubset E l q w = .ok l' w') :
    w'.own = w.own ∧ l'.outFile = partFile j ∧ l'.fSize = l.fSize ∧
      ∃ c, w'.fs (E.key (partFile j)) = some c ∧ (c.length : Int) ≤ q := by
  have hown : w'.own = w.own :=
    own_of_keeps (writeSubset_keeps (V := ddmin E []) (I := fun _ => True) (fun _ _ _ _ _ hv => hv) (off_own hj _ trivial) q) h
  obtain ⟨r, w1, -, h⟩ := bind_eq_ok.mp h
  obtain ⟨o, w2, -, h⟩ := bind_eq_ok.mp h
  obtain ⟨rfl, c, hc, hlen⟩ := fit_sized (q := fun bt : Nat => q < bt) h
  exact ⟨hown, hj, rfl, c, hj ▸ hc, by omega⟩

/-- And a complement has exactly the size without its part. -/
theorem writeComplement_fits {b q : Int} (h : writeComplement E l b q w = .ok l' w') :
    w'.own = w.own ∧ l'.outFile = partFile j ∧ l'.fSize = l.fSize ∧
      ∃ c, w'.fs (E.key (partFile j)) = some c ∧ (c.length : Int) = l.fSize - q := by
  have hown : w'.own = w.own :=
    own_of_keeps (writeComplement_keeps (V := ddmin E []) (I := fun _ => True) (fun _ _ _ _ _ hv => hv) (off_own hj _ trivial) b q) h
  obtain ⟨r, w1, -, h⟩ := bind_eq_ok.mp h
  obtain ⟨s, w2, -, h⟩ := bind_eq_ok.mp h
  split at h
  · cases h
  obtain ⟨r', w3, -, h⟩ := bind_eq_ok.mp h
  obtain ⟨o, w4, -, h⟩ := bind_eq_ok.mp h
  obtain ⟨rfl, c, hc, hlen⟩ := fit_sized (q := fun bt : Nat => (bt : Int) ≠ l.fSize - q) h
  exact ⟨hown, hj, rfl, c, hj ▸ hc, by omega⟩

end

/-- The test of such a candidate leaves no entry under the input's name. -/
theorem lost_test {w w' : World Vars} {c : Bytes} {j : Nat} {v : Bool} (hE : (∀ i, Clear E p i) ∨ Solitary E)
    (hj : ¬ Clear E p j) (hc : w.fs (E.key (partFile j)) = some c) (h : testBufferOverflow E (partFile j) (partFile j) w = .ok v w') :
    (∃ t, w'.own = { w.own with tests := w.own.tests ++ [t] } ∧ candOf E t = some c) ∧
      w'.fs (E.key (partFile j)) = some c ∧ w'.fs (E.key p) = none := by
  have halone : Solitary E := hE.resolve_left fun hclear => hj (hclear j)
  obtain ⟨hout, herr⟩ := runTest_swept (side_ne E _) (Or.inr fun i fs => (halone i _ fs).type_ne) h
  obtain ⟨t, w1, hrun, hown, hfs, -, hfile, hcand, -⟩ := testPart_spec E j hc
  obtain ⟨-, rfl⟩ := Res.ok.inj (hrun.symm.trans h)
  refine ⟨⟨t, hown, by rw [candOf, hfile]; exact hcand⟩, ?_, ?_⟩
  · exact (hfs _ (partFile_ne_side E j j).1 (partFile_ne_side E j j).2).1.trans hc
  · rcases not_and_or.mp hj with h | h
    · rw [not_ne_iff.mp h]; exact hout
    · rw [not_ne_iff.mp h]; exact herr

theorem lost_tried {w : World Vars} {o : Vars} {t : Test} {c : Bytes}
    (h : ∃ tried : List Bytes, w.own.tests.map (candOf E) = tried.map some) (ho : o.tests = w.own.tests ++ [t])
    (hc : candOf E t = some c) : ∃ tried : List Bytes, o.tests.map (candOf E) = tried.map some := by
  obtain ⟨tried, ht⟩ := h
  exact ⟨tried ++ [c], by rw [ho, List.map_append, List.map_append, ht]; simp [hc]⟩

/-! ## Step lemmas -/

variable {D : Bytes → Bool}

theorem kept_exited {c : Ctl} {w : World Vars} {e : Exit} : Kept E p D ⟨{ c with pc := .exited e }, w⟩ :=
  .left rfl fun _ h => by cases h

theorem kept_hung {c : Ctl} {w : World Vars} : Kept E p D ⟨{ c with pc := .hung }, w⟩ := .left rfl fun _ h => by cases h

/-- A match goes on as one unless the round under way tests under the input's name. -/
theorem kept_of_match {s : St} {a : Abs UInt8} (hm : Match E (ddmin E p) (fun _ => True) s a) (ht : Tested D a) : Kept E p D s := by
  by_cases hs : Spared (ddmin E p) (Clear E p) s
  · exact .sound a hm ht fun _ _ => hs
  obtain ⟨j, hj⟩ := not_forall.mp hs
  obtain ⟨hfileNo, hj⟩ := Classical.not_imp.mp hj
  obtain ⟨hheld, hside⟩ := Classical.not_imp.mp hj
  have htried : ∃ tried : List Bytes, s.w.own.tests.map (candOf E) = tried.map some := ⟨_, hm.tried⟩
  have hpc := hm.pc
  cases hph : a.phase with
  | head => exact .sound a hm ht fun hh _ => absurd hph hh
  | done => exact .sound a hm ht fun _ hd => absurd hph hd
  | subset c k =>
    refine .lost a ⟨hheld, htried, hm.small, hm.wf, hm.n, ?_⟩
    rw [PcMatch, hph] at hpc
    rw [LostPc, hph]
    cases hs : s.ctl.pc <;> rw [hs] at hpc <;> try exact hpc.elim
    obtain ⟨j', hj', -, hS, -, hleft, hn⟩ := hpc
    obtain rfl : j' = j := by omega
    exact ⟨j', hj', hside, hS.outFile, hS.fSize, hleft, hn⟩
  | complement c k =>
    refine .lost a ⟨hheld, htried, hm.small, hm.wf, hm.n, ?_⟩
    rw [PcMatch, hph] at hpc
    rw [LostPc, hph]
    cases hs : s.ctl.pc <;> rw [hs] at hpc <;> try exact hpc.elim
    obtain ⟨j', hj', -, hS, -, hstart, hn⟩ := hpc
    obtain rfl : j' = j := by omega
    exact ⟨j', hj', hside, hS.outFile, hS.fSize, hstart, hn⟩

/-- A candidate accepted in such a round is an input like any other. -/
theorem kept_accept {w : World Vars} {c : Bytes} {j n : Nat} {m : Vars × Fs} (hc : w.fs (E.key (partFile j)) = some c)
    (small : c.length ≤ 2 ^ 24) (ht : ∃ tried : List Bytes, w.own.tests.map (candOf E) = tried.map some)
    (h2 : 2 ≤ n) (hn : n ≤ c.length ∨ c.length ≤ 1) :
    Kept E p D ⟨⟨.head, n, j + 1⟩, ⟨w.fs, { w.own with held := partFile j }, w.past ++ [m]⟩⟩ := by
  obtain ⟨tried, ht⟩ := ht
  exact kept_of_match (a := ⟨c, n, .head, tried⟩) (match_accept (V := ddmin E p) trivial hc small ht ⟨h2, hn⟩) trivial

theorem lost_subset (hE : (∀ i, Clear E p i) ∨ Solitary E) {s t : St} {a : Abs UInt8} {c k : Nat} (h : Lost E p s a) (hp : a.phase = .subset c k)
    (hn : next E (ddmin E p) s = some t) : Kept E p D t := by
  obtain ⟨⟨pc, n, fileNo⟩, w⟩ := s
  obtain ⟨hheld, htried, small, wf, hn', hpc⟩ := h
  rw [LostPc, hp] at hpc
  obtain rfl : n = a.n := hn'
  cases pc with
  | subset l fSizeLeft nLeft =>
    obtain ⟨j, hj, hside, hout, hsize, rfl, rfl⟩ := hpc
    obtain rfl : fileNo = j + 1 := hj
    have hl := wf.parts (Or.inl hp)
    obtain ⟨x, hx, hres⟩ := Loop.next_cases hn
    cases hx
    rcases hres with ⟨ctl, w', hrun, rfl⟩ | ⟨e, w', rfl⟩ | ⟨w', rfl⟩
    · change subsetTurn E (ddmin E p) a.n (j + 1) l ((a.cur.length : Int) - c) k w = .ok ctl w' at hrun
      rw [subsetTurn, fSizeCeil hl small] at hrun
      obtain ⟨l1, w1, hwrite, hrun⟩ := bind_eq_ok.mp hrun
      obtain ⟨hown1, hout1, hsize1, d, hd, hlen⟩ := writeSubset_fits hout hwrite
      obtain ⟨v, w2, htest, hrun⟩ := bind_eq_ok.mp hrun
      rw [hout1] at htest hrun
      obtain ⟨⟨r, hown2, hr⟩, hd2, -⟩ := lost_test hE hside hd htest
      have hheld2 : w2.own.held = p := by rw [hown2, hown1]; exact hheld
      have htried2 := lost_tried htried (o := w2.own) (by rw [hown2, hown1]) hr
      have hsmaller := hl.size_lt
      have hwf := next_wf wf false
      cases v with
      | true =>
        cases hrun
        exact kept_accept (n := 2) hd2 (by omega) htried2 (Nat.le_refl 2) (by omega)
      | false =>
        rw [if_neg (by decide)] at hrun
        by_cases hk : 1 < k
        · rw [if_pos (by omega)] at hrun
          cases hrun
          refine .lost (a.next false) ?_
          rw [Abs.next_subset_more hp hk] at hwf ⊢
          exact ⟨hheld2, htried2, small, hwf, rfl, j, rfl, hside, hout1, hsize1.trans hsize, by push_cast; omega, by omega⟩
        · rw [if_neg (by omega)] at hrun
          cases hrun
          refine .lost (a.next false) ?_
          rw [Abs.next_subset_last hp hk] at hwf ⊢
          exact ⟨hheld2, htried2, small, hwf, rfl, j, rfl, hside, hout1, hsize1.trans hsize, rfl, rfl⟩
    · exact kept_exited
    · exact kept_hung
  | _ => exact hpc.elim

theorem lost_complement (hE : (∀ i, Clear E p i) ∨ Solitary E) {s t : St} {a : Abs UInt8} {c k : Nat} (h : Lost E p s a)
    (hp : a.phase = .complement c k) (hn : next E (ddmin E p) s = some t) : Kept E p D t := by
  obtain ⟨⟨pc, n, fileNo⟩, w⟩ := s
  obtain ⟨hheld, htried, small, wf, hn', hpc⟩ := h
  rw [LostPc, hp] at hpc
  obtain rfl : n = a.n := hn'
  cases pc with
  | complement l cStart nLeft =>
    obtain ⟨j, hj, hside, hout, hsize, rfl, rfl⟩ := hpc
    obtain rfl : fileNo = j + 1 := hj
    have hl := wf.parts (Or.inr hp)
    obtain ⟨x, hx, hres⟩ := Loop.next_cases hn
    cases hx
    rcases hres with ⟨ctl, w', hrun, rfl⟩ | ⟨e, w', rfl⟩ | ⟨w', rfl⟩
    · change complementTurn E (ddmin E p) a.n (j + 1) l c k w = .ok ctl w' at hrun
      rw [complementTurn, hsize, fSizeCeil hl small] at hrun
      obtain ⟨l1, w1, hwrite, hrun⟩ := bind_eq_ok.mp hrun
      obtain ⟨hown1, hout1, hsize1, d, hd, hlen⟩ := writeComplement_fits hout hwrite
      obtain ⟨v, w2, htest, hrun⟩ := bind_eq_ok.mp hrun
      rw [hout1, hsize1] at hrun
      rw [hout1] at htest
      rw [hsize] at hlen hrun
      obtain ⟨⟨r, hown2, hr⟩, hd2, hgone⟩ := lost_test hE hside hd htest
      have hheld2 : w2.own.held = p := by rw [hown2, hown1]; exact hheld
      have htried2 := lost_tried htried (o := w2.own) (by rw [hown2, hown1]) hr
      have hlow := hl.two_le
      have hpart := hl.size_le
      have hsmaller := hl.size_lt
      have hdone := hl.done
      have hwf := next_wf wf false
      cases v with
      | true =>
        cases hrun
        have hmax : max ((a.n : Int) - 1) 2 = ((max (a.n - 1) 2 : Nat) : Int) := by omega
        rw [hmax]
        exact kept_accept hd2 (by omega) htried2 (by omega) (by omega)
      | false =>
        rw [if_neg (by decide)] at hrun
        by_cases hmore : c + partSize a.cur.length c k < a.cur.length
        · rw [if_pos (by omega)] at hrun
          cases hrun
          have hpos := hl.pos
          refine .lost (a.next false) ?_
          rw [Abs.next_complement_more hp hmore] at hwf ⊢
          exact ⟨hheld2, htried2, small, hwf, rfl, j, rfl, hside, hout1, hsize1.trans hsize, by push_cast; rfl, by omega⟩
        · -- the round is over, and the input is gone
          rw [if_neg (by omega)] at hrun
          split at hrun
          · cases hrun
            exact .gone hheld2 hgone (Or.inl rfl)
          · cases hrun
            exact .gone hheld2 hgone (Or.inr (congrArg Pc.ret hheld2))
    · exact kept_exited
    · exact kept_hung
  | _ => exact hpc.elim

theorem lost_next (hE : (∀ i, Clear E p i) ∨ Solitary E) {s t : St} {a : Abs UInt8} (h : Lost E p s a)
    (hn : next E (ddmin E p) s = some t) : Kept E p D t := by
  have hpc := h.pc
  cases hp : a.phase with
  | subset c k => exact lost_subset hE h hp hn
  | complement c k => exact lost_complement hE h hp hn
  | head => rw [LostPc, hp] at hpc; cases hs : s.ctl.pc <;> rw [hs] at hpc <;> exact hpc.elim
  | done => rw [LostPc, hp] at hpc; cases hs : s.ctl.pc <;> rw [hs] at hpc <;> exact hpc.elim

/-- Nothing stands under the input's name: the next round exits. -/
theorem gone_next {s t : St} (hheld : s.w.own.held = p) (hgone : s.w.fs (E.key p) = none)
    (hpc : s.ctl.pc = .head ∨ s.ctl.pc = .ret p) (hn : next E (ddmin E p) s = some t) : Kept E p D t := by
  obtain ⟨⟨pc, n, fileNo⟩, w⟩ := s
  rcases hpc with h | h
  · obtain rfl : pc = .head := h
    obtain ⟨x, hx, hres⟩ := Loop.next_cases hn
    cases hx
    rcases hres with ⟨c, w', hrun, rfl⟩ | ⟨e, w', rfl⟩ | ⟨w', rfl⟩
    · change headTurn E (ddmin E p) n fileNo w = .ok c w' at hrun
      simp only [headTurn, look_bind] at hrun
      obtain ⟨f, w1, hsize, -⟩ := bind_eq_ok.mp hrun
      obtain ⟨-, X, hX, -⟩ := byteCountFile_ok hsize
      change w.own.held = p at hheld
      rw [hheld] at hX
      cases hgone.symm.trans hX
    · exact kept_exited
    · exact kept_hung
  · obtain rfl : pc = .ret p := h
    cases hn

section

variable (hp : ∀ i, E.key p ≠ E.key (partFile i)) (hD : Judges E D)
include hp hD

theorem sound_next {s t : St} {a : Abs UInt8} (hm : Match E (ddmin E p) (fun _ => True) s a) (ht : Tested D a)
    (hs : a.phase ≠ .head → a.phase ≠ .done → Spared (ddmin E p) (Clear E p) s) (hn : next E (ddmin E p) s = some t) :
    Kept E p D t := by
  have L : Layout E (ddmin E p) (Clear E p) (fun _ => True) (Judged E) (Judged E) := ddmin_layout_clear hp fun _ _ _ h => h
  have hd : a.phase ≠ .done := fun hd => by rw [(match_done hm).mp hd] at hn; cases hn
  have htested := tested_next hm.wf ht
  by_cases hh : a.phase = .head
  · obtain ⟨t', hturn⟩ := turn_head L hm hh
    obtain rfl : t' = t := Option.some.inj (hturn.next.symm.trans hn)
    rw [next_head hh] at htested
    exact kept_of_match hturn.matched htested
  · obtain ⟨t', v, hturn⟩ := match_next L hm (hs hh hd) hd
    obtain rfl : t' = t := Option.some.inj (hturn.next.symm.trans hn)
    obtain ⟨r, -, hv, -, hS, hC⟩ := hturn.ran hh
    obtain ⟨c, k, hph⟩ := phase_cases hh hd
    have hjudged : Judged E a.cand r := hph.elim (hS c k) (hC c k)
    rw [← hjudged D hD, ← hv] at htested
    exact kept_of_match hturn.matched htested

/-- Step lemma. -/
theorem kept_next (hE : (∀ i, Clear E p i) ∨ Solitary E) {s t : St} (h : Kept E p D s) (hn : next E (ddmin E p) s = some t) : Kept E p D t := by
  cases h with
  | entry fs hX =>
    obtain ⟨X, hX, small⟩ := hX
    have hin : (fs (E.key (ddmin E p).inputPath)).isSome = true := Option.isSome_iff_exists.mpr ⟨X, hX⟩
    rcases start_cases hin with ⟨-, h⟩ | ⟨-, h⟩
    · obtain rfl := Option.some.inj (h.symm.trans hn)
      refine kept_of_match (a := .init X) ⟨trivial, hX, rfl, small, ?_, rfl, Or.inl rfl⟩ trivial
      exact ⟨Nat.le_refl _, by simp only [Abs.init]; omega⟩
    · obtain rfl := Option.some.inj (h.symm.trans hn)
      exact kept_exited (c := ⟨.entry, 2, 0⟩)
  | left hnone _ => rw [hnone] at hn; cases hn
  | sound a hm ht hs => exact sound_next hp hD hm ht hs hn
  | lost a hl => exact lost_next hE hl hn
  | gone hheld hgone hpc => exact gone_next hheld hgone hpc hn

/-- Run lemma. -/
theorem reach_kept (hE : (∀ i, Clear E p i) ∨ Solitary E) {fs : Fs} {X : Bytes} (hX : fs (E.key p) = some X) (hl : X.length ≤ 2 ^ 24) {s : St}
    (hs : (machine E (ddmin E p) fs).Reach s) : Kept E p D s :=
  hs.invariant (P := Kept E p D) (.entry fs ⟨X, hX, hl⟩) fun _ _ _ h hn => kept_next hp hD hE h hn

end

/-! ## The result -/

/-- Where `ddmin` returns under whose path two bytes or more stand, the last round tested
    each of its bytes alone and each deletion. -/
theorem kept_ret {s : St} {q : Path} {T : Bytes} (h : Kept E p D s) (hq : s.ctl.pc = .ret q) (hT : s.w.fs (E.key q) = some T)
    (h2 : 2 ≤ T.length) : SinglesPass D T T.length ∧ ErasesPass D T T.length := by
  cases h with
  | entry => cases hq
  | left _ hno => exact absurd hq (hno q)
  | sound a hm ht _ =>
    have hd : a.phase = .done := (match_done hm).mpr (by simp [next, Loop.next, loop, turn, hq])
    have hpc := hm.pc
    rw [PcMatch, hq, hd] at hpc
    obtain rfl : q = s.w.own.held := hpc
    obtain rfl : a.cur = T := Option.some.inj (hm.file.symm.trans hT)
    rw [Tested, hd] at ht
    exact ht.resolve_left (by omega)
  | lost a hl =>
    have hpc := hl.pc
    rw [LostPc, hq] at hpc
    cases hph : a.phase <;> rw [hph] at hpc <;> exact hpc.elim
  | gone _ hgone hpc =>
    rcases hpc with h | h
    · rw [h] at hq; cases hq
    · rw [h] at hq; cases hq
      rw [hgone] at hT; cases hT

theorem SinglesPass.get {T : Bytes} (h : SinglesPass D T T.length) (i : Nat) (hi : i < T.length) : D [T[i]] = false := by
  have := h i hi
  rwa [List.take_one_drop_eq_of_lt_length hi] at this

/-- What `ddmin` returns, if two bytes or more stand there, has no failing single-byte
    deletion and no failing single byte. Under a name it does not make up it does return,
    if the program is there. -/
theorem ddmin_minimal {fs : Fs} {X : Bytes} (hp : ∀ i, E.key p ≠ E.key (partFile i)) (hX : fs (E.key p) = some X)
    (hl : X.length ≤ 2 ^ 24) (hD : Judges E D) (hE : (∀ i, Clear E p i) ∨ Solitary E) :
    (∀ s q T, (machine E (ddmin E p) fs).Reach s → s.ctl.pc = .ret q → s.w.fs (E.key q) = some T → 2 ≤ T.length →
      OneMinimal D T ∧ ∀ i (hi : i < T.length), D [T[i]] = false) ∧
    (Unnamed E PartName (E.key p) → (fs (E.key E.programPath)).isSome = true →
      ∃ s q T, (machine E (ddmin E p) fs).Ends s ∧ s.ctl.pc = .ret q ∧ s.w.fs (E.key q) = some T) := by
  constructor
  · intro s q T hs hq hT h2
    obtain ⟨hsingles, herases⟩ := kept_ret (reach_kept hp hD hE hX hl hs) hq hT h2
    exact ⟨fun i hi => by rw [← cut_one]; exact herases i hi, fun i hi => SinglesPass.get hsingles i hi⟩
  · intro hname hprog
    have hr := ddmin_ready_of_judges hname hX hl hD
    obtain ⟨s, q, hs, hq⟩ := returns hr hprog
    obtain ⟨a, -, hm, -, rfl⟩ := ret_tracked hr hs.1 hq
    exact ⟨s, _, a.cur, hs, hq, hm.file⟩

theorem ddmin_minimal_two :
    ∃ s q T, (machine (judging fun c => c.length = 2) (ddmin (judging fun c => c.length = 2) "in".toList)
        (soleInput "in".toList [1, 2])).Ends s ∧
      s.ctl.pc = .ret q ∧ s.w.fs ((judging fun c => c.length = 2).key q) = some T ∧
      (2 ≤ T.length → OneMinimal (fun c : Bytes => decide (c.length = 2)) T) := by
  obtain ⟨hmin, hret⟩ := ddmin_minimal (unnamed_ne_part (unnamed_in fun c => c.length = 2)) (sole_in _ [1, 2]) (by decide)
    (judging_judges _) (Or.inr (judging_solitary _))
  obtain ⟨s, q, T, hs, hq, hT⟩ := hret (unnamed_in _) (by decide +kernel)
  exact ⟨s, q, T, hs, hq, hT, fun h2 => (hmin s q T hs.1 hq hT h2).1⟩

end DiyDdmin.Ddmin
