/-
  DiyDdmin.Range.Results — what `range` guarantees.

  Proved, for every interleaving and every choice of `rand`: the held file only shrinks by
  failing cuts, and the result names the one held last (`range_shrinks`); for inputs below
  2^31 bytes no range of the length of the last accepted cut or less can be cut from the
  result without losing the failure (`range_minimal`). An input of 2^31 + 1 bytes is
  returned as it is, whatever fails (`a_negative_size_is_returned_unminimized`).
-/

import DiyDdmin.Range.Frame
import DiyDdmin.Range.Ends

namespace DiyDdmin.Range

open Posix Tester Numeric Systems Reduction WorkPool

section

variable {E : Env} {inputPath : Path} {fs : Fs} {X : Bytes} {D : Bytes → Bool}

/-- The held file is the input or a result with a number below `m`. -/
def HeldBelow (inputPath : Path) (p : Path) (m : Nat) : Prop := p = inputPath ∨ ∃ j < m, p = failFile j

/-- What is held names no file of a worker. -/
theorem HeldBelow.framed (hp : Unnamed E RangeName (E.key inputPath)) {p : Path} {m : Nat} (h : HeldBelow inputPath p m) (T : Bytes) :
    Framed E (Holding E p T) := by
  have ne : ∀ {k : Key} {n : Name}, k = E.cwd ++ [n] → RangeName n → (∀ j, E.key (failFile j) ≠ k) → E.key p ≠ k := by
    intro k n e hn hj
    rcases h with rfl | ⟨j, -, rfl⟩
    · rw [e]; exact hp n hn
    · exact hj j
  refine ⟨fun th k => Holding.blind ?_, fun th => Holding.blind ?_, fun th => Holding.blind ?_, fun i => Holding.blind ?_,
    Holding.blindTo p T⟩
  · refine ne (key_outName E th k) ?_ fun j => (outName_ne_failFile E th k j).symm
    split
    · exact .thread _
    · exact .threadPart _
  · exact ne (key_dummyOut E th) (.out _) fun j => failFile_ne_dummyOut E j th
  · exact ne (key_dummyErr E th) (.err _) fun j => failFile_ne_dummyErr E j th
  · exact ne (key_originFile E i) (.origin i) fun j => (originFile_ne_failFile E i j).symm

/-- The next result is not the held file. -/
theorem HeldBelow.ne (hp : Unnamed E RangeName (E.key inputPath)) {p : Path} {m : Nat} (h : HeldBelow inputPath p m) :
    E.key p ≠ E.key (failFile m) := by
  rcases h with rfl | ⟨j, hj, rfl⟩
  · exact key_failFile E m ▸ hp _ (.fail m)
  · intro e
    have := failFile_inj E e
    omega

/-! ## The history of the held file -/

/-- The first number no result has yet, but for the one about to be held. -/
def fresh (s : St) : Nat :=
  match s.main with
  | .removing _ _ => s.g.totalFailN
  | .recursing _ => s.g.totalFailN
  | _ => s.g.totalFailN + 1

/-- What the call knows of the held bytes `T`. -/
def Knows (s : St) (T : Bytes) : MainPc → Prop
  | .entry => True
  | .enter size _ => size = toInt T.length
  | .removing _ p => s.g.log.input = T ∧ p = failFile s.g.totalFailN
  | .recursing p => s.g.log.input = T ∧ p = failFile s.g.totalFailN
  | .ret p => p = s.w.own.held
  | .finishing _ => True
  | _ => s.g.log.input = T

structure History (E : Env) (inputPath : Path) (s : St) (T : Bytes) : Prop where
  file : s.w.fs (E.key s.w.own.held) = some T
  held : HeldBelow inputPath s.w.own.held (fresh s)
  off : ∀ th, Off (Holding E s.w.own.held T) (s.workers th)
  knows : Knows s T s.main

theorem off_quiet {P : Vars → Fs → Prop} {pc : WorkerPc} (h : hand pc = .free ∨ hand pc = .late) : Off P pc := by
  cases pc <;> first | trivial | (rcases h with h | h <;> cases h)

theorem worker_knows {th : Worker} {g g' : Globals} {pc pc' : WorkerPc} (h : WorkerMove th g pc pc' g') :
    g'.log.input = g.log.input ∧ g'.totalFailN = g.totalFailN := by cases h <;> exact ⟨rfl, rfl⟩

/-- How the main thread's moves change what the call knows. -/
theorem main_knows {s : St} {T : Bytes} {rand : Nat} {pc : MainPc} {g : Globals} {w : World Vars} (hk : Knows s T s.main)
    (hh : HeldBelow inputPath s.w.own.held (fresh s)) (hw : w.own.held = s.w.own.held) (hr : ∀ p, s.main ≠ .recursing p)
    (hfile : s.w.fs (E.key s.w.own.held) = some T)
    (hm : MainMove rand s.w.own.held ((s.w.fs (E.key s.w.own.held)).getD []) s.g s.main pc g) :
    Knows ⟨pc, s.workers, g, w⟩ T pc ∧ HeldBelow inputPath w.own.held (fresh ⟨pc, s.workers, g, w⟩) := by
  rw [hfile, Option.getD_some] at hm
  rw [hw]
  unfold fresh at hh
  generalize hpc : s.main = pc0 at hm hk hr hh
  cases hm with
  | begin => exact ⟨rfl, hh⟩
  | copy i r => split_ifs <;> exact ⟨hk, hh⟩
  | remove i p => split_ifs <;> exact ⟨hk, hh⟩
  | clear i =>
    split_ifs
    · exact ⟨trivial, hh⟩
    · exact ⟨hw.symm, hh⟩
  | recurse p => exact absurd rfl (hr p)
  | enter size r => exact ⟨rfl, hh⟩
  | finish r hr => exact ⟨trivial, hh⟩
  | rename k => exact ⟨⟨hk, rfl⟩, hh⟩
  | _ => exact ⟨hk, hh⟩

/-- The step that accepts a candidate: the recursive call. -/
def Recurses (m : Move) (s : St) : Prop := ∃ rand p, m = .main rand ∧ s.main = .recursing p

/-- Step lemma: the held file stays, or an accepted candidate supersedes it. -/
theorem history_next (hp : Unnamed E RangeName (E.key inputPath)) {s t : St} {m : Move} {T : Bytes}
    (hr : (system E inputPath fs).Reach s) (h : History E inputPath s T) (hst : step E m s = some t) :
    ∃ T', (t.main.over = true ∨ History E inputPath t T') ∧
      (∀ D X, Judges E D → Shrinks E D X s.w → Shrinks E D X t.w) ∧
      ((T' = T ∧ ¬ Recurses m s ∧ lastCut E t.w = lastCut E s.w) ∨
        (Recurses m s ∧ (T'.length : Int) = s.g.inputSize - s.g.rs ∧ T'.length < T.length ∧
          lastCut E t.w = T.length - T'.length)) := by
  obtain ⟨hfile, hheld, hoff, hknows⟩ := h
  obtain ⟨hlive, hmoved⟩ := step_cases hst
  obtain ⟨hnamed, halive, hcall⟩ := reach_sound hr hlive
  have F := hheld.framed hp T
  have hhold : Holding E s.w.own.held T s.w.own s.w.fs := ⟨rfl, hfile⟩
  by_cases hrec : Recurses m s
  · -- the accepted candidate becomes the input
    obtain ⟨rand, p, rfl, hmain⟩ := id hrec
    rw [hmain] at hcall hknows
    obtain ⟨⟨-, c, hc, hlen, hsmall, hcond, hsub, hlt⟩, -⟩ := hcall
    obtain ⟨hT, hpath⟩ := hknows
    rw [hT] at hsub hlt
    have hquiet := away_quiet hr hlive (by rw [hmain]; rfl)
    obtain ⟨-, x, hx, rfl⟩ := step_main hst
    rw [hmain] at hx
    cases hx
    refine ⟨c, Or.inr ⟨hc, Or.inr ⟨s.g.totalFailN, Nat.lt_succ_self _, hpath⟩, fun th => off_quiet (hquiet.hands th), ?_⟩,
      fun D X hJ hs => hs.hold hhold hc (hcond D hJ) hsub hlt, Or.inr ⟨hrec, hlen, hlt, ?_⟩⟩
    · change s.g.inputSize - s.g.rs = toInt c.length
      rw [toInt_of_lt (by omega) (by omega), hlen]
    · exact lastCut_hold hhold hc hlt
  · -- any other step keeps the held file
    obtain ⟨κ, x, Q, hkeep, hw⟩ : ∃ (κ : Type) (x : Code κ) (Q : κ → Prop),
        Keeps (Holding E s.w.own.held T) x Q ∧ t.w = (x s.w).world := by
      rcases step_world hst with ⟨rand, x, rfl, hx, hw, -⟩ | ⟨th, x, -, hx, hw⟩
      · refine ⟨_, x, _, mainTurn_keeps F ?_ (fun p hp => absurd ⟨rand, p, rfl, hp⟩ hrec) hx, hw⟩
        intro k hk
        rw [hk] at hcall
        obtain ⟨-, th, j, hj⟩ := hcall
        refine ⟨hj ▸ F.out th j, Holding.blind ?_⟩
        unfold fresh at hheld
        rw [hk] at hheld
        exact hheld.ne hp
      · exact ⟨_, x, _, workerTurn_keeps F hnamed (hoff th) hx, hw⟩
    have hhold' : Holding E s.w.own.held T t.w.own t.w.fs := by rw [hw]; exact (hkeep.2 _ hhold).1
    have hoff' : ∀ th, Off (Holding E t.w.own.held T) (t.workers th) := by
      rw [hhold'.1]
      exact step_off F hnamed hhold hoff hst
    have hnext : Moved E s m t → Knows t T t.main ∧ HeldBelow inputPath t.w.own.held (fresh t) := fun hm => by
      cases hm with
      | main rand w h => exact main_knows hknows hheld hhold'.1 (fun p hp => hrec ⟨rand, p, rfl, hp⟩) hfile h
      | worker th w h =>
        obtain ⟨e1, e2⟩ := worker_knows h
        have hh : w.own.held = s.w.own.held := hhold'.1
        constructor
        · unfold Knows at hknows ⊢
          simp only [e1, e2, hh]
          exact hknows
        · unfold fresh at hheld ⊢
          simp only [e2, hh]
          exact hheld
      | stuck th w hns =>
        have hh : w.own.held = s.w.own.held := hhold'.1
        constructor
        · unfold Knows at hknows ⊢
          simp only [hh]
          exact hknows
        · rw [hhold'.1]
          exact hheld
    exact ⟨T, hmoved.imp id fun hm => ⟨by rw [hhold'.1]; exact hhold'.2, (hnext hm).2, hoff', (hnext hm).1⟩,
      fun D X _ hs => by rw [hw]; exact (hs.of_keeps hkeep hhold).1, Or.inl ⟨rfl, hrec, by rw [hw]; exact lastCut_of_keeps hkeep hhold⟩⟩

/-! ## Rounds without a failing cut -/

/-- Past the wait every cut of the round's length has been tested. -/
theorem round_tried {s : St} {r : Int} (hs : (system E inputPath fs).Reach s) (hm : s.main = .selecting r) {b : Nat}
    (hb : b + r ≤ s.g.inputSize) :
    ∃ t ∈ s.g.log.tried, t.begin = b ∧ Right E s.g.log.input s.g.inputSize.toNat s.g.rs.toNat t := by
  obtain ⟨⟨-, hw⟩, -⟩ := reach_round hs (by rw [hm]; rfl)
  obtain ⟨-, hcomplete⟩ := selecting_complete hs hm
  -- the job of `b` was popped, and so tried
  have hmem : b ∈ (pool s).taken.map Prod.snd := by
    rw [hcomplete.taken, List.mem_range]
    unfold jobs
    omega
  obtain ⟨⟨th, b'⟩, hpop, hb'⟩ := List.mem_map.mp hmem
  obtain rfl : b' = b := hb'
  obtain ⟨t, ht, hte⟩ := List.mem_map.mp (hcomplete.tried.mem_iff.mpr hpop)
  exact ⟨t, ht, congrArg Prod.snd hte, hw.tried t ht⟩

/-- Past the wait every failing test has been counted. -/
theorem failed_counted {s : St} {r : Int} (hs : (system E inputPath fs).Reach s) (hm : s.main = .selecting r) {t : Tried}
    (ht : t ∈ s.g.log.tried) (hf : t.failed = true) : 0 < s.g.failN := by
  obtain ⟨⟨-, hw⟩, -⟩ := reach_round hs (by rw [hm]; rfl)
  obtain ⟨hquiet, -⟩ := selecting_complete hs hm
  refine (hw.found t ht hf).resolve_right ?_
  rintro ⟨d, hd⟩
  have hq := hquiet.hands t.worker
  rw [show (pool s).hands t.worker = hand (s.workers t.worker) from rfl, hd] at hq
  rcases hq with h | h <;> cases h

/-- A round that counted no failure has found every cut of its length passing. -/
theorem round_passes (hD : Judges E D) {s : St} {r : Int} (hs : (system E inputPath fs).Reach s) (hm : s.main = .selecting r)
    (hf : s.g.failN = 0) {b : Nat} (hb : b + r ≤ s.g.inputSize) :
    D (cutOf s.g.inputSize.toNat r.toNat b s.g.log.input) = false := by
  obtain ⟨-, ⟨hrs, -⟩, -⟩ := reach_round hs (by rw [hm]; rfl)
  obtain ⟨t, ht, rfl, hright⟩ := round_tried hs hm hb
  rw [← hrs, ← hright.bytes, ← hright.verdict D hD]
  cases hfail : t.failed with
  | false => rfl
  | true =>
    have := failed_counted hs hm ht hfail
    omega

theorem round_no_cut (hD : Judges E D) {s : St} {r : Int} (hs : (system E inputPath fs).Reach s) (hm : s.main = .selecting r)
    (hf : s.g.failN = 0) (hsize : s.g.inputSize = s.g.log.input.length) : NoCut D r.toNat s.g.log.input := by
  intro b hb
  obtain ⟨-, ⟨-, hr, -⟩, -⟩ := reach_round hs (by rw [hm]; rfl)
  rw [← cutOf_eq (n := s.g.inputSize.toNat) (by omega)]
  exact round_passes hD hs hm hf (by omega)

/-- The largest range length still to be guaranteed, `last` being the size of the last
    accepted cut, 0 if there was none. -/
def reachOf (last len : Nat) : Int := if last = 0 then len - 1 else min last (len - 1)

/-- No range longer than `r`, up to `R`, can be cut. -/
def Scanned (D : Bytes → Bool) (R r : Int) (T : Bytes) : Prop := ∀ l : Nat, r < l → (l : Int) ≤ R → NoCut D l T

def ScanAt (D : Bytes → Bool) (R : Int) (T : Bytes) : MainPc → Prop
  | .entry => R = T.length - 1
  | .enter _ r => r = R
  | .copying _ r => r ≤ R ∧ Scanned D R r T
  | .round r => r ≤ R ∧ Scanned D R r T
  | .settingRs r => r ≤ R ∧ Scanned D R r T
  | .settingExisting r => r ≤ R ∧ Scanned D R r T
  | .pushing r _ => r ≤ R ∧ Scanned D R r T
  | .posting r _ => r ≤ R ∧ Scanned D R r T
  | .waiting r => r ≤ R ∧ Scanned D R r T
  | .selecting r => r ≤ R ∧ Scanned D R r T
  | .finishing _ => Scanned D R 0 T
  | .ret _ => Scanned D R 0 T
  | _ => True

/-- What holds along a run with verdict function `D`, on inputs whose size is an `int`. -/
structure Scan (E : Env) (D : Bytes → Bool) (inputPath : Path) (s : St) (T : Bytes) : Prop where
  history : History E inputPath s T
  small : T.length < 2 ^ 31
  scanned : ScanAt D (reachOf (lastCut E s.w) T.length) T s.main

theorem scan_main (hD : Judges E D) {s : St} {rand : Nat} {R : Int} {T : Bytes} {pc : MainPc} {g : Globals}
    (hs : (system E inputPath fs).Reach s) (hk : Knows s T s.main) (hsmall : T.length < 2 ^ 31) (h : ScanAt D R T s.main)
    (hr : ∀ p, s.main ≠ .recursing p) (hlive : s.main.over = false) (hfile : s.w.fs (E.key s.w.own.held) = some T)
    (hm : MainMove rand s.w.own.held ((s.w.fs (E.key s.w.own.held)).getD []) s.g s.main pc g) : ScanAt D R T pc := by
  rw [hfile, Option.getD_some] at hm
  have hno := fun r hm hf => round_no_cut (r := r) hD hs hm hf
  have hcall := (reach_sound hs hlive).call
  generalize hpc : s.main = pc0 at hm hk hr h hno hcall
  cases hm with
  | begin =>
    have e : toInt ((T.length : Int) - 1) = T.length - 1 := toInt_of_lt (by omega) (by omega)
    rw [e]
    exact Eq.symm h
  | enter size r =>
    obtain rfl : r = R := h
    exact ⟨Int.le_refl _, fun l h1 h2 => by omega⟩
  | copy i r => split_ifs <;> exact h
  | finish r h0 => exact fun l h1 h2 => h.2 l (by omega) h2
  | next r hf =>
    obtain ⟨⟨hsize, -⟩, -⟩ := hcall
    have hT : s.g.log.input = T := hk
    rw [hT, toInt_of_lt (by omega) (by omega)] at hsize
    have hcut := hno r rfl hf (by rw [hT]; exact hsize)
    refine ⟨by have := h.1; omega, ?_⟩
    intro l h1 h2
    by_cases hlr : r < l
    · exact h.2 l hlr h2
    · rw [hT, show r.toNat = l by omega] at hcut
      exact hcut
  | remove i p => split_ifs <;> trivial
  | recurse p => exact absurd rfl (hr p)
  | clear i => split_ifs <;> exact h
  | select r hf => trivial
  | rename k => trivial
  | _ => exact h

/-- Step lemma. -/
theorem scan_next (hp : Unnamed E RangeName (E.key inputPath)) (hD : Judges E D) {s t : St} {m : Move} {T : Bytes}
    (hs : (system E inputPath fs).Reach s) (h : Scan E D inputPath s T) (hst : step E m s = some t) :
    t.main.over = true ∨ ∃ T', Scan E D inputPath t T' := by
  obtain ⟨T', hlive, -, hcase⟩ := history_next hp hs h.history hst
  refine hlive.imp id fun hist => ⟨T', ?_⟩
  obtain ⟨hlv, hmoved⟩ := step_cases hst
  have hmoved := hmoved.resolve_left
  rcases hcase with ⟨rfl, hrec, hlast⟩ | ⟨⟨rand, p, rfl, hmain⟩, hlen, hlt, hlast⟩
  · refine ⟨hist, h.small, ?_⟩
    rw [hlast]
    have hscan := h.scanned
    by_cases ho : t.main.over = true
    · cases hm : t.main <;> rw [hm] at ho <;> trivial
    cases hmoved ho with
    | main rand w hm =>
      exact scan_main hD hs h.history.knows h.small hscan (fun p hp => hrec ⟨rand, p, rfl, hp⟩) hlv h.history.file hm
    | worker th w hm => exact hscan
    | stuck th w hns => exact hscan
  · -- the accepted cut had the round's length
    have hcall := (reach_sound hs hlv).call
    have hknows := h.history.knows
    have hsized := (reach_pool hs hlv).2
    unfold Sized at hsized
    rw [hmain] at hcall hknows hsized
    obtain ⟨⟨hsize, -⟩, -⟩ := hcall
    obtain ⟨hT, -⟩ := hknows
    have hsmall := h.small
    rw [hT, toInt_of_lt (by omega) (by omega)] at hsize
    refine ⟨hist, by omega, ?_⟩
    obtain ⟨-, x, hx, rfl⟩ := step_main hst
    rw [hmain] at hx
    cases hx
    change min s.g.rs (s.g.inputSize - s.g.rs - 1) = reachOf (lastCut E _) T'.length
    rw [show lastCut E _ = T.length - T'.length from hlast, reachOf, if_neg (by omega)]
    omega

/-! ## Sizes that are no `int` -/

/-- Where no range length is positive, the call runs no round. -/
def NoRound : MainPc → Prop
  | .entry => True
  | .enter _ r => r ≤ 0
  | .copying _ r => r ≤ 0
  | .round r => r ≤ 0
  | .finishing _ => True
  | .ret _ => True
  | _ => False

theorem main_noRound {rand : Nat} {held : Path} {g g' : Globals} {pc pc' : MainPc} (hsize : toInt (X.length - 1) ≤ 0) (h : NoRound pc)
    (hm : MainMove rand held X g pc pc' g') : NoRound pc' := by
  cases hm with
  | begin => exact hsize
  | enter size r => exact h
  | copy i r => split_ifs <;> exact h
  | round r hr => exact absurd (show r ≤ 0 from h) (by omega)
  | finish r hr => trivial
  | clear i => split_ifs <;> trivial
  | _ => exact h.elim

/-! ## Runs -/

variable (hp : Unnamed E RangeName (E.key inputPath)) (hX : fs (E.key inputPath) = some X)
include hp hX

theorem reach_scan (hl : X.length < 2 ^ 31) (hD : Judges E D) {s : St} (hs : (system E inputPath fs).Reach s)
    (ho : s.main.over = false) : ∃ T, Scan E D inputPath s T := by
  refine System.Reach.invariant (T := system E inputPath fs) (P := fun s => s.main.over = false → ∃ T, Scan E D inputPath s T)
    ?_ ?_ hs ho
  · intro s h _
    subst h
    refine ⟨X, ⟨hX, Or.inl rfl, fun _ => trivial, trivial⟩, hl, ?_⟩
    rw [lastCut_start (w := (start inputPath fs).w) rfl]
    rfl
  · intro s t hr hi hst ho
    obtain ⟨m, hst⟩ := hst
    obtain ⟨T, hT⟩ := hi (step_cases hst).1
    exact (scan_next hp hD hr hT hst).resolve_left fun e => nomatch ho.symm.trans e

/-- The history of the held file in a run, whatever the verdicts. -/
theorem reach_held {s : St} (hs : (system E inputPath fs).Reach s) (ho : s.main.over = false) :
    ∃ T, History E inputPath s T ∧ T.length ≤ X.length ∧ (0 < X.length → 0 < T.length) := by
  refine System.Reach.invariant (T := system E inputPath fs)
    (P := fun s => s.main.over = false → ∃ T, History E inputPath s T ∧ T.length ≤ X.length ∧ (0 < X.length → 0 < T.length))
    ?_ ?_ hs ho
  · intro s h _
    subst h
    exact ⟨X, ⟨hX, Or.inl rfl, fun _ => trivial, trivial⟩, Nat.le_refl _, id⟩
  · intro s t hr hi hst ho
    obtain ⟨m, hst⟩ := hst
    have hlv := (step_cases hst).1
    obtain ⟨T, hT, hle, hpos⟩ := hi hlv
    obtain ⟨T', hlive, -, hcase⟩ := history_next hp hr hT hst
    refine ⟨T', hlive.resolve_left fun e => (nomatch ho.symm.trans e), ?_⟩
    rcases hcase with ⟨rfl, -⟩ | ⟨⟨rand, p, -, hmain⟩, hlen, hlt, -⟩
    · exact ⟨hle, hpos⟩
    · have hsized := (reach_pool hr hlv).2
      unfold Sized at hsized
      rw [hmain] at hsized
      obtain ⟨h0, hrs⟩ := hsized
      exact ⟨hlt.le.trans hle, fun _ => by omega⟩

theorem reach_shrinks (hD : Judges E D) {s : St} (hs : (system E inputPath fs).Reach s) : Shrinks E D X s.w := by
  refine System.Reach.invariant (T := system E inputPath fs) (P := fun s => Shrinks E D X s.w) ?_ ?_ hs
  · intro s h
    subst h
    exact Shrinks.start rfl hX
  · intro s t hr hi hst
    obtain ⟨m, hst⟩ := hst
    obtain ⟨T, hT, -, -⟩ := reach_held hp hX hr (step_cases hst).1
    obtain ⟨-, -, hsh, -⟩ := history_next hp hr hT hst
    exact hsh D X hD hi

/-- At every moment the held file is `X` or a failing reduction of it, each newly held file
    has fewer bytes, and the result is the file held last. -/
theorem range_shrinks (hD : Judges E D) {s : St} (hs : (system E inputPath fs).Reach s) :
    Shrinks E D X s.w ∧ ∀ q, s.main = .ret q → q = s.w.own.held := by
  refine ⟨reach_shrinks hp hX hD hs, ?_⟩
  intro q hq
  obtain ⟨T, ⟨-, -, -, hk⟩, -⟩ := reach_held hp hX hs (by rw [hq]; rfl)
  rwa [hq] at hk

/-- Where no range length is positive, the input is returned as it is, whatever fails. -/
theorem returns_unscanned (hsize : toInt (X.length - 1) ≤ 0) {s : St} {q : Path} (hs : (system E inputPath fs).Reach s)
    (hq : s.main = .ret q) : s.w.fs (E.key q) = some X ∧ lastCut E s.w = 0 := by
  have hinv : s.main.over = false → NoRound s.main ∧ History E inputPath s X ∧ lastCut E s.w = 0 := by
    refine System.Reach.invariant (T := system E inputPath fs)
      (P := fun s => s.main.over = false → NoRound s.main ∧ History E inputPath s X ∧ lastCut E s.w = 0) ?_ ?_ hs
    · intro s h _
      subst h
      exact ⟨trivial, ⟨hX, Or.inl rfl, fun _ => trivial, trivial⟩, lastCut_start (w := (start inputPath fs).w) rfl⟩
    · intro s t hr hi hst ho
      obtain ⟨m, hst⟩ := hst
      obtain ⟨hlive, hmoved⟩ := step_cases hst
      obtain ⟨hno, hhist, hlast⟩ := hi hlive
      obtain ⟨T', hT', -, hcase⟩ := history_next hp hr hhist hst
      have hno' : NoRound t.main := by
        cases hmoved.resolve_left (fun e => nomatch ho.symm.trans e) with
        | main rand w h =>
          rw [hhist.file, Option.getD_some] at h
          exact main_noRound hsize hno h
        | worker th w h => exact hno
        | stuck th w h => exact hno
      rcases hcase with ⟨rfl, -, e⟩ | ⟨⟨rand, p, -, hmain⟩, -⟩
      · exact ⟨hno', hT'.resolve_left fun e => (nomatch ho.symm.trans e), e.trans hlast⟩
      · rw [hmain] at hno
        exact hno.elim
  obtain ⟨-, hhist, hlast⟩ := hinv (by rw [hq]; rfl)
  have hknows := hhist.knows
  rw [hq] at hknows
  obtain rfl : q = s.w.own.held := hknows
  exact ⟨hhist.file, hlast⟩

/-- No range of the length of the last accepted cut or less, or of any length if there was
    none, can be cut from what `range` returns without losing the failure. -/
theorem range_minimal (hl : X.length < 2 ^ 31) (hD : Judges E D) {s : St} {q : Path} (hs : (system E inputPath fs).Reach s)
    (hq : s.main = .ret q) :
    ∃ T R, s.w.fs (E.key q) = some T ∧
      R = (if lastCut E s.w = 0 then T.length - 1 else min (lastCut E s.w) (T.length - 1)) ∧
      (∀ l, 1 ≤ l → l ≤ R → NoCut D l T) ∧ (2 ≤ T.length → 1 ≤ R ∧ OneMinimal D T) := by
  obtain ⟨T, ⟨hfile, -, -, hknows⟩, -, hscan⟩ := reach_scan hp hX hl hD hs (by rw [hq]; rfl)
  rw [hq] at hknows hscan
  obtain rfl : q = s.w.own.held := hknows
  have hcut : ∀ l, 1 ≤ l → l ≤ (if lastCut E s.w = 0 then T.length - 1 else min (lastCut E s.w) (T.length - 1)) → NoCut D l T := by
    intro l h1 h2
    apply hscan l (by omega)
    unfold reachOf
    split at h2 <;> split <;> omega
  refine ⟨T, _, hfile, rfl, hcut, ?_⟩
  intro h2
  have hR : 1 ≤ (if lastCut E s.w = 0 then T.length - 1 else min (lastCut E s.w) (T.length - 1)) := by
    split <;> omega
  exact ⟨hR, (hcut 1 (Nat.le_refl _) hR).oneMinimal⟩

end

/-- Two bytes of which the first is enough: one cut is accepted. -/
theorem range_minimal_two :
    ∃ s T R, (system (judging fun c => c.contains 1) "in".toList (soleInput "in".toList [1, 2])).Reach s ∧
      s.main = .ret (failFile 1) ∧ s.w.fs ((judging fun c => c.contains 1).key (failFile 1)) = some T ∧
      R = (if lastCut (judging fun c => c.contains 1) s.w = 0 then T.length - 1
        else min (lastCut (judging fun c => c.contains 1) s.w) (T.length - 1)) ∧
      (∀ l, 1 ≤ l → l ≤ R → NoCut (fun c => c.contains 1) l T) := by
  have hrun : (System.follow (step (judging fun c => c.contains 1))
      (List.replicate 14 (.main 0) ++ List.replicate 11 (.worker 2) ++ List.replicate 15 (.worker 0) ++ List.replicate 18 (.main 0))
      (start "in".toList (soleInput "in".toList [1, 2]))).map St.main = some (.ret (failFile 1)) := by
    decide +kernel
  obtain ⟨s, hs, hq⟩ := Option.map_eq_some_iff.mp hrun
  obtain ⟨T, R, hT, hR, hcut, -⟩ := range_minimal (unnamed_range_in _) (sole_in _ _) (by decide) (judging_judges _)
    (follow_reach hs) hq
  exact ⟨s, T, R, follow_reach hs, hq, hT, hR, hcut⟩

theorem sole_origin (D : Bytes → Bool) (X : Bytes) (i : Nat) :
    soleInput "in".toList X ((judging D).key (originFile i)) = none := by
  have key : (judging D).key (originFile i) = [numbered "origin_input".toList i []] := key_originFile _ i
  have hne : ∀ n : Name, n.head? ≠ some 'o' → [numbered "origin_input".toList i []] ≠ [n] := fun n hn e =>
    hn (by rw [← List.singleton_injective e]; rfl)
  rw [key, soleInput, Fs.of_entry, if_neg (hne _ (by decide)), if_neg (hne _ (by decide))]

/-- An input of 2^31 + 1 bytes, whose size an `int` takes for a negative one, is returned
    although everything fails. -/
theorem a_negative_size_is_returned_unminimized :
    Judges (judging fun _ => true) (fun _ => true) ∧
    ∃ s q T, (system (judging fun _ => true) "in".toList (soleInput "in".toList (List.replicate (2 ^ 31 + 1) 0))).Reach s ∧
      s.main = .ret q ∧ s.w.fs ((judging fun _ => true).key q) = some T ∧ T.length = 2 ^ 31 + 1 ∧
      lastCut (judging fun _ => true) s.w = 0 ∧ ¬ OneMinimal (fun _ => true) T := by
  let E := judging fun _ => true
  generalize hT : List.replicate (2 ^ 31 + 1) (0 : UInt8) = T
  have hlen : T.length = 2 ^ 31 + 1 := hT ▸ List.length_replicate
  obtain ⟨s, hs, hend⟩ := System.exists_final (range_ends E "in".toList (soleInput "in".toList T)) rfl
  obtain ⟨q, hq⟩ := range_returns (sole_in (fun _ => true) T) (fun th => sole_origin (fun _ => true) T th)
    (by rw [hlen]; decide +kernel) hs fun m => Option.eq_none_iff_forall_ne_some.mpr fun t ht => hend t ⟨m, ht⟩
  obtain ⟨hfile, hlast⟩ := returns_unscanned (unnamed_range_in fun _ => true) (sole_in (fun _ => true) T)
    (by rw [hlen]; decide +kernel) hs hq
  refine ⟨judging_judges _, s, q, T, hs, hq, hfile, hlen, hlast, ?_⟩
  intro h
  have := h 0 (by rw [hlen]; omega)
  cases this

end DiyDdmin.Range
