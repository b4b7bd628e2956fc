/-
  DiyDdmin.Range.Remains — what a run of `range` leaves behind.

  The accepted candidates are `1.part`, `2.part`, … in the order of their acceptance: no
  turn of any thread touches one again (`Trail`). The copies of the input are removed
  before the result is returned, the output files of a test by the test itself.

  Proved, for every interleaving and every choice of `rand`: at every moment the accepted
  candidates are all there, each failing and strictly part of the one before, and the last
  is the held file (`range_leaves_trail`). When `range` returns, no copy and no output file
  is left, no job is queued or in hand, and from then on workers do no more than release
  `end_mt` and wait (`range_winds_up`).
-/

import DiyDdmin.Range.Results

namespace DiyDdmin.Range

open Posix Tester Numeric Systems Reduction WorkPool
open Relation (ReflTransGen)

section

variable {E : Env} {inputPath : Path} {fs : Fs} {s t : St} {X T : Bytes} {Ts : List Bytes}

/-! ## The trail of results -/

/-- The held file is `h`, and `1.part` and up hold `Ts`. -/
def Kept (E : Env) (h : Path) (Ts : List Bytes) (v : Vars) (fs : Fs) : Prop :=
  v.held = h ∧ ∀ j (hj : j < Ts.length), fs (E.key (failFile (j + 1))) = some Ts[j]

theorem kept_blind {h : Path} {k : Key} (hk : ∀ j < Ts.length, E.key (failFile (j + 1)) ≠ k) : Blind (Kept E h Ts) k :=
  fun _ _ _ hP => ⟨hP.1, fun j hj => (Fs.put_ne _ _ (hk j hj)).trans (hP.2 j hj)⟩

theorem kept_framed (E : Env) (h : Path) (Ts : List Bytes) : Framed E (Kept E h Ts) where
  out th k := kept_blind fun j _ => (outName_ne_failFile E th k (j + 1)).symm
  dummyOut th := kept_blind fun j _ => failFile_ne_dummyOut E (j + 1) th
  dummyErr th := kept_blind fun j _ => failFile_ne_dummyErr E (j + 1) th
  origin i := kept_blind fun j _ => (originFile_ne_failFile E i (j + 1)).symm
  tests _ _ _ _ _ h := h

/-- The next result is none of them. -/
theorem kept_fresh {h : Path} {n : Nat} (hn : Ts.length < n) : Blind (Kept E h Ts) (E.key (failFile n)) := kept_blind fun j hj e => by
  have := failFile_inj E e
  omega

/-- The file held after `n` acceptances. -/
def resultName (inputPath : Path) (n : Nat) : Path := if n = 0 then inputPath else failFile n

/-- What an accepted candidate is to the input it was cut from. -/
def Cuts (E : Env) (T T' : Bytes) : Prop := Condemned E T' ∧ T'.Sublist T ∧ T'.length < T.length

/-- The results accepted so far are `Ts`. -/
structure Trail (E : Env) (inputPath : Path) (X : Bytes) (s : St) (Ts : List Bytes) : Prop where
  count : Ts.length + 1 = fresh s
  kept : Kept E (resultName inputPath Ts.length) Ts s.w.own s.w.fs
  off : ∀ th, Off (Kept E (resultName inputPath Ts.length) Ts) (s.workers th)
  chain : (X :: Ts).IsChain (Cuts E)

theorem fresh_main {rand : Nat} {held : Path} {cur : Bytes} {pc : MainPc} {g : Globals} (w : World Vars)
    (hr : ∀ p, s.main ≠ .recursing p) (hm : MainMove rand held cur s.g s.main pc g) : fresh ⟨pc, s.workers, g, w⟩ = fresh s := by
  unfold fresh
  generalize s.main = pc0 at hm hr
  cases hm with
  | copy i r => split_ifs <;> rfl
  | remove i p => split_ifs <;> rfl
  | clear i => split_ifs <;> rfl
  | recurse p => exact absurd rfl (hr p)
  | _ => rfl

theorem fresh_moved {m : Move} (hr : ¬ Recurses m s) (hm : Moved E s m t) : fresh t = fresh s := by
  cases hm with
  | main rand w h => exact fresh_main w (fun p hp => hr ⟨rand, p, rfl, hp⟩) h
  | worker th w h => simp only [fresh, (worker_knows h).2]
  | stuck th w h => rfl

/-- A step that accepts nothing touches no result. -/
theorem trail_kept (hs : (system E inputPath fs).Reach s) (h : Trail E inputPath X s Ts) {m : Move} (hr : ¬ Recurses m s)
    (hst : step E m s = some t) (ho : t.main.over = false) : Trail E inputPath X t Ts := by
  obtain ⟨hcount, hkept, hoff, hchain⟩ := h
  obtain ⟨hlive, hmoved⟩ := step_cases hst
  obtain ⟨hnamed, -, hcall⟩ := reach_sound hs hlive
  have F := kept_framed E (resultName inputPath Ts.length) Ts
  refine ⟨hcount.trans (fresh_moved hr (hmoved.resolve_left fun e => nomatch ho.symm.trans e)).symm, ?_,
    step_off F hnamed hkept hoff hst, hchain⟩
  rcases step_world hst with ⟨rand, x, rfl, hx, hw, -⟩ | ⟨th, x, -, hx, hw⟩
  · rw [hw]
    refine ((mainTurn_keeps F ?_ (fun p hp => absurd ⟨rand, p, rfl, hp⟩ hr) hx).2 s.w hkept).1
    intro k hk
    unfold fresh at hcount
    rw [hk] at hcall hcount
    obtain ⟨-, th, j, hj⟩ := hcall
    exact ⟨hj ▸ F.out th j, kept_fresh (by simp only at hcount; omega)⟩
  · rw [hw]
    exact ((workerTurn_keeps F hnamed (hoff th) hx).2 s.w hkept).1

theorem trail_file (hfile : s.w.fs (E.key s.w.own.held) = some T) (hin : s.w.fs (E.key inputPath) = some X)
    (h : Trail E inputPath X s Ts) : T = Ts.getLast?.getD X := by
  obtain ⟨-, ⟨hheld, hkept⟩, -, -⟩ := h
  rw [hheld] at hfile
  unfold resultName at hfile
  rcases Nat.eq_zero_or_pos Ts.length with h0 | hpos
  · rw [if_pos h0, hin] at hfile
    rw [List.eq_nil_of_length_eq_zero h0]
    exact (Option.some.inj hfile).symm
  · have hlast := hkept (Ts.length - 1) (by omega)
    rw [if_neg hpos.ne', ← Nat.sub_add_cancel hpos, hlast] at hfile
    rw [List.getLast?_eq_getElem?, List.getElem?_eq_getElem (by omega), Option.getD_some]
    exact (Option.some.inj hfile).symm

/-- The step that accepts a candidate goes on with the trail. -/
theorem trail_accepted (hs : (system E inputPath fs).Reach s) (h : Trail E inputPath X s Ts) (hT : History E inputPath s T)
    (hin : s.w.fs (E.key inputPath) = some X) {m : Move} (hr : Recurses m s) (hst : step E m s = some t) :
    ∃ Ts', Trail E inputPath X t Ts' := by
  have hlast := trail_file hT.file hin h
  obtain ⟨hcount, ⟨hheld, hkept⟩, hoff, hchain⟩ := h
  have hlive := (step_cases hst).1
  have hcall := (reach_sound hs hlive).call
  have hknows := hT.knows
  obtain ⟨rand, p, rfl, hmain⟩ := hr
  rw [hmain] at hcall hknows
  obtain ⟨⟨-, c, hc, -, -, hcond, hsub, hlt⟩, -⟩ := hcall
  obtain ⟨hlog, rfl⟩ := hknows
  rw [hlog, hlast] at hsub hlt
  have hquiet := away_quiet hs hlive (by rw [hmain]; rfl)
  obtain ⟨-, x, hx, rfl⟩ := step_main hst
  rw [hmain] at hx
  cases hx
  have hn : Ts.length + 1 = s.g.totalFailN := by
    unfold fresh at hcount
    rw [hmain] at hcount
    exact hcount
  refine ⟨Ts ++ [c], ?_, ⟨?_, ?_⟩, fun th => off_quiet (hquiet.hands th), ?_⟩
  · rw [List.length_append, List.length_singleton, hn]
    rfl
  · rw [List.length_append, List.length_singleton, hn, resultName, if_neg (by omega)]
    rfl
  · intro j hj
    rw [List.length_append, List.length_singleton] at hj
    rcases Nat.lt_or_ge j Ts.length with hlt | hge
    · rw [List.getElem_append_left hlt]
      exact hkept j hlt
    · obtain rfl : j = Ts.length := by omega
      rw [List.getElem_append_right (Nat.le_refl _)]
      simp only [Nat.sub_self, List.getElem_cons_zero, hn]
      exact hc
  · rw [← List.cons_append, List.isChain_append]
    refine ⟨hchain, List.isChain_singleton _, ?_⟩
    intro x hx y hy
    rw [List.getLast?_cons, Option.mem_some_iff] at hx
    obtain rfl : c = y := Option.mem_some_iff.mp hy
    exact hx ▸ ⟨hcond, hsub, hlt⟩

variable (hp : Unnamed E RangeName (E.key inputPath)) (hX : fs (E.key inputPath) = some X)
include hp hX

/-- Run lemma. -/
theorem reach_trail (hs : (system E inputPath fs).Reach s) (ho : s.main.over = false) : ∃ Ts, Trail E inputPath X s Ts := by
  refine System.Reach.invariant (T := system E inputPath fs) (P := fun s => s.main.over = false → ∃ Ts, Trail E inputPath X s Ts)
    ?_ ?_ hs ho
  · intro s h _
    subst h
    exact ⟨[], rfl, ⟨rfl, nofun⟩, fun _ => trivial, List.isChain_singleton X⟩
  · intro s t hr hi ⟨m, hst⟩ ho
    have hlive := (step_cases hst).1
    obtain ⟨Ts, h⟩ := hi hlive
    by_cases hrec : Recurses m s
    · obtain ⟨T, hT, -, -⟩ := reach_held hp hX hr hlive
      exact trail_accepted hr h hT ((range_frame hp hr).1.trans hX) hrec hst
    · exact ⟨Ts, trail_kept hr h hrec hst ho⟩

/-- At every moment the accepted candidates are in `1.part` and up, each failing and part of
    the one before, and the last of them is the held file. -/
theorem range_leaves_trail (hs : (system E inputPath fs).Reach s) (ho : s.main.over = false) :
    ∃ Ts : List Bytes, (∀ j (hj : j < Ts.length), s.w.fs (E.key (failFile (j + 1))) = some Ts[j]) ∧
      (X :: Ts).IsChain (fun T T' => (∀ D, Judges E D → D T' = true) ∧ T'.Sublist T ∧ T'.length < T.length) ∧
      s.w.own.held = (if Ts.length = 0 then inputPath else failFile Ts.length) ∧
      s.w.fs (E.key s.w.own.held) = some (Ts.getLast?.getD X) := by
  obtain ⟨Ts, h⟩ := reach_trail hp hX hs ho
  obtain ⟨T, hT, -, -⟩ := reach_held hp hX hs ho
  refine ⟨Ts, h.kept.2, h.chain, h.kept.1, ?_⟩
  rw [hT.file, trail_file hT.file ((range_frame hp hs).1.trans hX) h]

end

/-- Two bytes of which the first is enough, shared by two workers. -/
theorem returned_two :
    ∃ s, (system (judging fun c => c.contains 1) "in".toList (soleInput "in".toList [1, 2])).Reach s ∧ s.main = .ret (failFile 1) := by
  have hrun : (System.follow (step (judging fun c => c.contains 1))
      (List.replicate 14 (.main 0) ++ List.replicate 11 (.worker 2) ++ List.replicate 15 (.worker 0) ++ List.replicate 18 (.main 0))
      (start "in".toList (soleInput "in".toList [1, 2]))).map St.main = some (.ret (failFile 1)) := by
    decide +kernel
  obtain ⟨s, hs, hq⟩ := Option.map_eq_some_iff.mp hrun
  exact ⟨s, follow_reach hs, hq⟩

theorem range_leaves_trail_two :
    ∃ s, (system (judging fun c => c.contains 1) "in".toList (soleInput "in".toList [1, 2])).Reach s ∧ s.main = .ret (failFile 1) ∧
      ∃ Ts : List Bytes, ([1, 2] :: Ts).IsChain (fun T T' => T'.Sublist T ∧ T'.length < T.length) ∧
        s.w.fs ((judging fun c => c.contains 1).key s.w.own.held) = some (Ts.getLast?.getD [1, 2]) := by
  obtain ⟨s, hs, hq⟩ := returned_two
  obtain ⟨Ts, -, hchain, -, hfile⟩ := range_leaves_trail (unnamed_range_in _) (sole_in _ _) hs (by rw [hq]; rfl)
  exact ⟨s, hs, hq, Ts, hchain.imp fun _ _ h => h.2, hfile⟩

/-! ## Winding up -/

section

variable {E : Env} {inputPath : Path} {fs : Fs} {s t : St}

/-- No output file of a test is there. -/
def Swept (E : Env) (fs : Fs) : Prop := ∀ th : Worker, fs (E.key (dummyOut th)) = none ∧ fs (E.key (dummyErr th)) = none

theorem dummyOut_inj {i j : Nat} (h : E.key (dummyOut i) = E.key (dummyOut j)) : i = j := by
  rw [key_dummyOut, key_dummyOut] at h
  exact (numbered_inj (by decide) (by decide) (List.singleton_injective (List.append_cancel_left h))).1

theorem dummyErr_inj {i j : Nat} (h : E.key (dummyErr i) = E.key (dummyErr j)) : i = j := by
  rw [key_dummyErr, key_dummyErr] at h
  exact (numbered_inj (by decide) (by decide) (List.singleton_injective (List.append_cancel_left h))).1

theorem swept_blind {k : Key} (ho : ∀ i, E.key (dummyOut i) ≠ k) (he : ∀ i, E.key (dummyErr i) ≠ k) :
    Blind (fun (_ : Vars) fs => Swept E fs) k := fun _ _ _ hP th =>
  ⟨(Fs.put_ne _ _ (ho th)).trans (hP th).1, (Fs.put_ne _ _ (he th)).trans (hP th).2⟩

/-- A worker's stream is on its candidate file. -/
theorem stage_off {P : Vars → Fs → Prop} {T : Bytes} {n r : Nat} {th : Worker} {out : Path} {fs : Fs} {pc : WorkerPc}
    (h : Stage E T n r th out fs pc) (hb : Blind P (E.key out)) : Off P pc := by
  have on : ∀ {o : Writer} {old v : Bytes}, o.Holds fs (E.key out) old v → o.Off P := fun ho k hk => by
    rw [ho.key] at hk
    exact Option.some.inj hk ▸ hb
  cases pc with
  | prefixing d i o => exact on h.2.2
  | skipping d i o => exact on h.2.2
  | postfixing d i o => exact on h.2.2
  | flushing d o => exact on h.2
  | _ => trivial

/-- Step lemma: a test takes its own output files away, and nothing else makes one. -/
theorem swept_next (hs : (system E inputPath fs).Reach s) (h : Swept E s.w.fs) {m : Move} (hst : step E m s = some t) :
    Swept E t.w.fs := by
  let P : Vars → Fs → Prop := fun _ fs => Swept E fs
  have out : ∀ (th : Worker) k, Blind P (E.key (outName th k)) := fun th k =>
    swept_blind (fun i => (outName_ne_dummyOut E th k i).symm) fun i => (outName_ne_dummyErr E th k i).symm
  have hlive := (step_cases hst).1
  obtain ⟨hnamed, -, hcall⟩ := reach_sound hs hlive
  cases m with
  | main rand =>
    obtain ⟨-, x, hx, rfl⟩ := step_main hst
    have hw : (afterMain s (x s.w)).w = (x s.w).world := by cases x s.w <;> rfl
    rw [hw]
    refine ((mainTurn_keeps_of (P := P) (fun i _ => swept_blind (fun j => (originFile_ne_dummyOut E i j).symm) fun j =>
      (originFile_ne_dummyErr E i j).symm) ?_ (fun _ _ _ _ hP => hP) hx).2 s.w h).1
    intro k hk
    rw [hk] at hcall
    obtain ⟨-, th, j, hj⟩ := hcall
    exact ⟨hj ▸ out th j, swept_blind (fun i => (failFile_ne_dummyOut E _ i).symm) fun i => (failFile_ne_dummyErr E _ i).symm⟩
  | worker th =>
    cases hr : s.main.inRound with
    | none =>
      obtain rfl := away_step hs hr hst
      exact h
    | some r =>
      obtain ⟨⟨-, hwork⟩, -⟩ := reach_round hs hr
      obtain ⟨-, x, hx, rfl⟩ := step_worker hst
      have hw : (afterWorker s th (x s.w)).w = (x s.w).world := by cases x s.w <;> rfl
      by_cases hd : ∃ d, s.workers th = .testing d
      · obtain ⟨d, hd⟩ := hd
        rw [hd] at hx
        cases hx
        obtain ⟨w', hrun, -, hframe⟩ := runTest_spec E (s.g.outFiles th) (s.g.outFiles th) true (dummyOut_ne_dummyErr E th th)
          (holds_dummyErr E th) s.w
        obtain ⟨h1, h2⟩ := runTest_swept (dummyOut_ne_dummyErr E th th) (Or.inl rfl) hrun
        simp only [testingTurn, look_bind]
        rw [bind_ok (x := testBufferOverflowThread E (s.g.outFiles th) th) hrun]
        intro i
        by_cases hi : i = th
        · rw [hi]
          exact ⟨h1, h2⟩
        · have hne : ∀ {a b : Nat}, a = b → a = i → b ≠ th := fun e e' e'' => hi (Fin.ext (by omega))
          exact ⟨(hframe _ (fun e => hne (dummyOut_inj e) rfl rfl) (dummyOut_ne_dummyErr E i th)).1.trans (h i).1,
            (hframe _ (dummyOut_ne_dummyErr E th i).symm fun e => hne (dummyErr_inj e) rfl rfl).1.trans (h i).2⟩
      · rw [hw]
        have hb := hnamed th ▸ out th (s.g.failStack th)
        exact ((workerTurn_keeps_of (P := P) (fun _ _ => hb) (fun d hd' => absurd ⟨d, hd'⟩ hd) (stage_off (hwork.stage th) hb) hx).2 s.w h).1

/-- How far the copies of the last call have been removed. -/
def ClearedAt (E : Env) (fs : Fs) : MainPc → Prop
  | .finishing i => ∀ th : Worker, th < i → fs (E.key (originFile th)) = none
  | .ret _ => ∀ th : Worker, fs (E.key (originFile th)) = none
  | _ => True

theorem cleared_finishing {rand i : Nat} (hm : s.main = .finishing i) (h : ∀ th : Worker, th < i → s.w.fs (E.key (originFile th)) = none)
    (hst : step E (.main rand) s = some t) : ClearedAt E t.w.fs t.main := by
  obtain ⟨-, x, hx, rfl⟩ := step_main hst
  rw [hm] at hx
  cases hx
  have hgone : ∀ th : Worker, th < i + 1 → (s.w.fs.put (E.key (originFile i)) none) (E.key (originFile th)) = none := by
    intro th hth
    by_cases e : (th : Nat) = i
    · rw [e]
      exact Fs.put_same _ _ _
    · rw [Fs.put_ne _ _ fun e' => e (originFile_inj E e')]
      exact h th (by omega)
  simp only [remove, act_bind, look_bind, afterMain, pure_run]
  split_ifs with hlt
  · exact hgone
  · exact fun th => hgone th (by have := th.isLt; omega)

/-- Step lemma: where the copies are removed they stay away. -/
theorem cleared_next (hs : (system E inputPath fs).Reach s) (h : ClearedAt E s.w.fs s.main) {m : Move}
    (hst : step E m s = some t) : ClearedAt E t.w.fs t.main := by
  obtain ⟨hlive, hmoved⟩ := step_cases hst
  cases m with
  | worker th =>
    cases hr : s.main.inRound with
    | none =>
      obtain rfl := away_step hs hr hst
      exact h
    | some r =>
      obtain ⟨pc, g, w, rfl, -⟩ := round_step hs hr hst
      cases hm : s.main <;> rw [hm] at hr <;> trivial
  | main rand =>
    by_cases hfin : ∃ i, s.main = .finishing i
    · obtain ⟨i, hm⟩ := hfin
      rw [hm] at h
      exact cleared_finishing hm h hst
    · rcases hmoved with ho | hmoved
      · cases hm : t.main <;> rw [hm] at ho <;> trivial
      · cases hmoved with
        | main _ w hm =>
          generalize s.main = pc at hm hfin
          cases hm with
          | clear i => exact absurd ⟨i, rfl⟩ hfin
          | copy i r => split_ifs <;> trivial
          | remove i p => split_ifs <;> trivial
          | finish r hr => exact fun th hth => absurd hth (Nat.not_lt_zero _)
          | _ => trivial

/-- Once `range` has returned, the workers release `end_mt` and wait. -/
theorem returned_step {q : Path} (hs : (system E inputPath fs).Reach s) (hq : s.main = .ret q) {m : Move}
    (hst : step E m s = some t) : t.main = .ret q ∧ t.w = s.w := by
  cases m with
  | main rand =>
    obtain ⟨-, x, hx, -⟩ := step_main hst
    rw [hq] at hx
    cases hx
  | worker th =>
    obtain rfl := away_step hs (by rw [hq]; rfl) hst
    exact ⟨hq, rfl⟩

/-- When `range` returns, every worker waits on `q_sem` or has yet to release `end_mt`, and
    does no more than that afterwards; nothing is queued, permitted or signalled; and
    neither a copy of the input nor, if there was none at the start, an output file of a
    test is left. As a test is one step, its child is gone when it is over; where calls of
    `runner` overlap (`Runner.Threads`) one may outlive it and write such a file again. -/
theorem range_winds_up {q : Path} (hs : (system E inputPath fs).Reach s) (hq : s.main = .ret q) :
    ((∀ th, s.workers th = .idle ∨ ∃ d, s.workers th = .unlocking d) ∧ s.g.queue = [] ∧ s.g.qSem = 0 ∧ s.g.terminatedSem = 0) ∧
    (∀ th : Worker, s.w.fs (E.key (originFile th)) = none) ∧
    (Swept E fs → Swept E s.w.fs) ∧
    ∀ t, ReflTransGen (system E inputPath fs).step s t → t.main = .ret q ∧ t.w = s.w := by
  have hlive : s.main.over = false := by rw [hq]; rfl
  refine ⟨?_, ?_, ?_, ?_⟩
  · have hquiet := away_quiet hs hlive (by rw [hq]; rfl)
    have halive := (reach_sound hs hlive).alive
    exact ⟨fun th => quiet_pc (hquiet.hands th) (halive th), List.map_eq_nil_iff.mp hquiet.queue, hquiet.permits, hquiet.signals⟩
  · have h : ClearedAt E s.w.fs s.main := by
      refine System.Reach.invariant (T := system E inputPath fs) (P := fun s => ClearedAt E s.w.fs s.main) ?_
        (fun s t hr h ⟨m, hst⟩ => cleared_next hr h hst) hs
      intro s h
      subst h
      trivial
    rw [hq] at h
    exact h
  · intro h0
    refine System.Reach.invariant (T := system E inputPath fs) (P := fun s => Swept E s.w.fs) ?_
      (fun s t hr h ⟨m, hst⟩ => swept_next hr h hst) hs
    intro s h
    subst h
    exact h0
  · intro t hst
    have hinv : (system E inputPath fs).Reach t ∧ t.main = .ret q ∧ t.w = s.w := by
      induction hst with
      | refl => exact ⟨hs, hq, rfl⟩
      | tail _ hst ih =>
        obtain ⟨hr, hq', hw⟩ := ih
        obtain ⟨m, hst⟩ := hst
        obtain ⟨h1, h2⟩ := returned_step hr hq' hst
        exact ⟨hr.step ⟨m, hst⟩, h1, h2.trans hw⟩
    exact hinv.2

end

theorem sole_swept (D : Bytes → Bool) (X : Bytes) : Swept (judging D) (soleInput "in".toList X) := by
  have hne : ∀ n : Name, n.head? = some 'd' → soleInput "in".toList X ((judging D).cwd ++ [n]) = none := fun n hn => by
    have other : ∀ m : Name, m.head? ≠ some 'd' → (judging D).cwd ++ [n] ≠ [m] := fun m hm e =>
      hm (by rw [← List.singleton_injective e]; exact hn)
    rw [soleInput, Fs.of_entry, if_neg (other _ (by decide)), if_neg (other _ (by decide))]
  intro th
  rw [key_dummyOut, key_dummyErr]
  exact ⟨hne _ rfl, hne _ rfl⟩

theorem range_winds_up_two :
    ∃ s, (system (judging fun c => c.contains 1) "in".toList (soleInput "in".toList [1, 2])).Reach s ∧ s.main = .ret (failFile 1) ∧
      (∀ th, s.workers th = .idle ∨ ∃ d, s.workers th = .unlocking d) ∧ Swept (judging fun c => c.contains 1) s.w.fs := by
  obtain ⟨s, hs, hq⟩ := returned_two
  obtain ⟨⟨hworkers, -⟩, -, hswept, -⟩ := range_winds_up hs hq
  exact ⟨s, hs, hq, hworkers, hswept (sole_swept _ _)⟩

end DiyDdmin.Range
