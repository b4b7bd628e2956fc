/-
  DiyDdmin.Range.Rounds — the round protocol of `range`.

  Proved, for every interleaving, every input and every program, over any number of rounds
  and calls (`round_protocol`): no worker pops from an empty queue; past the wait on
  `terminated_sem` every range of the round was popped once and tried by the worker that
  popped it, as the cut of that round's input, nothing is queued or in hand, and the one
  post of the round is used up; and while the main thread waits, some thread can move. What
  the record of a round says was tried is what the program was last run on, with the
  verdicts on these runs (`reach_recorded`).
-/

import DiyDdmin.Range.Frame

namespace DiyDdmin.Range

open Posix Tester Numeric Systems Reduction WorkPool

section

variable {E : Env} {inputPath : Path} {fs : Fs} {s : St}

/-- Only a worker in a loop without progress, without a permit or waiting for the lock has
    no step. -/
theorem worker_enabled (ho : s.main.over = false) {th : Worker} (hns : ∀ pc, s.workers th ≠ .stuck pc)
    (hmove : CanMove (pool s) th) : ∃ t, step E (.worker th) s = some t := by
  have enabled : (workerTurn E th s.g (s.workers th)).isSome → ∃ t, step E (.worker th) s = some t := fun h => by
    obtain ⟨x, hx⟩ := Option.isSome_iff_exists.mp h
    exact ⟨afterWorker s th (x s.w), by simp only [step, ho, Bool.false_eq_true, if_false, hx, Option.map_some]⟩
  apply enabled
  have hh : (pool s).hands th = hand (s.workers th) := rfl
  unfold CanMove at hmove
  rw [hh] at hmove
  cases hpc : s.workers th with
  | idle =>
    rw [hpc] at hmove
    have hq : 0 < s.g.qSem := hmove
    simp only [workerTurn, if_pos hq, Option.isSome_some]
  | popping =>
    simp only [workerTurn]
    cases s.g.queue <;> rfl
  | closing d =>
    rw [hpc] at hmove
    have hl : s.g.endMt = none := hmove
    simp only [workerTurn, if_pos hl, Option.isSome_some]
  | stuck pc => exact absurd hpc (hns pc)
  | _ => rfl

/-! ## The record of a round -/

/-- What was tried is the run `x` of the program, on a file that held these bytes, and its
    verdict. -/
def OfRun (E : Env) (t : Tried) (x : Test) : Prop :=
  x.given = x.file ∧ x.fs (E.key x.given) = some t.bytes ∧ t.failed = verdict E.errMsg x.outcome

/-- The record lists the last runs of the program, in their order. -/
def Recorded (E : Env) (s : St) : Prop :=
  ∃ earlier runs, s.w.own.tests = earlier ++ runs ∧ List.Forall₂ (OfRun E) s.g.log.tried runs

/-- A worker tests only in a round, and records the run it makes, on the cut of its job. -/
theorem worker_tests (hs : (system E inputPath fs).Reach s) {th : Worker} {d : Node} {t : St} (hd : s.workers th = .testing d)
    (hst : step E (.worker th) s = some t) :
    (∃ r, s.main.inRound = some r) ∧ ∃ x y, t.w.own.tests = s.w.own.tests ++ [x] ∧ t.g.log.tried = s.g.log.tried ++ [y] ∧
      OfRun E y x ∧ y.bytes = cutOf s.g.inputSize.toNat s.g.rs.toNat d.begin s.g.log.input ∧
        d.begin + s.g.rs.toNat ≤ s.g.inputSize.toNat := by
  have hlive := (step_cases hst).1
  have hround : ∃ r, s.main.inRound = some r := by
    by_contra hno
    -- between rounds no worker has a job
    have hb : boss s.g s.main = .away := by cases hm : s.main <;> first | rfl | exact absurd ⟨_, by rw [hm]; rfl⟩ hno
    have hh : hand (s.workers th) = .free ∨ hand (s.workers th) = .late := (away_quiet hs hlive hb).hands th
    rw [hd] at hh
    rcases hh with h | h <;> cases h
  refine ⟨hround, ?_⟩
  obtain ⟨r, hr⟩ := hround
  obtain ⟨⟨-, hw⟩, -, -⟩ := reach_round hs hr
  have hout : s.g.outFiles th = outName th (s.g.failStack th) := (reach_sound hs hlive).named th
  have hstage := hw.stage th
  rw [hd, hout] at hstage
  obtain ⟨hin, hfile⟩ := hstage
  obtain ⟨-, turn, hturn, rfl⟩ := step_worker hst
  rw [hd] at hturn
  cases hturn
  obtain ⟨w', hrun, hown, -⟩ := runTest_spec E (outName th (s.g.failStack th)) (outName th (s.g.failStack th)) true
    (dummyOut_ne_dummyErr E th th) (holds_dummyErr E th) s.w
  simp only [testingTurn, look_bind, hout, hfile, Option.getD_some]
  rw [testBufferOverflowThread, bind_ok hrun]
  exact ⟨_, _, congrArg Vars.tests hown, rfl, ⟨rfl, (Fs.put_ne _ _ (outName_ne_dummyErr E th _ th)).trans hfile, rfl⟩, rfl, hin⟩

/-- Step lemma. -/
theorem step_recorded (hs : (system E inputPath fs).Reach s) (h : Recorded E s) {m : Move} {t : St} (hst : step E m s = some t)
    (ho : t.main.over = false) : Recorded E t := by
  obtain ⟨earlier, runs, htests, hof⟩ := h
  rcases step_tests hst with hsame | ⟨th, d, rfl, hd⟩
  · have htried : t.g.log.tried = s.g.log.tried ∨ t.g.log.tried = [] := by
      cases (step_cases hst).2.resolve_left (by rw [ho]; nofun) with
      | main rand w hm =>
        generalize s.main = pc at hm
        cases hm with
        | setExisting r hle => exact Or.inr rfl
        | _ => exact Or.inl rfl
      | @worker th pc g w hm =>
        generalize hpc : s.workers th = pc0 at hm
        cases hm with
        | test d bytes v =>
          obtain ⟨-, x, y, hx, -⟩ := worker_tests hs hpc hst
          rw [hsame] at hx
          exact absurd (congrArg List.length hx) (by simp)
        | _ => exact Or.inl rfl
      | stuck th w hns => exact Or.inl rfl
    rcases htried with e | e
    · exact ⟨earlier, runs, hsame.trans htests, by rw [e]; exact hof⟩
    · exact ⟨s.w.own.tests, [], by rw [hsame, List.append_nil], by rw [e]; exact .nil⟩
  · obtain ⟨-, x, y, hx, hy, hxy, -⟩ := worker_tests hs hd hst
    refine ⟨earlier, runs ++ [x], by rw [hx, htests, List.append_assoc], ?_⟩
    rw [hy]
    exact List.rel_append hof (.cons hxy .nil)

/-- Run lemma. -/
theorem reach_recorded (hs : (system E inputPath fs).Reach s) : s.main.over = false → Recorded E s := by
  refine System.Reach.invariant (T := system E inputPath fs) (P := fun s => s.main.over = false → Recorded E s) ?_ ?_ hs
  · rintro s rfl -
    exact ⟨[], [], rfl, .nil⟩
  · rintro s t hr hi ⟨m, hst⟩ ho
    exact step_recorded hr (hi (step_cases hst).1) hst ho

/-! ## The protocol -/

/-- The main thread and the workers keep to the round protocol. -/
theorem round_protocol (hs : (system E inputPath fs).Reach s) :
    (s.main.over = false → ∀ th, s.workers th = .popping → s.g.queue ≠ []) ∧
    (∀ r, s.main = .selecting r →
      (s.g.rs = r ∧ s.g.log.popped.map Prod.snd = List.range (s.g.inputSize - r + 1).toNat ∧
        (s.g.log.tried.map fun t => (t.worker, t.begin)).Perm s.g.log.popped ∧
        (∀ t ∈ s.g.log.tried, t.bytes = cutOf s.g.inputSize.toNat r.toNat t.begin s.g.log.input) ∧ Recorded E s) ∧
      (s.g.existing = 0 ∧ s.g.queue = [] ∧ ∀ th, s.workers th = .idle ∨ ∃ d, s.workers th = .unlocking d) ∧
      s.g.log.posts = 1 ∧ s.g.terminatedSem = 0) ∧
    ∀ r, s.main = .waiting r → ∃ m t, step E m s = some t := by
  refine ⟨fun ho th => popping_queue hs ho, ?_, ?_⟩
  · intro r hm
    have ho : s.main.over = false := by rw [hm]; rfl
    obtain ⟨hquiet, hcomplete⟩ := selecting_complete hs hm
    have hsized := (reach_pool hs ho).2
    obtain ⟨-, halive, hcall⟩ := reach_sound hs ho
    unfold Sized at hsized
    rw [hm] at hsized hcall
    obtain ⟨-, hw⟩ := hcall
    refine ⟨⟨hsized.2.2, hcomplete.taken, hcomplete.tried, ?_, reach_recorded hs ho⟩, ⟨hcomplete.pending, ?_, ?_⟩, hcomplete.signalled,
      hquiet.signals⟩
    · intro t ht
      rw [← hsized.2.2]
      exact (hw.tried t ht).bytes
    · exact List.map_eq_nil_iff.mp hquiet.queue
    · intro th
      have hh : hand (s.workers th) = .free ∨ hand (s.workers th) = .late := hquiet.hands th
      have hns := halive th
      generalize s.workers th = pc at hh hns
      cases pc with
      | idle => exact Or.inl rfl
      | unlocking d => exact Or.inr ⟨d, rfl⟩
      | stuck pc => exact absurd rfl (hns pc)
      | _ => rcases hh with h | h <;> cases h
  · intro r hm
    have ho : s.main.over = false := by rw [hm]; rfl
    have hinv := (reach_pool hs ho).1
    rcases waiting_progress hinv (n := jobs s.g r) (by rw [pool, hm]; rfl) with hsig | ⟨th, hmove⟩
    · have hpos : 0 < s.g.terminatedSem := hsig
      have hx : mainTurn E 0 s.g s.main = some (pure (.selecting r, { s.g with terminatedSem := s.g.terminatedSem - 1 })) := by
        rw [hm, mainTurn, if_pos hpos]
      exact ⟨.main 0, _, by simp only [step, ho, Bool.false_eq_true, if_false, hx, Option.map_some]; rfl⟩
    · obtain ⟨t, ht⟩ := worker_enabled (E := E) ho ((reach_sound hs ho).alive th) hmove
      exact ⟨.worker th, t, ht⟩

end

/-- A round of two ranges that two workers share. -/
theorem round_protocol_two :
    ∃ s, (system (judging fun _ => false) "in".toList (soleInput "in".toList [1, 2])).Reach s ∧ s.main = .selecting 1 ∧
      s.g.inputSize = 2 ∧ s.g.log.popped.map Prod.snd = List.range 2 ∧
      (s.g.log.tried.map fun t => (t.worker, t.begin)).Perm s.g.log.popped := by
  have hrun : (System.follow (step (judging fun _ => false))
      (List.replicate 14 (.main 0) ++ List.replicate 11 (.worker 2) ++ List.replicate 11 (.worker 0) ++ [.main 0])
      (start "in".toList (soleInput "in".toList [1, 2]))).map (fun s => (s.main, s.g.inputSize)) = some (.selecting 1, 2) := by
    decide +kernel
  obtain ⟨s, hs, he⟩ := Option.map_eq_some_iff.mp hrun
  obtain ⟨hm, hsize⟩ := Prod.mk.inj he
  have hr := follow_reach hs
  obtain ⟨⟨-, hpopped, htried, -⟩, -⟩ := (round_protocol hr).2.1 1 hm
  rw [hsize] at hpopped
  exact ⟨s, hr, hm, hsize, hpopped, htried⟩

end DiyDdmin.Range
