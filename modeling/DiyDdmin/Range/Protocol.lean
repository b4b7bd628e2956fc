/-
  DiyDdmin.Range.Protocol — the rounds of `range` are those of a work pool.

  `pool` reads off a state of the code what the work pool knows: the main thread is the
  boss, a job is the `begin` of a queued node, `q_sem` holds the permits, `existing` the
  jobs not counted off, and `terminated_sem` the signal.

  Proved: every step is a step of the pool or none of its business (`pool_refines`), for
  every interleaving and any number of rounds and calls, whatever is in the directory. So
  `pop_queue` never meets an empty queue (`popping_queue`), and past the wait on
  `terminated_sem` the round is complete (`selecting_complete`).
-/

import DiyDdmin.Range.Moves
import DiyDdmin.Systems.WorkPool

namespace DiyDdmin.Range

open Posix Tester Numeric Systems WorkPool
open Relation (ReflTransGen)

/-! ## Sizes -/

/-- Where a round is to be run, the range is shorter than the input, unless the size is the
    one `int` whose round overflows. -/
def Below (size r : Int) : Prop := 0 < r → size = -2 ^ 31 ∨ r < size

def SizedAt (g : Globals) : MainPc → Prop
  | .enter size r => Below size r
  | .copying _ r => Below g.inputSize r
  | .round r => Below g.inputSize r
  | .settingRs r => 0 < r ∧ Below g.inputSize r
  | .settingExisting r => 0 < r ∧ Below g.inputSize r ∧ g.rs = r
  | .pushing r _ => 0 < r ∧ r < g.inputSize ∧ g.rs = r
  | .posting r _ => 0 < r ∧ r < g.inputSize ∧ g.rs = r
  | .waiting r => 0 < r ∧ r < g.inputSize ∧ g.rs = r
  | .selecting r => 0 < r ∧ r < g.inputSize ∧ g.rs = r
  | .renamingPart _ => 0 < g.rs ∧ g.rs < g.inputSize
  | .removing _ _ => 0 < g.rs ∧ g.rs < g.inputSize
  | .recursing _ => 0 < g.rs ∧ g.rs < g.inputSize
  | .hung => False
  | _ => True

def Sized (s : St) : Prop := SizedAt s.g s.main

theorem sizedAt_congr {g g' : Globals} (h1 : g'.inputSize = g.inputSize) (h2 : g'.rs = g.rs) {pc : MainPc}
    (h : SizedAt g pc) : SizedAt g' pc := by
  cases pc <;> simp only [SizedAt, h1, h2] at h ⊢ <;> exact h

theorem worker_sizes {th : Worker} {g g' : Globals} {pc pc' : WorkerPc} (h : WorkerMove th g pc pc' g') :
    g'.inputSize = g.inputSize ∧ g'.rs = g.rs := by cases h <;> exact ⟨rfl, rfl⟩

theorem main_sized {rand : Nat} {held : Path} {cur : Bytes} {g g' : Globals} {pc pc' : MainPc} (h : SizedAt g pc)
    (hm : MainMove rand held cur g pc pc' g') : SizedAt g' pc' := by
  cases hm with
  | begin =>
    intro hr
    by_cases hmin : toInt cur.length = -2 ^ 31
    · exact Or.inl hmin
    · right
      rw [toInt_pred hmin]
      omega
  | copy i r => split_ifs <;> exact h
  | remove i p => split_ifs <;> exact h
  | clear i => split_ifs <;> trivial
  | round r hr => exact ⟨hr, h⟩
  | setRs r => exact ⟨h.1, h.2, rfl⟩
  | setExisting r hle =>
    obtain ⟨h1, h2, h3⟩ := h
    refine ⟨h1, ?_, h3⟩
    rcases h2 h1 with e | hlt
    · omega
    · exact hlt
  | select r hf =>
    obtain ⟨h1, h2, h3⟩ := h
    exact ⟨h3 ▸ h1, h3 ▸ h2⟩
  | next r hf =>
    obtain ⟨h1, h2, h3⟩ := h
    exact fun _ => Or.inr (by omega)
  | recurse p => exact fun _ => Or.inr (by omega)
  | finish r hr => trivial
  | _ => exact h

theorem sized_moved {E : Env} {m : Move} {s t : St} (h : Sized s) (hm : Moved E s m t) : Sized t := by
  cases hm with
  | main rand w hm => exact main_sized h hm
  | worker th w hm => exact sizedAt_congr (worker_sizes hm).1 (worker_sizes hm).2 h
  | stuck th w => exact h

/-! ## The pool -/

def hand : WorkerPc → Hand
  | .idle => .free
  | .popping => .granted
  | .opening n => .untried n.begin
  | .prefixing n _ _ => .untried n.begin
  | .skipping n _ _ => .untried n.begin
  | .postfixing n _ _ => .untried n.begin
  | .flushing n _ => .untried n.begin
  | .fitting n => .untried n.begin
  | .testing n => .untried n.begin
  | .reserving n => .tried n.begin
  | .checking n _ => .tried n.begin
  | .doubling n _ => .tried n.begin
  | .reallocating n _ => .tried n.begin
  | .storing n _ => .tried n.begin
  | .naming n => .tried n.begin
  | .closing n => .tried n.begin
  | .unlocking _ => .late
  | .stuck pc => hand pc

/-- How many ranges of length `r` there are. -/
def jobs (g : Globals) (r : Int) : Nat := (g.inputSize - r + 1).toNat

def boss (g : Globals) : MainPc → Boss
  | .pushing r b => .filling (jobs g r) b
  | .posting r b => .announcing (jobs g r) b
  | .waiting r => .waiting (jobs g r)
  | .selecting r => .resumed (jobs g r)
  | _ => .away

def pool (s : St) : Pool Worker where
  boss := boss s.g s.main
  hands th := hand (s.workers th)
  queue := s.g.queue.map Node.begin
  permits := s.g.qSem
  pending := s.g.existing
  signals := s.g.terminatedSem
  lock := s.g.endMt
  taken := s.g.log.popped
  tried := s.g.log.tried.map fun t => (t.worker, t.begin)
  signalled := s.g.log.posts

theorem boss_congr {g g' : Globals} (h : g'.inputSize = g.inputSize) (pc : MainPc) : boss g' pc = boss g pc := by
  cases pc <;> simp only [boss, jobs, h]

theorem hand_update (ws : Worker → WorkerPc) (th : Worker) (pc : WorkerPc) :
    (fun i => hand (Function.update ws th pc i)) = Function.update (fun i => hand (ws i)) th (hand pc) :=
  Function.comp_update hand ws th pc

theorem hand_update_same (ws : Worker → WorkerPc) (th : Worker) (pc : WorkerPc) (h : hand pc = hand (ws th)) :
    (fun i => hand (Function.update ws th pc i)) = fun i => hand (ws i) := by
  rw [hand_update, h]
  exact Function.update_eq_self th fun i => hand (ws i)

/-- A worker's move is a step of the pool or leaves it as it is. -/
theorem worker_pool {s : St} {th : Worker} {pc : WorkerPc} {g : Globals} (w : World Vars)
    (h : WorkerMove th s.g (s.workers th) pc g) :
    Step (pool s) (pool ⟨s.main, Function.update s.workers th pc, g, w⟩) ∨
      pool ⟨s.main, Function.update s.workers th pc, g, w⟩ = pool s := by
  have hboss := boss_congr (worker_sizes h).1 s.main
  generalize hw : s.workers th = pc0 at h
  have hh : (pool s).hands th = hand pc0 := congrArg hand hw
  -- the steps between taking a job and trying it, and between trying it and counting it off
  have stutter : ∀ {pc g}, hand pc = hand (s.workers th) → boss g s.main = boss s.g s.main → g.queue = s.g.queue →
      g.qSem = s.g.qSem → g.existing = s.g.existing → g.terminatedSem = s.g.terminatedSem → g.endMt = s.g.endMt →
      g.log = s.g.log → pool ⟨s.main, Function.update s.workers th pc, g, w⟩ = pool s := by
    intro pc g e h1 h2 h3 h4 h5 h6 h7
    simp only [pool, h1, h2, h3, h4, h5, h6, h7, hand_update_same s.workers th _ e]
  cases h with
  | wait hq =>
    left
    have := Step.grant (p := pool s) th hh hq
    simpa only [pool, hand_update, Pool.give, hand, hboss] using this
  | pop hq =>
    left
    have := Step.take (p := pool s) th hh (by rw [pool, hq]; rfl)
    simpa only [pool, hand_update, Pool.give, hand, hboss] using this
  | test n bytes eCode =>
    left
    have := Step.attempt (p := pool s) th hh
    have he : hand (if eCode then .reserving n else .closing n) = .tried n.begin := by cases eCode <;> rfl
    simpa only [pool, hand_update, Pool.give, he, hboss, List.map_append, List.map_cons, List.map_nil] using this
  | close n hl =>
    left
    have := Step.finish (p := pool s) th hh hl
    simp only [pool, hand_update, hboss]
    exact this
  | unlock n =>
    left
    have := Step.unlock (p := pool s) th hh
    simpa only [pool, hand_update, Pool.give, hand, hboss] using this
  | check n k => right; exact stutter (by rw [hw]; split <;> rfl) hboss rfl rfl rfl rfl rfl rfl
  | _ => right; exact stutter (by rw [hw]; rfl) hboss rfl rfl rfl rfl rfl rfl

/-- So is a move of the main thread. -/
theorem main_pool {s : St} {rand : Nat} {held : Path} {cur : Bytes} {pc : MainPc} {g : Globals} (w : World Vars) (hs : Sized s)
    (hinv : Inv (pool s)) (h : MainMove rand held cur s.g s.main pc g) :
    Step (pool s) (pool ⟨pc, s.workers, g, w⟩) ∨ pool ⟨pc, s.workers, g, w⟩ = pool s := by
  have hr := hinv.round
  unfold Sized at hs
  generalize hm : s.main = pc0 at h hs
  have hb : (pool s).boss = boss s.g pc0 := by rw [pool, hm]
  unfold InRound at hr
  cases h with
  | setExisting r hle =>
    left
    obtain ⟨h1, h2, -⟩ := hs
    have hlt : r < s.g.inputSize := (h2 h1).resolve_left (by omega)
    have := Step.start (p := pool s) (jobs s.g r) hb (by unfold jobs; omega)
    rw [show ((jobs s.g r : Nat) : Int) = s.g.inputSize - r + 1 by unfold jobs; omega] at this
    exact this
  | push r b hle =>
    left
    have hlt : b < jobs s.g r := by unfold jobs; omega
    simp only [pool, Globals.push, List.map_append]
    exact Step.push (p := pool s) hb hlt
  | pushed r b hgt =>
    left
    rw [hb] at hr
    -- all of them are queued
    have e : b = jobs s.g r := by
      have hle := hr.2.1
      unfold jobs at hle ⊢
      omega
    exact Step.filled (p := pool s) (n := jobs s.g r) (hb.trans (congrArg (Boss.filling (jobs s.g r)) e))
  | post r b =>
    left
    exact Step.announce (p := pool s) hb
  | wait r hsig =>
    left
    exact Step.resume (p := pool s) hb hsig
  | select r hf =>
    left
    exact Step.leave (p := pool s) hb
  | next r hf =>
    left
    exact Step.leave (p := pool s) hb
  | copy i r =>
    right
    split <;> simp only [pool, hm, boss]
  | remove i p =>
    right
    split <;> simp only [pool, hm, boss]
  | clear i =>
    right
    split <;> simp only [pool, hm, boss]
  | _ => right; simp only [pool, hm, boss]

/-- Step lemma of the simulation. -/
theorem pool_moved {E : Env} {m : Move} {s t : St} (hs : Sized s) (hinv : Inv (pool s)) (hm : Moved E s m t) :
    Step (pool s) (pool t) ∨ pool t = pool s := by
  cases hm with
  | main rand w h => exact main_pool w hs hinv h
  | worker th w h => exact worker_pool w h
  | stuck th w =>
    right
    simp only [pool, hand_update_same s.workers th (.stuck (s.workers th)) rfl]

section

variable {E : Env} {inputPath : Path} {fs : Fs}

/-- While the process lives, the pool is what `pool` reads off. -/
def Follows (s : St) (p : Pool Worker) : Prop := s.main.over = false → p = pool s ∧ Sized s

theorem pool_refines : (system E inputPath fs).Refines (WorkPool.system Worker) Follows where
  start s hs := ⟨.init Worker, rfl, fun _ => by subst hs; exact ⟨rfl, trivial⟩⟩
  step s t p _ hp hR hst := by
    obtain ⟨m, hst⟩ := hst
    obtain ⟨hlive, hm⟩ := step_cases hst
    obtain ⟨rfl, hsized⟩ := hR hlive
    rcases hm with hover | hm
    · exact ⟨_, .refl, fun e => nomatch hover.symm.trans e⟩
    · rcases pool_moved hsized (reach_inv hp) hm with hstep | hsame
      · exact ⟨_, .single hstep, fun _ => ⟨rfl, sized_moved hsized hm⟩⟩
      · exact ⟨_, .refl, fun _ => ⟨hsame.symm, sized_moved hsized hm⟩⟩

variable {s : St} (hs : (system E inputPath fs).Reach s)
include hs

theorem reach_pool (ho : s.main.over = false) : Inv (pool s) ∧ Sized s := by
  obtain ⟨p, hp, hR⟩ := pool_refines.reach hs
  obtain ⟨rfl, hsized⟩ := hR ho
  exact ⟨reach_inv hp, hsized⟩

/-- `pop_queue` never finds the queue empty. -/
theorem popping_queue (ho : s.main.over = false) {th : Worker} (hw : s.workers th = .popping) : s.g.queue ≠ [] := by
  intro e
  apply granted_queue (reach_pool hs ho).1 (i := th) (congrArg hand hw)
  simp only [pool, e, List.map_nil]

/-- Between rounds nothing is queued or announced, and workers wait or are about to. -/
theorem away_quiet (ho : s.main.over = false) (hb : boss s.g s.main = .away) : Quiet (pool s) := by
  have hr := (reach_pool hs ho).1.round
  unfold InRound at hr
  rw [show (pool s).boss = .away from hb] at hr
  exact hr

/-- The round is over: every job was popped once, in order, and tried by the worker that
    popped it, and the one post was consumed. -/
theorem selecting_complete {r : Int} (hm : s.main = .selecting r) :
    Quiet (pool s) ∧ Complete (pool s) (jobs s.g r) := by
  have hr := (reach_pool hs (by rw [hm]; rfl)).1.round
  unfold InRound at hr
  rw [show (pool s).boss = .resumed (jobs s.g r) by rw [pool, hm]; rfl] at hr
  exact hr

end

end DiyDdmin.Range
