/-
  DiyDdmin.Runner.Fork — `runner` (`src/runner.c`) and the processes it makes.

  The state is the table of processes, the first of which was started to minimize. A
  process is in the minimizing loop, somewhere in `runner`, has become the target program,
  or is gone; it has its own `c_pid`, and an alarm that is pending or not. The loop around
  `runner` is a parameter (`Minimizer`); those of `ddmin` and `range_increasing` are two,
  and alone they are what the code does (`ddmin_alone`, `increasing_alone`).

  The choices left open: which process moves, what `fork`, `execl` and the clock come to,
  what the standard error file holds, how long the program runs, and when a pending alarm
  goes off. A pid is a place in the table and is not used again.

  Proved, for every loop and every order of steps: as long as no `execl` fails, no process
  but the first is ever in the loop, and the first one stays in it, or in `runner` on its
  behalf, to the end; and after any `execl` that fails the child goes on into the loop
  (`one_driver`), as it does on the first test `ddmin` makes
  (`a_child_that_cannot_execute_minimizes_too`).
-/

import DiyDdmin.Ddmin.Runs
import DiyDdmin.Increasing.Refine
import DiyDdmin.Systems.Reach

namespace DiyDdmin.Runner

open Posix Tester Systems Reduction

/-- A loop that tests candidates: whether the next turn makes a test, whether the loop has
    ended, and how it goes on with the verdict. -/
structure Minimizer (σ : Type) where
  tests : σ → Bool
  ends : σ → Bool
  next : σ → Bool → σ

/-- The loop in a process of its own, with whatever verdicts. -/
def Minimizer.alone {σ : Type} (M : Minimizer σ) (a : σ) : System σ := ⟨(· = a), fun b c => M.ends b = false ∧ ∃ v, c = M.next b v⟩

/-- The loop of `ddmin`. -/
def ddminLoop : Minimizer (Ddmin.Abstract.Abs UInt8) where
  tests a := match a.phase with
    | .subset _ _ => true
    | .complement _ _ => true
    | _ => false
  ends a := decide (a.phase = .done)
  next a v := a.next v

/-- The loop of `range_increasing`. -/
def increasingLoop : Minimizer (Increasing.Abstract.Scan UInt8) where
  tests a := match a.phase with
    | .inner b => decide ((b : Int) ≤ a.size - a.rs)
    | _ => false
  ends a := decide (a.phase = .done)
  next a v := match a.phase with
    | .inner b => a.next (cut b a.rs a.cur) v
    | _ => a.next [] v

/-! ## Processes -/

inductive Pc (σ : Type) where
  /-- In the minimizing loop, outside `runner`. -/
  | looping (a : σ)
  /-- `c_pid = fork()` -/
  | forking (a : σ)
  /-- Under `if (c_pid == 0)`, up to `execl`. -/
  | child (a : σ)
  /-- `alarm(3)` -/
  | arming (a : σ)
  /-- `waitpid(c_pid, &status, 0)` -/
  | waiting (a : σ)
  /-- The target program has taken over. -/
  | program
  /-- The loop has come to its end. -/
  | ended (a : σ)
  | gone

/-- What `c_pid` holds: 0, the -1 of a failed `fork`, or a process. -/
inductive CPid where
  | zero
  | failed
  | pid (j : Nat)
  deriving DecidableEq

structure Proc (σ : Type) where
  pc : Pc σ
  cPid : CPid
  armed : Bool

/-- The processes, by pid. -/
abbrev St (σ : Type) := List (Proc σ)

def Pc.terminated {σ : Type} : Pc σ → Bool
  | .ended _ => true
  | .gone => true
  | _ => false

/-- `waitpid` returns: the process has terminated, or it is no child to wait for. -/
def reaps {σ : Type} (s : St σ) : CPid → Bool
  | .pid j => match s[j]? with
    | some p => p.pc.terminated
    | none => true
  | _ => true

def Proc.kill {σ : Type} (p : Proc σ) : Proc σ := if p.pc.terminated then p else { p with pc := .gone }

/-- `kill(c_pid, SIGKILL)` by process `i`: one process, for 0 every process of the group,
    for -1 every process but the caller. -/
def killed {σ : Type} (i : Nat) (s : St σ) : CPid → St σ
  | .pid j => s.modify j Proc.kill
  | .zero => s.map Proc.kill
  | .failed => s.mapIdx fun k p => if k = i then p else p.kill

inductive Event where
  /-- A turn of the loop, up to the call of `runner` where it makes a test. -/
  | turn (i : Nat)
  /-- `found` is whether the message stands in the standard error file. -/
  | fork (i : Nat) (done found : Bool)
  | exec (i : Nat) (done : Bool)
  | arm (i : Nat)
  | wait (i : Nat) (timedOut found : Bool)
  /-- The program exits. -/
  | exit (i : Nat)
  /-- The alarm goes off: `kill_child`. -/
  | sigalrm (i : Nat)

section

variable {σ : Type} (M : Minimizer σ)

/-- What the step of the process with pc `pc` does to it, and the process it makes. -/
def act (s : St σ) (p : Proc σ) : Event → Option (Proc σ × List (Proc σ))
  | .turn _ => match p.pc with
    | .looping a => some ({ p with
        pc := if M.ends a then .ended a else if M.tests a then .forking a else .looping (M.next a false) }, [])
    | _ => none
  | .fork _ done found => match p.pc with
    | .forking a =>
      if done then some ({ p with pc := .arming a, cPid := .pid s.length }, [⟨.child a, .zero, false⟩])
      -- `return get_error(E_FORK, 0)`
      else some ({ p with pc := .looping (M.next a found), cPid := .failed }, [])
    | _ => none
  | .exec _ done => match p.pc with
    -- after `perror("execl():")` the child goes on below
    | .child a => some ({ p with pc := if done then .program else .arming a }, [])
    | _ => none
  | .arm _ => match p.pc with
    | .arming a => some ({ p with pc := .waiting a, armed := true }, [])
    | _ => none
  | .wait _ timedOut found => match p.pc with
    | .waiting a => if reaps s p.cPid then some ({ p with pc := .looping (M.next a (!timedOut && found)) }, []) else none
    | _ => none
  | .exit _ => match p.pc with
    | .program => some ({ p with pc := .gone }, [])
    | _ => none
  | .sigalrm _ => none

def Event.proc : Event → Nat
  | .turn i => i
  | .fork i _ _ => i
  | .exec i _ => i
  | .arm i => i
  | .wait i _ _ => i
  | .exit i => i
  | .sigalrm i => i

def step (e : Event) (s : St σ) : Option (St σ) :=
  match s[e.proc]? with
  | none => none
  | some p => match e with
    | .sigalrm i =>
      if p.armed && !p.pc.terminated then some (killed i (s.set i { p with armed := false }) p.cPid) else none
    | e => (act M s p e).map fun r => s.set e.proc r.1 ++ r.2

def start (a : σ) : St σ := [⟨.looping a, .zero, false⟩]

/-- No `execl` fails. -/
def Event.Executes : Event → Prop
  | .exec _ done => done = true
  | _ => True

/-- The runs whose events are all in `C`. -/
def system (C : Event → Prop) (a : σ) : System (St σ) := ⟨(· = start a), fun s t => ∃ e, C e ∧ step M e s = some t⟩

end

/-! ## One process minimizes -/

section

variable {σ : Type} {M : Minimizer σ} {a0 : σ}

/-- Where the process is in the loop, or was when it called `runner`. -/
def Pc.loop : Pc σ → Option σ
  | .looping a => some a
  | .forking a => some a
  | .arming a => some a
  | .waiting a => some a
  | .ended a => some a
  | _ => none

/-- The first process is in the loop, or in `runner` on its behalf, at a point the loop
    reaches by itself, and no other process has come back from `runner`. -/
structure OneDriver (M : Minimizer σ) (a0 : σ) (s : St σ) : Prop where
  first : ∃ p a, s[0]? = some p ∧ p.pc.loop = some a ∧ (M.alone a0).Reach a
  others : ∀ i p a, s[i]? = some p → i ≠ 0 → p.pc ≠ .looping a

structure First (M : Minimizer σ) (a0 : σ) (p : Proc σ) (a : σ) : Prop where
  loop : p.pc.loop = some a
  reach : (M.alone a0).Reach a
  live : p.pc ≠ .looping a → p.pc ≠ .ended a → M.ends a = false
  notSelf : p.cPid ≠ .pid 0
  zero : p.cPid = .zero → p.armed = false ∧ p.pc ≠ .arming a

/-- A child up to `execl`, the program, or a process that is gone. -/
def Other (p : Proc σ) : Prop := p.pc.loop = none ∧ p.armed = false ∧ p.cPid = .zero

/-- What holds as long as no `execl` fails. -/
def Inv (M : Minimizer σ) (a0 : σ) (s : St σ) : Prop := ∃ p l a, s = p :: l ∧ First M a0 p a ∧ ∀ q ∈ l, Other q

theorem Inv.oneDriver {s : St σ} (h : Inv M a0 s) : OneDriver M a0 s := by
  obtain ⟨p, l, a, rfl, hp, hl⟩ := h
  refine ⟨⟨p, a, rfl, hp.loop, hp.reach⟩, ?_⟩
  intro i q b hq hi e
  obtain ⟨k, rfl⟩ := Nat.exists_eq_succ_of_ne_zero hi
  have := (hl q (List.mem_of_getElem? hq)).1
  rw [e] at this
  cases this

theorem Other.kill {p : Proc σ} (h : Other p) : Other p.kill := by
  unfold Proc.kill
  split
  · exact h
  · exact ⟨rfl, h.2⟩

/-- Inversion of a step. -/
theorem step_cases {s t : St σ} {e : Event} (h : step M e s = some t) :
    ∃ p, s[e.proc]? = some p ∧
      ((∃ i, e = .sigalrm i ∧ p.armed = true ∧ t = killed i (s.set i { p with armed := false }) p.cPid) ∨
        ∃ p' l, act M s p e = some (p', l) ∧ t = s.set e.proc p' ++ l) := by
  unfold step at h
  cases hp : s[e.proc]? with
  | none => rw [hp] at h; cases h
  | some p =>
    rw [hp] at h
    refine ⟨p, rfl, ?_⟩
    cases e with
    | sigalrm i =>
      simp only [Option.ite_none_right_eq_some, Option.some.injEq, Bool.and_eq_true] at h
      obtain ⟨⟨harmed, -⟩, rfl⟩ := h
      exact Or.inl ⟨i, rfl, harmed, rfl⟩
    | _ =>
      obtain ⟨⟨p', l⟩, hact, rfl⟩ := Option.map_eq_some_iff.mp h
      exact Or.inr ⟨p', l, hact, rfl⟩

theorem First.disarm {p : Proc σ} {a : σ} (h : First M a0 p a) : First M a0 { p with armed := false } a :=
  ⟨h.loop, h.reach, h.live, h.notSelf, fun e => ⟨rfl, (h.zero e).2⟩⟩

/-- A signal of the first process reaches none but its children. -/
theorem inv_killed {p : Proc σ} {l : St σ} {a : σ} {c : CPid} (hp : First M a0 p a) (hl : ∀ q ∈ l, Other q) (hself : c ≠ .pid 0)
    (hzero : c ≠ .zero) : Inv M a0 (killed 0 (p :: l) c) := by
  cases c with
  | zero => exact absurd rfl hzero
  | failed =>
    refine ⟨p, _, a, List.mapIdx_cons, hp, ?_⟩
    intro q hq
    obtain ⟨k, hk, rfl⟩ := List.mem_mapIdx.mp hq
    exact (hl _ (List.getElem_mem hk)).kill
  | pid j =>
    cases j with
    | zero => exact absurd rfl hself
    | succ j =>
      refine ⟨p, l.modify j Proc.kill, a, rfl, hp, ?_⟩
      intro q hq
      obtain ⟨k, hk⟩ := List.getElem?_of_mem hq
      rw [List.getElem?_modify] at hk
      obtain ⟨r, hr, rfl⟩ := Option.map_eq_some_iff.mp hk
      have := hl r (List.mem_of_getElem? hr)
      split
      · exact this.kill
      · exact this

/-- A step of the first process in its own code. -/
theorem first_act {s : St σ} {p p' : Proc σ} {l : List (Proc σ)} {a : σ} {e : Event} (hs : s ≠ []) (hp : First M a0 p a)
    (h : act M s p e = some (p', l)) : (∃ b, First M a0 p' b) ∧ ∀ q ∈ l, Other q := by
  obtain ⟨pc, c, al⟩ := p
  obtain ⟨hloop, hreach, hlive, hself, hzero⟩ := hp
  -- `hnext` is a turn of the loop alone
  have hnext : M.ends a = false → ∀ v, (M.alone a0).Reach (M.next a v) := fun he v => hreach.step ⟨he, v, rfl⟩
  cases pc with
  | looping b =>
    obtain rfl : b = a := Option.some.inj hloop
    cases e <;> simp only [act, reduceCtorEq] at h
    cases h
    refine ⟨?_, nofun⟩
    split_ifs with h1 h2
    · exact ⟨b, rfl, hreach, fun _ e => absurd rfl e, hself, fun e => ⟨(hzero e).1, nofun⟩⟩
    · exact ⟨b, rfl, hreach, fun _ _ => by simpa using h1, hself, fun e => ⟨(hzero e).1, nofun⟩⟩
    · exact ⟨_, rfl, hnext (by simpa using h1) _, fun e _ => absurd rfl e, hself, fun e => ⟨(hzero e).1, nofun⟩⟩
  | forking b =>
    obtain rfl : b = a := Option.some.inj hloop
    have he := hlive nofun nofun
    cases e <;> simp only [act, reduceCtorEq] at h
    split_ifs at h
    · cases h
      refine ⟨⟨b, rfl, hreach, fun _ _ => he, fun e => hs (List.length_eq_zero_iff.mp (CPid.pid.inj e)), nofun⟩, ?_⟩
      intro q hq
      rw [List.mem_singleton.mp hq]
      exact ⟨rfl, rfl, rfl⟩
    · cases h
      exact ⟨⟨_, rfl, hnext he _, fun e _ => absurd rfl e, nofun, nofun⟩, nofun⟩
  | arming b =>
    obtain rfl : b = a := Option.some.inj hloop
    cases e <;> simp only [act, reduceCtorEq] at h
    cases h
    exact ⟨⟨b, rfl, hreach, fun _ _ => hlive nofun nofun, hself, fun e => absurd rfl (hzero e).2⟩, nofun⟩
  | waiting b =>
    obtain rfl : b = a := Option.some.inj hloop
    cases e <;> simp only [act, reduceCtorEq] at h
    split_ifs at h
    cases h
    exact ⟨⟨_, rfl, hnext (hlive nofun nofun) _, fun e _ => absurd rfl e, hself, fun e => ⟨(hzero e).1, nofun⟩⟩, nofun⟩
  | ended b => cases e <;> cases h
  | child b => cases hloop
  | program => cases hloop
  | gone => cases hloop

/-- A step of another process. -/
theorem other_act {s : St σ} {p p' : Proc σ} {l : List (Proc σ)} {e : Event} (he : e.Executes) (hp : Other p)
    (h : act M s p e = some (p', l)) : Other p' ∧ l = [] := by
  obtain ⟨pc, c, al⟩ := p
  obtain ⟨hloop, hal⟩ := hp
  cases pc with
  | child b =>
    cases e <;> simp only [act, reduceCtorEq] at h
    obtain rfl := he
    cases h
    exact ⟨⟨rfl, hal⟩, rfl⟩
  | program =>
    cases e <;> simp only [act, reduceCtorEq] at h
    cases h
    exact ⟨⟨rfl, hal⟩, rfl⟩
  | gone => cases e <;> cases h
  | _ => cases hloop

/-- Step lemma. -/
theorem step_inv {s t : St σ} {e : Event} (h : Inv M a0 s) (he : e.Executes) (hst : step M e s = some t) : Inv M a0 t := by
  obtain ⟨p, l, a, rfl, hp, hl⟩ := h
  obtain ⟨q, hq, hcase⟩ := step_cases hst
  cases hi : e.proc with
  | zero =>
    rw [hi] at hq hcase
    obtain rfl : p = q := Option.some.inj hq
    rcases hcase with ⟨i, rfl, harmed, rfl⟩ | ⟨p', l', hact, rfl⟩
    · obtain rfl : i = 0 := hi
      exact inv_killed hp.disarm hl hp.notSelf fun e => nomatch harmed.symm.trans (hp.zero e).1
    · obtain ⟨⟨b, hb⟩, hl'⟩ := first_act (List.cons_ne_nil _ _) hp hact
      exact ⟨p', l ++ l', b, rfl, hb, fun q hq => (List.mem_append.mp hq).elim (hl q) (hl' q)⟩
  | succ i =>
    rw [hi] at hq hcase
    have hother := hl q (List.mem_of_getElem? hq)
    rcases hcase with ⟨k, -, harmed, -⟩ | ⟨q', l', hact, rfl⟩
    · exact nomatch harmed.symm.trans hother.2.1
    · obtain ⟨hq', rfl⟩ := other_act he hother hact
      refine ⟨p, l.set i q', a, by simp, hp, ?_⟩
      intro r hr
      rcases List.mem_or_eq_of_mem_set hr with hr | rfl
      · exact hl r hr
      · exact hq'

/-- Run lemma. -/
theorem reach_inv {s : St σ} (hs : (system M Event.Executes a0).Reach s) : Inv M a0 s := by
  refine System.Reach.invariant (T := system M Event.Executes a0) (P := Inv M a0) ?_
    (fun s t _ hi ⟨e, he, hst⟩ => step_inv hi he hst) hs
  intro s h
  subst h
  exact ⟨_, [], a0, rfl, ⟨rfl, .init rfl, fun e => absurd rfl e, nofun, fun _ => ⟨rfl, nofun⟩⟩, nofun⟩

theorem step_of_act {s : St σ} {e : Event} {p p' : Proc σ} (hp : s[e.proc]? = some p) (h : act M s p e = some (p', [])) :
    step M e s = some (s.set e.proc p') := by
  unfold step
  rw [hp]
  cases e with
  | sigalrm i => cases h
  | _ => simp only [h, Option.map_some, List.append_nil]

/-- A child whose `execl` failed comes back from `runner`: `waitpid` has nothing to wait for. -/
theorem comes_back {s : St σ} {i : Nat} {b : σ} (hi : s[i]? = some ⟨.arming b, .zero, false⟩) (timedOut found : Bool) :
    ∃ t, System.follow (step M) [.arm i, .wait i timedOut found] s = some t ∧
      t[i]? = some ⟨.looping (M.next b (!timedOut && found)), .zero, true⟩ := by
  have hlt : i < s.length := (List.getElem?_eq_some_iff.mp hi).1
  let waits : Proc σ := ⟨.waiting b, .zero, true⟩
  let back : Proc σ := ⟨.looping (M.next b (!timedOut && found)), .zero, true⟩
  have h1 : step M (.arm i) s = some (s.set i waits) := step_of_act hi rfl
  have hi' : (s.set i waits)[i]? = some waits := List.getElem?_set_self hlt
  have h2 : step M (.wait i timedOut found) (s.set i waits) = some ((s.set i waits).set i back) := step_of_act hi' rfl
  refine ⟨(s.set i waits).set i back, ?_, List.getElem?_set_self (by rw [List.length_set]; exact hlt)⟩
  simp only [System.follow, h1, h2, Option.bind_some]

variable (M a0)

/-- As long as no `execl` fails one process minimizes, as if it were alone; after the first
    that fails the child goes on to come back from `runner` as well. -/
theorem one_driver :
    (∀ s, (system M Event.Executes a0).Reach s → OneDriver M a0 s) ∧
    ∀ s t i, (system M Event.Executes a0).Reach s → step M (.exec i false) s = some t →
      ∀ timedOut found, ∃ u, System.follow (step M) [.arm i, .wait i timedOut found] t = some u ∧ ¬ OneDriver M a0 u := by
  refine ⟨fun s hs => (reach_inv hs).oneDriver, ?_⟩
  intro s t i hs hst timedOut found
  obtain ⟨p, l, a, rfl, hp, hl⟩ := reach_inv hs
  obtain ⟨⟨pc, c, al⟩, hq, ⟨k, hk, -⟩ | ⟨p', l', hact, rfl⟩⟩ := step_cases hst
  · cases hk
  · cases pc <;> simp only [act, reduceCtorEq] at hact
    rename_i b
    cases hact
    -- the first process is in no child's place
    obtain ⟨k, rfl⟩ : ∃ k, i = k + 1 := by
      cases i with
      | zero =>
        cases hq
        exact nomatch hp.loop
      | succ k => exact ⟨k, rfl⟩
    obtain ⟨-, hal, hc⟩ := hl _ (List.mem_of_getElem? hq)
    cases hal; cases hc
    have hlt : k + 1 < (p :: l).length := (List.getElem?_eq_some_iff.mp hq).1
    obtain ⟨u, hu, hback⟩ := comes_back (M := M) (i := k + 1) (b := b) (s := (p :: l).set (k + 1) ⟨.arming b, .zero, false⟩)
      (List.getElem?_set_self hlt) timedOut found
    exact ⟨u, by rw [List.append_nil]; exact hu, fun h => h.others _ _ _ hback (Nat.succ_ne_zero k) rfl⟩

end

/-- The loop of `ddmin` alone is the abstract one, with whatever verdicts. -/
theorem ddmin_alone {X : List UInt8} {a : Ddmin.Abstract.Abs UInt8} :
    (ddminLoop.alone (.init X)).Reach a ↔ (Ddmin.Abstract.system X fun _ _ => True).Reach a := by
  have hends : ∀ b : Ddmin.Abstract.Abs UInt8, ddminLoop.ends b = false ↔ b.phase ≠ .done := fun b => decide_eq_false_iff_not
  constructor
  · refine System.Reach.invariant (T := ddminLoop.alone (.init X)) (fun b h => .init h) ?_
    rintro b c _ ih ⟨he, v, hv⟩
    exact ih.step ⟨(hends b).mp he, v, fun _ => trivial, hv⟩
  · refine System.Reach.invariant (T := Ddmin.Abstract.system X fun _ _ => True) (fun b h => .init h) ?_
    rintro b c _ ih ⟨he, v, _, hv⟩
    exact ih.step ⟨(hends b).mpr he, v, hv⟩

/-- Below 2^31 bytes the loop of `range_increasing` makes the turns of the code. -/
theorem increasingLoop_next {a : Increasing.Abstract.Scan UInt8} {c : Bytes} {v : Bool} (hl : a.cur.length < 2 ^ 31)
    (hf : ∀ b, a.Tries b → Increasing.Abstract.Fits a b c) : increasingLoop.next a v = a.next c v := by
  cases hp : a.phase with
  | outer => simp only [increasingLoop, Increasing.Abstract.Scan.next, hp]
  | inner b =>
    simp only [increasingLoop, hp]
    by_cases ht : a.Tries b
    · rw [(hf b ht).exact hl]
    · rw [Increasing.Abstract.next_wrap _ _ hp ht, Increasing.Abstract.next_wrap _ _ hp ht]
  | done => simp only [increasingLoop, Increasing.Abstract.Scan.next, hp]

/-- So `range_increasing` goes through its loop alone, with the verdicts of its tests. -/
theorem increasing_alone {E : Env} {p : Path} {fs : Fs} {X : Bytes} (hp : Unnamed E PartName (E.key p)) (hX : fs (E.key p) = some X)
    (hl : X.length < 2 ^ 31) {s : Increasing.St} (hs : (Increasing.machine E p fs).Reach s) :
    s = Increasing.start p fs ∨ ∃ a, Increasing.Match E p s a ∧ (increasingLoop.alone (.init X)).Reach a := by
  have hkeep := Increasing.reach_turns hp hX (P := fun _ a => a.cur.length < 2 ^ 31 ∧ (increasingLoop.alone (.init X)).Reach a)
    (fun _ _ => ⟨hl, .init rfl⟩) (fun s a t c v _ hm ha ht _ => ?_) hs
  · exact hkeep.imp_right fun ⟨a, hm, _, ha⟩ => ⟨a, hm, ha⟩
  · obtain ⟨hsmall, hr⟩ := ha
    have hf : ∀ b, a.Tries b → Increasing.Abstract.Fits a b c := fun b hb => (ht.ran b hb).1
    have hd : a.phase ≠ .done := fun hd => by
      have hn := ht.next
      rw [(Increasing.match_done hm).mp hd] at hn
      cases hn
    exact ⟨Increasing.Abstract.next_small hsmall hf, hr.step ⟨decide_eq_false hd, v, (increasingLoop_next hsmall hf).symm⟩⟩

/-- A test of which the program is executed and exits. -/
theorem one_driver_two :
    ∃ s, (system ddminLoop Event.Executes (.init [1, 2])).Reach s ∧ OneDriver ddminLoop (.init [1, 2]) s ∧
      s.map (fun p => p.pc.loop) = [some ⟨[1, 2], 2, .subset 1 1, [[1]]⟩, none] := by
  have hrun : (System.follow (step ddminLoop)
      [.turn 0, .turn 0, .fork 0 true false, .exec 1 true, .arm 0, .exit 1, .wait 0 false false]
      (start (.init [1, 2]))).map (fun s => s.map fun p => p.pc.loop) = some [some ⟨[1, 2], 2, .subset 1 1, [[1]]⟩, none] := by
    rfl
  obtain ⟨s, hs, hloop⟩ := Option.map_eq_some_iff.mp hrun
  have hr : (system ddminLoop Event.Executes (.init [1, 2])).Reach s :=
    System.Reach.follow (T := system ddminLoop Event.Executes (.init [1, 2]))
      (fun e he _ _ h => ⟨e, by revert e; simp [Event.Executes], h⟩) (.init rfl) hs
  exact ⟨s, hr, (one_driver ddminLoop (.init [1, 2])).1 s hr, hloop⟩

/-- Where the target program cannot be executed, the first test of `ddmin` makes a second
    process minimize. -/
theorem a_child_that_cannot_execute_minimizes_too :
    ∃ s, (system ddminLoop (fun _ => True) (.init [1, 2])).Reach s ∧ ¬ OneDriver ddminLoop (.init [1, 2]) s := by
  have hrun : (System.follow (step ddminLoop) [.turn 0, .turn 0, .fork 0 true false, .exec 1 false, .arm 1, .wait 1 false false]
      (start (.init [1, 2]))).map (fun s => s[1]?.map Proc.pc) = some (some (.looping ⟨[1, 2], 2, .subset 1 1, [[1]]⟩)) := by
    rfl
  obtain ⟨s, hs, hback⟩ := Option.map_eq_some_iff.mp hrun
  obtain ⟨p, hp, hpc⟩ := Option.map_eq_some_iff.mp hback
  exact ⟨s, System.Reach.follow (T := system ddminLoop (fun _ => True) (.init [1, 2])) (fun e _ _ _ h => ⟨e, trivial, h⟩) (.init rfl) hs,
    fun h => h.others 1 p _ hp (by decide) hpc⟩

end DiyDdmin.Runner
