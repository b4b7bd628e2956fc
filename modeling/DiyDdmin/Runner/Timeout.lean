/-
  DiyDdmin.Runner.Timeout — the time limit of one call of `runner` (`src/runner.c`), from
  the fork to the return, and what the two test functions make of it.

  Two clocks run. The alarm goes by real time: `alarm(3)` is due three seconds later, and
  its handler signals what `c_pid` names. `clock()` counts the CPU time of the process, all
  its threads together and no child: a thread blocked in `waitpid` adds nothing. Times are
  in microseconds.

  The choices left open: how long everything takes, what the program writes and whether it
  ends by itself, whether an alarm of an earlier call is still pending, and, where the
  process has `others` more threads, how much CPU time they use, when they call `alarm` and
  whether their forks leave `c_pid` naming this child. `first`, `own` and `rest` are not in
  the source: the first reading of `clock()`, and the CPU time used since then by the
  calling thread and by the others (ghost).

  Proved: a run killed by the alarm is reported as one exactly if the CPU time used between
  the readings makes them three whole seconds apart; without other threads that is CPU time
  of the caller's own, so a call that does little more than wait never reports the kill and
  the test goes by what the program wrote before it (`killed_run_reported_iff`).
-/

import DiyDdmin.Tester.Scan
import DiyDdmin.Numeric.Binary32
import DiyDdmin.Systems.Reach

namespace DiyDdmin.Runner.Timeout

open Systems Posix Tester Numeric

/-- `CLOCKS_PER_SEC` -/
def clocksPerSec : Int := 1000000

/-- `((int) clock()) / CLOCKS_PER_SEC` -/
def seconds (clock : Nat) : Int := (toInt clock).tdiv clocksPerSec

/-- `if ((end - start) >= 3)` -/
def reported (start stop : Int) : EType := if 3 ≤ stop - start then .eTimeoutKill else .noError

inductive Child where
  | running
  /-- Terminated; `byAlarm` if `kill_child` did it. -/
  | zombie (byAlarm : Bool)
  deriving DecidableEq

inductive Pc where
  /-- `alarm(3)` -/
  | arming
  /-- `int start = ((int) clock()) / CLOCKS_PER_SEC` -/
  | starting
  /-- `waitpid(c_pid, &status, 0)` is called. -/
  | calling (start : Int)
  | waiting (start : Int)
  /-- `int end = ((int) clock()) / CLOCKS_PER_SEC` -/
  | ending (start : Int)
  | returned (type : EType)
  deriving DecidableEq

structure St where
  pc : Pc
  now : Nat
  clock : Nat
  /-- When the pending alarm is due. -/
  alarm : Option Nat
  /-- `c_pid` names the child. -/
  aimed : Bool
  child : Child
  err : Bytes
  first : Nat
  own : Nat
  rest : Nat
  deriving DecidableEq

inductive Event where
  | arm
  | readStart
  | call
  /-- `waitpid` returns. -/
  | wait
  | readEnd
  /-- The calling thread runs for `d`. -/
  | work (d : Nat)
  /-- The calling thread does not run for `d`; the others use `used` of CPU time. -/
  | pass (d used : Nat)
  | write (bs : Bytes)
  /-- The program exits. -/
  | exit
  /-- `kill_child` -/
  | sigalrm
  /-- Another thread calls `alarm(3)`. -/
  | otherArms
  /-- Another thread forks. -/
  | otherForks (aimed : Bool)

def Pc.blocked : Pc → Bool
  | .waiting _ => true
  | .returned _ => true
  | _ => false

/-- `kill(c_pid, SIGKILL)` -/
def Child.kill (aimed : Bool) : Child → Child
  | .running => if aimed then .zombie true else .running
  | c => c

def step (others : Nat) (e : Event) (s : St) : Option St :=
  match e with
  | .arm => match s.pc with
    | .arming => some { s with pc := .starting, alarm := some (s.now + 3000000) }
    | _ => none
  | .readStart => match s.pc with
    | .starting => some { s with pc := .calling (seconds s.clock), first := s.clock, own := 0, rest := 0 }
    | _ => none
  | .call => match s.pc with
    | .calling start => if s.aimed then some { s with pc := .waiting start } else none
    | _ => none
  | .wait => match s.pc, s.child with
    | .waiting start, .zombie _ => some { s with pc := .ending start }
    | _, _ => none
  | .readEnd => match s.pc with
    | .ending start => some { s with pc := .returned (reported start (seconds s.clock)) }
    | _ => none
  | .work d =>
    if s.pc.blocked then none
    else some { s with now := s.now + d, clock := s.clock + d, own := s.own + d }
  | .pass d used => match s.pc with
    -- the call is over: the readings have been taken
    | .returned _ => none
    | _ => if used ≤ others * d then some { s with now := s.now + d, clock := s.clock + used, rest := s.rest + used } else none
  | .write bs => if s.child = .running then some { s with err := s.err ++ bs } else none
  | .exit => if s.child = .running then some { s with child := .zombie false } else none
  | .sigalrm => match s.alarm with
    | some due => if due ≤ s.now then some { s with alarm := none, child := s.child.kill s.aimed } else none
    | none => none
  | .otherArms => if 0 < others then some { s with alarm := some (s.now + 3000000) } else none
  | .otherForks aimed => if 0 < others then some { s with aimed := aimed } else none

/-- The child has just been forked. -/
structure Start (s : St) : Prop where
  pc : s.pc = .arming
  aimed : s.aimed = true
  child : s.child = .running
  err : s.err = []
  rest : s.rest = 0

def system (others : Nat) : System St := ⟨Start, fun s t => ∃ e, step others e s = some t⟩

/-! ## What the readings measure -/

/-- The CPU time used since the first reading. -/
def St.used (s : St) : Nat := s.own + s.rest

/-- What `start` holds, between the two readings. -/
def Pc.start : Pc → Option Int
  | .calling start => some start
  | .waiting start => some start
  | .ending start => some start
  | _ => none

/-- The type the call returns, once it is known. -/
def Pc.type : Pc → Option EType
  | .returned type => some type
  | _ => none

/-- What a step can do to the clock and to what was read from it. -/
inductive Move (others : Nat) (s t : St) : Prop
  | first : t.pc = .calling (seconds s.clock) → t.first = s.clock → t.own = 0 → t.rest = 0 → t.clock = s.clock →
      Move others s t
  | last (start : Int) : s.pc = .ending start → t.pc = .returned (reported start (seconds s.clock)) → t.first = s.first →
      t.own = s.own → t.rest = s.rest → Move others s t
  | use (a b : Nat) : t.pc = s.pc → s.pc.type = none → t.first = s.first → t.own = s.own + a → t.rest = s.rest + b →
      t.clock = s.clock + (a + b) → (others = 0 → b = 0) → Move others s t
  | idle : t.pc.start = s.pc.start → t.pc.type = s.pc.type → t.first = s.first → t.own = s.own → t.rest = s.rest →
      t.clock = s.clock → Move others s t

theorem Move.ite {others : Nat} {s t u : St} {p : Prop} [Decidable p] (h : (if p then some u else none) = some t)
    (hm : Move others s u) : Move others s t := by
  have hu := (Option.ite_none_right_eq_some.mp h).2
  cases hu
  exact hm

theorem step_move {others : Nat} {e : Event} {s t : St} (h : step others e s = some t) : Move others s t := by
  cases e with
  | arm =>
    simp only [step] at h
    split at h
    · cases h
      exact .idle (by rw [‹s.pc = _›]; rfl) (by rw [‹s.pc = _›]; rfl) rfl rfl rfl rfl
    · cases h
  | readStart =>
    simp only [step] at h
    split at h
    · cases h
      exact .first rfl rfl rfl rfl rfl
    · cases h
  | call =>
    simp only [step] at h
    split at h
    · exact Move.ite h (.idle (by rw [‹s.pc = _›]; rfl) (by rw [‹s.pc = _›]; rfl) rfl rfl rfl rfl)
    · cases h
  | wait =>
    simp only [step] at h
    split at h
    · cases h
      exact .idle (by rw [‹s.pc = _›]; rfl) (by rw [‹s.pc = _›]; rfl) rfl rfl rfl rfl
    · cases h
  | readEnd =>
    simp only [step] at h
    split at h
    · cases h
      exact .last _ ‹_› rfl rfl rfl rfl
    · cases h
  | work d =>
    obtain ⟨hb, h⟩ := Option.ite_none_left_eq_some.mp h
    cases h
    refine .use d 0 rfl ?_ rfl rfl rfl rfl fun _ => rfl
    cases hp : s.pc <;> simp_all [Pc.blocked, Pc.type]
  | pass d used =>
    have hn : s.pc.type = none := by
      cases hp : s.pc <;> simp_all [step, Pc.type]
    have hu : used ≤ others * d ∧ some { s with now := s.now + d, clock := s.clock + used, rest := s.rest + used } = some t := by
      cases hp : s.pc <;> simp_all [step, Pc.type]
    obtain ⟨hle, he⟩ := hu
    cases he
    refine .use 0 used rfl hn rfl rfl rfl (by rw [Nat.zero_add]) ?_
    intro h0
    rw [h0, Nat.zero_mul] at hle
    omega
  | write bs => exact Move.ite h (.idle rfl rfl rfl rfl rfl rfl)
  | exit => exact Move.ite h (.idle rfl rfl rfl rfl rfl rfl)
  | sigalrm =>
    simp only [step] at h
    split at h
    · exact Move.ite h (.idle rfl rfl rfl rfl rfl rfl)
    · cases h
  | otherArms => exact Move.ite h (.idle rfl rfl rfl rfl rfl rfl)
  | otherForks aimed => exact Move.ite h (.idle rfl rfl rfl rfl rfl rfl)

/-- Between the readings `clock()` has gone on by the CPU time used since the first. -/
structure Inv (others : Nat) (s : St) : Prop where
  start : ∀ start, s.pc.start = some start → start = seconds s.first ∧ s.clock = s.first + s.used
  type : ∀ type, s.pc.type = some type → type = reported (seconds s.first) (seconds (s.first + s.used))
  alone : others = 0 → s.rest = 0

theorem step_inv {others : Nat} {e : Event} {s t : St} (hi : Inv others s) (h : step others e s = some t) : Inv others t := by
  cases step_move h with
  | first hpc hfirst hown hrest hclock =>
    refine ⟨?_, ?_, fun _ => hrest⟩
    · intro start hs
      rw [hpc] at hs
      cases hs
      exact ⟨by rw [hfirst], by rw [hclock, hfirst, St.used, hown, hrest]; omega⟩
    · intro type ht
      rw [hpc] at ht
      cases ht
  | last start hs hpc hfirst hown hrest =>
    obtain ⟨rfl, hclock⟩ := hi.start start (by rw [hs]; rfl)
    refine ⟨?_, ?_, fun h0 => hrest.trans (hi.alone h0)⟩
    · intro start hs
      rw [hpc] at hs
      cases hs
    · intro type ht
      rw [hpc] at ht
      cases ht
      rw [hclock, hfirst, St.used, St.used, hown, hrest]
  | use a b hpc hn hfirst hown hrest hclock hb =>
    refine ⟨?_, ?_, ?_⟩
    · intro start hs
      rw [hpc] at hs
      obtain ⟨rfl, hc⟩ := hi.start start hs
      rw [St.used] at hc ⊢
      exact ⟨by rw [hfirst], by omega⟩
    · intro type ht
      rw [hpc, hn] at ht
      cases ht
    · intro h0
      rw [hrest, hi.alone h0, hb h0]
  | idle hstart htype hfirst hown hrest hclock =>
    have hused : t.used = s.used := by rw [St.used, St.used, hown, hrest]
    refine ⟨?_, ?_, fun h0 => hrest.trans (hi.alone h0)⟩
    · intro start hs
      rw [hfirst, hclock, hused]
      exact hi.start start (hstart ▸ hs)
    · intro type ht
      rw [hfirst, hused]
      exact hi.type type (htype ▸ ht)

/-- Run lemma. -/
theorem reach_inv {others : Nat} {s : St} (hs : (system others).Reach s) : Inv others s := by
  refine System.Reach.invariant (T := system others) (P := Inv others) ?_ (fun s t _ hi ⟨e, he⟩ => step_inv hi he) hs
  intro s h
  refine ⟨?_, ?_, fun _ => h.rest⟩
  · intro start hs
    rw [h.pc] at hs
    cases hs
  · intro type ht
    rw [h.pc] at ht
    cases ht

/-! ## Without other threads -/

theorem toInt_add_le (x : Int) {d : Int} (h : 0 ≤ d) : toInt (x + d) ≤ toInt x + d := by
  unfold toInt
  simp only [Int.bmod_def]
  split_ifs <;> omega

/-- Division by a second rounds toward zero. -/
theorem tdiv_seconds (x : Int) :
    0 ≤ x ∧ x.tdiv clocksPerSec = x / 1000000 ∨ x < 0 ∧ x.tdiv clocksPerSec = -(-x / 1000000) := by
  rcases lt_or_ge x 0 with hx | hx
  · refine Or.inr ⟨hx, ?_⟩
    have hneg := Int.neg_tdiv (-x) clocksPerSec
    rw [Int.neg_neg] at hneg
    rw [hneg, Int.tdiv_eq_ediv_of_nonneg (by omega)]
    rfl
  · exact Or.inl ⟨hx, Int.tdiv_eq_ediv_of_nonneg hx⟩

/-- Less than two seconds of CPU time never make three whole ones. -/
theorem seconds_near (first : Nat) {used : Nat} (h : used < 2000000) : seconds (first + used) - seconds first < 3 := by
  have hle := toInt_add_le first (Int.natCast_nonneg used)
  rw [← Int.natCast_add] at hle
  have hstop := tdiv_seconds (toInt (first + used : Nat))
  have hstart := tdiv_seconds (toInt first)
  simp only [seconds]
  omega

/-- Without other threads a call that itself uses less than two seconds reports no kill. -/
theorem returned_noError {s : St} (hs : (system 0).Reach s) {type : EType} (hr : s.pc = .returned type)
    (hown : s.own < 2000000) : type = .noError := by
  have hi := reach_inv hs
  have htype := hi.type type (by rw [hr]; rfl)
  have hused : s.used < 2000000 := by
    rw [St.used, hi.alone rfl]
    omega
  have hnear := seconds_near s.first hused
  rw [htype, reported, if_neg (by omega)]

/-- What a call can come to in a process without other threads that itself uses less than
    two seconds of CPU time between the readings. -/
def Alone (o : Outcome) : Prop :=
  o.type = .eFork ∨ ∃ s, (system 0).Reach s ∧ s.pc = .returned o.type ∧ s.err = o.err ∧ s.own < 2000000

theorem Alone.type_ne {o : Outcome} (h : Alone o) : o.type ≠ .eTimeoutKill := by
  rcases h with hfork | ⟨s, hs, hr, -, hown⟩
  · rw [hfork]
    decide
  · rw [returned_noError hs hr hown]
    decide

/-! ## What the tests make of it -/

/-- On a run that comes to `o` both tests answer `v` of the message they look for; one that
    cannot open the file for the standard error runs nothing. -/
structure BothAnswer (o : Outcome) (v : Bytes → Bool) : Prop where
  plain : ∀ (E : Env) (given file : Path) (w : World Vars), E.Holds (stderrPath given) →
    (testOf E given file (stderrPath given) w).outcome = o → ∃ w', testBufferOverflow E given file w = .ok (v E.errMsg) w'
  thread : ∀ (E : Env) (given : Path) (outIdx : Nat) (w : World Vars),
    (testOf E given given (dummyErr outIdx) w).outcome = o →
      ∃ w', testBufferOverflowThread E given outIdx w = .ok (v E.errMsg) w'

theorem both_answer (o : Outcome) : BothAnswer o fun msg => verdict msg o := by
  constructor
  · intro E given file w hdir ho
    subst ho
    obtain ⟨w', hrun, -⟩ := runTest_spec E given file false (side_ne E given) hdir w
    exact ⟨w', hrun⟩
  · intro E given outIdx w ho
    subst ho
    obtain ⟨w', hrun, -⟩ := runTest_spec E given given true (dummyOut_ne_dummyErr E outIdx outIdx) (holds_dummyErr E outIdx) w
    exact ⟨w', hrun⟩

/-- A run killed by the alarm is reported as such, and answered 0, exactly if the CPU time
    used between the readings puts them three whole seconds apart. Without other threads
    that is the caller's own: if it is below two seconds the call reports nothing, and the
    tests answer by what the program wrote before it was killed. -/
theorem killed_run_reported_iff {others : Nat} {s : St} (hs : (system others).Reach s) :
    ∀ type, s.pc = .returned type → s.child = .zombie true → ∀ out,
      ((type = .eTimeoutKill ∧ BothAnswer ⟨type, out, s.err⟩ fun _ => false) ↔
        3 ≤ seconds (s.first + s.used) - seconds s.first) ∧
      (others = 0 → s.own < 2000000 → type = .noError ∧ BothAnswer ⟨type, out, s.err⟩ fun msg => scan msg s.err) := by
  intro type hr _ out
  have hi := reach_inv hs
  have htype := hi.type type (by rw [hr]; rfl)
  constructor
  · constructor
    · intro h
      have hkill := h.1
      rw [htype, reported] at hkill
      by_contra hnear
      rw [if_neg hnear] at hkill
      cases hkill
    · intro hapart
      obtain rfl : type = .eTimeoutKill := by rw [htype, reported, if_pos hapart]
      exact ⟨rfl, both_answer _⟩
  · intro h0 hown
    subst h0
    obtain rfl := returned_noError hs hr hown
    exact ⟨rfl, both_answer _⟩

/-- The state right after the fork, in a process that has used `clock` of CPU time. -/
def forked (clock : Nat) : St := ⟨.arming, 0, clock, none, true, .running, [], 0, 0, 0⟩

theorem follow_reach {others clock : Nat} {es : List Event} {t : St}
    (h : System.follow (step others) es (forked clock) = some t) : (system others).Reach t :=
  System.Reach.follow (T := system others) (fun e _ _ _ h => ⟨e, h⟩) (.init ⟨rfl, rfl, rfl, rfl, rfl⟩) h

/-- A program that ends by itself can write anything before. -/
theorem alone_noError (out err : Bytes) : Alone ⟨.noError, out, err⟩ := by
  have hrun : ∃ s, System.follow (step 0) [.arm, .readStart, .call, .write err, .exit, .wait, .readEnd] (forked 0) = some s ∧
      s.pc = .returned (reported (seconds 0) (seconds 0)) ∧ s.err = err ∧ s.own = 0 := ⟨_, rfl, rfl, rfl, rfl⟩
  have hnear : reported (seconds 0) (seconds 0) = .noError := by rw [reported, Int.sub_self, if_neg (by decide)]
  rw [hnear] at hrun
  obtain ⟨s, hs, hpc, herr, hown⟩ := hrun
  exact Or.inr ⟨s, follow_reach hs, hpc, herr, by omega⟩

/-- Three other threads at work all the while the program hangs. -/
theorem killed_run_reported_iff_three :
    ∃ s, (system 3).Reach s ∧ s.pc = .returned .eTimeoutKill ∧ s.child = .zombie true ∧
      BothAnswer ⟨.eTimeoutKill, [], s.err⟩ fun _ => false := by
  have hrun : (System.follow (step 3) [.arm, .readStart, .call, .write [33, 33], .pass 3000000 9000000, .sigalrm, .wait, .readEnd]
      (forked 0)).map (fun s => (s.pc, s.child, decide (3 ≤ seconds (s.first + s.used) - seconds s.first))) =
        some (.returned .eTimeoutKill, .zombie true, true) := by
    decide +kernel
  obtain ⟨s, hs, he⟩ := Option.map_eq_some_iff.mp hrun
  simp only [Prod.mk.injEq, decide_eq_true_eq] at he
  obtain ⟨hpc, hchild, hapart⟩ := he
  exact ⟨s, follow_reach hs, hpc, hchild,
    ((killed_run_reported_iff (follow_reach hs) _ hpc hchild []).1.mpr hapart).2⟩

/-- The program writes the message and hangs; three seconds later the alarm kills it. The
    process has done nothing but wait, and both tests count the candidate as failing. -/
theorem a_candidate_that_prints_and_hangs_counts_as_failing :
    ∃ s, (system 0).Reach s ∧ s.pc = .returned .noError ∧ s.child = .zombie true ∧ s.err = [33, 33] ∧ 3000000 ≤ s.now ∧
      s.used = 0 ∧
      (∃ w', testBufferOverflow (saying s.err) "in".toList "in".toList onInput = .ok true w') ∧
      (∃ w', testBufferOverflowThread (saying s.err) "in".toList 0 onInput = .ok true w') ∧
      ¬ BothAnswer ⟨.noError, [], s.err⟩ fun _ => false := by
  have hrun : (System.follow (step 0) [.arm, .readStart, .call, .write [33, 33], .pass 3000000 0, .sigalrm, .wait, .readEnd]
      (forked 0)).map (fun s => (s.pc, s.child, s.err, s.now, s.used)) =
        some (.returned .noError, .zombie true, [33, 33], 3000000, 0) := by
    decide +kernel
  obtain ⟨s, hs, he⟩ := Option.map_eq_some_iff.mp hrun
  simp only [Prod.mk.injEq] at he
  obtain ⟨hpc, hchild, herr, hnow, hused⟩ := he
  have hfound : verdict [33, 33] ⟨.noError, [], [33, 33]⟩ = true := by decide
  have hboth := both_answer ⟨.noError, [], [33, 33]⟩
  have hplain : ∃ w', testBufferOverflow (saying s.err) "in".toList "in".toList onInput = .ok true w' := by
    rw [herr, ← hfound]
    exact hboth.plain (saying [33, 33]) _ _ _ (by decide) rfl
  refine ⟨s, follow_reach hs, hpc, hchild, herr, by omega, hused, hplain, ?_, ?_⟩
  · rw [herr, ← hfound]
    exact hboth.thread (saying [33, 33]) _ _ _ rfl
  · intro hpass
    obtain ⟨w', htrue⟩ := hplain
    obtain ⟨w'', hfalse⟩ := hpass.plain (saying s.err) "in".toList "in".toList onInput rfl rfl
    rw [htrue] at hfalse
    cases hfalse

end DiyDdmin.Runner.Timeout
