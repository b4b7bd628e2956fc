/-
  DiyDdmin.Runner.Threads — the calls of `runner` by the workers of `range`.

  `c_pid` and the alarm belong to the process, so the workers share them. A step is one
  access to `c_pid`, with the `fork` that sets it, one call of `alarm` or `waitpid`, the end
  of a child, or the delivery of SIGALRM, whose handler signals whatever `c_pid` holds. An
  alarm stays pending when `waitpid` has returned; `alarm(3)` replaces a pending one. A pid
  is the child's place in the order of forks and is not used again. `own`, who armed the
  alarm, who forked last and what was signalled are not in the source (ghost).

  Proved: as long as no call forks while another is between its own `fork` and its last
  read of `c_pid`, and the alarm goes off only while the call that armed it waits and no
  other has forked since, each call waits for its own child, only a failed `fork` is
  reported as one, and only the armer's own child is signalled (`orderly_isolated`). Other
  orders break each of the three (`calls_that_share_c_pid_disturb_each_other`).
-/

import DiyDdmin.Runner.Fork
import DiyDdmin.Range.Code

namespace DiyDdmin.Runner.Threads

open Systems
open Range (Worker)
open Tester (EType)

inductive Life where
  | running
  /-- Terminated, not waited for yet. -/
  | zombie
  | reaped
  deriving DecidableEq

/-- Where a worker is in `runner`; `own` is the child that its own `fork` made, if any. -/
inductive Call where
  | outside
  /-- `if (c_pid < 0)` -/
  | checking (own : Option Nat)
  /-- `if (c_pid == 0)` -/
  | branching (own : Option Nat)
  /-- Taken for the child: the tool itself would go on to `execl`. -/
  | inChild (own : Option Nat)
  /-- `alarm(3)` -/
  | arming (own : Option Nat)
  /-- The argument `c_pid` of `waitpid` is read. -/
  | reading (own : Option Nat)
  | waiting (own : Option Nat) (arg : CPid)
  | returned (own : Option Nat) (type : EType)
  deriving DecidableEq

/-- One delivery of SIGALRM: for whom the alarm was set, what `c_pid` held, and whether it
    named a child not waited for yet. -/
structure Signal where
  armer : Option Nat
  target : CPid
  unreaped : Bool

structure St where
  cPid : CPid
  children : List Life
  calls : Worker → Call
  alarm : Option (Worker × Option Nat)
  forker : Option Worker
  signals : List Signal

inductive Event where
  | fork (th : Worker) (done : Bool)
  | check (th : Worker)
  | branch (th : Worker)
  | arm (th : Worker)
  | read (th : Worker)
  /-- `waitpid` returns; `any` is the child it takes where its argument leaves that open. -/
  | wait (th : Worker) (timedOut : Bool) (any : Nat)
  | leave (th : Worker)
  /-- The program exits. -/
  | exit (j : Nat)
  /-- `kill_child` -/
  | sigalrm

def Life.terminate : Life → Life
  | .running => .zombie
  | l => l

def St.goto (s : St) (th : Worker) (c : Call) : St := { s with calls := Function.update s.calls th c }

/-- The child that `waitpid(arg)` takes, if it takes one; `none` while it blocks. -/
def waited (children : List Life) (any : Nat) : CPid → Option (Option Nat)
  | .pid j => match children[j]? with
    | some .running => none
    | some .zombie => some (some j)
    | _ => some none
  | _ => if children[any]? = some .zombie then some (some any) else if children.all (· = .reaped) then some none else none

def reap (children : List Life) : Option Nat → List Life
  | some j => children.set j .reaped
  | none => children

/-- After `kill(c_pid, SIGKILL)`: one child, or all of them. -/
def signalled (children : List Life) : CPid → List Life
  | .pid j => children.modify j Life.terminate
  | _ => children.map Life.terminate

def unreaped (children : List Life) : CPid → Bool
  | .pid j => children[j]? = some .running || children[j]? = some .zombie
  | _ => false

def step (e : Event) (s : St) : Option St :=
  match e with
  | .fork th done => match s.calls th with
    | .outside =>
      if done then
        let j := s.children.length
        some { s.goto th (.checking (some j)) with cPid := .pid j, children := s.children ++ [.running], forker := some th }
      else some { s.goto th (.checking none) with cPid := .failed, forker := some th }
    | _ => none
  | .check th => match s.calls th with
    | .checking own => some (s.goto th (if s.cPid = .failed then .returned own .eFork else .branching own))
    | _ => none
  | .branch th => match s.calls th with
    | .branching own => some (s.goto th (if s.cPid = .zero then .inChild own else .arming own))
    | _ => none
  | .arm th => match s.calls th with
    | .arming own => some { s.goto th (.reading own) with alarm := some (th, own) }
    | _ => none
  | .read th => match s.calls th with
    | .reading own => some (s.goto th (.waiting own s.cPid))
    | _ => none
  | .wait th timedOut any => match s.calls th with
    | .waiting own arg => (waited s.children any arg).map fun r =>
        { s.goto th (.returned own (if timedOut then .eTimeoutKill else .noError)) with children := reap s.children r }
    | _ => none
  | .leave th => match s.calls th with
    | .returned _ _ => some (s.goto th .outside)
    | _ => none
  | .exit j => if s.children[j]? = some .running then some { s with children := s.children.modify j Life.terminate } else none
  | .sigalrm => match s.alarm with
    | some (_, own) => some { s with
        alarm := none
        children := signalled s.children s.cPid
        signals := s.signals ++ [⟨own, s.cPid, unreaped s.children s.cPid⟩] }
    | none => none

def start : St := ⟨.zero, [], fun _ => .outside, none, none, []⟩

/-- The runs of which every step meets `C`. -/
def system (C : St → Event → Bool) : System St := ⟨(· = start), fun s t => ∃ e, C s e = true ∧ step e s = some t⟩

/-! ## What each call is entitled to -/

structure Isolated (s : St) : Prop where
  /-- A call that reports no failed `fork` has waited for its own child. -/
  waited : ∀ th own type, s.calls th = .returned own type → type ≠ .eFork →
    ∃ j, own = some j ∧ (s.children[j]? = some .zombie ∨ s.children[j]? = some .reaped)
  /-- A call whose own `fork` succeeded does not report a failed one. -/
  forked : ∀ th j type, s.calls th = .returned (some j) type → type ≠ .eFork
  /-- Only the child of the call that armed the alarm is signalled, and not after it was
      waited for. -/
  signals : ∀ g ∈ s.signals, ∃ j, g.armer = some j ∧ g.target = .pid j ∧ g.unreaped = true

/-- Between the call's own `fork` and its last read of `c_pid`. -/
def Call.reads : Call → Bool
  | .checking _ => true
  | .branching _ => true
  | .arming _ => true
  | .reading _ => true
  | _ => false

/-- Between `alarm(3)` and the return of `waitpid`. -/
def Call.armed (own : Option Nat) : Call → Bool
  | .reading o => o = own
  | .waiting o _ => o = own
  | _ => false

/-- The order of steps in which the calls stay apart. -/
def orderly (s : St) : Event → Bool
  | .fork _ _ => decide (∀ th, (s.calls th).reads = false)
  | .sigalrm => match s.alarm with
    | some (th, own) => s.forker = some th && (s.calls th).armed own
    | none => true
  | _ => true

/-! ## The invariant -/

def Unreaped (l : List Life) (j : Nat) : Prop := l[j]? = some .running ∨ l[j]? = some .zombie

def Terminated (l : List Life) (j : Nat) : Prop := l[j]? = some .zombie ∨ l[j]? = some .reaped

/-- What holds of the call of worker `th`. -/
def CallOk (forker : Option Worker) (cPid : CPid) (l : List Life) (th : Worker) : Call → Prop
  | .outside => True
  | .checking own => forker = some th ∧
      ((own = none ∧ cPid = .failed) ∨ ∃ j, own = some j ∧ cPid = .pid j ∧ Unreaped l j)
  | .branching own => forker = some th ∧ ∃ j, own = some j ∧ cPid = .pid j ∧ Unreaped l j
  | .arming own => forker = some th ∧ ∃ j, own = some j ∧ cPid = .pid j ∧ Unreaped l j
  | .reading own => forker = some th ∧ ∃ j, own = some j ∧ cPid = .pid j ∧ Unreaped l j
  | .waiting own arg => ∃ j, own = some j ∧ arg = .pid j ∧ (forker = some th → cPid = .pid j) ∧ Unreaped l j
  | .returned own type => (own = none ∧ type = .eFork) ∨ ∃ j, own = some j ∧ type ≠ .eFork ∧ Terminated l j
  | .inChild _ => False

/-- The child of a call that has not returned. -/
def Call.child : Call → Option Nat
  | .checking own => own
  | .branching own => own
  | .arming own => own
  | .reading own => own
  | .waiting own _ => own
  | _ => none

structure Inv (s : St) : Prop where
  calls : ∀ th, CallOk s.forker s.cPid s.children th (s.calls th)
  apart : ∀ th th' j, (s.calls th).child = some j → (s.calls th').child = some j → th = th'
  signals : ∀ g ∈ s.signals, ∃ j, g.armer = some j ∧ g.target = .pid j ∧ g.unreaped = true

theorem Inv.call {s : St} {th : Worker} {k : Call} (h : Inv s) (hc : s.calls th = k) :
    CallOk s.forker s.cPid s.children th k := by
  rw [← hc]
  exact h.calls th

theorem Inv.isolated {s : St} (h : Inv s) : Isolated s := by
  refine ⟨?_, ?_, h.signals⟩
  · intro th own type hc ht
    obtain ⟨j, hj, -, hterm⟩ := (h.call hc).resolve_left fun e => ht e.2
    exact ⟨j, hj, hterm⟩
  · intro th j type hc
    obtain ⟨k, -, hk, -⟩ := (h.call hc).resolve_left fun e => nomatch e.1
    exact hk

/-- A call keeps what holds of it while its own child is not waited for, and while no other
    call forks until it has read `c_pid`. -/
theorem CallOk.keep {f f' : Option Worker} {c c' : CPid} {l l' : List Life} {th : Worker} {k : Call} (h : CallOk f c l th k)
    (hlast : f' = some th ∨ k.reads = true → f' = f ∧ c' = c) (hun : ∀ j, k.child = some j → Unreaped l j → Unreaped l' j)
    (hterm : ∀ j, Terminated l j → Terminated l' j) : CallOk f' c' l' th k := by
  cases k with
  | outside => trivial
  | inChild own => exact h.elim
  | returned own type => exact h.imp id fun ⟨j, h1, h2, h3⟩ => ⟨j, h1, h2, hterm j h3⟩
  | waiting own arg =>
    obtain ⟨j, rfl, h2, h3, h4⟩ := h
    refine ⟨j, rfl, h2, ?_, hun j rfl h4⟩
    intro hf
    obtain ⟨e1, e2⟩ := hlast (Or.inl hf)
    rw [e2]; exact h3 (e1 ▸ hf)
  | checking own =>
    obtain ⟨rfl, rfl⟩ := hlast (Or.inr rfl)
    exact ⟨h.1, h.2.imp id fun ⟨j, h1, h2, h3⟩ => ⟨j, h1, h2, hun j h1 h3⟩⟩
  | branching own =>
    obtain ⟨rfl, rfl⟩ := hlast (Or.inr rfl)
    obtain ⟨h0, j, h1, h2, h3⟩ := h
    exact ⟨h0, j, h1, h2, hun j h1 h3⟩
  | arming own =>
    obtain ⟨rfl, rfl⟩ := hlast (Or.inr rfl)
    obtain ⟨h0, j, h1, h2, h3⟩ := h
    exact ⟨h0, j, h1, h2, hun j h1 h3⟩
  | reading own =>
    obtain ⟨rfl, rfl⟩ := hlast (Or.inr rfl)
    obtain ⟨h0, j, h1, h2, h3⟩ := h
    exact ⟨h0, j, h1, h2, hun j h1 h3⟩

/-- A child in use has a place in the table. -/
theorem CallOk.unreaped {f : Option Worker} {c : CPid} {l : List Life} {th : Worker} {k : Call} {j : Nat} (h : CallOk f c l th k)
    (hj : k.child = some j) : Unreaped l j := by
  cases k with
  | checking own =>
    rcases h.2 with ⟨rfl, -⟩ | ⟨i, rfl, -, hu⟩
    · cases hj
    · cases hj; exact hu
  | branching own => obtain ⟨-, i, rfl, -, hu⟩ := h; cases hj; exact hu
  | arming own => obtain ⟨-, i, rfl, -, hu⟩ := h; cases hj; exact hu
  | reading own => obtain ⟨-, i, rfl, -, hu⟩ := h; cases hj; exact hu
  | waiting own arg => obtain ⟨i, rfl, -, -, hu⟩ := h; cases hj; exact hu
  | _ => cases hj

theorem Unreaped.lt {l : List Life} {j : Nat} (h : Unreaped l j) : j < l.length := by
  rcases h with h | h <;> exact (List.getElem?_eq_some_iff.mp h).1

/-- One worker goes on to `c`; the others keep what holds of them. -/
theorem Inv.update {s t : St} {th : Worker} {c : Call} (h : Inv s) (hcalls : t.calls = Function.update s.calls th c)
    (hok : CallOk t.forker t.cPid t.children th c)
    (hlast : ∀ th', th' ≠ th → t.forker = some th' ∨ (s.calls th').reads = true → t.forker = s.forker ∧ t.cPid = s.cPid)
    (hun : ∀ th' j, th' ≠ th → (s.calls th').child = some j → Unreaped s.children j → Unreaped t.children j)
    (hterm : ∀ j, Terminated s.children j → Terminated t.children j)
    (hchild : ∀ j, c.child = some j → (s.calls th).child = some j ∨ s.children.length ≤ j)
    (hsig : t.signals = s.signals) : Inv t := by
  refine ⟨?_, ?_, hsig ▸ h.signals⟩
  · intro th'
    rw [hcalls]
    by_cases hne : th' = th
    · rw [hne, Function.update_self]; exact hok
    · rw [Function.update_of_ne hne]
      exact (h.calls th').keep (hlast th' hne) (fun j => hun th' j hne) hterm
  · intro i k j hi hk
    rw [hcalls] at hi hk
    -- a child of the worker that moved is its own already, or new
    have own : ∀ {k}, k ≠ th → c.child = some j → (s.calls k).child = some j → k = th := fun hne hc hk => by
      rcases hchild j hc with hj | hj
      · exact h.apart _ _ j hk hj
      · exact absurd ((h.calls _).unreaped hk).lt (by omega)
    by_cases h1 : i = th <;> by_cases h2 : k = th
    · rw [h1, h2]
    · rw [h1, Function.update_self] at hi
      rw [Function.update_of_ne h2] at hk
      exact absurd (own h2 hi hk) h2
    · rw [h2, Function.update_self] at hk
      rw [Function.update_of_ne h1] at hi
      exact absurd (own h1 hk hi) h1
    · rw [Function.update_of_ne h1] at hi
      rw [Function.update_of_ne h2] at hk
      exact h.apart i k j hi hk

/-! ## Steps -/

/-- What was not waited for stays so, and what has terminated stays so. -/
def Ages (l l' : List Life) : Prop := ∀ j, (Unreaped l j → Unreaped l' j) ∧ (Terminated l j → Terminated l' j)

theorem ages_append (l : List Life) (x : Life) : Ages l (l ++ [x]) := fun j => by
  have keep : ∀ {y}, l[j]? = some y → (l ++ [x])[j]? = some y := fun h => by
    rw [List.getElem?_append_left (List.getElem?_eq_some_iff.mp h).1, h]
  exact ⟨fun h => h.imp keep keep, fun h => h.imp keep keep⟩

theorem ages_modify (l : List Life) (i : Nat) : Ages l (l.modify i Life.terminate) := fun j => by
  unfold Unreaped Terminated
  rw [List.getElem?_modify]
  refine ⟨?_, ?_⟩ <;>
  · rintro (h | h) <;> rw [h] <;> by_cases e : i = j <;> simp [e, Life.terminate]

theorem Inv.ages {s t : St} (h : Inv s) (hc : t.calls = s.calls) (hf : t.forker = s.forker) (hp : t.cPid = s.cPid)
    (ha : Ages s.children t.children) (hsig : ∀ g ∈ t.signals, ∃ j, g.armer = some j ∧ g.target = .pid j ∧ g.unreaped = true) :
    Inv t := by
  refine ⟨?_, by rw [hc]; exact h.apart, hsig⟩
  intro th
  rw [hc, hf, hp]
  exact (h.calls th).keep (fun _ => ⟨rfl, rfl⟩) (fun j _ => (ha j).1) fun j => (ha j).2

/-- A step that changes no child and not `c_pid`. -/
theorem Inv.goto {s t : St} {th : Worker} {c : Call} (h : Inv s) (hcalls : t.calls = Function.update s.calls th c)
    (hf : t.forker = s.forker) (hp : t.cPid = s.cPid) (hl : t.children = s.children) (hsig : t.signals = s.signals)
    (hok : CallOk s.forker s.cPid s.children th c) (hchild : ∀ j, c.child = some j → (s.calls th).child = some j) : Inv t :=
  h.update hcalls (by rw [hf, hp, hl]; exact hok) (fun _ _ _ => ⟨hf, hp⟩) (fun _ _ _ _ hu => hl ▸ hu) (fun _ ht => hl ▸ ht)
    (fun j hj => Or.inl (hchild j hj)) hsig

/-- No call reads `c_pid` any more when the next one forks and sets it. -/
theorem inv_fork {s t : St} {th : Worker} {done : Bool} (h : Inv s) (hno : ∀ th, (s.calls th).reads = false)
    (hst : step (.fork th done) s = some t) : Inv t := by
  have hlast : ∀ {f : Option Worker} {c : CPid} th', th' ≠ th → some th = some th' ∨ (s.calls th').reads = true →
      some th = f ∧ c = s.cPid := by
    intro f c th' hne hr
    rcases hr with e | e
    · exact absurd (Option.some.inj e).symm hne
    · rw [hno th'] at e; cases e
  simp only [step] at hst
  split at hst
  · split at hst <;> cases hst
    · have hnew : (s.children ++ [Life.running])[s.children.length]? = some .running := by simp
      exact h.update rfl ⟨rfl, Or.inr ⟨_, rfl, rfl, Or.inl hnew⟩⟩ hlast (fun _ j _ _ => (ages_append _ _ j).1)
        (fun j => (ages_append _ _ j).2) (fun j hj => Or.inr (Option.some.inj hj).le) rfl
    · exact h.update rfl ⟨rfl, Or.inl ⟨rfl, rfl⟩⟩ hlast (fun _ _ _ _ => id) (fun _ => id) nofun rfl
  · cases hst

/-- The call of `waitpid` takes the call's own child. -/
theorem inv_wait {s : St} {th : Worker} {own : Option Nat} {arg : CPid} {any : Nat} {r : Option Nat} {type : EType} (h : Inv s)
    (hc : s.calls th = .waiting own arg) (hr : waited s.children any arg = some r) (ht : type ≠ .eFork) :
    Inv { s.goto th (.returned own type) with children := reap s.children r } := by
  obtain ⟨j, rfl, rfl, -, hu⟩ := h.call hc
  -- the child runs no more, so `waitpid` has taken it
  obtain ⟨hz, rfl⟩ : s.children[j]? = some .zombie ∧ r = some j := by
    rcases hu with e | e <;> simp only [waited, e] at hr <;> cases hr
    exact ⟨e, rfl⟩
  have hself : (s.children.set j .reaped)[j]? = some .reaped := List.getElem?_set_self (Or.inr hz |> Unreaped.lt)
  refine h.update rfl (Or.inr ⟨j, rfl, ht, Or.inr hself⟩) (fun _ _ _ => ⟨rfl, rfl⟩) ?_ ?_ nofun rfl
  · intro th' i hne hi hui
    have hij : j ≠ i := fun e => hne (h.apart th' th i hi (by rw [hc, e]; rfl))
    simp only [Unreaped, reap, List.getElem?_set_ne hij]
    exact hui
  · intro i hti
    by_cases hij : j = i
    · rw [← hij]; exact Or.inr hself
    · simp only [Terminated, reap, List.getElem?_set_ne hij]
      exact hti

/-- The call that armed the alarm forked last, so `c_pid` still names its child. -/
theorem CallOk.armed {c : CPid} {l : List Life} {th : Worker} {own : Option Nat} {k : Call} (h : CallOk (some th) c l th k)
    (ha : k.armed own = true) : ∃ j, own = some j ∧ c = .pid j ∧ Unreaped l j := by
  cases k with
  | reading o =>
    obtain ⟨-, j, rfl, hp, hu⟩ := h
    obtain rfl : some j = own := of_decide_eq_true ha
    exact ⟨j, rfl, hp, hu⟩
  | waiting o arg =>
    obtain ⟨j, rfl, -, hp, hu⟩ := h
    obtain rfl : some j = own := of_decide_eq_true ha
    exact ⟨j, rfl, hp rfl, hu⟩
  | _ => cases ha

theorem inv_sigalrm {s t : St} (h : Inv s) (ho : orderly s .sigalrm = true) (hst : step .sigalrm s = some t) : Inv t := by
  simp only [step, orderly] at hst ho
  cases hal : s.alarm with
  | none => rw [hal] at hst; cases hst
  | some a =>
    obtain ⟨th, own⟩ := a
    rw [hal] at hst ho
    simp only [Bool.and_eq_true, decide_eq_true_eq] at ho
    obtain ⟨hf, harmed⟩ := ho
    have hok := h.calls th
    rw [hf] at hok
    obtain ⟨j, rfl, hp, hu⟩ := hok.armed harmed
    cases hst
    refine h.ages rfl rfl rfl (by rw [hp]; exact ages_modify _ _) ?_
    intro g hg
    rcases List.mem_append.mp hg with hg | hg
    · exact h.signals g hg
    · rw [List.mem_singleton.mp hg]
      refine ⟨j, rfl, hp, ?_⟩
      rw [hp]
      rcases hu with e | e <;> simp [unreaped, e]

/-- Step lemma. -/
theorem step_inv {s t : St} {e : Event} (h : Inv s) (ho : orderly s e = true) (hst : step e s = some t) : Inv t := by
  cases e with
  | fork th done => exact inv_fork h (of_decide_eq_true ho) hst
  | check th =>
    simp only [step] at hst
    split at hst <;> cases hst
    rename_i own hc
    obtain ⟨hf, ⟨rfl, hp⟩ | ⟨j, rfl, hp, hu⟩⟩ := h.call hc
    · rw [if_pos hp]
      exact h.goto rfl rfl rfl rfl rfl (Or.inl ⟨rfl, rfl⟩) nofun
    · rw [if_neg (by rw [hp]; nofun)]
      exact h.goto rfl rfl rfl rfl rfl ⟨hf, j, rfl, hp, hu⟩ fun i hi => by rw [hc]; exact hi
  | branch th =>
    simp only [step] at hst
    split at hst <;> cases hst
    rename_i own hc
    obtain ⟨hf, j, rfl, hp, hu⟩ := h.call hc
    rw [if_neg (by rw [hp]; nofun)]
    exact h.goto rfl rfl rfl rfl rfl ⟨hf, j, rfl, hp, hu⟩ fun i hi => by rw [hc]; exact hi
  | arm th =>
    simp only [step] at hst
    split at hst <;> cases hst
    rename_i own hc
    have hok := h.call hc
    exact h.goto rfl rfl rfl rfl rfl hok fun i hi => by rw [hc]; exact hi
  | read th =>
    simp only [step] at hst
    split at hst <;> cases hst
    rename_i own hc
    obtain ⟨hf, j, rfl, hp, hu⟩ := h.call hc
    exact h.goto rfl rfl rfl rfl rfl ⟨j, rfl, hp, fun _ => hp, hu⟩ fun i hi => by rw [hc]; exact hi
  | wait th timedOut any =>
    simp only [step] at hst
    split at hst
    · rename_i own arg hc
      obtain ⟨r, hr, rfl⟩ := Option.map_eq_some_iff.mp hst
      have htype : (if timedOut then EType.eTimeoutKill else .noError) ≠ .eFork := by split <;> nofun
      exact inv_wait h hc hr htype
    · cases hst
  | leave th =>
    simp only [step] at hst
    split at hst <;> cases hst
    exact h.goto rfl rfl rfl rfl rfl trivial nofun
  | exit j =>
    simp only [step, Option.ite_none_right_eq_some, Option.some.injEq] at hst
    obtain ⟨-, rfl⟩ := hst
    exact h.ages rfl rfl rfl (ages_modify _ _) h.signals
  | sigalrm => exact inv_sigalrm h ho hst

/-- Run lemma. -/
theorem reach_inv {s : St} (hs : (system orderly).Reach s) : Inv s := by
  refine System.Reach.invariant (T := system orderly) (P := Inv) ?_ (fun s t _ hi ⟨e, ho, hst⟩ => step_inv hi ho hst) hs
  intro s h
  subst h
  exact ⟨fun th => trivial, nofun, nofun⟩

/-- In a run whose every step is orderly each call waits for its own child and for nothing
    else, and the alarm reaches only the child it was set for. -/
theorem orderly_isolated {s : St} (hs : (system orderly).Reach s) : Isolated s := (reach_inv hs).isolated

/-- Two workers' calls one after the other, the first of them timed out. -/
theorem orderly_isolated_two :
    ∃ s, (system orderly).Reach s ∧ s.calls 0 = .returned (some 0) .eTimeoutKill ∧ s.calls 1 = .returned (some 1) .noError ∧
      s.signals.length = 1 ∧ Isolated s := by
  have hrun : (System.follow (fun e s => if orderly s e then step e s else none)
      [.fork 0 true, .check 0, .branch 0, .arm 0, .read 0, .sigalrm, .fork 1 true, .check 1, .wait 0 true 0, .branch 1, .arm 1,
        .read 1, .exit 1, .wait 1 false 0] start).map (fun s => (s.calls 0, s.calls 1, s.signals.length)) =
          some (.returned (some 0) .eTimeoutKill, .returned (some 1) .noError, 1) := by
    decide +kernel
  obtain ⟨s, hs, he⟩ := Option.map_eq_some_iff.mp hrun
  simp only [Prod.mk.injEq] at he
  have hr : (system orderly).Reach s := System.Reach.follow (T := system orderly)
    (fun e _ s t h => ⟨e, (Option.ite_none_right_eq_some.mp h).1, (Option.ite_none_right_eq_some.mp h).2⟩) (.init rfl) hs
  exact ⟨s, hr, he.1, he.2.1, he.2.2, orderly_isolated hr⟩

/-- In other orders a call waits for another worker's child while its own runs on, reports
    that its `fork` failed where another's did, and has its alarm sent to a child that was
    waited for already. -/
theorem calls_that_share_c_pid_disturb_each_other :
    (∃ s, (system fun _ _ => true).Reach s ∧ s.calls 0 = .returned (some 0) .noError ∧ s.children[0]? = some .running ∧
      ¬ Isolated s) ∧
    (∃ s, (system fun _ _ => true).Reach s ∧ s.calls 0 = .returned (some 0) .eFork ∧ ¬ Isolated s) ∧
    ∃ s, (system fun _ _ => true).Reach s ∧ s.signals = [⟨some 0, .pid 0, false⟩] ∧ ¬ Isolated s := by
  have reach : ∀ {es s}, System.follow step es start = some s → (system fun _ _ => true).Reach s := fun h =>
    System.Reach.follow (T := system fun _ _ => true) (fun e _ _ _ h => ⟨e, rfl, h⟩) (.init rfl) h
  refine ⟨?_, ?_, ?_⟩
  · have hrun : (System.follow step [.fork 0 true, .fork 1 true, .check 0, .branch 0, .arm 0, .read 0, .exit 1, .wait 0 false 0]
        start).map (fun s => (s.calls 0, s.children[0]?)) = some (.returned (some 0) .noError, some .running) := by
      decide +kernel
    obtain ⟨s, hs, he⟩ := Option.map_eq_some_iff.mp hrun
    obtain ⟨hc, hrunning⟩ := Prod.mk.inj he
    refine ⟨s, reach hs, hc, hrunning, ?_⟩
    intro h
    obtain ⟨j, hj, hterm⟩ := h.waited 0 _ _ hc nofun
    rw [← Option.some.inj hj, hrunning] at hterm
    rcases hterm with h | h <;> cases h
  · have hrun : (System.follow step [.fork 0 true, .fork 1 false, .check 0] start).map (fun s => s.calls 0) =
        some (.returned (some 0) .eFork) := by
      decide +kernel
    obtain ⟨s, hs, hc⟩ := Option.map_eq_some_iff.mp hrun
    exact ⟨s, reach hs, hc, fun h => h.forked 0 0 _ hc rfl⟩
  · have hrun : (System.follow step [.fork 0 true, .check 0, .branch 0, .arm 0, .read 0, .exit 0, .wait 0 false 0, .sigalrm]
        start).map St.signals = some [⟨some 0, .pid 0, false⟩] := by
      rfl
    obtain ⟨s, hs, he⟩ := Option.map_eq_some_iff.mp hrun
    refine ⟨s, reach hs, he, ?_⟩
    intro h
    obtain ⟨-, -, -, hun⟩ := h.signals _ (by rw [he]; exact List.mem_singleton_self _)
    cases hun

end DiyDdmin.Runner.Threads
