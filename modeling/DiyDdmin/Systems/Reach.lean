/-
  DiyDdmin.Systems.Reach — transition systems: what a run reaches, what an invariant
  gives, the runs whose steps meet a condition, when one system refines another, and when a
  deterministic one halts.

  Nothing here is about a particular program. `System` is a start predicate and a step
  relation; `Machine` is a deterministic one, a partial `next` whose `none` is a halt.
-/

import Mathlib.Logic.Relation
import Mathlib.Order.WellFounded

namespace DiyDdmin.Systems

open Relation (ReflTransGen)

structure System (σ : Type*) where
  start : σ → Prop
  step : σ → σ → Prop

namespace System

variable {σ τ : Type*} (T : System σ) (A : System τ)

inductive Reach : σ → Prop
  | init {s : σ} : T.start s → Reach s
  | step {s t : σ} : Reach s → T.step s t → Reach t

variable {T A}

theorem Reach.steps {s t : σ} (h : T.Reach s) (hs : ReflTransGen T.step s t) : T.Reach t := by
  induction hs with
  | refl => exact h
  | tail _ hst ih => exact .step ih hst

/-- What holds at the start and is kept by every step from a reachable state holds of
    every reachable state. -/
theorem Reach.invariant {P : σ → Prop} (h0 : ∀ s, T.start s → P s)
    (hs : ∀ s t, T.Reach s → P s → T.step s t → P t) {s : σ} (h : T.Reach s) : P s := by
  induction h with
  | init h => exact h0 _ h
  | step hr hst ih => exact hs _ _ hr ih hst

/-- Where a potential pays for what a step adds to a count, the count stays within what was
    there at the start. -/
theorem Reach.amortized (count potential : σ → Nat) {B : Nat} (h0 : ∀ s, T.start s → count s + potential s ≤ B)
    (hs : ∀ s t, T.Reach s → T.step s t → count t + potential t ≤ count s + potential s) {s : σ} (h : T.Reach s) :
    count s ≤ B := by
  have hle : count s + potential s ≤ B := by
    induction h with
    | init h => exact h0 _ h
    | step hr hst ih => exact (hs _ _ hr hst).trans ih
  exact (Nat.le_add_right _ _).trans hle

/-- The runs of `T` whose steps all meet `C`. -/
def restrict (T : System σ) (C : σ → σ → Prop) : System σ := ⟨T.start, fun s t => C s t ∧ T.step s t⟩

theorem Reach.of_restrict {C : σ → σ → Prop} {s : σ} (h : (T.restrict C).Reach s) : T.Reach s := by
  induction h with
  | init h => exact .init h
  | step _ hst ih => exact .step ih hst.2

theorem Reach.restrict {C : σ → σ → Prop} (hC : ∀ s t, T.Reach s → T.step s t → C s t) {s : σ} (h : T.Reach s) :
    (T.restrict C).Reach s := by
  induction h with
  | init h => exact .init h
  | step hr hst ih => exact .step ih ⟨hC _ _ hr hst, hst⟩

/-- `R` is a forward simulation: every start of `T` is matched by a start of `A`, every
    step of `T` by zero or more steps of `A`. -/
structure Refines (T : System σ) (A : System τ) (R : σ → τ → Prop) : Prop where
  start : ∀ s, T.start s → ∃ a, A.start a ∧ R s a
  step : ∀ s t a, T.Reach s → A.Reach a → R s a → T.step s t → ∃ b, ReflTransGen A.step a b ∧ R t b

theorem Refines.reach {R : σ → τ → Prop} (h : Refines T A R) {s : σ} (hs : T.Reach s) :
    ∃ a, A.Reach a ∧ R s a := by
  induction hs with
  | init h0 =>
    obtain ⟨a, ha, hR⟩ := h.start _ h0
    exact ⟨a, .init ha, hR⟩
  | step hr hst ih =>
    obtain ⟨a, ha, hR⟩ := ih
    obtain ⟨b, hab, hb⟩ := h.step _ _ a hr ha hR hst
    exact ⟨b, ha.steps hab, hb⟩

/-- Some run from a start goes on for ever. -/
def Endless (T : System σ) : Prop := ∃ f : Nat → σ, T.start (f 0) ∧ ∀ i, T.step (f i) (f (i + 1))

/-- Where every step from a reachable state lowers a measure, every run ends. -/
theorem not_endless {ρ : Type*} {r : ρ → ρ → Prop} (hwf : WellFounded r) (m : σ → ρ)
    (hs : ∀ s t, T.Reach s → T.step s t → r (m t) (m s)) : ¬ T.Endless := by
  rintro ⟨f, h0, hf⟩
  have hreach : ∀ i, T.Reach (f i) := fun i => by
    induction i with
    | zero => exact .init h0
    | succ i ih => exact .step ih (hf i)
  have no : ∀ x i, m (f i) = x → False := fun x => by
    induction x using hwf.induction with
    | h x ih => exact fun i hi => ih _ (hi ▸ hs _ _ (hreach i) (hf i)) (i + 1) rfl
  exact no _ 0 rfl

/-- Where every step lowers a measure, and from every state with `P` some step keeps `P` or
    gets to `Q`, some run gets to `Q`. -/
theorem Reach.leads {ρ : Type*} {r : ρ → ρ → Prop} (hwf : WellFounded r) (m : σ → ρ)
    (hs : ∀ s t, T.Reach s → T.step s t → r (m t) (m s)) {P Q : σ → Prop}
    (hmove : ∀ s, T.Reach s → P s → ∃ t, T.step s t ∧ (P t ∨ Q t)) {s : σ} (h : T.Reach s) (hP : P s) :
    ∃ t, T.Reach t ∧ Q t := by
  induction hx : m s using hwf.induction generalizing s with
  | h x ih =>
    obtain ⟨t, hst, hP | hQ⟩ := hmove s h hP
    · exact ih (m t) (hx ▸ hs s t h hst) (h.step hst) hP rfl
    · exact ⟨t, h.step hst, hQ⟩

/-- Where no run goes on for ever, some run cannot go on. -/
theorem exists_final (h : ¬ T.Endless) {s : σ} (h0 : T.start s) : ∃ t, T.Reach t ∧ ∀ u, ¬ T.step t u := by
  by_contra hno
  have more : ∀ t, T.Reach t → ∃ u, T.step t u := fun t ht => by
    by_contra hfinal
    exact hno ⟨t, ht, fun u hu => hfinal ⟨u, hu⟩⟩
  choose g hg using more
  let f : Nat → { t // T.Reach t } := Nat.rec ⟨s, .init h0⟩ fun _ t => ⟨g t.1 t.2, t.2.step (hg t.1 t.2)⟩
  exact h ⟨fun i => (f i).1, h0, fun i => hg (f i).1 (f i).2⟩

/-- Where a schedule leads, `step e s` being the step of event `e`. -/
def follow {ε : Type*} (step : ε → σ → Option σ) : List ε → σ → Option σ
  | [], s => some s
  | e :: es, s => (step e s).bind (follow step es)

theorem Reach.follow {ε : Type*} {step : ε → σ → Option σ} {es : List ε} (hstep : ∀ e ∈ es, ∀ s t, step e s = some t → T.step s t)
    {s t : σ} (hs : T.Reach s) (h : System.follow step es s = some t) : T.Reach t := by
  induction es generalizing s with
  | nil => cases h; exact hs
  | cons e es ih =>
    obtain ⟨u, hu, h⟩ := Option.bind_eq_some_iff.mp h
    exact ih (fun e he => hstep e (List.mem_cons_of_mem _ he)) (hs.step (hstep e List.mem_cons_self s u hu)) h

end System

/-- A deterministic system: `next s = none` when `s` is final. -/
structure Machine (σ : Type*) where
  start : σ
  next : σ → Option σ

namespace Machine

variable {σ : Type*} (M : Machine σ)

def toSystem : System σ := ⟨(· = M.start), fun s t => M.next s = some t⟩

def Reach : σ → Prop := M.toSystem.Reach

/-- The machine's run ends in `t`. -/
def Ends (t : σ) : Prop := M.Reach t ∧ M.next t = none

variable {M}

theorem Reach.init : M.Reach M.start := System.Reach.init rfl

theorem Reach.next {s t : σ} (h : M.Reach s) (hn : M.next s = some t) : M.Reach t :=
  System.Reach.step h hn

/-- The state after `n` steps, or the final one if there are fewer. -/
def run (M : Machine σ) : Nat → σ
  | 0 => M.start
  | n + 1 => (M.next (M.run n)).getD (M.run n)

theorem run_reach (n : Nat) : M.Reach (M.run n) := by
  induction n with
  | zero => exact .init
  | succ n ih =>
    rw [run]
    cases h : M.next (M.run n) with
    | none => exact ih
    | some t => exact ih.next h

theorem Reach.exists_run {s : σ} (h : M.Reach s) : ∃ n, M.run n = s := by
  refine System.Reach.invariant (T := M.toSystem) (P := fun s => ∃ n, M.run n = s) (fun s e => ⟨0, e.symm⟩) ?_ h
  rintro s t - ⟨n, rfl⟩ hn
  refine ⟨n + 1, ?_⟩
  change M.next (M.run n) = some t at hn
  rw [run, hn, Option.getD_some]

theorem run_final {n : Nat} (h : M.next (M.run n) = none) (k : Nat) : M.run (n + k) = M.run n := by
  induction k with
  | zero => rfl
  | succ k ih => rw [← Nat.add_assoc, run, ih, h, Option.getD_none]

/-- A machine that stops after `n` steps reaches nothing else. -/
theorem Reach.exists_run_le {n : Nat} (hn : M.next (M.run n) = none) {s : σ} (h : M.Reach s) : ∃ i ≤ n, M.run i = s := by
  obtain ⟨i, rfl⟩ := h.exists_run
  rcases Nat.le_total i n with hi | hi
  · exact ⟨i, hi, rfl⟩
  · obtain ⟨k, rfl⟩ := Nat.exists_eq_add_of_le hi
    exact ⟨n, Nat.le_refl n, (run_final hn k).symm⟩

/-- A run has one end. -/
theorem Ends.unique {s t : σ} (hs : M.Ends s) (ht : M.Ends t) : s = t := by
  obtain ⟨n, rfl⟩ := hs.1.exists_run
  obtain ⟨m, rfl⟩ := ht.1.exists_run
  rcases Nat.le_total n m with h | h
  · rw [← Nat.add_sub_cancel' h, run_final hs.2]
  · rw [← Nat.add_sub_cancel' h, run_final ht.2]

theorem Reach.invariant {P : σ → Prop} (h0 : P M.start)
    (hs : ∀ s t, M.Reach s → P s → M.next s = some t → P t) {s : σ} (h : M.Reach s) : P s :=
  System.Reach.invariant (T := M.toSystem) (fun _ e => e ▸ h0) hs h

/-- What the run from the next state ends in, the run from this one ends in. -/
theorem Ends.of_next {f : σ → Option σ} {s s' t : σ} (hn : f s = some s') (h : Machine.Ends ⟨s', f⟩ t) :
    Machine.Ends ⟨s, f⟩ t := by
  refine ⟨?_, h.2⟩
  have hs : Machine.Reach ⟨s, f⟩ s' := Reach.init.next hn
  refine Reach.invariant (M := ⟨s', f⟩) (P := Machine.Reach ⟨s, f⟩) hs ?_ h.1
  intro u v _ hu huv
  exact hu.next huv

/-- A run whose states are matched to a type where every step goes down ends. -/
theorem ends_of_matched {α ρ : Type*} {r : ρ → ρ → Prop} (hwf : WellFounded r) (m : α → ρ) {R : σ → α → Prop}
    (hs : ∀ s a, M.Reach s → R s a → M.next s = none ∨ ∃ t b, M.next s = some t ∧ R t b ∧ r (m b) (m a))
    {s : σ} {a : α} (hr : M.Reach s) (ha : R s a) : ∃ t, M.Ends t := by
  induction hx : m a using hwf.induction generalizing s a with
  | h x ih =>
    rcases hs s a hr ha with hn | ⟨t, b, hn, hb, hlt⟩
    · exact ⟨s, hr, hn⟩
    · exact ih _ (hx ▸ hlt) (hr.next hn) hb rfl

end Machine

end DiyDdmin.Systems
