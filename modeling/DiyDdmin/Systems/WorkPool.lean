/-
  DiyDdmin.Systems.WorkPool — a boss that deals numbered jobs to a pool of workers.

  A round: the boss queues the jobs 0 … n - 1, giving out a permit after each, and waits
  for a signal. A worker takes a permit, then the job at the front of the queue, tries it,
  and counts it off under a lock, which it holds on to for a while; the one that counts
  off the last job gives the signal. Between rounds the boss does as it likes. `taken`,
  `tried` and `signalled` are what has happened in the round (ghost).

  Proved, for any number of workers and rounds and every interleaving (`reach_inv`): a
  permit is never held with the queue empty (`granted_queue`); past the wait every job was
  taken once, in order, and tried once by the worker that took it, the one signal is used
  up, and no worker holds a permit or a job (`Complete`, `Quiet`); and while the boss
  waits without a signal, some worker can move (`waiting_progress`).
-/

import DiyDdmin.Systems.Reach
import Mathlib.Algebra.Order.BigOperators.Group.Finset
import Mathlib.Data.Fintype.BigOperators
import Mathlib.Data.List.Count

namespace DiyDdmin.Systems.WorkPool

/-- What a worker has in hand; `late` has finished its job and still holds the lock. -/
inductive Hand where
  | free
  | granted
  | untried (j : Nat)
  | tried (j : Nat)
  | late
  deriving DecidableEq, Repr

inductive Boss where
  | away
  /-- Jobs before `k` are queued and announced. -/
  | filling (n k : Nat)
  /-- Job `k` is queued, and its permit not given yet. -/
  | announcing (n k : Nat)
  | waiting (n : Nat)
  | resumed (n : Nat)
  deriving DecidableEq, Repr

structure Pool (ω : Type*) where
  boss : Boss
  hands : ω → Hand
  queue : List Nat
  permits : Nat
  pending : Int
  signals : Nat
  lock : Option ω
  taken : List (ω × Nat)
  tried : List (ω × Nat)
  signalled : Nat

def Pool.init (ω : Type*) : Pool ω := ⟨.away, fun _ => .free, [], 0, 0, 0, none, [], [], 0⟩

def Hand.isGranted : Hand → Bool
  | .granted => true
  | _ => false

/-- Holds a job not counted off yet. -/
def Hand.isBusy : Hand → Bool
  | .untried _ => true
  | .tried _ => true
  | _ => false

section

variable {ω : Type*} [DecidableEq ω]

def Pool.give (p : Pool ω) (i : ω) (h : Hand) : ω → Hand := Function.update p.hands i h

def last (p : Pool ω) : Nat := if p.pending - 1 = 0 then 1 else 0

inductive Step : Pool ω → Pool ω → Prop
  | start {p : Pool ω} (n : Nat) : p.boss = .away → 0 < n →
      Step p { p with boss := .filling n 0, pending := n, taken := [], tried := [], signalled := 0 }
  | push {p : Pool ω} {n k : Nat} : p.boss = .filling n k → k < n →
      Step p { p with boss := .announcing n k, queue := p.queue ++ [k] }
  | announce {p : Pool ω} {n k : Nat} : p.boss = .announcing n k →
      Step p { p with boss := .filling n (k + 1), permits := p.permits + 1 }
  | filled {p : Pool ω} {n : Nat} : p.boss = .filling n n → Step p { p with boss := .waiting n }
  | resume {p : Pool ω} {n : Nat} : p.boss = .waiting n → 0 < p.signals →
      Step p { p with boss := .resumed n, signals := p.signals - 1 }
  | leave {p : Pool ω} {n : Nat} : p.boss = .resumed n → Step p { p with boss := .away }
  | grant {p : Pool ω} (i : ω) : p.hands i = .free → 0 < p.permits →
      Step p { p with hands := p.give i .granted, permits := p.permits - 1 }
  | take {p : Pool ω} (i : ω) {j : Nat} {q : List Nat} : p.hands i = .granted → p.queue = j :: q →
      Step p { p with hands := p.give i (.untried j), queue := q, taken := p.taken ++ [(i, j)] }
  | attempt {p : Pool ω} (i : ω) {j : Nat} : p.hands i = .untried j →
      Step p { p with hands := p.give i (.tried j), tried := p.tried ++ [(i, j)] }
  | finish {p : Pool ω} (i : ω) {j : Nat} : p.hands i = .tried j → p.lock = none →
      Step p { p with hands := p.give i .late, lock := some i, pending := p.pending - 1, signals := p.signals + last p,
                      signalled := p.signalled + last p }
  | unlock {p : Pool ω} (i : ω) : p.hands i = .late → Step p { p with hands := p.give i .free, lock := none }

def system (ω : Type*) [DecidableEq ω] : System (Pool ω) := ⟨(· = .init ω), Step⟩

end

/-! ## Counting hands -/

section

variable {ω : Type*} [Fintype ω]

/-- Changing one summand. -/
theorem sum_update [DecidableEq ω] {α : Type*} (f : α → Nat) (h : ω → α) (i : ω) (x : α) :
    ∑ j, f (Function.update h i x j) + f (h i) = ∑ j, f (h j) + f x := by
  have h1 := Finset.add_sum_erase Finset.univ (fun j => f (Function.update h i x j)) (Finset.mem_univ i)
  have h2 := Finset.add_sum_erase Finset.univ (fun j => f (h j)) (Finset.mem_univ i)
  have h3 : ∑ j ∈ Finset.univ.erase i, f (Function.update h i x j) = ∑ j ∈ Finset.univ.erase i, f (h j) :=
    Finset.sum_congr rfl fun j hj => by rw [Function.update_of_ne (Finset.ne_of_mem_erase hj)]
  simp only [Function.update_self] at h1
  rw [← h1, ← h2, h3]
  omega

def tally (P : Hand → Bool) (h : ω → Hand) : Nat := ∑ i, (P (h i)).toNat

theorem tally_update [DecidableEq ω] (P : Hand → Bool) (h : ω → Hand) (i : ω) (x : Hand) :
    tally P (Function.update h i x) + (P (h i)).toNat = tally P h + (P x).toNat :=
  sum_update (fun x => (P x).toNat) h i x

theorem le_tally (P : Hand → Bool) (h : ω → Hand) {i : ω} (hi : P (h i) = true) : 1 ≤ tally P h := by
  have := Finset.single_le_sum (f := fun j => (P (h j)).toNat) (fun _ _ => Nat.zero_le _) (Finset.mem_univ i)
  simpa [tally, hi] using this

theorem tally_zero {P : Hand → Bool} {h : ω → Hand} (h0 : tally P h = 0) (i : ω) : P (h i) = false := by
  cases hi : P (h i) with
  | false => rfl
  | true => have := le_tally P h hi; omega

theorem exists_of_tally {P : Hand → Bool} {h : ω → Hand} (h0 : 0 < tally P h) : ∃ i, P (h i) = true := by
  by_contra hno
  have : tally P h = 0 := Finset.sum_eq_zero fun i _ => by
    cases hi : P (h i) with
    | false => rfl
    | true => exact absurd ⟨i, hi⟩ hno
  omega

end

/-! ## The invariant -/

section

variable {ω : Type*} [DecidableEq ω] [Fintype ω]

/-- In a round of `n` jobs, `pushed` of them queued so far and `mute` of these without a
    permit yet. -/
structure Running (p : Pool ω) (n pushed mute : Nat) : Prop where
  fifo : p.taken.map Prod.snd ++ p.queue = List.range pushed
  permits : p.permits + tally Hand.isGranted p.hands + mute = p.queue.length
  pending : p.pending + p.taken.length = n + tally Hand.isBusy p.hands
  signals : p.signals = p.signalled
  signalled : p.signalled = if p.pending = 0 then 1 else 0
  tried : ∀ i j, p.taken.count (i, j) = p.tried.count (i, j) + if p.hands i = .untried j then 1 else 0

/-- Nothing is left of a round but workers that have not released the lock yet. -/
structure Quiet (p : Pool ω) : Prop where
  queue : p.queue = []
  permits : p.permits = 0
  signals : p.signals = 0
  hands : ∀ i, p.hands i = .free ∨ p.hands i = .late

/-- Every job was taken once, in order, and tried by the worker that took it; one signal
    was given. -/
structure Complete (p : Pool ω) (n : Nat) : Prop where
  taken : p.taken.map Prod.snd = List.range n
  tried : p.tried.Perm p.taken
  signalled : p.signalled = 1
  pending : p.pending = 0

def InRound (p : Pool ω) : Prop :=
  match p.boss with
  | .away => Quiet p
  | .filling n k => 0 < n ∧ k ≤ n ∧ Running p n k 0
  | .announcing n k => k < n ∧ Running p n (k + 1) 1
  | .waiting n => 0 < n ∧ Running p n n 0
  | .resumed n => Quiet p ∧ Complete p n

structure Inv (p : Pool ω) : Prop where
  lock : ∀ i, p.lock = some i ↔ p.hands i = .late
  round : InRound p

section

variable {p : Pool ω} {n k m : Nat}

theorem Running.length (h : Running p n k m) : p.taken.length + p.queue.length = k := by
  have := congrArg List.length h.fifo
  simpa using this

/-- At least as many jobs are pending as workers hold. -/
theorem Running.busy_le (h : Running p n k m) (hk : k ≤ n) : (tally Hand.isBusy p.hands : Int) ≤ p.pending := by
  have := h.length
  have := h.pending
  omega

theorem Running.grant (h : Running p n k m) {i : ω} (hi : p.hands i = .free) (hp : 0 < p.permits) :
    Running { p with hands := p.give i .granted, permits := p.permits - 1 } n k m := by
  have hg := tally_update Hand.isGranted p.hands i .granted
  have hb := tally_update Hand.isBusy p.hands i .granted
  simp only [hi, Hand.isGranted, Hand.isBusy, Bool.toNat_true, Bool.toNat_false] at hg hb
  have hpm := h.permits
  have hpd := h.pending
  refine ⟨h.fifo, by simp only [Pool.give]; omega, by simp only [Pool.give]; omega, h.signals, h.signalled, ?_⟩
  intro i' j
  rw [h.tried i' j]
  by_cases hii : i' = i
  · subst hii; simp [Pool.give, hi]
  · simp [Pool.give, hii]

theorem Running.take (h : Running p n k m) {i : ω} {j : Nat} {q : List Nat} (hi : p.hands i = .granted)
    (hq : p.queue = j :: q) :
    Running { p with hands := p.give i (.untried j), queue := q, taken := p.taken ++ [(i, j)] } n k m := by
  have hg := tally_update Hand.isGranted p.hands i (.untried j)
  have hb := tally_update Hand.isBusy p.hands i (.untried j)
  simp only [hi, Hand.isGranted, Hand.isBusy, Bool.toNat_true, Bool.toNat_false] at hg hb
  have hpm := h.permits
  have hpd := h.pending
  rw [hq, List.length_cons] at hpm
  refine ⟨?_, by simp only [Pool.give]; omega, ?_, h.signals, h.signalled, ?_⟩
  · simp only [List.map_append, List.map_cons, List.map_nil, List.append_assoc, List.singleton_append, ← hq]
    exact h.fifo
  · simp only [Pool.give, List.length_append, List.length_singleton]; omega
  · intro i' j'
    simp only [List.count_append, h.tried i' j', Pool.give]
    by_cases hii : i' = i
    · subst hii
      by_cases hjj : j' = j
      · subst hjj; simp [hi]
      · simp [hi, Ne.symm hjj]
    · simp [hii, Ne.symm hii]

theorem Running.attempt (h : Running p n k m) {i : ω} {j : Nat} (hi : p.hands i = .untried j) :
    Running { p with hands := p.give i (.tried j), tried := p.tried ++ [(i, j)] } n k m := by
  have hg := tally_update Hand.isGranted p.hands i (.tried j)
  have hb := tally_update Hand.isBusy p.hands i (.tried j)
  simp only [hi, Hand.isGranted, Hand.isBusy, Bool.toNat_true, Bool.toNat_false] at hg hb
  have hpm := h.permits
  have hpd := h.pending
  refine ⟨h.fifo, by simp only [Pool.give]; omega, by simp only [Pool.give]; omega, h.signals, h.signalled, ?_⟩
  intro i' j'
  simp only [List.count_append, h.tried i' j', Pool.give]
  by_cases hii : i' = i
  · subst hii
    by_cases hjj : j' = j
    · subst hjj; simp [hi]
    · simp [hi, Ne.symm hjj]
  · simp [hii, Ne.symm hii]

theorem Running.finish (h : Running p n k m) (hk : k ≤ n) {i : ω} {j : Nat} (hi : p.hands i = .tried j) :
    Running { p with hands := p.give i .late, lock := some i, pending := p.pending - 1, signals := p.signals + last p,
                     signalled := p.signalled + last p } n k m := by
  have hg := tally_update Hand.isGranted p.hands i .late
  have hb := tally_update Hand.isBusy p.hands i .late
  simp only [hi, Hand.isGranted, Hand.isBusy, Bool.toNat_true, Bool.toNat_false] at hg hb
  have hpm := h.permits
  have hpd := h.pending
  have hle := h.busy_le hk
  -- the job is still pending, so nothing was signalled yet
  have hpos := le_tally Hand.isBusy p.hands (i := i) (by rw [hi]; rfl)
  have hs : p.signalled = 0 := by rw [h.signalled, if_neg (by omega)]
  refine ⟨h.fifo, by simp only [Pool.give]; omega, by simp only [Pool.give]; omega, by simp only [h.signals], ?_, ?_⟩
  · simp only [last, hs, Nat.zero_add]
  · intro i' j'
    rw [h.tried i' j']
    by_cases hii : i' = i
    · subst hii; simp [Pool.give, hi]
    · simp [Pool.give, hii]

theorem Running.unlock (h : Running p n k m) {i : ω} (hi : p.hands i = .late) :
    Running { p with hands := p.give i .free, lock := none } n k m := by
  have hg := tally_update Hand.isGranted p.hands i .free
  have hb := tally_update Hand.isBusy p.hands i .free
  simp only [hi, Hand.isGranted, Hand.isBusy, Bool.toNat_false] at hg hb
  have hpm := h.permits
  have hpd := h.pending
  refine ⟨h.fifo, by simp only [Pool.give]; omega, by simp only [Pool.give]; omega, h.signals, h.signalled, ?_⟩
  intro i' j
  rw [h.tried i' j]
  by_cases hii : i' = i
  · subst hii; simp [Pool.give, hi]
  · simp [Pool.give, hii]

/-- The signal is given only when every job has been counted off. -/
theorem Running.resume (h : Running p n n 0) (hs : 0 < p.signals) :
    Quiet { p with boss := .resumed n, signals := p.signals - 1 } ∧
      Complete { p with boss := .resumed n, signals := p.signals - 1 } n := by
  have hsig := h.signalled
  have hss := h.signals
  have hp0 : p.pending = 0 := by
    by_contra hne
    rw [if_neg hne] at hsig
    omega
  rw [if_pos hp0] at hsig
  have hlen := h.length
  have hpd := h.pending
  have hb : tally Hand.isBusy p.hands = 0 := by omega
  have hq : p.queue = [] := List.eq_nil_of_length_eq_zero (by omega)
  have hpm := h.permits
  rw [hq, List.length_nil] at hpm
  have hg : tally Hand.isGranted p.hands = 0 := by omega
  have hidle : ∀ i, p.hands i = .free ∨ p.hands i = .late := fun i => by
    have h1 := tally_zero hb i
    have h2 := tally_zero hg i
    cases hi : p.hands i <;> simp_all [Hand.isBusy, Hand.isGranted]
  refine ⟨⟨hq, by change p.permits = 0; omega, by simp only; omega, hidle⟩, ?_, ?_, hsig, hp0⟩
  · have := h.fifo; rwa [hq, List.append_nil] at this
  · apply List.perm_iff_count.mpr
    rintro ⟨i, j⟩
    have hnot : p.hands i ≠ .untried j := by rcases hidle i with h | h <;> rw [h] <;> nofun
    have := h.tried i j
    rw [if_neg hnot] at this
    exact this.symm

end

/-- What a worker step keeps, whatever the boss is at. -/
theorem InRound.of_running {p q : Pool ω} (h : InRound p) (hb : q.boss = p.boss) (hquiet : Quiet p → Quiet q)
    (hcomplete : ∀ n, Quiet p → Complete p n → Complete q n)
    (hrun : ∀ n k m, k ≤ n → Running p n k m → Running q n k m) : InRound q := by
  unfold InRound at h ⊢
  rw [hb]
  cases hbp : p.boss with
  | away => rw [hbp] at h; exact hquiet h
  | filling n k => rw [hbp] at h; exact ⟨h.1, h.2.1, hrun _ _ _ h.2.1 h.2.2⟩
  | announcing n k => rw [hbp] at h; exact ⟨h.1, hrun _ _ _ h.1 h.2⟩
  | waiting n => rw [hbp] at h; exact ⟨h.1, hrun _ _ _ (Nat.le_refl _) h.2⟩
  | resumed n => rw [hbp] at h; exact ⟨hquiet h.1, hcomplete n h.1 h.2⟩

omit [DecidableEq ω] [Fintype ω] in
theorem Quiet.absurd {p : Pool ω} (h : Quiet p) {i : ω} {P : Prop} (hf : p.hands i ≠ .free) (hl : p.hands i ≠ .late) : P :=
  ((h.hands i).elim hf hl).elim

theorem step_round {p q : Pool ω} (h : Inv p) (hs : Step p q) : InRound q := by
  obtain ⟨hlock, hr⟩ := h
  cases hs with
  | start n hb hn =>
    simp only [InRound, hb] at hr ⊢
    have hg : tally Hand.isGranted p.hands = 0 := Finset.sum_eq_zero fun i _ => by
      rcases hr.hands i with h | h <;> rw [h] <;> rfl
    have hbusy : tally Hand.isBusy p.hands = 0 := Finset.sum_eq_zero fun i _ => by
      rcases hr.hands i with h | h <;> rw [h] <;> rfl
    refine ⟨hn, Nat.zero_le _, ?_, ?_, ?_, hr.signals, ?_, ?_⟩
    · simp [hr.queue]
    · simp [hr.permits, hg, hr.queue]
    · simp [hbusy]
    · rw [if_neg (by simp only; omega)]
    · intro i j
      rcases hr.hands i with h | h <;> simp [h]
  | push hb hk =>
    simp only [InRound, hb] at hr ⊢
    obtain ⟨-, hle, hr⟩ := hr
    have hpm := hr.permits
    refine ⟨hk, ?_, by simp only [List.length_append, List.length_singleton]; omega, hr.pending, hr.signals, hr.signalled, hr.tried⟩
    rw [← List.append_assoc, hr.fifo, List.range_succ]
  | announce hb =>
    simp only [InRound, hb] at hr ⊢
    obtain ⟨hk, hr⟩ := hr
    have hpm := hr.permits
    exact ⟨by omega, hk, hr.fifo, by simp only; omega, hr.pending, hr.signals, hr.signalled, hr.tried⟩
  | filled hb =>
    simp only [InRound, hb] at hr ⊢
    obtain ⟨hn, -, hr⟩ := hr
    exact ⟨hn, hr.fifo, hr.permits, hr.pending, hr.signals, hr.signalled, hr.tried⟩
  | resume hb hsig =>
    simp only [InRound, hb] at hr ⊢
    exact hr.2.resume hsig
  | leave hb =>
    simp only [InRound, hb] at hr ⊢
    exact ⟨hr.1.queue, hr.1.permits, hr.1.signals, hr.1.hands⟩
  | grant i hi hp =>
    have no : ∀ {P : Prop}, Quiet p → P := fun hq => by have := hq.permits; omega
    exact hr.of_running rfl no (fun _ hq => no hq) fun _ _ _ _ h => h.grant hi hp
  | take i hi hq =>
    have no : ∀ {P : Prop}, Quiet p → P := fun hq => hq.absurd (i := i) (by rw [hi]; nofun) (by rw [hi]; nofun)
    exact hr.of_running rfl no (fun _ hq => no hq) fun _ _ _ _ h => h.take hi hq
  | attempt i hi =>
    have no : ∀ {P : Prop}, Quiet p → P := fun hq => hq.absurd (i := i) (by rw [hi]; nofun) (by rw [hi]; nofun)
    exact hr.of_running rfl no (fun _ hq => no hq) fun _ _ _ _ h => h.attempt hi
  | finish i hi hl =>
    have no : ∀ {P : Prop}, Quiet p → P := fun hq => hq.absurd (i := i) (by rw [hi]; nofun) (by rw [hi]; nofun)
    exact hr.of_running rfl no (fun _ hq => no hq) fun _ _ _ hk h => h.finish hk hi
  | unlock i hi =>
    refine hr.of_running rfl (fun hq => ⟨hq.queue, hq.permits, hq.signals, fun i' => ?_⟩)
      (fun n _ hc => ⟨hc.taken, hc.tried, hc.signalled, hc.pending⟩) fun _ _ _ _ h => h.unlock hi
    by_cases hii : i' = i
    · subst hii; left; simp [Pool.give]
    · simpa [Pool.give, hii] using hq.hands i'

omit [Fintype ω] in
theorem step_lock {p q : Pool ω} (h : ∀ i, p.lock = some i ↔ p.hands i = .late) (hs : Step p q) :
    ∀ i, q.lock = some i ↔ q.hands i = .late := by
  intro i'
  have other : ∀ {i x}, p.hands i ≠ .late → x ≠ Hand.late →
      (p.lock = some i' ↔ Function.update p.hands i x i' = .late) := fun {i x} hi hx => by
    rw [h i', Function.update_apply]
    split
    · subst_vars; exact iff_of_false hi hx
    · rfl
  cases hs with
  | grant i hi _ => exact other (by rw [hi]; nofun) nofun
  | take i hi _ => exact other (by rw [hi]; nofun) nofun
  | attempt i hi => exact other (by rw [hi]; nofun) nofun
  | finish i hi hl =>
    have hno := h i'
    rw [hl] at hno
    simp only [Pool.give, Function.update_apply, Option.some.injEq]
    by_cases hii : i' = i
    · simp [hii]
    · simp only [eq_comm (a := i), hii, false_iff]
      exact fun e => nomatch hno.mpr e
  | unlock i hi =>
    have hlk := (h i).mpr hi
    simp only [Pool.give, Function.update_apply]
    by_cases hii : i' = i
    · simp [hii]
    · simp only [if_neg hii, reduceCtorEq, false_iff]
      intro e
      rw [← h i', hlk] at e
      exact hii (Option.some.inj e).symm
  | _ => exact h i'

/-- Step lemma. -/
theorem step_inv {p q : Pool ω} (h : Inv p) (hs : Step p q) : Inv q := ⟨step_lock h.lock hs, step_round h hs⟩

/-- Run lemma. -/
theorem reach_inv {p : Pool ω} (h : (system ω).Reach p) : Inv p := by
  refine System.Reach.invariant (T := system ω) (P := Inv) ?_ (fun s t _ hi hs => step_inv hi hs) h
  intro s hs
  subst hs
  exact ⟨by simp [Pool.init], ⟨rfl, rfl, rfl, fun _ => Or.inl rfl⟩⟩

/-! ## What it gives -/

/-- A worker with a permit finds a job. -/
theorem granted_queue {p : Pool ω} (h : Inv p) {i : ω} (hi : p.hands i = .granted) : p.queue ≠ [] := by
  have hpos := le_tally Hand.isGranted p.hands (i := i) (by rw [hi]; rfl)
  have run : ∀ {n k m}, Running p n k m → p.queue ≠ [] := fun hr e => by
    have := hr.permits
    rw [e, List.length_nil] at this
    omega
  have quiet : Quiet p → p.queue ≠ [] := fun hq => hq.absurd (i := i) (by rw [hi]; nofun) (by rw [hi]; nofun)
  have hr := h.round
  unfold InRound at hr
  split at hr
  · exact quiet hr
  · exact run hr.2.2
  · exact run hr.2
  · exact run hr.2
  · exact quiet hr.1

def Boss.total : Boss → Nat
  | .away => 0
  | .filling n _ => n
  | .announcing n _ => n
  | .waiting n => n
  | .resumed n => n

/-- What is queued is a job of the round. -/
theorem queue_lt {p : Pool ω} (h : Inv p) {j : Nat} (hj : j ∈ p.queue) : j < p.boss.total := by
  have run : ∀ {n k m}, Running p n k m → k ≤ n → j < n := fun hr hk => by
    have : j ∈ List.range _ := hr.fifo ▸ List.mem_append_right _ hj
    rw [List.mem_range] at this
    omega
  have quiet : Quiet p → ∀ {n}, j < n := fun hq => by rw [hq.queue] at hj; cases hj
  have hr := h.round
  unfold InRound at hr
  cases hb : p.boss <;> rw [hb] at hr
  · exact quiet hr
  · exact run hr.2.2 hr.2.1
  · exact run hr.2 hr.1
  · exact run hr.2 (Nat.le_refl _)
  · exact quiet hr.1

/-- No more is tried than the round has jobs. -/
theorem tried_le {p : Pool ω} (h : Inv p) (hb : p.boss ≠ .away) : p.tried.length ≤ p.boss.total := by
  have run : ∀ {n k m}, Running p n k m → k ≤ n → p.tried.length ≤ n := fun {n k m} hr hk => by
    have hsub : p.tried.Subperm p.taken := List.subperm_ext_iff.mpr fun ⟨i, j⟩ _ => by
      rw [hr.tried i j]
      exact Nat.le_add_right _ _
    have hlen := hr.length
    exact hsub.length_le.trans (by omega)
  have hr := h.round
  unfold InRound at hr
  cases hboss : p.boss <;> rw [hboss] at hr
  · exact absurd hboss hb
  · exact run hr.2.2 hr.2.1
  · exact run hr.2 hr.1
  · exact run hr.2 (Nat.le_refl _)
  · have hlen := congrArg List.length hr.2.taken
    rw [List.length_map, List.length_range] at hlen
    exact (hr.2.tried.length_eq.trans hlen).le

/-- The worker can take a step. -/
def CanMove (p : Pool ω) (i : ω) : Prop :=
  match p.hands i with
  | .free => 0 < p.permits
  | .tried _ => p.lock = none
  | _ => True

/-- While the boss waits and there is no signal, some worker can move. -/
theorem waiting_progress [Nonempty ω] {p : Pool ω} (h : Inv p) {n : Nat} (hb : p.boss = .waiting n) : 0 < p.signals ∨ ∃ i, CanMove p i := by
  have hr := h.round
  simp only [InRound, hb] at hr
  obtain ⟨hn, hr⟩ := hr
  by_cases hp : p.pending = 0
  · left
    rw [hr.signals, hr.signalled, if_pos hp]; decide
  right
  -- the lock is held only by a worker that can release it
  rcases hl : p.lock with - | i
  · by_cases hbusy : 0 < tally Hand.isBusy p.hands
    · obtain ⟨i, hi⟩ := exists_of_tally hbusy
      refine ⟨i, ?_⟩
      unfold CanMove
      cases hh : p.hands i <;> simp_all [Hand.isBusy]
    · -- no job in hand, so one is queued, with a permit given out or held
      have hlen := hr.length
      have hpd := hr.pending
      have hpm := hr.permits
      have hle := hr.busy_le (Nat.le_refl _)
      by_cases hg : 0 < tally Hand.isGranted p.hands
      · obtain ⟨i, hi⟩ := exists_of_tally hg
        refine ⟨i, ?_⟩
        unfold CanMove
        cases hh : p.hands i <;> simp_all [Hand.isGranted]
      · obtain ⟨i⟩ := ‹Nonempty ω›
        have h1 := tally_zero (by omega : tally Hand.isBusy p.hands = 0) i
        have h2 := tally_zero (by omega : tally Hand.isGranted p.hands = 0) i
        have h3 := h.lock i
        refine ⟨i, ?_⟩
        unfold CanMove
        cases hh : p.hands i with
        | free => simp only; omega
        | _ => simp_all [Hand.isBusy, Hand.isGranted]
  · exact ⟨i, by unfold CanMove; rw [(h.lock i).mp hl]; trivial⟩

end

end DiyDdmin.Systems.WorkPool
