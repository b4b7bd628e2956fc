/-
  DiyDdmin.Range.Input — when `range` leaves the user's file alone.

  A step `Touches` an entry when a worker opens it as its candidate file or runs a test of
  which it is an output file, or when the main thread renames an accepted candidate onto
  it. The copies `origin_input%d` are not among these: `copy` refuses to write over a file,
  so under such a name `range` exits before it makes anything (`copyTurn_unchanged`).

  Proved, for any directory, program and interleaving: while no step touches the input's
  entry it keeps its bytes at every moment (`range_unchanged`).
-/

import DiyDdmin.Range.Frame

namespace DiyDdmin.Range

open Posix Tester Numeric Systems

/-- The step from `s` to `t` opens `k` as a candidate file, runs a test of which it is an
    output file, or renames a candidate onto it. -/
def Touches (E : Env) (k : Key) (s t : St) : Prop :=
  (∃ th n inFp outFp, s.workers th = .opening n ∧ t.workers th = .prefixing n inFp outFp ∧ k = E.key (s.g.outFiles th)) ∨
  (∃ th n, s.workers th = .testing n ∧ t.workers th ≠ .testing n ∧ (k = E.key (dummyOut th) ∨ k = E.key (dummyErr th))) ∨
  (s.g.totalFailN < t.g.totalFailN ∧ k = E.key (failFile t.g.totalFailN))

/-- A worker that has opened its candidate file and not gone on to the next name. -/
def opened : WorkerPc → Bool
  | .prefixing _ _ _ => true
  | .skipping _ _ _ => true
  | .postfixing _ _ _ => true
  | .flushing _ _ => true
  | .fitting _ => true
  | .testing _ => true
  | .reserving _ => true
  | .checking _ _ => true
  | .doubling _ _ => true
  | .reallocating _ _ => true
  | .storing _ _ => true
  | .naming _ => true
  | _ => false

/-- How many copies of the input were made at least in the present call of `_range`. -/
def copied : MainPc → Nat
  | .entry => 0
  | .enter _ _ => 0
  | .copying i _ => i
  | .exited _ => 0
  | .undefined => 0
  | _ => threadN

section

variable {E : Env} {k : Key} {X : Bytes}

/-- The entry holds `X`, and nothing in use is under it. -/
structure Apart (E : Env) (k : Key) (X : Bytes) (s : St) : Prop where
  all : s.w.All (Unchanged k (some X))
  off : ∀ th, Off (Unchanged k (some X)) (s.workers th)
  out : ∀ th, opened (s.workers th) = true → k ≠ E.key (s.g.outFiles th)
  table : ∀ j, s.g.failArr j = [] ∨ k ≠ E.key (s.g.failArr j)
  origin : ∀ i < copied s.main, k ≠ E.key (originFile i)
  bound : ∀ i, originOf s.main = some i → i < threadN

/-! ## A worker's step -/

/-- A candidate file is opened, or nothing is done. -/
theorem openingTurn_cases (th : Worker) {g : Globals} {n : Node} (hnamed : Named g) (w : World Vars) :
    (∃ inFp outFp w', openingTurn E th g n w = .ok (.prefixing n inFp outFp, g) w') ∨
      ((openingTurn E th g n w).world = w ∧ ∀ r w', openingTurn E th g n w ≠ .ok r w') := by
  have hholds : E.Holds (g.outFiles th) := by rw [hnamed th]; exact Env.holds_of (key_outName E th _)
  rw [openingTurn]
  cases hX : w.fs (E.key (originFile th)) with
  | none =>
    have hnone : (fopenRead (E.key (originFile th)) : Code (Option Reader)) w = .ok none w := by
      simp [fopenRead, look, hX]
    rw [bind_ok hnone]
    exact Or.inr ⟨rfl, fun _ _ h => by cases h⟩
  | some T =>
    rw [bind_ok (fopenRead_run hX)]
    simp only
    rw [bind_ok (fopenWrite_run hholds w)]
    exact Or.inl ⟨_, _, _, rfl⟩

/-- A test comes to a verdict. -/
theorem testingTurn_ok (th : Worker) (g : Globals) (n : Node) (w : World Vars) :
    ∃ r w', testingTurn E th g n w = .ok r w' ∧ r.1 ≠ .testing n := by
  obtain ⟨w', hrun, -⟩ := runTest_spec E (g.outFiles th) (g.outFiles th) true (dummyOut_ne_dummyErr E th th)
    (holds_dummyErr E th) w
  have hrun' : testBufferOverflowThread E (g.outFiles th) th w = _ := hrun
  simp only [testingTurn, look_bind]
  rw [bind_ok hrun']
  refine ⟨_, _, rfl, ?_⟩
  simp only
  split <;> (intro h; cases h)

/-- A worker keeps its candidate file as long as it works on it. -/
theorem move_opened {th : Worker} {g g' : Globals} {pc pc' : WorkerPc} (hm : WorkerMove th g pc pc' g') (ho : opened pc' = true) :
    g'.outFiles th = g.outFiles th ∧ (opened pc = true ∨ ∃ n i o, pc = .opening n ∧ pc' = .prefixing n i o) := by
  cases hm with
  | openFiles n i o => exact ⟨rfl, Or.inr ⟨n, i, o, rfl, rfl⟩⟩
  | wait => cases ho
  | pop => cases ho
  | name => cases ho
  | close => cases ho
  | unlock => cases ho
  | reserve => exact ⟨rfl, Or.inl rfl⟩
  | _ => exact ⟨rfl, Or.inl rfl⟩

/-- Only the candidate file of a worker that works on it gets into the table. -/
theorem move_table {th : Worker} {g g' : Globals} {pc pc' : WorkerPc} (hm : WorkerMove th g pc pc' g') (j : Nat) :
    g'.failArr j = g.failArr j ∨ (opened pc = true ∧ g'.failArr j = g.outFiles th) := by
  cases hm with
  | store n i =>
    by_cases hj : j = i
    · subst hj
      exact Or.inr ⟨rfl, Function.update_self _ _ _⟩
    · exact Or.inl (Function.update_of_ne hj _ _)
  | _ => exact Or.inl rfl

theorem workerTurn_apart {s : St} {th : Worker} {x : Code (WorkerPc × Globals)} (h : Apart E k X s) (hnamed : Named s.g)
    (hx : workerTurn E th s.g (s.workers th) = some x) (hno : ¬ Touches E k s (afterWorker s th (x s.w))) :
    (x s.w).world.All (Unchanged k (some X)) ∧ ∀ r w', x s.w = .ok r w' → Off (Unchanged k (some X)) r.1 := by
  by_cases hopening : ∃ n, s.workers th = .opening n ∧ k = E.key (s.g.outFiles th)
  · obtain ⟨n, hpc, hkey⟩ := hopening
    rw [hpc] at hx
    cases hx
    rcases openingTurn_cases (E := E) th (n := n) hnamed s.w with ⟨i, o, w', hrun⟩ | ⟨hsame, hnone⟩
    · refine absurd (Or.inl ⟨th, n, i, o, hpc, ?_, hkey⟩) hno
      rw [hrun]
      exact Function.update_self _ _ _
    · exact ⟨by rw [hsame]; exact h.all, fun r w' hr => absurd hr (hnone r w')⟩
  · by_cases htesting : ∃ n, s.workers th = .testing n ∧ (k = E.key (dummyOut th) ∨ k = E.key (dummyErr th))
    · obtain ⟨n, hpc, hkey⟩ := htesting
      rw [hpc] at hx
      cases hx
      obtain ⟨r, w', hrun, hne⟩ := testingTurn_ok (E := E) th s.g n s.w
      refine absurd (Or.inr (Or.inl ⟨th, n, hpc, ?_, hkey⟩)) hno
      rw [hrun]
      simp only [afterWorker, Function.update_self]
      exact hne
    · have hk := workerTurn_keeps_of (P := Unchanged k (some X)) ?_ ?_ (h.off th) hx
      · exact ⟨hk.all h.all, (hk.2 s.w h.all.1).2⟩
      · rintro d (hd | hd)
        · exact Unchanged.blind fun hkey => hopening ⟨d, hd, hkey⟩
        · exact Unchanged.blind (h.out th (by rw [hd]; rfl))
      · intro d hd
        obtain ⟨ho, he⟩ := not_or.mp fun hkey => htesting ⟨d, hd, hkey⟩
        exact ⟨Unchanged.blind ho, Unchanged.blind he, fun _ _ _ _ hP => hP⟩

/-- Step lemma for a worker. -/
theorem apart_worker {s t : St} {th : Worker} (h : Apart E k X s) (hnamed : Named s.g) (hst : step E (.worker th) s = some t)
    (hno : ¬ Touches E k s t) : Apart E k X t := by
  obtain ⟨-, x, hx, rfl⟩ := step_worker hst
  obtain ⟨hall, hoff⟩ := workerTurn_apart h hnamed hx hno
  cases hr : x s.w with
  | ok r w' =>
    rw [hr] at hall hno
    have hm : WorkerMove th s.g (s.workers th) r.1 r.2 := workerTurn_move hx hr
    have hother : ∀ th', th' ≠ th → r.2.outFiles th' = s.g.outFiles th' := fun th' hth => by
      rcases move_out hm with ⟨e, -⟩ | ⟨-, e, -⟩
      · rw [e]
      · exact e th' hth
    have hout : opened r.1 = true → k ≠ E.key (s.g.outFiles th) := fun ho => by
      rcases (move_opened hm ho).2 with hopen | ⟨n, i, o, hpc, hpc'⟩
      · exact h.out th hopen
      · intro hkey
        exact hno (Or.inl ⟨th, n, i, o, hpc, by rw [← hpc']; exact Function.update_self _ _ _, hkey⟩)
    refine ⟨hall, ?_, ?_, ?_, h.origin, h.bound⟩
    · intro th'
      by_cases hth : th' = th
      · subst hth
        simp only [afterWorker, Function.update_self]
        exact hoff r w' hr
      · simp only [afterWorker, Function.update_of_ne hth]
        exact h.off th'
    · intro th' ho
      by_cases hth : th' = th
      · subst hth
        simp only [afterWorker, Function.update_self] at ho ⊢
        rw [(move_opened hm ho).1]
        exact hout ho
      · simp only [afterWorker, Function.update_of_ne hth] at ho ⊢
        rw [hother th' hth]
        exact h.out th' ho
    · intro j
      rcases move_table hm j with e | ⟨hopen, e⟩
      · simp only [afterWorker, e]
        exact h.table j
      · simp only [afterWorker, e]
        exact Or.inr (h.out th hopen)
  | exit e w' =>
    rw [hr] at hall
    exact ⟨hall, h.off, h.out, h.table, fun i hi => absurd hi (Nat.not_lt_zero i), fun _ h => by cases h⟩
  | hang w' =>
    rw [hr] at hall
    refine ⟨hall, ?_, ?_, h.table, h.origin, h.bound⟩
    · intro th'
      simp only [afterWorker, Function.update_apply]
      split
      · trivial
      · exact h.off th'
    · intro th' ho
      simp only [afterWorker, Function.update_apply] at ho
      split at ho
      · cases ho
      · exact h.out th' ho

/-! ## The main thread's step -/

/-- Over a file that is there no copy is made. -/
theorem copyTurn_unchanged {g : Globals} {i : Nat} {r : Int} {w : World Vars} (h : (w.fs (E.key (originFile i))).isSome = true) :
    ∃ e, copyingTurn E g i r w = .exit e w := by
  simp only [copyingTurn, look_bind]
  cases hsrc : w.fs (E.key w.own.held) with
  | none =>
    have hcopy : copy E w.own.held (originFile i) w = .exit (.copySrc w.own.held) w := by simp [copy, hsrc, exit]
    rw [bind_run, hcopy]
    exact ⟨_, rfl⟩
  | some c =>
    have hcopy : copy E w.own.held (originFile i) w = .exit .copyExists w := by simp [copy, hsrc, access, h, exit]
    rw [bind_run, hcopy]
    exact ⟨_, rfl⟩

theorem renamingTurn_ok {g : Globals} {j : Nat} {c : Bytes} {w : World Vars} (h : w.fs (E.key (g.failArr j)) = some c) :
    ∃ r w', renamingTurn E g j w = .ok r w' ∧ r.2.totalFailN = g.totalFailN + 1 := by
  obtain ⟨w', hrun⟩ : ∃ w', (rename (E.key (g.failArr j)) (E.key (failFile (g.totalFailN + 1))) : Code Bool) w = .ok true w' :=
    ⟨_, rename_run h⟩
  refine ⟨(.removing 0 (failFile (g.totalFailN + 1)), { g with totalFailN := g.totalFailN + 1 }), w', ?_, rfl⟩
  rw [renamingTurn, bind_ok hrun]
  rfl

theorem outName_ne_nil (th : Worker) (j : Nat) : outName th j ≠ [] := by
  unfold outName
  split
  · simp [threadFile, numbered]
  · simp [threadPartFile]

theorem move_copied {rand : Nat} {held : Path} {cur : Bytes} {g g' : Globals} {pc pc' : MainPc}
    (hm : MainMove rand held cur g pc pc' g') :
    copied pc' ≤ copied pc ∨ ∃ i r, pc = .copying i r ∧ copied pc' ≤ i + 1 := by
  cases hm with
  | copy i r =>
    refine Or.inr ⟨i, r, rfl, ?_⟩
    split
    · exact Nat.le_refl _
    · simp only [copied]
      omega
  | remove i q =>
    left
    split
    · exact Nat.le_refl _
    · exact Nat.le_refl _
  | clear i =>
    left
    split
    · exact Nat.le_refl _
    · exact Nat.le_refl _
  | recurse q => exact Or.inl (Nat.zero_le _)
  | _ => exact Or.inl (Nat.le_refl _)

theorem move_bound {rand : Nat} {held : Path} {cur : Bytes} {g g' : Globals} {pc pc' : MainPc}
    (hm : MainMove rand held cur g pc pc' g') (i : Nat) (hi : originOf pc' = some i) : i < threadN := by
  cases hm with
  | enter size rs => cases hi; decide
  | finish r hr => cases hi; decide
  | rename j => cases hi; decide
  | copy j r => split at hi <;> cases hi; assumption
  | remove j q => split at hi <;> cases hi; assumption
  | clear j => split at hi <;> cases hi; assumption
  | _ => cases hi

theorem move_files {rand : Nat} {held : Path} {cur : Bytes} {g g' : Globals} {pc pc' : MainPc}
    (hm : MainMove rand held cur g pc pc' g') : g'.outFiles = g.outFiles ∧ g'.failArr = g.failArr := by
  cases hm <;> exact ⟨rfl, rfl⟩

theorem mainTurn_apart {s : St} {rand : Nat} {x : Code (MainPc × Globals)} (h : Apart E k X s) (hsound : Sound E s)
    (hx : mainTurn E rand s.g s.main = some x) (hcopy : ∀ i r, s.main = .copying i r → k ≠ E.key (originFile i))
    (hno : ¬ Touches E k s (afterMain s (x s.w))) : (x s.w).world.All (Unchanged k (some X)) := by
  refine (mainTurn_keeps_of (P := Unchanged k (some X)) ?_ ?_ (fun _ _ _ _ hP => hP) hx).all h.all
  · intro i hi
    refine Unchanged.blind ?_
    have hbound := h.bound i hi
    have horigin := h.origin
    cases hpc : s.main <;> rw [hpc] at hi horigin <;> cases hi
    · exact hcopy _ _ hpc
    · exact horigin _ hbound
    · exact horigin _ hbound
  · intro j hj
    have hcall := hsound.call
    rw [hj] at hcall hx
    obtain ⟨⟨-, c, hc, -⟩, th, n, hname⟩ := hcall
    refine ⟨Unchanged.blind ?_, Unchanged.blind ?_⟩
    · refine (h.table j).resolve_left ?_
      rw [hname]
      exact outName_ne_nil th n
    · cases hx
      obtain ⟨r, w', hrun, hn⟩ := renamingTurn_ok (E := E) hc
      intro hkey
      refine hno (Or.inr (Or.inr ?_))
      rw [hrun]
      change s.g.totalFailN < r.2.totalFailN ∧ k = E.key (failFile r.2.totalFailN)
      rw [hn]
      exact ⟨Nat.lt_succ_self _, hkey⟩

/-- Step lemma for the main thread. -/
theorem apart_main {s t : St} {rand : Nat} (h : Apart E k X s) (hsound : Sound E s) (hst : step E (.main rand) s = some t)
    (hno : ¬ Touches E k s t) : t.w.All (Unchanged k (some X)) ∧ (t.main.over = false → Apart E k X t) := by
  obtain ⟨-, x, hx, rfl⟩ := step_main hst
  by_cases hcopy : ∃ i r, s.main = .copying i r ∧ k = E.key (originFile i)
  · -- under the name of a copy the input is there, and the process ends
    obtain ⟨i, r, hpc, hkey⟩ := hcopy
    rw [hpc] at hx
    cases hx
    obtain ⟨e, hrun⟩ := copyTurn_unchanged (E := E) (g := s.g) (i := i) (r := r) (w := s.w) (by rw [← hkey, h.all.1]; rfl)
    rw [hrun]
    exact ⟨h.all, fun h => by cases h⟩
  · have hcopy' : ∀ i r, s.main = .copying i r → k ≠ E.key (originFile i) := fun i r hpc hkey => hcopy ⟨i, r, hpc, hkey⟩
    have hall := mainTurn_apart h hsound hx hcopy' hno
    cases hr : x s.w with
    | ok r w' =>
      rw [hr] at hall
      refine ⟨hall, ?_⟩
      intro ho
      have hm := (mainTurn_move hx hr).resolve_left fun hu => by
        change r.1.over = false at ho
        rw [hu] at ho
        cases ho
      obtain ⟨hout, htable⟩ := move_files hm
      refine ⟨hall, h.off, ?_, ?_, ?_, move_bound hm⟩
      · intro th hopen
        simp only [afterMain, hout]
        exact h.out th hopen
      · intro j
        simp only [afterMain, htable]
        exact h.table j
      · intro i hi
        rcases move_copied hm with hle | ⟨j, q, hpc, hle⟩
        · exact h.origin i (hi.trans_le hle)
        · have horigin := h.origin
          rw [hpc] at horigin
          rcases Nat.lt_succ_iff_lt_or_eq.mp (hi.trans_le hle) with hlt | rfl
          · exact horigin i hlt
          · exact hcopy' _ _ hpc
    | exit e w' =>
      rw [hr] at hall
      exact ⟨hall, fun h => by cases h⟩
    | hang w' => exact absurd hr (mainTurn_settles hx _ _)

/-- Run lemma. -/
theorem range_unchanged {p : Path} {fs : Fs} (hX : fs k = some X) {s : St}
    (hs : ((system E p fs).restrict fun s t => ¬ Touches E k s t).Reach s) : s.w.All (Unchanged k (some X)) := by
  refine (System.Reach.invariant (T := (system E p fs).restrict fun s t => ¬ Touches E k s t)
    (P := fun s => s.w.All (Unchanged k (some X)) ∧ (s.main.over = false → Apart E k X s)) ?_ ?_ hs).1
  · intro s h
    obtain rfl : s = start p fs := h
    have hall : (start p fs).w.All (Unchanged k (some X)) := ⟨hX, List.forall_mem_nil _⟩
    have hshut : ∀ th, opened ((start p fs).workers th) = true → k ≠ E.key ((start p fs).g.outFiles th) :=
      fun _ h => Bool.noConfusion h
    exact ⟨hall, fun _ => ⟨hall, fun _ => trivial, hshut, fun _ => Or.inl rfl, fun i hi => absurd hi (Nat.not_lt_zero i),
      fun _ h => by cases h⟩⟩
  · intro s t hr hi hst
    obtain ⟨hno, m, hst⟩ := hst
    have hlive := (step_cases hst).1
    have hsound := reach_sound hr.of_restrict hlive
    cases m with
    | main rand => exact apart_main (hi.2 hlive) hsound hst hno
    | worker th =>
      have hapart := apart_worker (hi.2 hlive) hsound.named hst hno
      exact ⟨hapart.all, fun _ => hapart⟩

/-! ## Names -/

/-- None of the files `range` can come to use, the copies of the input apart. -/
structure Unused (E : Env) (k : Key) : Prop where
  out : ∀ (th : Worker) j, k ≠ E.key (outName th j)
  dummyOut : ∀ th : Worker, k ≠ E.key (dummyOut th)
  dummyErr : ∀ th : Worker, k ≠ E.key (dummyErr th)
  fail : ∀ i, 0 < i → k ≠ E.key (failFile i)

theorem Unused.not_touches (hk : Unused E k) {s t : St} (hnamed : Named s.g) : ¬ Touches E k s t := by
  rintro (⟨th, n, i, o, -, -, hkey⟩ | ⟨th, n, -, -, hkey | hkey⟩ | ⟨hlt, hkey⟩)
  · rw [hnamed th] at hkey
    exact hk.out th _ hkey
  · exact hk.dummyOut th hkey
  · exact hk.dummyErr th hkey
  · exact hk.fail _ (Nat.zero_lt_of_lt hlt) hkey

/-- Accepted candidates are numbered from 1. -/
theorem unused_zero (E : Env) : Unused E (E.key (failFile 0)) where
  out th j := (outName_ne_failFile E th j 0).symm
  dummyOut th := failFile_ne_dummyOut E 0 th
  dummyErr th := failFile_ne_dummyErr E 0 th
  fail i hi e := by have := failFile_inj E e; omega

end

end DiyDdmin.Range
