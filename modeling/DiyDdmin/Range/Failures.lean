/-
  DiyDdmin.Range.Failures — the table of failing candidates.

  A round's failing tests are given indices in some order (`ps`: the worker and the begin
  of each index). An index belongs to the worker that reserved it until it has stored the
  name of its candidate file there; from then on the worker writes to that file no more,
  since its next candidates go to files with a larger number, and the numbers are never
  reset. `Table` is this bookkeeping; a worker's step keeps it (`table_worker`).

  Proved: whenever the main thread selects, the table has one entry for each failing begin
  of the round, with different names, each naming a file that holds that begin's candidate;
  no worker is given such a name again, in this round or a later one; and where the names
  of the copies were free at the start, every copy finds its destination absent
  (`failures_recorded`).
-/

import DiyDdmin.Range.Ends

namespace DiyDdmin.Range

open Posix Tester Numeric Systems Reduction WorkPool
open Relation (ReflTransGen)

/-- The failing tests of the round: who, and where the range left out starts. -/
def failures (g : Globals) : List (Worker × Nat) := (g.log.tried.filter (·.failed)).map fun t => (t.worker, t.begin)

/-- The begin of a failing candidate that has no index yet. -/
def unindexed : WorkerPc → Option Nat
  | .reserving d => some d.begin
  | _ => none

/-- The index and the begin of a failing candidate whose name is still to be stored. -/
def unstored : WorkerPc → Option (Nat × Nat)
  | .checking d j => some (j, d.begin)
  | .doubling d j => some (j, d.begin)
  | .reallocating d j => some (j, d.begin)
  | .storing d j => some (j, d.begin)
  | _ => none

section

variable (E : Env) (T : Bytes) (n r : Nat)

/-- Entry `j` names a file that holds the candidate of `b`, and worker `th` wrote it. -/
def Filed (s : St) (j : Nat) (th : Worker) (b : Nat) : Prop :=
  ∃ k, s.g.failArr j = outName th k ∧ b + r ≤ n ∧ Shelved E s th k (cutOf n r b T)

structure Table (s : St) (ps : List (Worker × Nat)) : Prop where
  length : ps.length = s.g.failN
  counted : ∀ th b, (failures s.g).count (th, b) = ps.count (th, b) + if unindexed (s.workers th) = some b then 1 else 0
  claimed : ∀ th j b, unstored (s.workers th) = some (j, b) → ps[j]? = some (th, b)
  filed : ∀ j th b, ps[j]? = some (th, b) → unstored (s.workers th) = some (j, b) ∨ Filed E T n r s j th b
  apart : ∀ i j th b th' b', ps[i]? = some (th, b) → ps[j]? = some (th', b') → unstored (s.workers th) ≠ some (i, b) →
    unstored (s.workers th') ≠ some (j, b') → s.g.failArr i = s.g.failArr j → i = j

end

variable {E : Env} {T : Bytes} {n r : Nat}

/-! ## A worker's step -/

theorem Filed.keep {s : St} {th th' : Worker} {pc : WorkerPc} {g : Globals} {w : World Vars} {j b : Nat}
    (hm : WorkerMove th s.g (s.workers th) pc g) (hfr : ∀ k, ¬ Own E th (outName th (s.g.failStack th)) k → w.fs k = s.w.fs k)
    (hstill : (∃ d, s.workers th = .naming d) → w = s.w) (harr : g.failArr j = s.g.failArr j) (h : Filed E T n r s j th' b) :
    Filed E T n r ⟨s.main, Function.update s.workers th pc, g, w⟩ j th' b := by
  obtain ⟨k, hk, hb, hs⟩ := h
  exact ⟨k, harr.trans hk, hb, hs.keep hm hfr hstill⟩

/-- A move that records no failure, gives no index and stores no name. -/
theorem table_same {s : St} {th : Worker} {pc : WorkerPc} {g : Globals} {w : World Vars} {ps : List (Worker × Nat)}
    (h : Table E T n r s ps) (hm : WorkerMove th s.g (s.workers th) pc g)
    (hfr : ∀ k, ¬ Own E th (outName th (s.g.failStack th)) k → w.fs k = s.w.fs k)
    (hstill : (∃ d, s.workers th = .naming d) → w = s.w) (hn : g.failN = s.g.failN) (hf : failures g = failures s.g)
    (harr : g.failArr = s.g.failArr) (hi : unindexed pc = unindexed (s.workers th)) (hu : unstored pc = unstored (s.workers th)) :
    Table E T n r ⟨s.main, Function.update s.workers th pc, g, w⟩ ps := by
  have index : ∀ th', unindexed (Function.update s.workers th pc th') = unindexed (s.workers th') := by
    intro th'
    by_cases hth : th' = th
    · rw [hth, Function.update_self, hi]
    · rw [Function.update_of_ne hth]
  have store : ∀ th', unstored (Function.update s.workers th pc th') = unstored (s.workers th') := by
    intro th'
    by_cases hth : th' = th
    · rw [hth, Function.update_self, hu]
    · rw [Function.update_of_ne hth]
  constructor
  · exact h.length.trans hn.symm
  · intro th' b
    simp only [hf, index]
    exact h.counted th' b
  · intro th' j b hj
    simp only [store] at hj
    exact h.claimed th' j b hj
  · intro j th' b hj
    simp only [store]
    exact (h.filed j th' b hj).imp id fun hs => hs.keep hm hfr hstill (congrFun harr j)
  · intro i j th1 b1 th2 b2 h1 h2 h3 h4 he
    simp only [store, harr] at h3 h4 he
    exact h.apart i j th1 b1 th2 b2 h1 h2 h3 h4 he

section

variable {s : St} {th : Worker} {g : Globals} {w : World Vars} {ps : List (Worker × Nat)} {d : Node}

/-- A failing test. -/
theorem table_test {bytes : Bytes} (h : Table E T n r s ps) (hpc : s.workers th = .testing d)
    (hfr : ∀ k, ¬ Own E th (outName th (s.g.failStack th)) k → w.fs k = s.w.fs k) :
    Table E T n r ⟨s.main, Function.update s.workers th (.reserving d),
      { s.g with log := { s.g.log with tried := s.g.log.tried ++ [⟨th, d.begin, bytes, true⟩] } }, w⟩ ps := by
  have hm : WorkerMove th s.g (s.workers th) (.reserving d)
      { s.g with log := { s.g.log with tried := s.g.log.tried ++ [⟨th, d.begin, bytes, true⟩] } } := by
    rw [hpc]; exact .test d bytes true
  have hfail : failures { s.g with log := { s.g.log with tried := s.g.log.tried ++ [⟨th, d.begin, bytes, true⟩] } } =
      failures s.g ++ [(th, d.begin)] := by simp [failures]
  have store : ∀ th', unstored (Function.update s.workers th (.reserving d) th') = unstored (s.workers th') := by
    intro th'
    by_cases hth : th' = th
    · rw [hth, Function.update_self, hpc]; rfl
    · rw [Function.update_of_ne hth]
  have hstill : (∃ d, s.workers th = .naming d) → w = s.w := by
    rintro ⟨e, he⟩
    rw [hpc] at he; cases he
  constructor
  · exact h.length
  · intro th' b
    have hc := h.counted th' b
    rw [hfail, List.count_append, List.count_singleton, hc]
    by_cases hth : th' = th
    · subst hth
      simp [hpc, unindexed]
    · simp [Function.update_of_ne hth, Ne.symm hth]
  · intro th' j b hj
    simp only [store] at hj
    exact h.claimed th' j b hj
  · intro j th' b hj
    simp only [store]
    exact (h.filed j th' b hj).imp id fun hs => hs.keep hm hfr hstill rfl
  · intro i j th1 b1 th2 b2 h1 h2 h3 h4 he
    simp only [store] at h3 h4
    exact h.apart i j th1 b1 th2 b2 h1 h2 h3 h4 he

/-- The next index is given to a failing candidate. -/
theorem table_reserve (h : Table E T n r s ps) (hpc : s.workers th = .reserving d) :
    Table E T n r ⟨s.main, Function.update s.workers th (.checking d s.g.failN), { s.g with failN := s.g.failN + 1 }, s.w⟩
      (ps ++ [(th, d.begin)]) := by
  have hm : WorkerMove th s.g (s.workers th) (.checking d s.g.failN) { s.g with failN := s.g.failN + 1 } := by
    rw [hpc]; exact .reserve d
  have hlen := h.length
  have store : ∀ th' j b, ps[j]? = some (th', b) →
      (unstored (Function.update s.workers th (.checking d s.g.failN) th') = some (j, b) ↔
        unstored (s.workers th') = some (j, b)) := by
    intro th' j b hj
    have hlt := (List.getElem?_eq_some_iff.mp hj).1
    by_cases hth : th' = th
    · subst hth
      rw [Function.update_self, hpc]
      simp only [unstored, Option.some.injEq, Prod.mk.injEq, reduceCtorEq, iff_false]
      omega
    · rw [Function.update_of_ne hth]
  -- an index is an old one, or the one just given
  have index : ∀ {j th' b}, (ps ++ [(th, d.begin)])[j]? = some (th', b) →
      ps[j]? = some (th', b) ∨ j = s.g.failN ∧ th' = th ∧ b = d.begin := by
    intro j th' b hj
    by_cases hlt : j < ps.length
    · rw [List.getElem?_append_left hlt] at hj
      exact Or.inl hj
    · obtain ⟨hj1, hj2⟩ := List.getElem?_eq_some_iff.mp hj
      rw [List.length_append, List.length_singleton] at hj1
      obtain rfl : j = ps.length := by omega
      simp only [List.getElem_append_right (Nat.le_refl _), Nat.sub_self, List.getElem_singleton, Prod.mk.injEq] at hj2
      exact Or.inr ⟨hlen, hj2.1.symm, hj2.2.symm⟩
  have new : unstored (Function.update s.workers th (.checking d s.g.failN) th) = some (s.g.failN, d.begin) := by
    rw [Function.update_self]; rfl
  constructor
  · simp only [List.length_append, List.length_singleton, hlen]
  · intro th' b
    have hc : (failures s.g).count (th', b) = _ := h.counted th' b
    change (failures s.g).count (th', b) = _
    rw [hc, List.count_append, List.count_singleton]
    by_cases hth : th' = th
    · subst hth
      simp [hpc, unindexed]
    · simp [Function.update_of_ne hth, Ne.symm hth]
  · intro th' j b hj
    by_cases hth : th' = th
    · subst hth
      rw [new] at hj
      cases hj
      rw [← hlen, List.getElem?_append_right (Nat.le_refl _), Nat.sub_self]
      rfl
    · simp only [Function.update_of_ne hth] at hj
      have := h.claimed th' j b hj
      rw [List.getElem?_append_left (List.getElem?_eq_some_iff.mp this).1]
      exact this
  · intro j th' b hj
    rcases index hj with hj | ⟨rfl, rfl, rfl⟩
    · rw [store th' j b hj]
      exact (h.filed j th' b hj).imp id fun hs => hs.keep hm (fun _ _ => rfl) (fun _ => rfl) rfl
    · exact Or.inl new
  · intro i j th1 b1 th2 b2 h1 h2 h3 h4 he
    rcases index h1 with h1 | ⟨rfl, rfl, rfl⟩
    · rcases index h2 with h2 | ⟨rfl, rfl, rfl⟩
      · rw [ne_eq, store _ _ _ h1] at h3
        rw [ne_eq, store _ _ _ h2] at h4
        exact h.apart i j th1 b1 th2 b2 h1 h2 h3 h4 he
      · exact absurd new h4
    · exact absurd new h3

/-- The name of a failing candidate is stored at its index. -/
theorem table_store {i : Nat} (h : Table E T n r s ps) (hpc : s.workers th = .storing d i) (hnamed : Named s.g)
    (hst : Stage E T n r th (s.g.outFiles th) s.w.fs (s.workers th)) :
    Table E T n r ⟨s.main, Function.update s.workers th (.naming d),
      { s.g with failArr := Function.update s.g.failArr i (s.g.outFiles th) }, s.w⟩ ps := by
  have hm : WorkerMove th s.g (s.workers th) (.naming d)
      { s.g with failArr := Function.update s.g.failArr i (s.g.outFiles th) } := by
    rw [hpc]; exact .store d i
  have hmine : ps[i]? = some (th, d.begin) := h.claimed th i d.begin (by rw [hpc]; rfl)
  -- all that is still to be stored, but for this index
  have store : ∀ th' j b, j ≠ i → (unstored (Function.update s.workers th (.naming d) th') = some (j, b) ↔
      unstored (s.workers th') = some (j, b)) := by
    intro th' j b hj
    by_cases hth : th' = th
    · subst hth
      rw [Function.update_self, hpc]
      simp only [unstored, reduceCtorEq, Option.some.injEq, Prod.mk.injEq, false_iff]
      exact fun e => hj e.1.symm
    · rw [Function.update_of_ne hth]
  -- a name stored before is another one
  have fresh : ∀ {j th' b}, ps[j]? = some (th', b) → unstored (s.workers th') ≠ some (j, b) →
      s.g.outFiles th ≠ s.g.failArr j := by
    intro j th' b hj hu he
    obtain ⟨k, hk, -, hshelved, -⟩ := (h.filed j th' b hj).resolve_left hu
    rw [hnamed th, hk] at he
    obtain ⟨rfl, rfl⟩ := outName_inj E (congrArg E.key he)
    rcases hshelved with hlt | ⟨-, e, hn⟩
    · omega
    · rw [hpc] at hn; cases hn
  constructor
  · exact h.length
  · intro th' b
    change (failures s.g).count (th', b) = _
    rw [h.counted th' b]
    by_cases hth : th' = th
    · subst hth
      simp [hpc, unindexed]
    · simp [Function.update_of_ne hth]
  · intro th' j b hj
    by_cases hth : th' = th
    · subst hth
      simp only [Function.update_self, unstored] at hj
      cases hj
    · simp only [Function.update_of_ne hth] at hj
      exact h.claimed th' j b hj
  · intro j th' b hj
    by_cases hji : j = i
    · right
      subst hji
      obtain ⟨rfl, rfl⟩ : th' = th ∧ b = d.begin := by
        rw [hmine] at hj
        cases hj
        exact ⟨rfl, rfl⟩
      rw [hpc, hnamed th'] at hst
      obtain ⟨⟨hb, hfile⟩, -⟩ := hst
      exact ⟨s.g.failStack th', by simp [hnamed th'], hb, Or.inr ⟨rfl, d, by simp⟩, hfile⟩
    · rw [store th' j b hji]
      refine (h.filed j th' b hj).imp id fun hs => hs.keep hm (fun _ _ => rfl) (fun _ => rfl) ?_
      exact Function.update_of_ne hji _ _
  · intro i' j' th1 b1 th2 b2 h1 h2 h3 h4 he
    by_cases hi : i' = i
    · by_cases hj : j' = i
      · rw [hi, hj]
      · rw [ne_eq, store _ _ _ hj] at h4
        simp only [hi, Function.update_self, Function.update_of_ne hj] at he
        exact absurd he (fresh h2 h4)
    · rw [ne_eq, store _ _ _ hi] at h3
      by_cases hj : j' = i
      · simp only [hj, Function.update_self, Function.update_of_ne hi] at he
        exact absurd he.symm (fresh h1 h3)
      · rw [ne_eq, store _ _ _ hj] at h4
        simp only [Function.update_of_ne hi, Function.update_of_ne hj] at he
        exact h.apart i' j' th1 b1 th2 b2 h1 h2 h3 h4 he

end

/-- Step lemma. -/
theorem table_worker {s : St} {th : Worker} {pc : WorkerPc} {g : Globals} {w : World Vars} {ps : List (Worker × Nat)}
    (h : Table E T n r s ps) (hm : WorkerMove th s.g (s.workers th) pc g) (hnamed : Named s.g)
    (hst : Stage E T n r th (s.g.outFiles th) s.w.fs (s.workers th))
    (hfr : ∀ k, ¬ Own E th (outName th (s.g.failStack th)) k → w.fs k = s.w.fs k)
    (hstill : (∃ j, hand (s.workers th) = .tried j) → w = s.w) :
    ∃ ps, Table E T n r ⟨s.main, Function.update s.workers th pc, g, w⟩ ps := by
  have same := table_same (w := w) h hm hfr fun ⟨d, hd⟩ => hstill ⟨d.begin, by rw [hd]; rfl⟩
  generalize hpc : s.workers th = pc0 at hm same
  cases hm with
  | test d bytes eCode =>
    cases eCode with
    | false => exact ⟨ps, same rfl (by simp [failures]) rfl rfl rfl⟩
    | true => exact ⟨ps, table_test h hpc hfr⟩
  | reserve d =>
    rw [hstill ⟨d.begin, by rw [hpc]; rfl⟩]
    exact ⟨_, table_reserve h hpc⟩
  | store d i =>
    rw [hstill ⟨d.begin, by rw [hpc]; rfl⟩]
    exact ⟨_, table_store h hpc hnamed hst⟩
  | check d i => exact ⟨ps, same rfl rfl rfl (by split <;> rfl) (by split <;> rfl)⟩
  | _ => exact ⟨ps, same rfl rfl rfl rfl rfl⟩

/-! ## Runs -/

/-- In a round the table is kept. -/
def Listed (E : Env) (s : St) : Prop :=
  s.main.inRound ≠ none → ∃ ps, Table E s.g.log.input s.g.inputSize.toNat s.g.rs.toNat s ps

theorem Table.congr {s t : St} {ps : List (Worker × Nat)} (h : Table E T n r s ps) (h1 : t.g.failN = s.g.failN)
    (h2 : t.g.failArr = s.g.failArr) (h3 : t.g.failStack = s.g.failStack) (h4 : t.g.log.tried = s.g.log.tried)
    (h5 : t.workers = s.workers) (h6 : t.w = s.w) : Table E T n r t ps := by
  obtain ⟨hlength, hcounted, hclaimed, hfiled, hapart⟩ := h
  have hfail : failures t.g = failures s.g := by rw [failures, failures, h4]
  refine ⟨hlength.trans h1.symm, ?_, ?_, ?_, ?_⟩
  · rw [hfail, h5]; exact hcounted
  · rw [h5]; exact hclaimed
  · unfold Filed Shelved at hfiled ⊢
    rw [h2, h3, h5, h6]
    exact hfiled
  · rw [h2, h5]; exact hapart

/-- Where nobody has a job, none is failing. -/
theorem no_failing {pc : WorkerPc} (h : hand pc = .free ∨ hand pc = .late) (hns : ∀ pc', pc ≠ .stuck pc') :
    unindexed pc = none ∧ unstored pc = none := by
  cases pc with
  | stuck pc => exact absurd rfl (hns pc)
  | _ => first | exact ⟨rfl, rfl⟩ | (rcases h with h | h <;> cases h)

variable {inputPath : Path} {fs : Fs}

/-- At the start of a round nothing is counted. -/
theorem table_start {s t : St} (hs : (system E inputPath fs).Reach s) (hr : s.main.inRound = none) (hlive : s.main.over = false)
    (h1 : t.g.failN = 0) (h2 : t.g.log.tried = []) (h3 : t.workers = s.workers) : Table E T n r t [] := by
  have haway : boss s.g s.main = .away := by cases hm : s.main <;> rw [hm] at hr <;> first | rfl | cases hr
  have hquiet := away_quiet hs hlive haway
  have hno : ∀ th, unindexed (t.workers th) = none ∧ unstored (t.workers th) = none := fun th => by
    rw [h3]
    exact no_failing (hquiet.hands th) ((reach_sound hs hlive).alive th)
  refine ⟨h1.symm, ?_, ?_, ?_, ?_⟩
  · intro th b
    rw [failures, h2, (hno th).1]
    rfl
  · intro th j b hj
    rw [(hno th).2] at hj
    cases hj
  · intro j th b hj
    cases hj
  · intro i j th b th' b' hi
    cases hi

theorem listed_main {s t : St} {rand : Nat} (hs : (system E inputPath fs).Reach s) (h : Listed E s)
    (hst : step E (.main rand) s = some t) : Listed E t := by
  obtain ⟨hlive, hm⟩ := step_cases hst
  intro hr
  have hcall := (reach_sound hs hlive).call
  have hstart := @table_start E t.g.log.input t.g.inputSize.toNat t.g.rs.toNat inputPath fs s t hs
  unfold Listed at h
  rcases hm with hover | hm
  · cases hmt : t.main <;> rw [hmt] at hover hr <;> first | exact absurd rfl hr | cases hover
  obtain ⟨-, x, hx, rfl⟩ := step_main hst
  generalize hpc : s.main = pc at hx h hcall hstart
  cases pc with
  | settingExisting r =>
    cases hx
    simp only [settingExistingTurn] at hr hstart ⊢
    split_ifs at hr hstart ⊢
    · exact absurd rfl hr
    · exact ⟨[], hstart rfl rfl hcall.2 rfl rfl⟩
  | pushing r b =>
    obtain ⟨ps, hps⟩ := h (by simp [MainPc.inRound])
    cases hx
    refine ⟨ps, ?_⟩
    split_ifs
    · exact hps.congr rfl rfl rfl rfl rfl rfl
    · exact hps.congr rfl rfl rfl rfl rfl rfl
  | posting r b =>
    obtain ⟨ps, hps⟩ := h (by simp [MainPc.inRound])
    cases hx
    exact ⟨ps, hps.congr rfl rfl rfl rfl rfl rfl⟩
  | waiting r =>
    obtain ⟨ps, hps⟩ := h (by simp [MainPc.inRound])
    simp only [mainTurn, Option.ite_none_right_eq_some, Option.some.injEq] at hx
    obtain ⟨-, rfl⟩ := hx
    exact ⟨ps, hps.congr rfl rfl rfl rfl rfl rfl⟩
  | _ =>
    -- any other step leads out of a round or stays out
    exfalso
    generalize afterMain s (x s.w) = t at hr hm
    cases hm with
    | main rand w hmove =>
      rw [hpc] at hmove
      cases hmove <;> first | exact hr rfl | (split at hr <;> exact hr rfl)

theorem listed_worker {s t : St} {th : Worker} (hs : (system E inputPath fs).Reach s) (h : Listed E s)
    (hst : step E (.worker th) s = some t) : Listed E t := by
  intro hr
  cases hround : s.main.inRound with
  | none =>
    obtain rfl := away_step hs hround hst
    exact absurd hround hr
  | some r =>
    obtain ⟨ps, hps⟩ := h (by rw [hround]; simp)
    obtain ⟨pc, g, w, rfl, hm, hran, hstill⟩ := round_step hs hround hst
    obtain ⟨⟨-, hw⟩, -⟩ := reach_round hs hround
    have hnamed := (reach_sound hs (step_cases hst).1).named
    obtain ⟨ps', h'⟩ := table_worker hps hm hnamed (hw.stage th) (fun k hk => (hran.frame k hk).1) hstill
    refine ⟨ps', ?_⟩
    simp only [move_input hm, (worker_sizes hm).1, (worker_sizes hm).2]
    exact h'

/-- Run lemma. -/
theorem reach_listed {s : St} (hs : (system E inputPath fs).Reach s) : Listed E s := by
  refine System.Reach.invariant (T := system E inputPath fs) (P := Listed E) ?_ ?_ hs
  · intro s h
    subst h
    exact fun h => absurd rfl h
  · intro s t hr hi hst
    obtain ⟨m, hst⟩ := hst
    cases m with
    | main rand => exact listed_main hr hi hst
    | worker th => exact listed_worker hr hi hst

theorem main_stack {rand : Nat} {held : Path} {cur : Bytes} {g g' : Globals} {pc pc' : MainPc}
    (h : MainMove rand held cur g pc pc' g') : g'.failStack = g.failStack := by cases h <;> rfl

/-- A worker's candidate files are numbered upwards. -/
theorem stack_le {s t : St} {m : Move} (hst : step E m s = some t) (ho : t.main.over = false) (th : Worker) :
    s.g.failStack th ≤ t.g.failStack th := by
  obtain ⟨-, hover | hm⟩ := step_cases hst
  · rw [hover] at ho; cases ho
  · cases hm with
    | main rand w h => exact (congrFun (main_stack h) th).ge
    | worker th' w h =>
      rcases move_out h with ⟨-, e⟩ | ⟨-, -, e⟩
      · exact (congrFun e th).ge
      · rw [e, Function.update_apply]
        split
        · rename_i heq; rw [heq]; omega
        · exact Nat.le_refl _
    | stuck th' w => exact Nat.le_refl _

theorem stack_le_of_steps {s t : St} (h : ReflTransGen (system E inputPath fs).step s t) (ho : t.main.over = false) (th : Worker) :
    s.g.failStack th ≤ t.g.failStack th := by
  induction h with
  | refl => exact Nat.le_refl _
  | tail _ hst ih =>
    obtain ⟨m, hst⟩ := hst
    exact (ih (step_cases hst).1).trans (stack_le hst ho th)

/-- Without an input nothing is copied. -/
theorem no_input {s : St} (hX : fs (E.key inputPath) = none) (hs : (system E inputPath fs).Reach s) :
    s.main.over = true ∨ s = start inputPath fs := by
  refine System.Reach.invariant (T := system E inputPath fs) (P := fun s => s.main.over = true ∨ s = start inputPath fs)
    (fun s h => Or.inr h) ?_ hs
  intro s t hr hi hst
  obtain ⟨m, hst⟩ := hst
  have hlive := (step_cases hst).1
  obtain rfl := hi.resolve_left (by rw [hlive]; decide)
  cases m with
  | main rand =>
    left
    obtain ⟨-, x, hx, rfl⟩ := step_main hst
    cases hx
    have hrun : byteCountFile E (start inputPath fs).w.own.held (start inputPath fs).w =
        .exit (.stat inputPath) (start inputPath fs).w := by
      simp only [byteCountFile, stat, look_bind, start, hX]; rfl
    simp only [entryTurn, look_bind]
    rw [bind_run, hrun]; rfl
  | worker th =>
    obtain ⟨-, x, hx, -⟩ := step_worker hst
    cases hx

/-- When the main thread selects, every failing test has an index, and its name is stored there. -/
theorem select_filed {s : St} (hs : (system E inputPath fs).Reach s) {r : Int} (hm : s.main = .selecting r) :
    ∃ ps : List (Worker × Nat), ps.Perm (failures s.g) ∧ ps.length = s.g.failN ∧
      (∀ j (h : j < ps.length), Filed E s.g.log.input s.g.inputSize.toNat r.toNat s j ps[j].1 ps[j].2) ∧
      ∀ i j, i < ps.length → j < ps.length → s.g.failArr i = s.g.failArr j → i = j := by
  have ho : s.main.over = false := by rw [hm]; rfl
  have hround : s.main.inRound = some r := by rw [hm]; rfl
  obtain ⟨ps, hps⟩ := reach_listed hs (by rw [hround]; simp)
  obtain ⟨-, ⟨hrs, -, -⟩, -⟩ := reach_round hs hround
  rw [hrs] at hps
  obtain ⟨hquiet, -⟩ := selecting_complete hs hm
  have hno : ∀ th, unindexed (s.workers th) = none ∧ unstored (s.workers th) = none := fun th =>
    no_failing (hquiet.hands th) ((reach_sound hs ho).alive th)
  have hstored : ∀ th j b, unstored (s.workers th) ≠ some (j, b) := fun th j b e => by
    rw [(hno th).2] at e
    cases e
  refine ⟨ps, List.perm_iff_count.mpr ?_, hps.length, ?_, ?_⟩
  · rintro ⟨th, b⟩
    have := hps.counted th b
    rw [(hno th).1] at this
    simpa using this.symm
  · intro j h
    exact (hps.filed j ps[j].1 ps[j].2 (List.getElem?_eq_getElem h)).resolve_left (hstored _ _ _)
  · intro i j hi hj he
    exact hps.apart i j ps[i].1 ps[i].2 ps[j].1 ps[j].2 (List.getElem?_eq_getElem hi) (List.getElem?_eq_getElem hj)
      (hstored _ _ _) (hstored _ _ _) he

/-- Whenever the main thread selects, `fail_arr` below `fail_n` has one entry for each
    failing begin of the round, with different names; entry `j` names a file that holds
    exactly the candidate of its begin, and no worker has that name for its candidate file,
    now or later. Where the names of the copies were free at the start, every copy finds
    its destination absent. -/
theorem failures_recorded {s : St} (hs : (system E inputPath fs).Reach s) :
    (∀ r, s.main = .selecting r →
      (∃ bs : List Nat, bs.length = s.g.failN ∧ bs.Perm ((s.g.log.tried.filter (·.failed)).map Tried.begin) ∧ bs.Nodup ∧
        ∀ j (h : j < bs.length),
          s.w.fs (E.key (s.g.failArr j)) = some (cutOf s.g.inputSize.toNat r.toNat bs[j] s.g.log.input)) ∧
      (∀ i < s.g.failN, ∀ j < s.g.failN, E.key (s.g.failArr i) = E.key (s.g.failArr j) → i = j) ∧
      ∀ j < s.g.failN, ∀ t, ReflTransGen (system E inputPath fs).step s t → t.main.over = false →
        ∀ th, E.key (t.g.outFiles th) ≠ E.key (s.g.failArr j)) ∧
    ((∀ th : Worker, fs (E.key (originFile th)) = none) →
      ∀ i r, s.main = .copying i r → s.w.fs (E.key (originFile i)) = none) := by
  constructor
  · intro r hm
    obtain ⟨ps, hperm, hlength, hfiled, hapart⟩ := select_filed hs hm
    obtain ⟨hquiet, hcomplete⟩ := selecting_complete hs hm
    have hbegins : (ps.map Prod.snd).Perm ((s.g.log.tried.filter (·.failed)).map Tried.begin) := by
      have := hperm.map Prod.snd
      rwa [failures, List.map_map] at this
    refine ⟨⟨ps.map Prod.snd, by rw [List.length_map, hlength], hbegins, ?_, ?_⟩, ?_, ?_⟩
    · -- each begin was tried once
      have htried : (s.g.log.tried.map Tried.begin).Nodup := by
        have h1 := (hcomplete.tried.map Prod.snd).nodup_iff
        rw [hcomplete.taken] at h1
        have h2 := h1.mpr List.nodup_range
        have e : (pool s).tried.map Prod.snd = s.g.log.tried.map Tried.begin := List.map_map
        rwa [e] at h2
      apply hbegins.nodup_iff.mpr
      exact (List.Sublist.map _ List.filter_sublist).nodup htried
    · intro j h
      rw [List.length_map] at h
      obtain ⟨k, hk, -, -, hfile⟩ := hfiled j h
      rw [hk, List.getElem_map]
      exact hfile
    · intro i hi j hj he
      rw [← hlength] at hi hj
      obtain ⟨k, hk, -⟩ := hfiled i hi
      obtain ⟨k', hk', -⟩ := hfiled j hj
      apply hapart i j hi hj
      rw [hk, hk'] at he ⊢
      obtain ⟨e1, e2⟩ := outName_inj E he
      rw [e1, e2]
    · intro j hj t hst hot th he
      rw [← hlength] at hj
      obtain ⟨k, hk, -, hshelved, -⟩ := hfiled j hj
      have hreach : (system E inputPath fs).Reach t := hs.steps hst
      rw [(reach_sound hreach hot).named th, hk] at he
      obtain ⟨rfl, rfl⟩ := outName_inj E he
      have hle := stack_le_of_steps hst hot ps[j].1
      rcases hshelved with hlt | ⟨-, d, hd⟩
      · omega
      · have := hquiet.hands ps[j].1
        rw [show (pool s).hands ps[j].1 = hand (s.workers ps[j].1) from rfl, hd] at this
        rcases this with h | h <;> cases h
  · intro hfree i r hm
    cases hX : fs (E.key inputPath) with
    | none =>
      rcases no_input hX hs with h | rfl
      · rw [hm] at h; cases h
      · cases hm
    | some X =>
      have hfit := reach_fit hX hfree hs
      rw [hm] at hfit
      exact hfit.2.2 ⟨i, hfit.2.1⟩ (Nat.le_refl _)

/-- Two bytes of which the first is enough: one entry, for the cut at 1. -/
theorem failures_recorded_two :
    ∃ (s : St) (bs : List Nat), (system (judging fun c => c.contains 1) "in".toList (soleInput "in".toList [1, 2])).Reach s ∧
      s.main = .selecting 1 ∧ bs.length = 1 ∧ bs.Perm ((s.g.log.tried.filter (·.failed)).map Tried.begin) ∧
      ∀ j (h : j < bs.length), s.w.fs ((judging fun c => c.contains 1).key (s.g.failArr j)) =
        some (cutOf s.g.inputSize.toNat 1 bs[j] s.g.log.input) := by
  have hrun : (System.follow (step (judging fun c => c.contains 1))
      (List.replicate 14 (.main 0) ++ List.replicate 11 (.worker 2) ++ List.replicate 15 (.worker 0) ++ [.main 0])
      (start "in".toList (soleInput "in".toList [1, 2]))).map (fun s => (s.main, s.g.failN)) = some (.selecting 1, 1) := by
    decide +kernel
  obtain ⟨s, hs, he⟩ := Option.map_eq_some_iff.mp hrun
  obtain ⟨hm, hn⟩ := Prod.mk.inj he
  obtain ⟨⟨bs, hlen, hperm, -, hfile⟩, -⟩ := (failures_recorded (follow_reach hs)).1 1 hm
  exact ⟨s, bs, follow_reach hs, hm, hlen.trans hn, hperm, hfile⟩

end DiyDdmin.Range
