/-
  DiyDdmin.Multithread.Rounds — what holds between the steps of the multithreaded `range`.

  `Good D U s T`: the input path's file holds `T`, which is the input of the run or fails;
  each thread of the round, if there is one, is where `Stage` says, or has been joined with
  its candidate still in its file; and taking the leftmost cut from here on leaves `U`.

  `rank` is what every step lowers, `spent` the tests made with those that may still be made.

  Proved: the first entry of `ret_list` is the candidate that leaves out the leftmost range
  of the round whose candidate fails (`first_fails`).
-/

import DiyDdmin.Multithread.Scan
import DiyDdmin.Systems.WorkPool
import DiyDdmin.Reduction.Count
import Mathlib.Data.Prod.Lex

namespace DiyDdmin.Multithread

open Posix Tester Numeric Systems Reduction

inductive Phase where
  | unborn
  | running
  | joined

def MainPc.phase : MainPc → Thread → Phase
  | .creating _ _ _ _ i, th => if th < i then .running else .unborn
  | .scanning _, _ => .running
  | .joining _ _ _ i, th => if th < i ∨ th = own then .joined else .running
  | .selecting _ _, _ => .joined
  | _, _ => .unborn

/-- The length of the ranges. -/
def MainPc.rs : MainPc → Int
  | .looping rs => rs
  | .creating rs _ _ _ _ => rs
  | .scanning rs => rs
  | .joining rs _ _ _ => rs
  | .selecting rs _ => rs
  | _ => 0

section

variable (E : Env) (D : Bytes → Bool)

/-- The round the process is in, over an input path that holds `T`. -/
def round (s : St) (T : Bytes) : Round := ⟨T, .of s.w.fs (E.key s.w.own.held), s.ctl.main.rs.toNat, s.ctl.fileNo⟩

def PhaseAt (R : Round) (i : Thread) (fs : Fs) (pc : ThreadPc) : Phase → Prop
  | .unborn => pc = .absent
  | .running => Stage E D R i fs pc
  | .joined => pc = .absent ∧ ∀ b, R.found D i = some b → fs (R.outKey E i) = some (R.candidate b)

/-- A round of length `rs` over `T` is under way, and `U` is to be left. -/
structure UnderWay (T U : Bytes) (rs : Int) : Prop where
  pos : 0 < rs
  lt : rs < T.length
  left : leftmost D T rs.toNat = U

def MainAt (R : Round) (held : Path) (U : Bytes) : MainPc → Prop
  | .entry => leftmost D R.input (R.size - 1) = U
  | .looping rs => rs < R.size ∧ leftmost D R.input rs.toNat = U
  | .creating rs parts fSize mmapAddr _ => UnderWay D R.input U rs ∧
      parts = (List.range threadN).map (share (R.size - R.rs + 1) threadN (maxRangeN R.size R.rs).toNat) ∧
      fSize = R.size ∧ mmapAddr = R.mapping
  | .scanning rs => UnderWay D R.input U rs
  | .joining rs failPath retList i => UnderWay D R.input U rs ∧ i < own ∧ failPath = R.result D own ∧
      retList = ((List.finRange threadN).take i).filterMap (R.result D)
  | .selecting rs retList => UnderWay D R.input U rs ∧ retList = (List.finRange threadN).filterMap (R.result D)
  | .ret path => path = held ∧ R.input = U
  | .exited _ => False
  | .hung => False
  | .undefined => False

structure Good (X U : Bytes) (s : St) (T : Bytes) : Prop where
  genuine : Genuine D X T
  file : s.w.fs (E.key s.w.own.held) = some T
  small : T.length ≤ 2 ^ 24
  apart : ∀ j, s.ctl.fileNo ≤ j → ¬ Own E j (E.key s.w.own.held)
  threads : ∀ i, PhaseAt E D (round E s T) i s.w.fs (s.ctl.threads i) (s.ctl.main.phase i)
  main : MainAt D (round E s T) s.w.own.held U s.ctl.main

end

/-! ## Rank -/

def MainPc.era : MainPc → Nat
  | .entry => 2
  | .looping _ => 1
  | .creating _ _ _ _ _ => 1
  | .scanning _ => 1
  | .joining _ _ _ _ => 1
  | .selecting _ _ => 1
  | .ret _ => 0
  | .exited _ => 0
  | .hung => 0
  | .undefined => 0

/-- What is left of the main thread's part in a round over `n` bytes; a thread that starts
    has a rank of `7 * n + 2` at most. -/
def MainPc.rank (n : Nat) : MainPc → Nat
  | .looping _ => (7 * n + 3) * threadN + 13
  | .creating _ _ _ _ i => (7 * n + 3) * (threadN - i) + 12
  | .scanning _ => 12
  | .joining _ _ _ i => 11 - i
  | .selecting _ _ => 1
  | _ => 0

/-- The size of the file the input path names. -/
def heldSize (E : Env) (s : St) : Nat := ((s.w.fs (E.key s.w.own.held)).getD []).length

def rest (n : Nat) (c : Ctl) : Nat := c.main.rank n + ∑ i, (c.threads i).rank

def rank (E : Env) (s : St) : ℕ ×ₗ ℕ ×ₗ ℕ ×ₗ ℕ :=
  toLex (s.ctl.main.era, toLex (heldSize E s, toLex (s.ctl.main.rs.toNat, rest (heldSize E s) s.ctl)))

section

variable {E : Env} {s t : St}

theorem rank_lt_of_era (h : t.ctl.main.era < s.ctl.main.era) : rank E t < rank E s := Prod.Lex.toLex_lt_toLex.mpr (Or.inl h)

theorem rank_lt_of_size (h1 : t.ctl.main.era = s.ctl.main.era) (h : heldSize E t < heldSize E s) : rank E t < rank E s :=
  Prod.Lex.toLex_lt_toLex.mpr (Or.inr ⟨h1, Prod.Lex.toLex_lt_toLex.mpr (Or.inl h)⟩)

theorem rank_lt_of_length (h1 : t.ctl.main.era = s.ctl.main.era) (h2 : heldSize E t = heldSize E s)
    (h : t.ctl.main.rs.toNat < s.ctl.main.rs.toNat) : rank E t < rank E s :=
  Prod.Lex.toLex_lt_toLex.mpr (Or.inr ⟨h1, Prod.Lex.toLex_lt_toLex.mpr (Or.inr ⟨h2, Prod.Lex.toLex_lt_toLex.mpr (Or.inl h)⟩)⟩)

theorem rank_lt_of_rest (h1 : t.ctl.main.era = s.ctl.main.era) (h2 : heldSize E t = heldSize E s)
    (h3 : t.ctl.main.rs = s.ctl.main.rs) (h : rest (heldSize E s) t.ctl < rest (heldSize E s) s.ctl) : rank E t < rank E s :=
  Prod.Lex.toLex_lt_toLex.mpr (Or.inr ⟨h1, Prod.Lex.toLex_lt_toLex.mpr
    (Or.inr ⟨h2, Prod.Lex.toLex_lt_toLex.mpr (Or.inr ⟨congrArg Int.toNat h3, by rw [h2]; exact h⟩)⟩)⟩)

/-- One thread goes from `pc` to `pc'`, the main thread to `main`. -/
theorem rest_put (n : Nat) (c : Ctl) (i : Thread) (pc : ThreadPc) (main : MainPc) :
    rest n ((c.put i pc).goto main) + (c.threads i).rank + c.main.rank n = rest n c + pc.rank + main.rank n := by
  have := WorkPool.sum_update ThreadPc.rank c.threads i pc
  simp only [rest, Ctl.put, Ctl.goto]
  omega

end

/-! ## Tests -/

/-- The tests the main thread's part in a round over `n` bytes leaves to be made, `f n r`
    being those from ranges of length `r` on. -/
def MainPc.due (f : Nat → Nat → Nat) (n : Nat) : MainPc → Nat
  | .entry => f n (n - 1)
  | .looping rs => f n rs.toNat
  | .creating rs _ _ _ i => f n rs.toNat - bound (n - rs.toNat + 1) threadN i
  | .scanning rs => f n rs.toNat - (n - rs.toNat + 1)
  | .joining rs _ _ _ => f n rs.toNat - (n - rs.toNat + 1)
  | .selecting rs _ => f n rs.toNat - (n - rs.toNat + 1)
  | _ => 0

/-- The places of thread `i`. -/
def shareSize (n : Nat) (rs : Int) (i : Thread) : Nat := size (n - rs.toNat + 1) threadN i

/-- The tests made, and those still to be made. -/
def spent (E : Env) (f : Nat → Nat → Nat) (s : St) : Nat :=
  s.w.own.tests.length + s.ctl.main.due f (heldSize E s) +
    ∑ i, (s.ctl.threads i).left (shareSize (heldSize E s) s.ctl.main.rs i)

/-- `f` pays for a round that finds nothing, and for one that finds something if anything
    fails at all. -/
structure Allows (D : Bytes → Bool) (f : Nat → Nat → Nat) : Prop where
  next : ∀ n r, 0 < r → r < n → n - r + 1 + f n (r - 1) ≤ f n r
  found : ∀ n r, 0 < r → r < n → (∃ c, D c = true) → n - r + 1 + f (n - r) (n - r - 1) ≤ f n r

/-- Nothing fails, and `f` is what that takes. -/
structure Exact (D : Bytes → Bool) (f : Nat → Nat → Nat) : Prop where
  passes : ∀ c, D c = false
  none : ∀ n, f n 0 = 0
  next : ∀ n r, 0 < r → r < n → n - r + 1 + f n (r - 1) = f n r

section

variable {E : Env} {f : Nat → Nat → Nat}

/-- Between the rounds no thread has anything to test. -/
theorem spent_between {c : Ctl} {w : World Vars} {n : Nat} (hn : heldSize E ⟨c, w⟩ = n) (h : ∀ i, c.threads i = .absent) :
    spent E f ⟨c, w⟩ = w.own.tests.length + c.main.due f n := by
  have hnone : ∑ i, (c.threads i).left (shareSize (heldSize E ⟨c, w⟩) c.main.rs i) = 0 :=
    Finset.sum_eq_zero fun i _ => by rw [h i]; rfl
  rw [← hn]
  exact congrArg (_ + ·) hnone

theorem left_put (m : Thread → Nat) (threads : Thread → ThreadPc) (i : Thread) (pc : ThreadPc) :
    ∑ j, (Function.update threads i pc j).left (m j) + (threads i).left (m i) = ∑ j, (threads j).left (m j) + pc.left (m i) := by
  have h := WorkPool.sum_update id (fun j => (threads j).left (m j)) i (pc.left (m i))
  have hupd : (fun j => (Function.update threads i pc j).left (m j)) =
      Function.update (fun j => (threads j).left (m j)) i (pc.left (m i)) := by
    funext j
    by_cases hj : j = i
    · subst hj
      rw [Function.update_self, Function.update_self]
    · rw [Function.update_of_ne hj, Function.update_of_ne hj]
  simp only [id] at h
  rw [← hupd] at h
  exact h

/-- One thread goes to `pc`, the main thread to `main`, over the same input. -/
theorem spent_put (f : Nat → Nat → Nat) (c : Ctl) {w v : World Vars} (i : Thread) (pc : ThreadPc) (main : MainPc) {n : Nat} (hn : heldSize E ⟨c, w⟩ = n)
    (hsize : heldSize E ⟨(c.put i pc).goto main, v⟩ = n) (hrs : main.rs = c.main.rs) :
    spent E f ⟨(c.put i pc).goto main, v⟩ + (w.own.tests.length + c.main.due f n + (c.threads i).left (shareSize n c.main.rs i)) =
      spent E f ⟨c, w⟩ + (v.own.tests.length + main.due f n + pc.left (shareSize n c.main.rs i)) := by
  have hleft := left_put (shareSize n c.main.rs) c.threads i pc
  unfold spent
  rw [hn, hsize]
  change v.own.tests.length + main.due f n + ∑ j, (Function.update c.threads i pc j).left (shareSize n main.rs j) + _ =
    w.own.tests.length + c.main.due f n + ∑ j, (c.threads j).left (shareSize n c.main.rs j) + _
  rw [hrs]
  omega

end

/-! ## The first failing candidate -/

section

variable {D : Bytes → Bool} {R : Round}

/-- The threads' first failing places, in the order of the threads: the first is the first
    of the round. -/
theorem findSome_found : (List.finRange threadN).findSome? (R.found D) = firstCut D R.rs R.input := by
  have hval : (List.finRange threadN).map Fin.val = List.range threadN := by decide
  have hflat : (parts threadN (List.range (R.size - R.rs + 1))).flatten = List.range (R.size - R.rs + 1) :=
    parts_flatten (by decide)
  change _ = (List.range (R.size - R.rs + 1)).find? fun b => D (R.candidate b)
  rw [← hflat, List.find?_flatten, parts, List.findSome?_map, ← hval, List.findSome?_map]
  rfl

theorem results_nil (h : (List.finRange threadN).filterMap (R.result D) = []) : firstCut D R.rs R.input = none := by
  rw [← findSome_found, List.findSome?_eq_none_iff]
  intro i hi
  have := List.filterMap_eq_nil_iff.mp h i hi
  simpa only [Round.result, Option.map_eq_none_iff] using this

/-- The first entry of `ret_list` is the candidate that leaves out the leftmost range that
    can be left out. -/
theorem first_fails {p : Path} {ps : List Path} (h : (List.finRange threadN).filterMap (R.result D) = p :: ps) :
    ∃ (i : Thread) (b : Nat), p = partFile (R.fileNo + i) ∧ R.found D i = some b ∧ firstCut D R.rs R.input = some b := by
  have hhead : (List.finRange threadN).findSome? (R.result D) = some p := by
    rw [← List.head?_filterMap, h, List.head?_cons]
  obtain ⟨l, i, l', hl, hi, hbefore⟩ := List.findSome?_eq_some_iff.mp hhead
  obtain ⟨b, hb, hp⟩ := Option.map_eq_some_iff.mp hi
  refine ⟨i, b, hp.symm, hb, ?_⟩
  rw [← findSome_found, List.findSome?_eq_some_iff]
  refine ⟨l, i, l', hl, hb, ?_⟩
  intro j hj
  have := hbefore j hj
  simpa only [Round.result, Option.map_eq_none_iff] using this

/-- Joining one more thread. -/
theorem results_next {i : Thread} :
    ((List.finRange threadN).take i).filterMap (R.result D) ++ (R.result D i).toList =
      ((List.finRange threadN).take (i + 1)).filterMap (R.result D) := by
  have hget : (List.finRange threadN)[(i : Nat)]? = some i := by
    rw [List.getElem?_eq_getElem (by rw [List.length_finRange]; exact i.isLt), List.getElem_finRange]
    rfl
  rw [List.take_add_one, hget, Option.toList_some, List.filterMap_append, List.filterMap_cons]
  cases R.result D i <;> rfl

end

end DiyDdmin.Multithread
