/-
  DiyDdmin.Posix.Flow — streams that may stop on the way.

  A source is what reading from it comes to, event by event: a byte, or a stop, where a
  read meets the end of the file or an error and delivers no more. A stop may be followed
  by other bytes, as after an error that passes, or by stops for ever. A taker is what
  writing comes to: byte by byte, whether it is taken; the first that is not ends a write.

  Proved: a read delivers the bytes of a stretch of events, no longer than it takes to come
  by what it asked for (`source_read`); where as many bytes remain, the rest of them come
  after it (`Comes.later`); a write that is taken whole, and one that is not (`write_all`,
  `write_short`).
-/

import Mathlib.Data.List.Basic

namespace DiyDdmin.Posix

abbrev Source (α : Type) := Nat → Option α

section

variable {α : Type}

/-- The source after `m` events. -/
def Source.later (s : Source α) (m : Nat) : Source α := fun i => s (m + i)

/-- The bytes among the first `m` events. -/
def Source.bytes (s : Source α) : Nat → List α
  | 0 => []
  | m + 1 => (s 0).toList ++ bytes (s.later 1) m

/-- `fread` of `n` bytes. -/
def Source.read (s : Source α) : Nat → List α × Source α
  | 0 => ([], s)
  | n + 1 => match s 0 with
    | none => ([], s.later 1)
    | some b => (b :: (read (s.later 1) n).1, (read (s.later 1) n).2)

/-- `n` bytes or more are still to come. -/
def Source.Remains (s : Source α) (n : Int) : Prop := ∃ m, n ≤ (s.bytes m).length

/-- After `m` events exactly `n` bytes have come, the last event being one of them. -/
structure Source.Comes (s : Source α) (n m : Nat) : Prop where
  length : (s.bytes m).length = n
  byte : m = 0 ∨ s (m - 1) ≠ none

/-- The bytes taken so far, and whether each of the next ones will be. -/
structure Taker (α : Type) where
  took : List α
  free : Nat → Bool

/-- The taker once `bs` has been taken. -/
def Taker.after (o : Taker α) (bs : List α) : Taker α := ⟨o.took ++ bs, fun i => o.free (bs.length + i)⟩

/-- `fwrite` of `bs`, with how many were taken. -/
def Taker.write (o : Taker α) : List α → Nat × Taker α
  | [] => (0, o)
  | b :: bs =>
    if o.free 0 then ((write (o.after [b]) bs).1 + 1, (write (o.after [b]) bs).2)
    else (0, ⟨o.took, fun i => o.free (1 + i)⟩)

/-- The next `n` bytes will be taken. -/
def Taker.Free (o : Taker α) (n : Nat) : Prop := ∀ i, i < n → o.free i = true

/-! ## Reading -/

theorem later_later (s : Source α) (j i : Nat) : (s.later j).later i = s.later (j + i) := by
  funext k
  simp only [Source.later, Nat.add_assoc]

@[simp] theorem later_zero (s : Source α) : s.later 0 = s := by
  funext k
  simp only [Source.later, Nat.zero_add]

theorem bytes_add (s : Source α) (j i : Nat) : s.bytes (j + i) = s.bytes j ++ (s.later j).bytes i := by
  induction j generalizing s with
  | zero => rw [Nat.zero_add, later_zero]; rfl
  | succ j ih =>
    rw [Nat.add_right_comm, Source.bytes, Source.bytes, ih, later_later, List.append_assoc, Nat.add_comm 1 j]

theorem bytes_mono (s : Source α) {m m' : Nat} (h : m ≤ m') : (s.bytes m).length ≤ (s.bytes m').length := by
  rw [← Nat.add_sub_cancel' h, bytes_add, List.length_append]
  omega

/-- A read takes the events up to the last byte it asked for, or up to a stop before. -/
theorem source_read (s : Source α) (n : Nat) :
    ∃ j, s.read n = (s.bytes j, s.later j) ∧ (s.bytes j).length ≤ n ∧ (0 < n → 0 < j) ∧
      ∀ m, n ≤ (s.bytes m).length → j ≤ m := by
  induction n generalizing s with
  | zero => exact ⟨0, by rw [Source.read, later_zero]; rfl, Nat.le_refl _, fun h => h, fun m _ => Nat.zero_le m⟩
  | succ n ih =>
    cases hs : s 0 with
    | none =>
      refine ⟨1, ?_, ?_, fun _ => Nat.one_pos, ?_⟩
      · simp only [Source.read, hs, Source.bytes, Option.toList_none, List.nil_append]
      · simp only [Source.bytes, hs, Option.toList_none, List.nil_append, List.length_nil, Nat.zero_le]
      · intro m hm
        cases m with
        | zero => simp only [Source.bytes, List.length_nil] at hm; omega
        | succ m => omega
    | some b =>
      obtain ⟨j, hread, hle, -, hleast⟩ := ih (s.later 1)
      have hbytes : ∀ m, s.bytes (m + 1) = b :: (s.later 1).bytes m := fun m => by
        simp only [Source.bytes, hs, Option.toList_some, List.singleton_append]
      refine ⟨j + 1, ?_, ?_, fun _ => Nat.succ_pos j, ?_⟩
      · rw [hbytes]
        simp only [Source.read, hs, hread, later_later, Nat.add_comm 1 j]
      · rw [hbytes, List.length_cons]
        omega
      · intro m hm
        cases m with
        | zero => simp only [Source.bytes, List.length_nil] at hm; omega
        | succ m =>
          rw [hbytes, List.length_cons] at hm
          have := hleast m (by omega)
          omega

theorem bytes_succ (s : Source α) (m : Nat) : s.bytes (m + 1) = s.bytes m ++ (s m).toList := by
  rw [bytes_add]
  simp only [Source.bytes, Source.later, Nat.add_zero, List.append_nil]

theorem remains_nonpos (s : Source α) {n : Int} (h : n ≤ 0) : s.Remains n := ⟨0, by omega⟩

/-- What remains after `j` events is what remained, less what they delivered. -/
theorem remains_later (s : Source α) (j : Nat) (n : Int) : (s.later j).Remains (n - (s.bytes j).length) ↔ s.Remains n := by
  constructor
  · intro h
    obtain ⟨m, hm⟩ := h
    refine ⟨j + m, ?_⟩
    rw [bytes_add, List.length_append]
    omega
  · intro h
    obtain ⟨m, hm⟩ := h
    refine ⟨m, ?_⟩
    have hle := bytes_mono s (Nat.le_add_left m j)
    rw [bytes_add, List.length_append] at hle
    omega

theorem Source.Remains.mono {s : Source α} {n n' : Int} (h : s.Remains n) (hle : n' ≤ n) : s.Remains n' := by
  obtain ⟨m, hm⟩ := h
  exact ⟨m, by omega⟩

theorem Source.Comes.zero {s : Source α} {m : Nat} (h : s.Comes 0 m) : m = 0 := by
  cases m with
  | zero => rfl
  | succ m =>
    have hlen := h.length
    have hlast := h.byte.resolve_left (Nat.succ_ne_zero m)
    rw [bytes_succ, List.length_append] at hlen
    rw [Nat.add_sub_cancel] at hlast
    cases hs : s m with
    | none => exact absurd hs hlast
    | some b =>
      rw [hs, Option.toList_some, List.length_singleton] at hlen
      omega

/-- Where `n` bytes or more remain, a last event brings the `n`-th. -/
theorem Source.Remains.comes {s : Source α} {n : Nat} (h : s.Remains n) : ∃ m, s.Comes n m := by
  obtain ⟨k, hk⟩ := h
  induction k with
  | zero =>
    simp only [Source.bytes, List.length_nil] at hk
    exact ⟨0, ⟨by simp only [Source.bytes, List.length_nil]; omega, Or.inl rfl⟩⟩
  | succ k ih =>
    by_cases hle : (n : Int) ≤ (s.bytes k).length
    · exact ih hle
    · rw [bytes_succ, List.length_append] at hk
      cases hs : s k with
      | none =>
        rw [hs, Option.toList_none, List.length_nil] at hk
        omega
      | some b =>
        rw [hs, Option.toList_some, List.length_singleton] at hk
        refine ⟨k + 1, ⟨?_, Or.inr (by rw [Nat.add_sub_cancel, hs]; exact Option.some_ne_none b)⟩⟩
        rw [bytes_succ, hs, List.length_append, Option.toList_some, List.length_singleton]
        omega

/-- After `j` of the events that bring `n` bytes, the others bring the rest. -/
theorem Source.Comes.later {s : Source α} {n m j : Nat} (h : s.Comes n m) (hj : j ≤ m) :
    (s.later j).Comes (n - (s.bytes j).length) (m - j) := by
  obtain ⟨i, rfl⟩ := Nat.exists_eq_add_of_le hj
  rw [Nat.add_sub_cancel_left]
  constructor
  · rw [← h.length, bytes_add, List.length_append, Nat.add_sub_cancel_left]
  · rcases Nat.eq_zero_or_pos i with hi | hi
    · exact Or.inl hi
    · refine Or.inr ?_
      have hlast := h.byte.resolve_left (by omega)
      rw [show j + i - 1 = j + (i - 1) by omega] at hlast
      exact hlast

/-! ## Writing -/

theorem after_nil (o : Taker α) : o.after [] = o := by
  simp only [Taker.after, List.append_nil, List.length_nil, Nat.zero_add]

theorem after_after (o : Taker α) (bs bs' : List α) : (o.after bs).after bs' = o.after (bs ++ bs') := by
  simp only [Taker.after, List.append_assoc, List.length_append, Nat.add_assoc]

theorem free_add {o : Taker α} {bs : List α} {n : Nat} : o.Free (bs.length + n) ↔ o.Free bs.length ∧ (o.after bs).Free n := by
  constructor
  · intro h
    exact ⟨fun i hi => h i (by omega), fun i hi => h (bs.length + i) (by omega)⟩
  · intro h i hi
    obtain ⟨h1, h2⟩ := h
    rcases Nat.lt_or_ge i bs.length with hlt | hge
    · exact h1 i hlt
    · have := h2 (i - bs.length) (by omega)
      simp only [Taker.after, Nat.add_sub_cancel' hge] at this
      exact this

theorem write_all {o : Taker α} {bs : List α} (h : o.Free bs.length) : o.write bs = (bs.length, o.after bs) := by
  induction bs generalizing o with
  | nil => rw [Taker.write, after_nil]; rfl
  | cons b bs ih =>
    rw [List.length_cons, Nat.add_comm] at h
    have hsplit : o.Free [b].length ∧ (o.after [b]).Free bs.length := free_add.mp h
    obtain ⟨h0, hrest⟩ := hsplit
    rw [Taker.write, if_pos (h0 0 Nat.one_pos), ih hrest, after_after, List.singleton_append, List.length_cons]

/-- A write counts what it takes, and takes no more than it is given; all of it only where
    the next places are free. -/
theorem write_short (o : Taker α) (bs : List α) :
    (o.write bs).2.took.length = o.took.length + (o.write bs).1 ∧ (o.write bs).1 ≤ bs.length ∧
      ((o.write bs).1 = bs.length → o.Free bs.length) := by
  induction bs generalizing o with
  | nil => exact ⟨rfl, Nat.le_refl _, fun _ i hi => absurd hi (Nat.not_lt_zero i)⟩
  | cons b bs ih =>
    rw [Taker.write]
    by_cases h0 : o.free 0 = true
    · rw [if_pos h0]
      obtain ⟨htook, hle, hall⟩ := ih (o.after [b])
      refine ⟨?_, ?_, ?_⟩
      · have hone : (o.after [b]).took.length = o.took.length + 1 := by
          rw [Taker.after, List.length_append, List.length_singleton]
        simp only
        omega
      · simp only [List.length_cons]
        omega
      · intro h
        simp only [List.length_cons] at h
        rw [List.length_cons, Nat.add_comm]
        have hone : o.Free [b].length := by
          intro i hi
          obtain rfl : i = 0 := by simpa using hi
          exact h0
        exact free_add.mpr ⟨hone, hall (by omega)⟩
    · rw [if_neg h0]
      refine ⟨rfl, Nat.zero_le _, ?_⟩
      intro h
      simp only [List.length_cons] at h
      omega

end

end DiyDdmin.Posix
