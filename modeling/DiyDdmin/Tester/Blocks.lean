/-
  DiyDdmin.Tester.Blocks — the loops that copy a number of bytes from one stream to another
  block by block: `read_and_write` (`src/range.c`), and the three written out in `ddmin`
  and `ddmin_dir` (`src/ddmin.c`).

  The streams are as they come: the source may stop before the bytes are there, at its end
  or at an error that passes or does not, and the taker may refuse bytes. A turn is one
  `fread` and one `fwrite`. `read_and_write` exits where a write comes up short; the others
  do not look at what `fwrite` returns, and none looks at whether a read came up empty.

  Proved: the loop ends, with exactly the next bytes copied if that many remain, exactly
  if that many remain and the taker takes them, or, in `read_and_write`, if fewer remain
  and it refuses one of those (`block_loops_iff`). Over a file a loop that does not end is
  one that `copyLoop`, with which the minimizers are modelled, hangs in
  (`copyLoop_hangs_iff`).
-/

import DiyDdmin.Posix.Flow
import DiyDdmin.Tester.Candidate
import DiyDdmin.Systems.Reach

namespace DiyDdmin.Tester.Blocks

open Posix Systems

/-- `while (n > 0)`, with how much a turn asks for, and whether a short write ends the
    process. -/
structure BlockLoop where
  block : Int → Int
  checks : Bool
  sized : ∀ n, block n = min n 2048

/-- `read_and_write` -/
def readAndWriteLoop : BlockLoop where
  block n := if n > 2048 then 2048 else n
  checks := true
  sized n := by split <;> omega

/-- `while (_part_size > 0)` -/
def subsetLoop : BlockLoop where
  block partSize := if partSize < 2048 then partSize else 2048
  checks := false
  sized partSize := by split <;> omega

/-- `while (c_start > 0)` -/
def prefixLoop : BlockLoop where
  block cStart := if cStart < 2048 then cStart else 2048
  checks := false
  sized cStart := by split <;> omega

/-- `while (_f_size > 0)` -/
def postfixLoop : BlockLoop where
  block fSize := if fSize < 2048 then fSize else 2048
  checks := false
  sized fSize := by split <;> omega

inductive Pc where
  | looping (n : Int)
  | returned
  /-- `ERROR on write` -/
  | exited
  deriving DecidableEq

structure St where
  pc : Pc
  inFp : Source UInt8
  outFp : Taker UInt8

def next (l : BlockLoop) (s : St) : Option St :=
  match s.pc with
  | .looping n =>
    if 0 < n then
      let r := s.inFp.read (l.block n).toNat
      let w := s.outFp.write r.1
      if l.checks = true ∧ r.1.length ≠ w.1 then some ⟨.exited, r.2, w.2⟩
      else some ⟨.looping (n - r.1.length), r.2, w.2⟩
    else some ⟨.returned, s.inFp, s.outFp⟩
  | _ => none

/-- The loop on `n` bytes. -/
def copying (l : BlockLoop) (n : Int) (inFp : Source UInt8) (outFp : Taker UInt8) : Machine St :=
  ⟨⟨.looping n, inFp, outFp⟩, next l⟩

/-! ## One turn -/

theorem next_done {l : BlockLoop} {n : Int} (hn : n ≤ 0) (inFp : Source UInt8) (outFp : Taker UInt8) :
    next l ⟨.looping n, inFp, outFp⟩ = some ⟨.returned, inFp, outFp⟩ := by
  simp only [next]
  rw [if_neg (by omega)]

/-- The state after a turn that reads `j` events. -/
def turned (l : BlockLoop) (n : Int) (inFp : Source UInt8) (outFp : Taker UInt8) (j : Nat) : St :=
  if l.checks = true ∧ (inFp.bytes j).length ≠ (outFp.write (inFp.bytes j)).1 then
    ⟨.exited, inFp.later j, (outFp.write (inFp.bytes j)).2⟩
  else ⟨.looping (n - (inFp.bytes j).length), inFp.later j, (outFp.write (inFp.bytes j)).2⟩

/-- A turn reads a stretch of events, at least one, and none beyond the bytes it needs. -/
theorem next_turn (l : BlockLoop) {n : Int} (hn : 0 < n) (inFp : Source UInt8) (outFp : Taker UInt8) :
    ∃ j, 0 < j ∧ ((inFp.bytes j).length : Int) ≤ n ∧ (∀ m, n ≤ (inFp.bytes m).length → j ≤ m) ∧
      next l ⟨.looping n, inFp, outFp⟩ = some (turned l n inFp outFp j) := by
  have hsize := l.sized n
  obtain ⟨j, hread, hle, hpos, hleast⟩ := source_read inFp (l.block n).toNat
  refine ⟨j, hpos (by omega), by omega, fun m hm => hleast m (by omega), ?_⟩
  simp only [next]
  rw [if_pos hn, hread, turned, apply_ite some]

/-- A turn towards bytes that come: what is left after it still comes. -/
theorem turn_comes (l : BlockLoop) {n m : Nat} (hn : 0 < n) {inFp : Source UInt8} (h : inFp.Comes n m) (outFp : Taker UInt8) :
    ∃ j, 0 < j ∧ j ≤ m ∧ (inFp.bytes j).length ≤ n ∧ (inFp.later j).Comes (n - (inFp.bytes j).length) (m - j) ∧
      next l ⟨.looping n, inFp, outFp⟩ = some (turned l n inFp outFp j) := by
  obtain ⟨j, hj, hle, hleast, hnext⟩ := next_turn l (show 0 < (n : Int) by omega) inFp outFp
  have hjm : j ≤ m := hleast m (by rw [h.length])
  exact ⟨j, hj, hjm, by omega, h.later hjm, hnext⟩

theorem turned_free (l : BlockLoop) (n : Int) {inFp : Source UInt8} {outFp : Taker UInt8} {j : Nat}
    (h : outFp.Free (inFp.bytes j).length) :
    turned l n inFp outFp j = ⟨.looping (n - (inFp.bytes j).length), inFp.later j, outFp.after (inFp.bytes j)⟩ := by
  unfold turned
  rw [write_all h, if_neg (by simp)]

theorem turned_unchecked {l : BlockLoop} (hc : l.checks = false) (n : Int) (inFp : Source UInt8) (outFp : Taker UInt8) (j : Nat) :
    turned l n inFp outFp j =
      ⟨.looping (n - (inFp.bytes j).length), inFp.later j, (outFp.write (inFp.bytes j)).2⟩ := by
  unfold turned
  rw [if_neg (by simp [hc])]

theorem turned_refused {l : BlockLoop} (hc : l.checks = true) (n : Int) {inFp : Source UInt8} {outFp : Taker UInt8} {j : Nat}
    (h : ¬ outFp.Free (inFp.bytes j).length) : (turned l n inFp outFp j).pc = .exited := by
  have hshort : (inFp.bytes j).length ≠ (outFp.write (inFp.bytes j)).1 := fun he =>
    h ((write_short outFp (inFp.bytes j)).2.2 he.symm)
  unfold turned
  rw [if_pos ⟨hc, hshort⟩]

/-! ## Whole runs -/

theorem ends_at {l : BlockLoop} {s : St} (h : s.pc = .returned ∨ s.pc = .exited) : Machine.Ends ⟨s, next l⟩ s := by
  refine ⟨.init, ?_⟩
  change next l s = none
  rcases h with h | h <;> simp only [next, h]

/-- Where the bytes come and are taken, the loop copies them and reads nothing more. -/
theorem run_free (l : BlockLoop) : ∀ (m n : Nat) (inFp : Source UInt8) (outFp : Taker UInt8), inFp.Comes n m → outFp.Free n →
    (copying l n inFp outFp).Ends ⟨.returned, inFp.later m, outFp.after (inFp.bytes m)⟩ := by
  intro m
  induction m using Nat.strongRecOn with
  | ind m ih =>
    intro n inFp outFp hm hfree
    rcases Nat.eq_zero_or_pos n with rfl | hn
    · obtain rfl := hm.zero
      rw [later_zero, Source.bytes, after_nil]
      exact Machine.Ends.of_next (next_done (Int.le_refl _) inFp outFp) (ends_at (Or.inl rfl))
    · obtain ⟨j, hj, hjm, hle, hbytes, hnext⟩ := turn_comes l hn hm outFp
      obtain ⟨hnow, hlater⟩ := free_add.mp (show outFp.Free ((inFp.bytes j).length + (n - (inFp.bytes j).length)) by
        rwa [Nat.add_sub_cancel' (by omega)])
      rw [turned_free l n hnow, ← Int.ofNat_sub (by omega)] at hnext
      have hrest := ih (m - j) (by omega) (n - (inFp.bytes j).length) (inFp.later j) (outFp.after (inFp.bytes j)) hbytes hlater
      rw [later_later, after_after, ← bytes_add, Nat.add_sub_cancel' hjm] at hrest
      exact Machine.Ends.of_next hnext hrest

/-- A loop that does not look at its writes comes to its end where the bytes come; it has
    copied as many as were asked for only where they were all taken. -/
theorem run_unchecked {l : BlockLoop} (hc : l.checks = false) : ∀ (m n : Nat) (inFp : Source UInt8) (outFp : Taker UInt8),
    inFp.Comes n m → ∃ o, (copying l n inFp outFp).Ends ⟨.returned, inFp.later m, o⟩ ∧
      o.took.length ≤ outFp.took.length + n ∧ (o.took.length = outFp.took.length + n → outFp.Free n) := by
  intro m
  induction m using Nat.strongRecOn with
  | ind m ih =>
    intro n inFp outFp hm
    rcases Nat.eq_zero_or_pos n with rfl | hn
    · obtain rfl := hm.zero
      rw [later_zero]
      exact ⟨outFp, Machine.Ends.of_next (next_done (Int.le_refl _) inFp outFp) (ends_at (Or.inl rfl)), Nat.le_refl _,
        fun _ i hi => absurd hi (Nat.not_lt_zero i)⟩
    · obtain ⟨j, hj, hjm, hle, hbytes, hnext⟩ := turn_comes l hn hm outFp
      rw [turned_unchecked hc, ← Int.ofNat_sub (by omega)] at hnext
      obtain ⟨htook, hcount, hall⟩ := write_short outFp (inFp.bytes j)
      obtain ⟨o, hrest, hlen, hfree⟩ := ih (m - j) (by omega) (n - (inFp.bytes j).length) (inFp.later j)
        (outFp.write (inFp.bytes j)).2 hbytes
      rw [later_later, Nat.add_sub_cancel' hjm] at hrest
      refine ⟨o, Machine.Ends.of_next hnext hrest, by omega, ?_⟩
      intro heq
      -- the first write was whole, so the rest is taken where it left off
      have hnow := hall (by omega)
      have hlater := hfree (by omega)
      rw [write_all hnow] at hlater
      have hboth := free_add.mpr ⟨hnow, hlater⟩
      rwa [Nat.add_sub_cancel' (by omega)] at hboth

/-- A loop that looks at its writes exits where a byte it comes to is refused. -/
theorem run_refused {l : BlockLoop} (hc : l.checks = true) : ∀ (m k : Nat) (n : Int) (inFp : Source UInt8) (outFp : Taker UInt8),
    k ≤ (inFp.bytes m).length → (k : Int) ≤ n → ¬ outFp.Free k → ∃ t, (copying l n inFp outFp).Ends t ∧ t.pc = .exited := by
  intro m
  induction m using Nat.strongRecOn with
  | ind m ih =>
    intro k n inFp outFp hm hk hrefused
    have hpos : 0 < k := by
      rcases Nat.eq_zero_or_pos k with rfl | hpos
      · exact absurd (fun i hi => absurd hi (Nat.not_lt_zero i)) hrefused
      · exact hpos
    obtain ⟨j, hj, hle, -, hnext⟩ := next_turn l (show 0 < n by omega) inFp outFp
    by_cases hnow : outFp.Free (inFp.bytes j).length
    · have hlt : (inFp.bytes j).length < k := by
        by_contra hge
        exact hrefused fun i hi => hnow i (by omega)
      have hjm : j ≤ m := by
        by_contra hgt
        have hmono := bytes_mono inFp (show m ≤ j by omega)
        omega
      rw [turned_free l n hnow] at hnext
      have hlater : ¬ (outFp.after (inFp.bytes j)).Free (k - (inFp.bytes j).length) := by
        intro h
        have hboth := free_add.mpr ⟨hnow, h⟩
        rw [Nat.add_sub_cancel' (by omega)] at hboth
        exact hrefused hboth
      have hbytes : k - (inFp.bytes j).length ≤ ((inFp.later j).bytes (m - j)).length := by
        have hadd := congrArg List.length (bytes_add inFp j (m - j))
        rw [Nat.add_sub_cancel' hjm, List.length_append] at hadd
        omega
      obtain ⟨t, ht, hpc⟩ := ih (m - j) (by omega) (k - (inFp.bytes j).length) (n - (inFp.bytes j).length) (inFp.later j)
        (outFp.after (inFp.bytes j)) hbytes (by omega) hlater
      exact ⟨t, Machine.Ends.of_next hnext ht, hpc⟩
    · have hpc := turned_refused hc n hnow
      exact ⟨_, Machine.Ends.of_next hnext (ends_at (Or.inr hpc)), hpc⟩

/-- Where fewer bytes remain than the loop waits for, and none of them ends the process,
    it goes round for ever. -/
structure Stalled (l : BlockLoop) (s : St) : Prop where
  waits : ∃ n, s.pc = .looping n ∧ ¬ s.inFp.Remains n
  taken : l.checks = true → ∀ k : Nat, s.inFp.Remains k → s.outFp.Free k

theorem Stalled.next {l : BlockLoop} {s t : St} (h : Stalled l s) (hn : next l s = some t) : Stalled l t := by
  obtain ⟨pc, inFp, outFp⟩ := s
  obtain ⟨⟨n, rfl, hno⟩, htaken⟩ := h
  have hpos : 0 < n := by
    by_contra hle
    exact hno (remains_nonpos inFp (by omega))
  obtain ⟨j, -, -, -, hturn⟩ := next_turn l hpos inFp outFp
  rw [hturn] at hn
  obtain rfl := Option.some.inj hn
  have hwaits : ¬ (inFp.later j).Remains (n - (inFp.bytes j).length) := fun h => hno ((remains_later inFp j n).mp h)
  by_cases hc : l.checks = true
  · have hnow : outFp.Free (inFp.bytes j).length := htaken hc _ ⟨j, Int.le_refl _⟩
    rw [turned_free l n hnow]
    refine ⟨⟨_, rfl, hwaits⟩, fun _ k hk => ?_⟩
    have hsum : inFp.Remains ((inFp.bytes j).length + k : Nat) := by
      rw [← remains_later inFp j]
      exact hk.mono (by omega)
    exact (free_add.mp (htaken hc _ hsum)).2
  · rw [turned_unchecked (by simpa using hc)]
    exact ⟨⟨_, rfl, hwaits⟩, fun h => absurd h hc⟩

theorem run_stalls {l : BlockLoop} {n : Int} {inFp : Source UInt8} {outFp : Taker UInt8} (hno : ¬ inFp.Remains n)
    (htaken : l.checks = true → ∀ k : Nat, inFp.Remains k → outFp.Free k) : ¬ ∃ t, (copying l n inFp outFp).Ends t := by
  intro h
  obtain ⟨t, hr, hend⟩ := h
  have hstalled : Stalled l t := hr.invariant (P := Stalled l) ⟨⟨n, rfl, hno⟩, htaken⟩ fun _ _ _ h hn => h.next hn
  obtain ⟨⟨n', hpc, hno'⟩, -⟩ := hstalled
  have hpos : 0 < n' := by
    by_contra hle
    exact hno' (remains_nonpos t.inFp (by omega))
  change next l t = none at hend
  simp only [next, hpc, if_pos hpos] at hend
  split at hend <;> cases hend

/-! ## When the loops do what is asked -/

/-- The loop returns having copied the next `n` bytes of the source, and the source stands
    right after the last of them. -/
def Copies (l : BlockLoop) (n : Int) (inFp : Source UInt8) (outFp : Taker UInt8) : Prop :=
  ∃ t m, (copying l n inFp outFp).Ends t ∧ t.pc = .returned ∧ inFp.Comes n.toNat m ∧ t.inFp = inFp.later m ∧
    t.outFp.took = outFp.took ++ inFp.bytes m

/-- The loop ends, and where `n` bytes or more remain it copies them. -/
def Meets (l : BlockLoop) (n : Int) (inFp : Source UInt8) (outFp : Taker UInt8) : Prop :=
  (∃ t, (copying l n inFp outFp).Ends t) ∧ (inFp.Remains n → Copies l n inFp outFp)

theorem Copies.ends {l : BlockLoop} {n : Int} {inFp : Source UInt8} {outFp : Taker UInt8} (h : Copies l n inFp outFp) :
    ∃ t, (copying l n inFp outFp).Ends t := by
  obtain ⟨t, -, ht, -⟩ := h
  exact ⟨t, ht⟩

section

variable {l : BlockLoop} {n : Int} {inFp : Source UInt8} {outFp : Taker UInt8}

/-- A loop on no bytes is a loop on zero. -/
theorem ends_toNat (l : BlockLoop) (n : Int) (inFp : Source UInt8) (outFp : Taker UInt8) {t : St}
    (h : (copying l n.toNat inFp outFp).Ends t) : (copying l n inFp outFp).Ends t := by
  rcases lt_or_ge n 0 with hn | hn
  · have hzero : (copying l 0 inFp outFp).Ends ⟨.returned, inFp, outFp⟩ :=
      Machine.Ends.of_next (next_done (Int.le_refl 0) inFp outFp) (ends_at (Or.inl rfl))
    rw [Int.toNat_of_nonpos (Int.le_of_lt hn)] at h
    rw [Machine.Ends.unique h hzero]
    exact Machine.Ends.of_next (next_done (Int.le_of_lt hn) inFp outFp) (ends_at (Or.inl rfl))
  · rwa [Int.toNat_of_nonneg hn] at h

theorem comes_toNat (h : inFp.Remains n) : ∃ m, inFp.Comes n.toNat m := by
  rcases lt_or_ge n 0 with hn | hn
  · exact ⟨0, ⟨by rw [Int.toNat_of_nonpos (Int.le_of_lt hn)]; rfl, Or.inl rfl⟩⟩
  · rw [← Int.toNat_of_nonneg hn] at h
    exact h.comes

theorem copies_of_free (h : inFp.Remains n) (hfree : outFp.Free n.toNat) : Copies l n inFp outFp := by
  obtain ⟨m, hm⟩ := comes_toNat h
  exact ⟨_, m, ends_toNat l n inFp outFp (run_free l m n.toNat inFp outFp hm hfree), rfl, hm, rfl, rfl⟩

theorem unchecked_meets_iff (hc : l.checks = false) : Meets l n inFp outFp ↔ inFp.Remains n ∧ outFp.Free n.toNat := by
  constructor
  · intro h
    obtain ⟨hends, hcopies⟩ := h
    have hr : inFp.Remains n := by
      by_contra hno
      exact run_stalls hno (by simp [hc]) hends
    obtain ⟨t, m, ht, -, hm, -, htook⟩ := hcopies hr
    obtain ⟨o, ho, -, hfree⟩ := run_unchecked hc m n.toNat inFp outFp hm
    obtain rfl := Machine.Ends.unique ht (ends_toNat l n inFp outFp ho)
    refine ⟨hr, hfree ?_⟩
    rw [htook, List.length_append, hm.length]
  · intro h
    obtain ⟨hr, hfree⟩ := h
    have hcopies : Copies l n inFp outFp := copies_of_free hr hfree
    exact ⟨hcopies.ends, fun _ => hcopies⟩

theorem checked_meets_iff (hc : l.checks = true) : Meets l n inFp outFp ↔
    (inFp.Remains n ∧ outFp.Free n.toNat) ∨ (¬ inFp.Remains n ∧ ∃ k : Nat, inFp.Remains k ∧ ¬ outFp.Free k) := by
  constructor
  · intro h
    obtain ⟨hends, hcopies⟩ := h
    by_cases hr : inFp.Remains n
    · refine Or.inl ⟨hr, ?_⟩
      by_contra hrefused
      obtain ⟨t, m, ht, hpc, hm, -⟩ := hcopies hr
      obtain ⟨u, hu, hexit⟩ := run_refused hc m n.toNat n.toNat inFp outFp (by rw [hm.length]) (Int.le_refl _) hrefused
      obtain rfl := Machine.Ends.unique ht (ends_toNat l n inFp outFp hu)
      rw [hpc] at hexit
      cases hexit
    · refine Or.inr ⟨hr, ?_⟩
      by_contra hnone
      push Not at hnone
      exact run_stalls hr (fun _ => hnone) hends
  · intro h
    rcases h with ⟨hr, hfree⟩ | ⟨hno, k, ⟨m, hm⟩, hrefused⟩
    · have hcopies : Copies l n inFp outFp := copies_of_free hr hfree
      exact ⟨hcopies.ends, fun _ => hcopies⟩
    · have hlt : (k : Int) ≤ n := by
        by_contra hge
        exact hno ⟨m, by omega⟩
      obtain ⟨t, ht, -⟩ := run_refused hc m k n inFp outFp (by omega) hlt hrefused
      exact ⟨⟨t, ht⟩, fun hr => absurd hr hno⟩

end

/-! ## Files -/

/-- What is left of a file, and then its end for ever. -/
def ofBytes (Y : Bytes) : Source UInt8 := fun i => Y[i]?

/-- A stream that takes everything. -/
def takesAll : Taker UInt8 := ⟨[], fun _ => true⟩

theorem bytes_ofBytes (Y : Bytes) (m : Nat) : (ofBytes Y).bytes m = Y.take m := by
  induction m with
  | zero => rw [List.take_zero]; rfl
  | succ m ih =>
    rw [bytes_succ, ih, ofBytes, List.take_add_one]

theorem remains_ofBytes (Y : Bytes) (n : Int) : (ofBytes Y).Remains n ↔ n ≤ Y.length := by
  constructor
  · intro h
    obtain ⟨m, hm⟩ := h
    rw [bytes_ofBytes, List.length_take] at hm
    omega
  · intro h
    exact ⟨Y.length, by rw [bytes_ofBytes, List.take_length]; exact h⟩

theorem ends_iff_ofBytes (l : BlockLoop) (n : Int) (Y : Bytes) :
    (∃ t, (copying l n (ofBytes Y) takesAll).Ends t) ↔ n ≤ Y.length := by
  constructor
  · intro h
    by_contra hno
    refine run_stalls (fun hr => hno ((remains_ofBytes Y n).mp hr)) ?_ h
    intro _ k _ i _
    rfl
  · intro h
    have hfree : takesAll.Free n.toNat := fun _ _ => rfl
    exact (copies_of_free ((remains_ofBytes Y n).mpr h) hfree).ends

section

variable {γ ε : Type} {io : Stdio} {blk : Nat}

/-- At the end of the file the loop goes round without a byte. -/
theorem copyTurns_eof (turns : Nat) {n : Nat} (hn : n ≠ 0) {i : Reader} (he : i.eof = true) (hb : i.buf = []) (o : Writer)
    (w : World γ) : (copyTurns io blk turns n i o : Prog γ ε _) w = .hang w := by
  cases turns with
  | zero =>
    rw [copyTurns, if_neg hn]
    rfl
  | succ turns =>
    have hread : ∀ fs m, (i.read io fs m).1 = [] := fun fs m => by
      rw [Reader.read, if_pos (Or.inr he), hb, List.take_nil]
    rw [copyTurns, if_neg hn]
    simp only [fread, look_bind, hread]
    rfl

/-- A read of more than is left delivers what is left and meets the end. -/
theorem read_beyond (io : Stdio) {fs : Fs} {X : Bytes} {n : Nat} {i : Reader} (hX : i.file fs = X) (he : i.eof = false)
    (hn : (i.rest X).length < n) :
    (i.read io fs n).1 = i.rest X ∧ (i.read io fs n).2.buf = [] ∧ (i.read io fs n).2.eof = true := by
  simp only [Reader.rest, List.length_append] at hn
  have hneed : ¬ (n ≤ i.buf.length ∨ i.eof = true) := by
    simp only [he, Bool.false_eq_true, or_false]
    omega
  have hgot : (X.drop i.off).take (n - i.buf.length + io.ahead (n - i.buf.length)) = X.drop i.off :=
    List.take_of_length_le (by omega)
  simp only [Reader.read, if_neg hneed, hX, hgot]
  refine ⟨?_, List.drop_of_length_le (by omega), decide_eq_true (by omega)⟩
  rw [Reader.rest, List.take_of_length_le (by omega)]

/-- A copy loop that asks for more than is left of its file hangs. -/
theorem copyTurns_hangs {I : Bytes → Writer → Fs → Prop} {j : Reader} {X : Bytes} (hI : Posix.Sink io I j.file X) (hblk : 0 < blk) :
    ∀ (turns n : Nat) (i : Reader) (o : Writer) (v : Bytes) (w : World γ), n ≤ turns → I v o w.fs → i.Same j → i.eof = false →
      (i.rest X).length < n → ∃ w', (copyTurns io blk turns n i o : Prog γ ε _) w = .hang w' := by
  intro turns
  induction turns with
  | zero =>
    intro n i o v w ht _ _ _ hn
    omega
  | succ turns ih =>
    intro n i o v w ht hv hk he hn
    rw [copyTurns, if_neg (by omega)]
    have hX : i.file w.fs = X := (hk.file w.fs).trans (hI.source _ _ _ hv)
    simp only [fread, look_bind]
    by_cases hnone : (i.read io w.fs (min n blk)).1 = []
    · rw [if_pos hnone]
      exact ⟨w, rfl⟩
    · rw [if_neg hnone]
      simp only [fwrite, act_bind]
      rcases Nat.lt_or_ge (i.rest X).length (min n blk) with hlt | hge
      · obtain ⟨hr, hb, hend⟩ := read_beyond io hX he hlt
        exact ⟨_, copyTurns_eof turns (by rw [hr]; omega) hend hb _ _⟩
      · obtain ⟨hr, hrest, hopen⟩ := read_spec io hX he hge
        have hlen : (i.read io w.fs (min n blk)).1.length = min n blk := by rw [hr, List.length_take_of_le hge]
        refine ih _ _ _ _ _ (by omega) (hI.write _ _ _ _ hv) ((read_same _ _ _ _).trans hk) hopen ?_
        rw [hrest, hlen, List.length_drop]
        omega

/-- Over a file, the loop the minimizers are modelled with hangs exactly where the loop of
    the source does not end. -/
theorem copyLoop_hangs_iff {I : Bytes → Writer → Fs → Prop} {j : Reader} {X : Bytes} (hI : Posix.Sink io I j.file X) {i : Reader}
    {o : Writer} {v : Bytes} {w : World γ} (hv : I v o w.fs) (hk : i.Same j) (he : i.eof = false) (l : BlockLoop) (n : Int) :
    (∃ w', (copyLoop io 2048 n.toNat i o : Prog γ ε _) w = .hang w') ↔
      ¬ ∃ t, (copying l n (ofBytes (i.rest X)) takesAll).Ends t := by
  rw [ends_iff_ofBytes]
  constructor
  · intro h hle
    obtain ⟨w', hw'⟩ := h
    obtain ⟨i', o', w'', hrun, -⟩ := copyLoop_spec (ε := ε) hI 2048 (by decide) (n := n.toNat) hv hk he (by omega)
    rw [hrun] at hw'
    cases hw'
  · intro hgt
    exact copyTurns_hangs hI (by decide) _ _ _ _ _ _ (Nat.le_refl _) hv hk he (by omega)

end

/-! ## The four loops -/

/-- Each of the loops ends, with the next `n` bytes copied where that many remain, exactly
    if that many remain and the taker takes them; `read_and_write` ends besides where fewer
    remain and the taker refuses one of those. -/
theorem block_loops_iff (n : Int) (inFp : Source UInt8) (outFp : Taker UInt8) :
    (Meets readAndWriteLoop n inFp outFp ↔
      (inFp.Remains n ∧ outFp.Free n.toNat) ∨ (¬ inFp.Remains n ∧ ∃ k : Nat, inFp.Remains k ∧ ¬ outFp.Free k)) ∧
    ∀ l ∈ [subsetLoop, prefixLoop, postfixLoop], (Meets l n inFp outFp ↔ inFp.Remains n ∧ outFp.Free n.toNat) := by
  refine ⟨checked_meets_iff rfl, ?_⟩
  intro l hl
  have hc : l.checks = false := by
    simp only [List.mem_cons, List.not_mem_nil, or_false] at hl
    rcases hl with rfl | rfl | rfl <;> rfl
  exact unchecked_meets_iff hc

/-- A file that ends, or a read that fails for good, one byte before the loop has what it was
    asked for: none of the loops ever ends. -/
theorem a_file_that_ends_early_stalls_every_loop :
    (¬ ∃ t, (copying readAndWriteLoop 2 (ofBytes [7]) takesAll).Ends t) ∧
    (¬ ∃ t, (copying subsetLoop 2 (ofBytes [7]) takesAll).Ends t) ∧
    (¬ ∃ t, (copying prefixLoop 2 (ofBytes [7]) takesAll).Ends t) ∧
    (¬ ∃ t, (copying postfixLoop 2 (ofBytes [7]) takesAll).Ends t) ∧
    ¬ Meets readAndWriteLoop 2 (ofBytes [7]) takesAll ∧ ¬ Meets subsetLoop 2 (ofBytes [7]) takesAll ∧
    ¬ Meets prefixLoop 2 (ofBytes [7]) takesAll ∧ ¬ Meets postfixLoop 2 (ofBytes [7]) takesAll := by
  have stalls : ∀ l, ¬ ∃ t, (copying l 2 (ofBytes [7]) takesAll).Ends t := fun l h =>
    absurd ((ends_iff_ofBytes l 2 [7]).mp h) (by decide)
  exact ⟨stalls _, stalls _, stalls _, stalls _, fun h => stalls _ h.1, fun h => stalls _ h.1, fun h => stalls _ h.1,
    fun h => stalls _ h.1⟩

end DiyDdmin.Tester.Blocks
