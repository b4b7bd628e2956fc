/-
  DiyDdmin.Tester.Copy — `copy` block by block (`src/ddmin.c`), for whatever `open`,
  `read` and `write` come to.

  A read delivers at least a byte and at most a block of what is left, nothing at the end
  of the file, or it fails; a write takes any part of what it is given, or fails. The loop
  goes on while a read delivers something, and does not look at what a write returns. Mode
  and owner of the destination are left out.

  Proved: a copy that is not refused ends, with the bytes the writes have taken
  (`copyTurns_run`); all of them reach the destination exactly if no read fails before the
  last byte and every write takes its whole block (`all_or_nothing_iff`), and then it is
  the copy the minimizers are modelled with (`copyVia_whole`).
-/

import DiyDdmin.Tester.Names

namespace DiyDdmin.Tester.Copy

open Posix

/-- What the system calls of one `copy` come to, the `i`-th read and write among them. -/
structure Calls where
  opensSrc : Bool
  opensDst : Bool
  /-- `none` is -1, `some k` at most `k + 1` bytes. -/
  reads : Nat → Option Nat
  /-- `none` is -1, `some k` at most `k` bytes. -/
  writes : Nat → Option Nat

/-- The ways `copy` ends in `exit(1)`. -/
inductive Refusal where
  /-- `Can not open src file : %s` -/
  | src (p : Path)
  /-- `already exist file in copy()` -/
  | there
  /-- `Can not open dst file : %s` -/
  | dst (p : Path)

abbrev Copying (α : Type) := Prog Vars Refusal α

/-- `char buf[1024]` -/
def bufSize : Nat := 1024

/-- `read(src_fd, buf, 1024)` at `off` of a file holding `X`. -/
def readBlock (answer : Option Nat) (X : Bytes) (off : Nat) : Option Bytes :=
  answer.map fun k => (X.drop off).take (min (k + 1) bufSize)

/-- What `write(dst_fd, buf, n)` takes of a block. -/
def taken (answer : Option Nat) (bs : Bytes) : Bytes := bs.take (answer.getD 0)

/-- `while((n = read(src_fd, buf, 1024)) > 0)`: the `i`-th read is at `off`, and the next
    byte written goes to `dstOff`. Each turn but the last reads a byte or more. -/
def copyTurns (c : Calls) (src dst : Key) : Nat → Nat → Nat → Nat → Copying Unit
  | 0, _, _, _ => hang
  | turns + 1, i, off, dstOff => do
    let n ← look fun _ fs => readBlock (c.reads i) ((fs src).getD []) off
    match n with
    | none => pure ()
    | some [] => pure ()
    | some (b :: bs) => do
      act fun v fs => ((), v, fs.writeAt dst dstOff (taken (c.writes i) (b :: bs)))
      copyTurns c src dst turns (i + 1) (off + (b :: bs).length) (dstOff + (taken (c.writes i) (b :: bs)).length)

/-- `copy` -/
def copyVia (E : Env) (c : Calls) (src dst : Path) : Copying Unit := do
  let X ← look fun _ fs => fs (E.key src)
  if X = none ∨ c.opensSrc = false then exit (.src src)
  else do
    let there ← access (E.key dst)
    if there then exit .there
    else if c.opensDst = false then exit (.dst dst)
    else do
      act fun v fs => ((), v, fs.put (E.key dst) (some ((fs (E.key dst)).getD [])))
      copyTurns c (E.key src) (E.key dst) ((X.getD []).length + 1) 0 0 0

/-! ## How far the reads have come -/

/-- The bytes of a source of `size` that the first `i` reads deliver. -/
def got (reads : Nat → Option Nat) (size : Nat) : Nat → Nat
  | 0 => 0
  | i + 1 => got reads size i + (reads i).elim 0 fun k => min (min (k + 1) bufSize) (size - got reads size i)

/-- The `i`-th read does not fail, and the write after it takes all it delivered. -/
def TakesAll (c : Calls) (size i : Nat) : Prop :=
  c.reads i ≠ none ∧ ∃ k, c.writes i = some k ∧ got c.reads size (i + 1) - got c.reads size i ≤ k

/-- No read fails before the last byte of a source of `size`, and no write comes up short. -/
def Whole (c : Calls) (size : Nat) : Prop := ∀ i, got c.reads size i < size → TakesAll c size i

theorem got_le (reads : Nat → Option Nat) (size i : Nat) : got reads size i ≤ size := by
  induction i with
  | zero => exact Nat.zero_le size
  | succ i ih =>
    rw [got]
    cases reads i with
    | none => exact ih
    | some k => simp only [Option.elim_some]; omega

theorem got_mono (reads : Nat → Option Nat) (size : Nat) {i j : Nat} (h : i ≤ j) : got reads size i ≤ got reads size j := by
  induction h with
  | refl => exact Nat.le_refl _
  | step _ ih =>
    rw [got]
    omega

/-- A read that does not fail, of a file with something left, delivers a first byte and
    whatever more comes with it. -/
theorem readBlock_some {reads : Nat → Option Nat} {X : Bytes} {i k : Nat} (hr : reads i = some k)
    (hlt : got reads X.length i < X.length) :
    ∃ b bs rest, readBlock (reads i) X (got reads X.length i) = some (b :: bs) ∧
      X.drop (got reads X.length i) = b :: bs ++ rest ∧
      got reads X.length (i + 1) = got reads X.length i + (b :: bs).length := by
  have hgot : got reads X.length (i + 1) =
      got reads X.length i + min (min (k + 1) bufSize) (X.length - got reads X.length i) := by
    rw [got, hr, Option.elim_some]
  have hlen : ((X.drop (got reads X.length i)).take (min (k + 1) bufSize)).length =
      min (min (k + 1) bufSize) (X.length - got reads X.length i) := by
    rw [List.length_take, List.length_drop]
  unfold readBlock
  rw [hr, Option.map_some]
  cases hb : (X.drop (got reads X.length i)).take (min (k + 1) bufSize) with
  | nil =>
    rw [hb, List.length_nil, bufSize] at hlen
    omega
  | cons b bs =>
    rw [hb] at hlen
    refine ⟨b, bs, (X.drop (got reads X.length i)).drop (min (k + 1) bufSize), rfl, ?_, by rw [hgot, hlen]⟩
    rw [← hb, List.take_append_drop]

/-- At the end of the file a read delivers nothing. -/
theorem readBlock_end {X : Bytes} {off : Nat} (h : X.length ≤ off) (k : Nat) : readBlock (some k) X off = some [] := by
  unfold readBlock
  rw [Option.map_some, List.drop_of_length_le h, List.take_nil]

/-! ## The loop -/

/-- A write at the end of a file appends. -/
theorem writeAt_end {fs : Fs} {k : Key} {D : Bytes} (h : fs k = some D) (bs : Bytes) :
    fs.writeAt k D.length bs k = some (D ++ bs) := by
  have happ := overwrite_append [] D bs
  simp only [List.drop_nil, List.append_nil] at happ
  simp only [Fs.writeAt, h, Fs.put_same, happ]

/-- What is taken of a block and of the rest makes up both exactly if neither is short. -/
theorem append_whole_iff {α : Type} {bs rest u t : List α} (hu : u.length ≤ bs.length) (ht : t.length ≤ rest.length) :
    u ++ t = bs ++ rest ↔ u = bs ∧ t = rest := by
  constructor
  · intro h
    have hlen := congrArg List.length h
    simp only [List.length_append] at hlen
    exact List.append_inj h (by omega)
  · intro h
    obtain ⟨rfl, rfl⟩ := h
    rfl

theorem taken_eq_iff (answer : Option Nat) {bs : Bytes} (hbs : bs ≠ []) :
    taken answer bs = bs ↔ ∃ k, answer = some k ∧ bs.length ≤ k := by
  unfold taken
  rw [List.take_eq_self_iff]
  have hpos := List.length_pos_iff.mpr hbs
  cases answer with
  | none =>
    simp only [Option.getD_none]
    constructor
    · intro h
      omega
    · intro h
      obtain ⟨k, hk, -⟩ := h
      cases hk
  | some k => simp

variable {c : Calls} {src dst : Key} {X : Bytes}

/-- What the writes from the `i`-th on take, `t`, is no more than what is left of the source,
    and exactly that if no read fails and no write comes up short from there on. -/
structure Adds (c : Calls) (X : Bytes) (i : Nat) (t : Bytes) : Prop where
  length : t.length ≤ X.length - got c.reads X.length i
  whole : t = X.drop (got c.reads X.length i) ↔
    ∀ j, i ≤ j → got c.reads X.length j < X.length → TakesAll c X.length j

/-- A read error ends the loop as the end of the file does. -/
theorem adds_failed {i : Nat} (hr : c.reads i = none) : Adds c X i [] := by
  refine ⟨Nat.zero_le _, ?_⟩
  constructor
  · intro h j hij hj
    have hlen := congrArg List.length h
    have hmono := got_mono c.reads X.length hij
    rw [List.length_nil, List.length_drop] at hlen
    omega
  · intro h
    by_contra hne
    have hlt : got c.reads X.length i < X.length := by
      by_contra hge
      exact hne (List.drop_of_length_le (by omega)).symm
    exact (h i (Nat.le_refl i) hlt).1 hr

theorem adds_end {i : Nat} (hge : X.length ≤ got c.reads X.length i) : Adds c X i [] := by
  refine ⟨Nat.zero_le _, ?_⟩
  constructor
  · intro _ j hij hj
    have hmono := got_mono c.reads X.length hij
    omega
  · intro _
    exact (List.drop_of_length_le hge).symm

/-- A block that was read, what its write took of it, and what the later writes take. -/
theorem Adds.block {i : Nat} {bs rest t : Bytes} (hr : c.reads i ≠ none) (hlt : got c.reads X.length i < X.length) (hbs : bs ≠ [])
    (hdrop : X.drop (got c.reads X.length i) = bs ++ rest)
    (hgot : got c.reads X.length (i + 1) = got c.reads X.length i + bs.length) (h : Adds c X (i + 1) t) :
    Adds c X i (taken (c.writes i) bs ++ t) := by
  have htaken : (taken (c.writes i) bs).length ≤ bs.length := by
    unfold taken
    rw [List.length_take]
    omega
  have hleft : X.drop (got c.reads X.length (i + 1)) = rest := by
    rw [hgot, ← List.drop_drop, hdrop, List.drop_left]
  have hrest : rest.length = X.length - got c.reads X.length (i + 1) := by
    rw [← hleft, List.length_drop]
  have hsize : X.length - got c.reads X.length i = bs.length + rest.length := by
    rw [← List.length_drop, hdrop, List.length_append]
  have hlen := h.length
  have hwhole := h.whole
  rw [hleft] at hwhole
  refine ⟨by rw [List.length_append]; omega, ?_⟩
  rw [hdrop, append_whole_iff htaken (by omega), hwhole, taken_eq_iff _ hbs]
  constructor
  · intro hboth j hij hj
    rcases Nat.eq_or_lt_of_le hij with rfl | hij
    · refine ⟨hr, ?_⟩
      rw [hgot, Nat.add_sub_cancel_left]
      exact hboth.1
    · exact hboth.2 j hij hj
  · intro hall
    have hnow := (hall i (Nat.le_refl i) hlt).2
    rw [hgot, Nat.add_sub_cancel_left] at hnow
    exact ⟨hnow, fun j hij hj => hall j (by omega) hj⟩

/-- The loop ends, having added to the destination what the writes took. -/
theorem copyTurns_run (hne : src ≠ dst) : ∀ (turns i : Nat) (D : Bytes) (w : World Vars),
    X.length < turns + got c.reads X.length i → w.fs src = some X → w.fs dst = some D →
    ∃ t w', copyTurns c src dst turns i (got c.reads X.length i) D.length w = .ok () w' ∧ w'.own = w.own ∧
      w'.fs dst = some (D ++ t) ∧ (∀ k, k ≠ dst → w'.fs k = w.fs k) ∧ w'.fs.unlinked = w.fs.unlinked ∧ Adds c X i t := by
  intro turns
  induction turns with
  | zero =>
    intro i D w ht _ _
    have hle := got_le c.reads X.length i
    omega
  | succ turns ih =>
    intro i D w ht hsrc hdst
    simp only [copyTurns, look_bind, hsrc, Option.getD_some]
    cases hr : c.reads i with
    | none => exact ⟨[], w, rfl, rfl, by rw [List.append_nil, hdst], fun _ _ => rfl, rfl, adds_failed hr⟩
    | some k =>
      rcases Nat.lt_or_ge (got c.reads X.length i) X.length with hlt | hge
      · obtain ⟨b, bs, rest, hread, hdrop, hgot⟩ := readBlock_some hr hlt
        rw [← hr, hread]
        simp only [act_bind]
        have hfs : w.fs.writeAt dst D.length (taken (c.writes i) (b :: bs)) dst =
            some (D ++ taken (c.writes i) (b :: bs)) :=
          writeAt_end hdst _
        obtain ⟨t, w', hrun, hown, hD, hrest, hlinks, hadds⟩ := ih (i + 1) (D ++ taken (c.writes i) (b :: bs))
          ⟨w.fs.writeAt dst D.length (taken (c.writes i) (b :: bs)), w.own, w.past ++ [(w.own, w.fs)]⟩
          (by rw [hgot, List.length_cons]; omega) ((Fs.writeAt_ne _ _ _ hne).trans hsrc) hfs
        rw [hgot, List.length_append] at hrun
        exact ⟨taken (c.writes i) (b :: bs) ++ t, w', hrun, hown, by rw [hD, List.append_assoc],
          fun k hk => (hrest k hk).trans (Fs.writeAt_ne _ _ _ hk), hlinks.trans (Fs.writeAt_unlinked _ _ _ _),
          hadds.block (by rw [hr]; exact Option.some_ne_none k) hlt (List.cons_ne_nil b bs) hdrop hgot⟩
      · rw [readBlock_end hge]
        exact ⟨[], w, rfl, rfl, by rw [List.append_nil, hdst], fun _ _ => rfl, rfl, adds_end hge⟩

/-! ## The whole function -/

/-- `x` leaves the source's bytes in the destination or exits, and where it exits a
    destination that was there is as it was. -/
def AllOrNothing (x : Copying Unit) (src dst : Key) (w : World Vars) : Prop :=
  (∃ w', x w = .ok () w' ∧ ∃ X, w.fs src = some X ∧ w'.fs dst = some X) ∨
    ∃ e w', x w = .exit e w' ∧ ∀ old, w.fs dst = some old → w'.fs dst = some old

/-- The source does not open, the destination exists, or it does not open. -/
def Refused (c : Calls) (src dst : Key) (fs : Fs) : Prop :=
  (fs src = none ∨ c.opensSrc = false) ∨ (fs dst ≠ none ∨ c.opensDst = false)

variable {E : Env} {p q : Path} {w : World Vars}

/-- A copy that is refused has changed nothing. -/
theorem copyVia_refused (h : Refused c (E.key p) (E.key q) w.fs) : ∃ e, copyVia E c p q w = .exit e w := by
  simp only [copyVia, look_bind]
  by_cases hsrc : w.fs (E.key p) = none ∨ c.opensSrc = false
  · rw [if_pos hsrc]
    exact ⟨_, rfl⟩
  · rw [if_neg hsrc]
    simp only [access, look_bind]
    by_cases hthere : (w.fs (E.key q)).isSome = true
    · rw [if_pos hthere]
      exact ⟨_, rfl⟩
    · rw [if_neg hthere]
      have hdst : c.opensDst = false := by
        rcases h with h | h | h
        · exact absurd h hsrc
        · exact absurd (Option.isSome_iff_ne_none.mpr h) hthere
        · exact h
      rw [if_pos hdst]
      exact ⟨_, rfl⟩

/-- A copy that is not refused returns, with what the writes have taken. -/
theorem copyVia_run (h : ¬ Refused c (E.key p) (E.key q) w.fs) {X : Bytes} (hX : w.fs (E.key p) = some X) :
    ∃ t w', copyVia E c p q w = .ok () w' ∧ w'.own = w.own ∧ w'.fs (E.key q) = some t ∧
      (∀ k, k ≠ E.key q → w'.fs k = w.fs k) ∧ w'.fs.unlinked = w.fs.unlinked ∧ (t = X ↔ Whole c X.length) := by
  simp only [Refused, not_or, not_not] at h
  obtain ⟨⟨-, hsrc⟩, hnone, hdst⟩ := h
  have hne : E.key p ≠ E.key q := by
    intro he
    rw [he, hnone] at hX
    cases hX
  obtain ⟨t, w', hrun, hown, ht, hrest, hlinks, hadds⟩ := copyTurns_run (c := c) hne (X.length + 1) 0 []
    ⟨w.fs.put (E.key q) (some []), w.own, w.past ++ [(w.own, w.fs)]⟩ (by omega) ((Fs.put_ne _ _ hne).trans hX)
    (Fs.put_same _ _ _)
  have hiff := hadds.whole
  refine ⟨t, w', ?_, hown, ht, fun k hk => (hrest k hk).trans (Fs.put_ne _ _ hk),
    hlinks.trans (Fs.put_unlinked _ _ _), ?_⟩
  · simp only [copyVia, look_bind, hX]
    rw [if_neg (by simp [hsrc])]
    simp only [access, look_bind, hnone]
    rw [if_neg (by simp), if_neg (by simp [hdst])]
    simp only [act_bind, hnone]
    exact hrun
  · rw [show got c.reads X.length 0 = 0 from rfl, List.drop_zero] at hiff
    exact hiff.trans ⟨fun h j => h j (Nat.zero_le j), fun h j _ => h j⟩

/-- `copy` is all or nothing exactly if it is refused, or no read fails before the last byte
    of the source and every write takes the whole block it is given. -/
theorem all_or_nothing_iff (E : Env) (c : Calls) (p q : Path) (w : World Vars) :
    AllOrNothing (copyVia E c p q) (E.key p) (E.key q) w ↔
      Refused c (E.key p) (E.key q) w.fs ∨ ∃ X, w.fs (E.key p) = some X ∧ Whole c X.length := by
  by_cases href : Refused c (E.key p) (E.key q) w.fs
  · obtain ⟨e, hexit⟩ := copyVia_refused href
    exact iff_of_true (Or.inr ⟨e, w, hexit, fun _ h => h⟩) (Or.inl href)
  · obtain ⟨X, hX⟩ : ∃ X, w.fs (E.key p) = some X := by
      apply Option.ne_none_iff_exists'.mp
      intro hnone
      exact href (Or.inl (Or.inl hnone))
    obtain ⟨t, w', hrun, -, ht, -, -, hiff⟩ := copyVia_run href hX
    constructor
    · intro h
      rcases h with ⟨u, hu, Y, hY, hcopied⟩ | ⟨e, u, hu, -⟩
      · rw [hrun] at hu
        cases hu
        rw [hX] at hY
        cases hY
        rw [ht] at hcopied
        cases hcopied
        exact Or.inr ⟨X, hX, hiff.mp rfl⟩
      · rw [hrun] at hu
        cases hu
    · intro h
      rcases h with h | ⟨Y, hY, hwhole⟩
      · exact absurd h href
      · rw [hX] at hY
        cases hY
        exact Or.inl ⟨w', hrun, X, hX, by rw [ht, hiff.mpr hwhole]⟩

/-- Where the files open and no read or write comes up short, it is `copy` as the
    minimizers are modelled with it. -/
theorem copyVia_whole (E : Env) (c : Calls) (p q : Path) (w : World Vars) (hsrc : c.opensSrc = true) (hdst : c.opensDst = true)
    (hwhole : ∀ X, w.fs (E.key p) = some X → Whole c X.length) :
    (∃ w1 w2, copyVia E c p q w = .ok () w1 ∧ copy E p q w = .ok () w2 ∧ w1.own = w2.own ∧ w1.fs = w2.fs) ∨
      ∃ e1 e2, copyVia E c p q w = .exit e1 w ∧ copy E p q w = .exit e2 w := by
  by_cases href : Refused c (E.key p) (E.key q) w.fs
  · obtain ⟨e1, hexit⟩ := copyVia_refused href
    refine Or.inr ?_
    simp only [Refused, hsrc, hdst, Bool.true_eq_false, or_false] at href
    cases hX : w.fs (E.key p) with
    | none => exact ⟨e1, .copySrc p, hexit, by simp only [copy, look_bind, hX]; rfl⟩
    | some X =>
      obtain hthere : w.fs (E.key q) ≠ none := by
        rcases href with h | h
        · rw [hX] at h
          cases h
        · exact h
      refine ⟨e1, .copyExists, hexit, ?_⟩
      simp only [copy, look_bind, hX, access, Option.isSome_iff_ne_none.mpr hthere]
      rfl
  · have hsome : w.fs (E.key p) ≠ none ∧ w.fs (E.key q) = none := by
      simp only [Refused, hsrc, hdst, Bool.true_eq_false, or_false, not_or, not_not] at href
      exact href
    obtain ⟨X, hX⟩ := Option.ne_none_iff_exists'.mp hsome.1
    obtain ⟨t, w1, hrun1, hown1, ht, hrest1, hlinks, hiff⟩ := copyVia_run href hX
    obtain ⟨w2, hrun2, hown2, hcopied, hrest2⟩ := copy_run (E := E) hX hsome.2
    refine Or.inl ⟨w1, w2, hrun1, hrun2, hown1.trans hown2.symm, ?_⟩
    refine Fs.ext (funext fun k => ?_) (hlinks.trans (copy_unlinked hrun2).symm)
    by_cases hk : k = E.key q
    · rw [hk, ht, hcopied, hiff.mpr (hwhole X hX)]
    · rw [hrest1 k hk, (hrest2 k hk).1]

/-- What the destination holds once `x` has returned. -/
def left (x : Copying Unit) (w : World Vars) (dst : Key) : Option Bytes :=
  match x w with
  | .ok _ w' => w'.fs dst
  | _ => none

/-- A copy that returns with other bytes than the source's is neither all nor nothing. -/
theorem not_all_or_nothing {x : Copying Unit} {src dst : Key} {w : World Vars} {D X : Bytes} (hD : left x w dst = some D)
    (hX : w.fs src = some X) (hne : D ≠ X) : ¬ AllOrNothing x src dst w := by
  intro h
  rcases h with ⟨w', hx, Y, hY, hcopied⟩ | ⟨e, w', hx, -⟩
  · rw [left, hx] at hD
    rw [hX] at hY
    cases hY
    exact hne (Option.some.inj (hD.symm.trans hcopied))
  · rw [left, hx] at hD
    cases hD

/-- Calls that all succeed and transfer all they are asked to. -/
def full : Calls := ⟨true, true, fun _ => some 1023, fun _ => some 1024⟩

def anyProgram : Env := judging fun _ => false

/-- Three bytes to copy. -/
def threeBytes : World Vars := ⟨soleInput "in".toList [1, 2, 3], ⟨"in".toList, []⟩, []⟩

/-- A copy of the three bytes. -/
def copyThree (c : Calls) : Copying Unit := copyVia anyProgram c "in".toList "out".toList

example : left (copyThree full) threeBytes (anyProgram.key "out".toList) = some [1, 2, 3] := by decide +kernel

/-- Writes that take one byte of the three, a write that fails, a read that fails: each time
    `copy` returns, with one byte copied or none. -/
theorem a_short_copy_returns :
    left (copyThree { full with writes := fun _ => some 1 }) threeBytes (anyProgram.key "out".toList) = some [1] ∧
    left (copyThree { full with writes := fun _ => none }) threeBytes (anyProgram.key "out".toList) = some [] ∧
    left (copyThree { full with reads := fun _ => none }) threeBytes (anyProgram.key "out".toList) = some [] ∧
    ¬ AllOrNothing (copyThree { full with writes := fun _ => some 1 }) (anyProgram.key "in".toList) (anyProgram.key "out".toList)
      threeBytes ∧
    ¬ AllOrNothing (copyThree { full with writes := fun _ => none }) (anyProgram.key "in".toList) (anyProgram.key "out".toList)
      threeBytes ∧
    ¬ AllOrNothing (copyThree { full with reads := fun _ => none }) (anyProgram.key "in".toList) (anyProgram.key "out".toList)
      threeBytes := by
  have source : threeBytes.fs (anyProgram.key "in".toList) = some [1, 2, 3] := by decide +kernel
  have short : left (copyThree { full with writes := fun _ => some 1 }) threeBytes (anyProgram.key "out".toList) = some [1] := by
    decide +kernel
  have failed : left (copyThree { full with writes := fun _ => none }) threeBytes (anyProgram.key "out".toList) = some [] := by
    decide +kernel
  have unread : left (copyThree { full with reads := fun _ => none }) threeBytes (anyProgram.key "out".toList) = some [] := by
    decide +kernel
  exact ⟨short, failed, unread, not_all_or_nothing short source (by decide), not_all_or_nothing failed source (by decide),
    not_all_or_nothing unread source (by decide)⟩

end DiyDdmin.Tester.Copy
