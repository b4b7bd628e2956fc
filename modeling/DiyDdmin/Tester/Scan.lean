/-
  DiyDdmin.Tester.Scan — what the scan of the standard error finds.

  `fgets` delivers a line in pieces of at most `size - 1` bytes, and `strstr` reads each
  piece up to its first NUL. What a buffer holds is computed from the bytes read so far
  (`buffered`), with no reference to the loop: the present line, less the pieces of it
  already delivered.

  Proved: every piece delivered is a stretch of the file over which `buffered` grows from
  empty (`piece_stretch`), and a stretch that fits what is left of its buffer is delivered
  in one piece (`stretch_piece`); so the scan finds the message exactly where it stands
  within one buffer with no NUL before it there (`scan_iff`). The verdict is exact for a
  file exactly if the message stands so somewhere in it or does not occur at all
  (`tests_exact_iff`).
-/

import Mathlib.Data.List.TakeWhile
import DiyDdmin.Tester.Names

namespace DiyDdmin.Tester

open Posix

/-! ## What a buffer holds -/

/-- How many bytes of its line come before the byte after `pre`. -/
def column (pre : Bytes) : Nat := (pre.reverse.takeWhile (· ≠ 10)).length

/-- What the buffer of `fgets(line, size, fp)` holds of the present piece once `pre` has
    been read. -/
def buffered (size : Nat) (pre : Bytes) : Bytes := pre.drop (pre.length - column pre % (size - 1))

section

variable {size : Nat}

theorem column_snoc (pre : Bytes) (b : UInt8) : column (pre ++ [b]) = if b = 10 then 0 else column pre + 1 := by
  by_cases hb : b = 10
  · simp [column, hb]
  · simp [column, hb]

theorem column_le (pre : Bytes) : column pre ≤ pre.length := by
  have := (List.takeWhile_sublist (· ≠ (10 : UInt8)) (l := pre.reverse)).length_le
  simpa [column] using this

theorem buffered_nil : buffered size [] = [] := by simp [buffered]

theorem length_buffered (pre : Bytes) : (buffered size pre).length = column pre % (size - 1) := by
  have hmod := Nat.mod_le (column pre) (size - 1)
  have hle := column_le pre
  rw [buffered, List.length_drop]
  omega

/-- One byte more: a newline or a full buffer ends the piece. -/
theorem buffered_snoc (hsize : 2 ≤ size) (pre : Bytes) (b : UInt8) :
    buffered size (pre ++ [b]) =
      if b = 10 ∨ (buffered size pre ++ [b]).length + 1 = size then [] else buffered size pre ++ [b] := by
  have hlen : (buffered size pre ++ [b]).length = column pre % (size - 1) + 1 := by
    rw [List.length_append, length_buffered, List.length_singleton]
  have hlt := Nat.mod_lt (column pre) (show size - 1 > 0 by omega)
  have hle := column_le pre
  have hmod := Nat.mod_le (column pre) (size - 1)
  rw [hlen]
  by_cases hb : b = 10
  · rw [if_pos (Or.inl hb), buffered, column_snoc, if_pos hb]
    simp
  · by_cases hfull : column pre % (size - 1) + 1 + 1 = size
    · have hzero : (column pre + 1) % (size - 1) = 0 := by
        rw [← Nat.mod_add_mod, show column pre % (size - 1) + 1 = size - 1 by omega, Nat.mod_self]
      rw [if_pos (Or.inr hfull), buffered, column_snoc, if_neg hb, hzero]
      simp
    · have hstep : (column pre + 1) % (size - 1) = column pre % (size - 1) + 1 := by
        rw [← Nat.mod_add_mod]
        exact Nat.mod_eq_of_lt (by omega)
      rw [if_neg (by simp [hb, hfull]), buffered, column_snoc, if_neg hb, hstep, buffered, List.length_append,
        List.length_singleton, show pre.length + 1 - (column pre % (size - 1) + 1) = pre.length - column pre % (size - 1) by omega]
      exact List.drop_append_of_le_length (by omega)

/-! ## The pieces -/

/-- Every piece is a stretch of the file over which the buffer fills from empty. -/
theorem piece_stretch (hsize : 2 ≤ size) (bs : Bytes) : ∀ p cur : Bytes, (∀ a, a <+: cur → buffered size (p ++ a) = a) →
    cur.length + 1 < size → ∀ c ∈ fgetsLines size cur bs,
      c.length < size ∧ ∃ p' q, p ++ cur ++ bs = p' ++ c ++ q ∧ ∀ a d, c = a ++ d → d ≠ [] → buffered size (p' ++ a) = a := by
  induction bs with
  | nil =>
    intro p cur hcur hroom c hc
    rw [fgetsLines] at hc
    by_cases he : cur = []
    · simp [he] at hc
    · obtain rfl : c = cur := by simpa [he] using hc
      exact ⟨by omega, p, [], rfl, fun a d h _ => hcur a (h ▸ List.prefix_append a d)⟩
  | cons b bs ih =>
    intro p cur hcur hroom c hc
    rw [fgetsLines] at hc
    have hfull := hcur cur (List.prefix_refl cur)
    have hsnoc := buffered_snoc hsize (p ++ cur) b
    rw [hfull] at hsnoc
    by_cases hend : b = 10 ∨ (cur ++ [b]).length + 1 = size
    · rw [if_pos hend] at hc hsnoc
      rcases List.mem_cons.mp hc with rfl | hc
      · refine ⟨by rw [List.length_append, List.length_singleton]; omega, p, bs, by simp, ?_⟩
        intro a d h hd
        apply hcur a
        -- a proper part of `cur ++ [b]` is a part of `cur`
        have hlen := congrArg List.length h
        have hpos := List.length_pos_iff.mpr hd
        simp only [List.length_append, List.length_singleton] at hlen
        exact List.prefix_of_prefix_length_le (h ▸ List.prefix_append a d) (List.prefix_append cur [b]) (by omega)
      · obtain ⟨hlt, p', q, he, hp'⟩ := ih (p ++ cur ++ [b]) [] (fun a ha => by
          obtain rfl := List.prefix_nil.mp ha
          rw [List.append_nil, hsnoc]) (by simp only [List.length_nil]; omega) c hc
        exact ⟨hlt, p', q, by rw [← he]; simp, hp'⟩
    · rw [if_neg hend] at hc hsnoc
      rw [not_or] at hend
      obtain ⟨hlt, p', q, he, hp'⟩ := ih p (cur ++ [b]) (fun a ha => by
        by_cases hl : a.length ≤ cur.length
        · exact hcur a (List.prefix_of_prefix_length_le ha (List.prefix_append cur [b]) hl)
        · have hle := ha.length_le
          simp only [List.length_append, List.length_singleton] at hle
          obtain rfl : a = cur ++ [b] := ha.eq_of_length (by simp only [List.length_append, List.length_singleton]; omega)
          rw [← List.append_assoc, hsnoc]) (by
        have := hend.2
        simp only [List.length_append, List.length_singleton] at this ⊢
        omega) c hc
      exact ⟨hlt, p', q, by rw [← he]; simp, hp'⟩

/-- Once `pre` is read the loop goes on from what the buffer holds. -/
theorem fgets_resume (hsize : 2 ≤ size) (pre bs : Bytes) :
    ∃ past, fgetsLines size [] (pre ++ bs) = past ++ fgetsLines size (buffered size pre) bs := by
  induction pre using List.reverseRecOn generalizing bs with
  | nil => exact ⟨[], by rw [buffered_nil]; rfl⟩
  | append_singleton pre b ih =>
    obtain ⟨past, h⟩ := ih (b :: bs)
    rw [List.append_assoc, List.singleton_append, h, fgetsLines, buffered_snoc hsize]
    by_cases hend : b = 10 ∨ (buffered size pre ++ [b]).length + 1 = size
    · rw [if_pos hend, if_pos hend]
      exact ⟨past ++ [buffered size pre ++ [b]], by simp⟩
    · rw [if_neg hend, if_neg hend]
      exact ⟨past, rfl⟩

theorem first_piece (bs : Bytes) : ∀ cur : Bytes, cur ≠ [] →
    ∃ more rest, fgetsLines size cur bs = (cur ++ more) :: rest := by
  induction bs with
  | nil =>
    intro cur hcur
    exact ⟨[], [], by rw [fgetsLines, if_neg hcur, List.append_nil]⟩
  | cons b bs ih =>
    intro cur hcur
    rw [fgetsLines]
    split
    · exact ⟨[b], _, rfl⟩
    · obtain ⟨more, rest, h⟩ := ih (cur ++ [b]) (by simp)
      exact ⟨b :: more, rest, by rw [h, List.append_assoc]; rfl⟩

/-- A stretch without a newline that fits what is left of the buffer comes in one piece. -/
theorem stretch_piece (msg : Bytes) (post : Bytes) : ∀ cur : Bytes, 10 ∉ msg → cur ++ msg ≠ [] →
    (cur ++ msg).length + 1 ≤ size → ∃ more rest, fgetsLines size cur (msg ++ post) = (cur ++ msg ++ more) :: rest := by
  induction msg with
  | nil =>
    intro cur _ hne _
    rw [List.append_nil] at hne ⊢
    exact first_piece post cur hne
  | cons b msg ih =>
    intro cur hnl _ hfit
    have hb : b ≠ 10 := fun e => hnl (by simp [e])
    have hnl' : 10 ∉ msg := fun h => hnl (List.mem_cons_of_mem _ h)
    simp only [List.length_append, List.length_cons] at hfit
    rw [List.cons_append, fgetsLines]
    split
    · rename_i hend
      have hfull := hend.resolve_left hb
      simp only [List.length_append, List.length_singleton] at hfull
      obtain rfl : msg = [] := List.eq_nil_of_length_eq_zero (by omega)
      exact ⟨[], _, by rw [List.append_nil]⟩
    · obtain ⟨more, rest, h⟩ := ih (cur ++ [b]) hnl' (by simp) (by
        simp only [List.length_append, List.length_singleton]; omega)
      exact ⟨more, rest, by rw [h]; simp⟩

end

/-! ## The scan -/

/-- The message stands within one buffer of 512 bytes, with no NUL before it there. -/
def Standing (msg err : Bytes) : Prop :=
  ∃ pre post, err = pre ++ msg ++ post ∧ column pre % 511 + msg.length ≤ 511 ∧ 0 ∉ buffered 512 pre

theorem cstr_of_clean {bs : Bytes} (h : 0 ∉ bs) : cstr bs = bs := by
  apply List.takeWhile_eq_self_iff.mpr
  intro b hb
  have hne : b ≠ 0 := fun e => h (e ▸ hb)
  simpa using hne

theorem cstr_clean_append {bs : Bytes} (h : 0 ∉ bs) (cs : Bytes) : cstr (bs ++ cs) = bs ++ cstr cs := by
  apply List.takeWhile_append_of_pos
  intro b hb
  have hne : b ≠ 0 := fun e => h (e ▸ hb)
  simpa using hne

theorem zero_notMem_cstr (bs : Bytes) : 0 ∉ cstr bs := fun h => by simpa using List.mem_takeWhile_imp h

theorem scan_iff {msg : Bytes} (hne : msg ≠ []) (hnl : 10 ∉ msg) (hnul : 0 ∉ msg) (err : Bytes) :
    scan msg err = true ↔ Standing msg err := by
  simp only [scan, List.any_eq_true, strstr, decide_eq_true_eq, cstr_of_clean hnul]
  constructor
  · rintro ⟨c, hc, a, d, hcut⟩
    obtain ⟨hlt, p, q, he, hp⟩ := piece_stretch (show 2 ≤ 512 by decide) err [] [] (fun a ha => by
      obtain rfl := List.prefix_nil.mp ha
      exact buffered_nil) (by decide) c hc
    -- the message and all that follows it in its piece
    have hsplit : c = a ++ (msg ++ d ++ c.dropWhile (· ≠ 0)) := by
      rw [← List.append_assoc, ← List.append_assoc, hcut, cstr, List.takeWhile_append_dropWhile]
    have hbuf := hp a _ hsplit (by simp [hne])
    have hlen := congrArg List.length hsplit
    have hcol : (buffered 512 (p ++ a)).length = _ := length_buffered (p ++ a)
    rw [hbuf] at hcol
    simp only [List.length_append] at hlen
    refine ⟨p ++ a, d ++ c.dropWhile (· ≠ 0) ++ q, ?_, by omega, ?_⟩
    · rw [List.append_nil, List.nil_append] at he
      rw [he]
      conv => lhs; rw [hsplit]
      simp
    · rw [hbuf]
      have := zero_notMem_cstr c
      rw [← hcut] at this
      simp only [List.mem_append, not_or] at this
      exact this.1.1
  · rintro ⟨pre, post, rfl, hfit, hclean⟩
    obtain ⟨past, hpast⟩ := fgets_resume (show 2 ≤ 512 by decide) pre (msg ++ post)
    have hroom : (buffered 512 pre ++ msg).length + 1 ≤ 512 := by
      rw [List.length_append, length_buffered]; omega
    obtain ⟨more, rest, hpiece⟩ := stretch_piece msg post (buffered 512 pre) hnl (by simp [hne]) hroom
    rw [List.append_assoc, hpast, hpiece]
    refine ⟨buffered 512 pre ++ msg ++ more, by simp, ?_⟩
    rw [List.append_assoc, cstr_clean_append hclean, cstr_clean_append hnul]
    exact ⟨buffered 512 pre, cstr more, by simp⟩

/-! ## The verdict -/

/-- The test answers 1 exactly if the message occurs in `err`. -/
def Exact (x : Code Bool) (msg err : Bytes) (w : World Vars) : Prop :=
  ∃ v w', x w = .ok v w' ∧ (v = true ↔ msg <:+: err)

theorem Standing.occurs {msg err : Bytes} (h : Standing msg err) : msg <:+: err := by
  obtain ⟨pre, post, rfl, -⟩ := h
  exact ⟨pre, post, rfl⟩

theorem exact_iff {E : Env} (hne : E.errMsg ≠ []) (hnl : 10 ∉ E.errMsg) (hnul : 0 ∉ E.errMsg) {given file : Path}
    {outPath errPath : Path} (hside : E.key outPath ≠ E.key errPath) (hdir : E.Holds errPath) (clean : Bool) {w : World Vars}
    (hrun : (testOf E given file errPath w).outcome.type = .noError) :
    Exact (runTest E given file outPath errPath clean) E.errMsg (testOf E given file errPath w).outcome.err w ↔
      (E.errMsg <:+: (testOf E given file errPath w).outcome.err →
        Standing E.errMsg (testOf E given file errPath w).outcome.err) := by
  obtain ⟨w', hok, -⟩ := runTest_spec E given file clean hside hdir w
  have hv : verdict E.errMsg (testOf E given file errPath w).outcome = true ↔
      Standing E.errMsg (testOf E given file errPath w).outcome.err := by
    rw [verdict, hrun]
    exact scan_iff hne hnl hnul _
  constructor
  · rintro ⟨v, u, hx, hiff⟩ hin
    rw [hok] at hx
    cases hx
    exact hv.mp (hiff.mpr hin)
  · intro h
    exact ⟨_, w', hok, hv.trans ⟨Standing.occurs, h⟩⟩

/-- On a run that ends by itself, each of the two tests is exact if and only if the message,
    where it occurs at all, also occurs within one buffer with no NUL before it there. A test
    that cannot open the file for the standard error runs nothing. -/
theorem tests_exact_iff {E : Env} (hne : E.errMsg ≠ []) (hnl : 10 ∉ E.errMsg) (hnul : 0 ∉ E.errMsg) :
    (∀ given file w err, E.Holds (stderrPath given) → (testOf E given file (stderrPath given) w).outcome.type = .noError →
      (testOf E given file (stderrPath given) w).outcome.err = err →
      (Exact (testBufferOverflow E given file) E.errMsg err w ↔ (E.errMsg <:+: err → Standing E.errMsg err))) ∧
    ∀ given outIdx w err, (testOf E given given (dummyErr outIdx) w).outcome.type = .noError →
      (testOf E given given (dummyErr outIdx) w).outcome.err = err →
      (Exact (testBufferOverflowThread E given outIdx) E.errMsg err w ↔ (E.errMsg <:+: err → Standing E.errMsg err)) := by
  constructor
  · rintro given file w err hdir hrun rfl
    exact exact_iff hne hnl hnul (side_ne E given) hdir false hrun
  · rintro given outIdx w err hrun rfl
    exact exact_iff hne hnl hnul (dummyOut_ne_dummyErr E outIdx outIdx) (holds_dummyErr E outIdx) true hrun

/-- A program that ends by itself with `err` on its standard error, tested for `!!`. -/
def saying (err : Bytes) : Env where
  cwd := []
  cwd_dir := root_listed
  io := ⟨fun m => (4096 - m % 4096) % 4096, fun n => n - n % 4096⟩
  programPath := "exe".toList
  program _ _ _ := ⟨.noError, [], err⟩
  errMsg := [33, 33]

def onInput : World Vars := ⟨soleInput "in".toList [1, 2], ⟨"in".toList, []⟩, []⟩

theorem tests_exact_iff_two :
    Exact (testBufferOverflow (saying [97, 33, 33, 10]) "in".toList "in".toList) [33, 33] [97, 33, 33, 10] onInput ∧
    Exact (testBufferOverflowThread (saying [97, 33, 33, 10]) "in".toList 0) [33, 33] [97, 33, 33, 10] onInput := by
  have standing : Standing [33, 33] [97, 33, 33, 10] := ⟨[97], [10], rfl, by decide, by decide⟩
  obtain ⟨plain, thread⟩ := tests_exact_iff (E := saying [97, 33, 33, 10]) (by decide) (by decide) (by decide)
  exact ⟨(plain _ _ _ _ (by decide) rfl rfl).mpr fun _ => standing, (thread _ _ _ _ rfl rfl).mpr fun _ => standing⟩

/-- One line of 512 bytes, the message at its end: the first buffer takes 511 of them. -/
def longLine : Bytes := List.replicate 510 97 ++ [33, 33]

theorem a_message_across_two_buffers_is_missed :
    [33, 33] <:+: longLine ∧
    ¬ Exact (testBufferOverflow (saying longLine) "in".toList "in".toList) [33, 33] longLine onInput ∧
    ¬ Exact (testBufferOverflowThread (saying longLine) "in".toList 0) [33, 33] longLine onInput := by
  have hin : [33, 33] <:+: longLine := ⟨List.replicate 510 97, [], by rw [List.append_nil]; rfl⟩
  have hmissed : ¬ Standing [33, 33] longLine := by
    rw [← scan_iff (by decide) (by decide) (by decide)]
    decide +kernel
  refine ⟨hin, fun h => hmissed ?_, fun h => hmissed ?_⟩
  · exact (exact_iff (E := saying longLine) (by decide) (by decide) (by decide) (side_ne _ "in".toList) (by decide) false rfl).mp h hin
  · exact (exact_iff (E := saying longLine) (by decide) (by decide) (by decide) (dummyOut_ne_dummyErr _ 0 0) (holds_dummyErr _ 0) true rfl).mp h hin

end DiyDdmin.Tester
