/-
  DiyDdmin.Posix.Paths — path names, how they resolve, and the names `sprintf` builds.

  A path is its characters. It resolves to a key: the list of names walked from the root,
  `.` and empty components skipped and `..` going up (no symbolic links). A `Plain` name
  has no slash and is none of the components that resolution treats specially.

  Proved: a plain name after a directory and a slash resolves to that directory's key and
  the name (`resolve_slash`, `resolve_dot`, `resolve_plain`); whatever stands before it, a
  path that ends in a dotted suffix resolves to a key whose last name ends in it
  (`resolve_suffix`); the decimal of a number determines the number (`decimal_inj`), also
  in front of a suffix that starts with no digit (`decimal_append_inj`).
-/

import Mathlib.Data.List.Basic
import Mathlib.Data.List.Induction

namespace DiyDdmin.Posix

abbrev Path := List Char
abbrev Name := List Char
abbrev Key := List Name

/-- One component of a path, from the directory `k`. -/
def enter (k : Key) (c : Name) : Key :=
  if c = [] ∨ c = ['.'] then k else if c = ['.', '.'] then k.dropLast else k ++ [c]

def resolve (cwd : Key) (p : Path) : Key :=
  (p.splitOn '/').foldl enter (if p.head? = some '/' then [] else cwd)

def Plain (n : Name) : Prop := '/' ∉ n ∧ n ≠ [] ∧ n ≠ ['.'] ∧ n ≠ ['.', '.']

instance (n : Name) : Decidable (Plain n) := inferInstanceAs (Decidable (_ ∧ _))

/-- `%d` of a natural number. -/
def decimal (k : Nat) : Name := Nat.toDigits 10 k

theorem enter_plain {n : Name} (h : Plain n) (k : Key) : enter k n = k ++ [n] := by
  obtain ⟨_, h1, h2, h3⟩ := h
  simp [enter, h1, h2, h3]

theorem resolve_slash (cwd : Key) {d : Path} {n : Name} (hd : d ≠ []) (hn : Plain n) :
    resolve cwd (d ++ '/' :: n) = resolve cwd d ++ [n] := by
  have hh : (d ++ '/' :: n).head? = d.head? := by
    cases d with
    | nil => exact absurd rfl hd
    | cons c d => rfl
  rw [resolve, hh, List.splitOn_append_cons_self, List.splitOn_eq_singleton hn.1, List.foldl_append,
    List.foldl_cons, List.foldl_nil, enter_plain hn]
  rfl

theorem resolve_plain (cwd : Key) {n : Name} (hn : Plain n) : resolve cwd n = cwd ++ [n] := by
  have hh : n.head? ≠ some '/' := fun h => hn.1 (List.mem_of_head? h)
  rw [resolve, if_neg hh, List.splitOn_eq_singleton hn.1, List.foldl_cons, List.foldl_nil, enter_plain hn]

/-- `./` in front of a relative path does not change what it names. -/
theorem resolve_dot (cwd : Key) {p : Path} (hp : p.head? ≠ some '/') :
    resolve cwd ('.' :: '/' :: p) = resolve cwd p := by
  have hs : ('.' :: '/' :: p).splitOn '/' = ['.'] :: p.splitOn '/' :=
    List.splitOn_append_cons_self_of_not_mem (show '/' ∉ ['.'] by decide) p
  rw [resolve, resolve, hs, if_neg hp, if_neg (by simp), List.foldl_cons]
  rfl

theorem exists_last_slash (p : Path) : '/' ∉ p ∨ ∃ d n, p = d ++ '/' :: n ∧ '/' ∉ n := by
  induction p using List.reverseRecOn with
  | nil => left; simp
  | append_singleton p c ih =>
    by_cases hc : c = '/'
    · exact Or.inr ⟨p, [], by rw [hc], by simp⟩
    · rcases ih with h | ⟨d, n, rfl, hn⟩
      · left; simp [h, Ne.symm hc]
      · exact Or.inr ⟨d, n ++ [c], by simp, by simp [hn, Ne.symm hc]⟩

/-- A path ending in a suffix of three or more characters names an entry ending in it. -/
theorem resolve_suffix (cwd : Key) (p : Path) {s : Name} (hs : '/' ∉ s) (hl : 3 ≤ s.length) :
    ∃ k n, resolve cwd (p ++ s) = k ++ [n ++ s] := by
  have plain : ∀ n : Name, '/' ∉ n → Plain (n ++ s) := by
    intro n hn
    have hlen : 3 ≤ (n ++ s).length := by simp; omega
    refine ⟨by simp [hn, hs], ?_, ?_, ?_⟩ <;>
    · intro e; rw [e] at hlen; simp at hlen
  rcases exists_last_slash p with h | ⟨d, n, rfl, hn⟩
  · exact ⟨cwd, p, resolve_plain cwd (plain p h)⟩
  · rw [List.append_assoc, List.cons_append]
    cases d with
    | nil =>
      refine ⟨[], n, ?_⟩
      have hsp : ('/' :: (n ++ s)).splitOn '/' = [] :: [n ++ s] := by
        rw [← List.nil_append ('/' :: (n ++ s)), List.splitOn_append_cons_self, List.splitOn_eq_singleton (plain n hn).1]
        rfl
      rw [List.nil_append, resolve, hsp, List.head?_cons, if_pos rfl, List.foldl_cons, List.foldl_cons, List.foldl_nil]
      exact enter_plain (plain n hn) []
    | cons c d => exact ⟨_, n, resolve_slash cwd (by simp) (plain n hn)⟩

/-! ## Decimals -/

/-- A test of a name's first character looks at that character alone. -/
instance (priority := high) decidableFirst {p : Char → Prop} [DecidablePred p] (o : Option Char) : Decidable (∀ c ∈ o, p c) :=
  Option.decidableForallMem o

theorem decimal_digit {k : Nat} {c : Char} (h : c ∈ decimal k) : c.isDigit = true :=
  Nat.isDigit_of_mem_toDigits (by decide) (by decide) h

theorem decimal_inj {i j : Nat} (h : decimal i = decimal j) : i = j := by
  have := congrArg (Nat.ofDigitChars 10 · 0) h
  simpa [decimal] using this

theorem decimal_ne_nil (k : Nat) : decimal k ≠ [] := Nat.toDigits_ne_nil

theorem takeWhile_decimal (k : Nat) {s : Name} (hs : ∀ c ∈ s.head?, c.isDigit = false) :
    (decimal k ++ s).takeWhile Char.isDigit = decimal k := by
  rw [List.takeWhile_append_of_pos fun c h => decimal_digit h]
  cases s with
  | nil => simp
  | cons c s =>
    have := hs c rfl
    simp [this]

/-- A suffix that does not start with a digit ends the number. -/
theorem decimal_append_inj {i j : Nat} {s t : Name} (hs : ∀ c ∈ s.head?, c.isDigit = false)
    (ht : ∀ c ∈ t.head?, c.isDigit = false) (h : decimal i ++ s = decimal j ++ t) : i = j ∧ s = t := by
  have hd : decimal i = decimal j := by rw [← takeWhile_decimal i hs, h, takeWhile_decimal j ht]
  exact ⟨decimal_inj hd, List.append_cancel_left (hd ▸ h)⟩

end DiyDdmin.Posix
