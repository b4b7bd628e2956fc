/-
  DiyDdmin.Posix.Requests — a program beside what it asks of `fread`.

  An `Asking` program is a program (`plain`) and the sizes it requests of `fread`, one
  after the other, in each world it may start in (`asks`). Both are built by the same
  composition, so a request is listed exactly where the program makes it, and what is
  built of a program's own parts is that program: `plain` composes by definition.

  Proved: the copy loop with its requests is the copy loop (`askCopyLoop_plain`); a program
  requests no more at once than its parts do (`AtMost.bind`), a copy loop no more than its
  block (`askCopyLoop_atMost`).
-/

import DiyDdmin.Posix.Streams

namespace DiyDdmin.Posix

structure Asking (γ ε α : Type) where
  plain : Prog γ ε α
  asks : World γ → List Nat

namespace Asking

section

variable {γ ε α β : Type}

/-- A program that makes no request. -/
def quiet (x : Prog γ ε α) : Asking γ ε α := ⟨x, fun _ => []⟩

/-- The requests that follow a result. -/
def after (f : α → Asking γ ε β) : Res γ ε α → List Nat
  | .ok a w => (f a).asks w
  | .exit _ _ => []
  | .hang _ => []

instance : Monad (Asking γ ε) where
  pure a := quiet (pure a)
  bind x f := ⟨x.plain >>= fun a => (f a).plain, fun w => x.asks w ++ after f (x.plain w)⟩

/-- `fread` of `n` bytes. -/
def read (io : Stdio) (n : Nat) (i : Reader) : Asking γ ε (Bytes × Reader) := ⟨fread io n i, fun _ => [n]⟩

@[simp] theorem plain_pure (a : α) : (pure a : Asking γ ε α).plain = pure a := rfl

@[simp] theorem plain_quiet (x : Prog γ ε α) : (quiet x).plain = x := rfl

@[simp] theorem plain_read (io : Stdio) (n : Nat) (i : Reader) : (read io n i : Asking γ ε _).plain = fread io n i := rfl

@[simp] theorem plain_bind (x : Asking γ ε α) (f : α → Asking γ ε β) : (x >>= f).plain = x.plain >>= fun a => (f a).plain := rfl

@[simp] theorem plain_ite {c : Prop} [Decidable c] (x y : Asking γ ε α) :
    (if c then x else y).plain = if c then x.plain else y.plain := apply_ite _ _ _ _

theorem asks_bind (x : Asking γ ε α) (f : α → Asking γ ε β) (w : World γ) : (x >>= f).asks w = x.asks w ++ after f (x.plain w) := rfl

/-- No request is for more than `b` bytes. -/
def AtMost (b : Nat) (x : Asking γ ε α) : Prop := ∀ w, ∀ m ∈ x.asks w, m ≤ b

variable {b : Nat}

theorem AtMost.quiet {x : Prog γ ε α} : AtMost b (quiet x) := fun _ _ hm => absurd hm List.not_mem_nil

theorem AtMost.pure {a : α} : AtMost b (pure a : Asking γ ε α) := AtMost.quiet

theorem AtMost.read {io : Stdio} {n : Nat} {i : Reader} (h : n ≤ b) : AtMost b (read io n i : Asking γ ε _) := fun _ m hm => by
  rw [List.mem_singleton.mp hm]
  exact h

theorem AtMost.bind {x : Asking γ ε α} {f : α → Asking γ ε β} (hx : AtMost b x) (hf : ∀ a, AtMost b (f a)) : AtMost b (x >>= f) := by
  intro w m hm
  rw [asks_bind] at hm
  rcases List.mem_append.mp hm with hm | hm
  · exact hx w m hm
  · cases hr : x.plain w with
    | ok a w' => rw [hr] at hm; exact hf a w' m hm
    | exit e w' => rw [hr] at hm; cases hm
    | hang w' => rw [hr] at hm; cases hm

theorem AtMost.ite {c : Prop} [Decidable c] {x y : Asking γ ε α} (hx : AtMost b x) (hy : AtMost b y) :
    AtMost b (if c then x else y) := by
  split
  · exact hx
  · exact hy

end

end Asking

/-! ## The copy loop -/

section

variable {γ ε : Type}

/-- `copyTurns` with its requests. -/
def askCopyTurns (io : Stdio) (blk : Nat) : Nat → Nat → Reader → Writer → Asking γ ε (Reader × Writer)
  | 0, n, i, o => if n = 0 then pure (i, o) else .quiet hang
  | turns + 1, n, i, o =>
    if n = 0 then pure (i, o)
    else do
      let r ← .read io (min n blk) i
      if r.1 = [] then .quiet hang
      else do
        let o ← .quiet (fwrite io o r.1)
        askCopyTurns io blk turns (n - r.1.length) r.2 o

def askCopyLoop (io : Stdio) (blk n : Nat) (i : Reader) (o : Writer) : Asking γ ε (Reader × Writer) :=
  askCopyTurns io blk n n i o

theorem askCopyTurns_plain (io : Stdio) (blk : Nat) : ∀ (turns n : Nat) (i : Reader) (o : Writer),
    (askCopyTurns io blk turns n i o : Asking γ ε _).plain = copyTurns io blk turns n i o := by
  intro turns
  induction turns with
  | zero =>
    intro n i o
    simp only [askCopyTurns, copyTurns, Asking.plain_ite, Asking.plain_pure, Asking.plain_quiet]
  | succ turns ih =>
    intro n i o
    simp only [askCopyTurns, copyTurns, Asking.plain_ite, Asking.plain_pure, Asking.plain_bind, Asking.plain_read,
      Asking.plain_quiet, ih]

/-- It is the copy loop. -/
@[simp] theorem askCopyLoop_plain (io : Stdio) (blk n : Nat) (i : Reader) (o : Writer) :
    (askCopyLoop io blk n i o : Asking γ ε _).plain = copyLoop io blk n i o := askCopyTurns_plain io blk n n i o

theorem askCopyTurns_atMost (io : Stdio) (blk : Nat) : ∀ (turns n : Nat) (i : Reader) (o : Writer),
    Asking.AtMost blk (askCopyTurns io blk turns n i o : Asking γ ε _) := by
  intro turns
  induction turns with
  | zero =>
    intro n i o
    exact .ite .pure .quiet
  | succ turns ih =>
    intro n i o
    refine .ite .pure (.bind (.read (Nat.min_le_right _ _)) fun r => ?_)
    exact .ite .quiet (.bind .quiet fun o' => ih _ _ _)

/-- A copy loop requests its block at most. -/
theorem askCopyLoop_atMost (io : Stdio) (blk n : Nat) (i : Reader) (o : Writer) :
    Asking.AtMost blk (askCopyLoop io blk n i o : Asking γ ε _) := askCopyTurns_atMost io blk n n i o

end

end DiyDdmin.Posix
