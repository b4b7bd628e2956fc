/-
  DiyDdmin.Posix.Files — a directory, and programs that make system calls on it.

  A directory maps keys to the bytes they hold, and keeps the files that were unlinked for
  the streams still open on them. A program runs in a world: the directory, its own
  variables, and the moments gone through (`past`, ghost): every system call and every
  change of its variables records the pair it left. It ends with a value, exits, or hangs
  in a loop that can make no progress.

  `Keeps P x Q` is the rule for what holds at every moment: from a moment that satisfies
  `P` every later one of `x` does, whatever way `x` ends, and the value `x` ends with
  satisfies `Q`. `Trails P x` says so of all but the last moment.
-/

import DiyDdmin.Posix.Paths

namespace DiyDdmin.Posix

abbrev Bytes := List UInt8

/-- What stands under each entry, and the files unlinked from it so far, oldest first. -/
@[ext] structure Fs where
  entry : Key → Option Bytes
  unlinked : Key → List Bytes

instance : CoeFun Fs fun _ => Key → Option Bytes := ⟨Fs.entry⟩

/-- A directory from which nothing has been unlinked. -/
def Fs.of (entry : Key → Option Bytes) : Fs := ⟨entry, fun _ => []⟩

def Fs.put (fs : Fs) (k : Key) (c : Option Bytes) : Fs where
  entry k' := if k' = k then c else fs k'
  unlinked k' := if k' = k ∧ c = none then fs.unlinked k' ++ (fs k').toList else fs.unlinked k'

@[simp] theorem Fs.of_entry (entry : Key → Option Bytes) (k : Key) : Fs.of entry k = entry k := rfl
@[simp] theorem Fs.put_same (fs : Fs) (k : Key) (c : Option Bytes) : fs.put k c k = c := by simp [Fs.put]
@[simp] theorem Fs.put_ne (fs : Fs) {k k' : Key} (c : Option Bytes) (h : k' ≠ k) : fs.put k c k' = fs k' := by
  simp [Fs.put, h]

@[simp] theorem Fs.put_unlinked (fs : Fs) (k : Key) (c : Bytes) : (fs.put k (some c)).unlinked = fs.unlinked := by
  simp [Fs.put]

theorem Fs.put_unlinked_ne (fs : Fs) {k k' : Key} (c : Option Bytes) (h : k' ≠ k) :
    (fs.put k c).unlinked k' = fs.unlinked k' := by
  simp [Fs.put, h]

/-- The bytes of the file that stood under `k` when `gen` files had been unlinked from it. -/
def Fs.file (fs : Fs) (k : Key) (gen : Nat) : Bytes := ((fs.unlinked k)[gen]?).getD ((fs k).getD [])

theorem Fs.file_of_entry {fs : Fs} {k : Key} {gen : Nat} {c : Bytes} (hg : (fs.unlinked k).length ≤ gen) (h : fs k = some c) :
    fs.file k gen = c := by
  rw [Fs.file, List.getElem?_eq_none hg, h]
  rfl

/-- The same stands under the entry, and no file was unlinked from it. -/
def Fs.Same (fs fs' : Fs) (k : Key) : Prop := fs' k = fs k ∧ fs'.unlinked k = fs.unlinked k

theorem Fs.Same.refl {fs : Fs} {k : Key} : Fs.Same fs fs k := ⟨rfl, rfl⟩

theorem Fs.Same.trans {fs fs' fs'' : Fs} {k : Key} (h : Fs.Same fs fs' k) (h' : Fs.Same fs' fs'' k) : Fs.Same fs fs'' k :=
  ⟨h'.1.trans h.1, h'.2.trans h.2⟩

theorem Fs.Same.put (fs : Fs) {k k' : Key} (c : Option Bytes) (h : k' ≠ k) : Fs.Same fs (fs.put k c) k' :=
  ⟨Fs.put_ne fs c h, Fs.put_unlinked_ne fs c h⟩

theorem Fs.Same.file {fs fs' : Fs} {k : Key} (h : Fs.Same fs fs' k) (gen : Nat) : fs'.file k gen = fs.file k gen := by
  rw [Fs.file, Fs.file, h.1, h.2]

structure World (γ : Type) where
  fs : Fs
  own : γ
  past : List (γ × Fs)

inductive Res (γ ε α : Type) where
  | ok (a : α) (w : World γ)
  | exit (e : ε) (w : World γ)
  | hang (w : World γ)

def Res.world {γ ε α : Type} : Res γ ε α → World γ
  | .ok _ w => w
  | .exit _ w => w
  | .hang w => w

def Prog (γ ε α : Type) := World γ → Res γ ε α

section

variable {γ ε α β : Type}

instance : Monad (Prog γ ε) where
  pure a := fun w => .ok a w
  bind x f := fun w => match x w with
    | .ok a w => f a w
    | .exit e w => .exit e w
    | .hang w => .hang w

/-- Read the directory and the variables. -/
def look (f : γ → Fs → α) : Prog γ ε α := fun w => .ok (f w.own w.fs) w

/-- One system call, or one assignment to the program's variables. -/
def act (f : γ → Fs → α × γ × Fs) : Prog γ ε α := fun w =>
  .ok (f w.own w.fs).1 ⟨(f w.own w.fs).2.2, (f w.own w.fs).2.1, w.past ++ [(w.own, w.fs)]⟩

def exit (e : ε) : Prog γ ε α := fun w => .exit e w

def hang : Prog γ ε α := fun w => .hang w

@[simp] theorem pure_run (a : α) (w : World γ) : (pure a : Prog γ ε α) w = .ok a w := rfl

theorem bind_run (x : Prog γ ε α) (f : α → Prog γ ε β) (w : World γ) :
    (x >>= f) w = match x w with
      | .ok a w => f a w
      | .exit e w => .exit e w
      | .hang w => .hang w := rfl

theorem bind_ok {x : Prog γ ε α} {f : α → Prog γ ε β} {w w' : World γ} {a : α} (h : x w = .ok a w') :
    (x >>= f) w = f a w' := by rw [bind_run, h]

theorem bind_eq_ok {x : Prog γ ε α} {f : α → Prog γ ε β} {w w' : World γ} {b : β} :
    (x >>= f) w = .ok b w' ↔ ∃ a w1, x w = .ok a w1 ∧ f a w1 = .ok b w' := by
  rw [bind_run]
  cases x w with
  | ok a w1 => simp
  | exit e w1 => simp
  | hang w1 => simp

theorem bind_eq_exit {x : Prog γ ε α} {f : α → Prog γ ε β} {w w' : World γ} {e : ε} :
    (x >>= f) w = .exit e w' ↔ x w = .exit e w' ∨ ∃ a w1, x w = .ok a w1 ∧ f a w1 = .exit e w' := by
  rw [bind_run]
  cases x w with
  | ok a w1 => simp
  | exit e w1 => simp
  | hang w1 => simp

@[simp] theorem look_bind (g : γ → Fs → α) (f : α → Prog γ ε β) (w : World γ) :
    (look g >>= f) w = f (g w.own w.fs) w := rfl

@[simp] theorem act_bind (g : γ → Fs → α × γ × Fs) (f : α → Prog γ ε β) (w : World γ) :
    (act g >>= f) w = f (g w.own w.fs).1 ⟨(g w.own w.fs).2.2, (g w.own w.fs).2.1, w.past ++ [(w.own, w.fs)]⟩ := rfl

/-- Ends with a value or exits, in every world. -/
def Settles (x : Prog γ ε α) : Prop := ∀ w w', x w ≠ .hang w'

theorem Settles.pure {a : α} : Settles (pure a : Prog γ ε α) := nofun

theorem Settles.exit {e : ε} : Settles (exit e : Prog γ ε α) := nofun

theorem Settles.look {f : γ → Fs → α} : Settles (look f : Prog γ ε α) := nofun

theorem Settles.act {f : γ → Fs → α × γ × Fs} : Settles (act f : Prog γ ε α) := nofun

theorem Settles.bind {x : Prog γ ε α} {f : α → Prog γ ε β} (hx : Settles x) (hf : ∀ a, Settles (f a)) :
    Settles (x >>= f) := by
  intro w w'
  rw [bind_run]
  cases hr : x w with
  | ok a w1 => exact hf a w1 w'
  | exit e w1 => nofun
  | hang w1 => exact absurd hr (hx w w1)

theorem Settles.ite {c : Prop} [Decidable c] {x y : Prog γ ε α} (hx : Settles x) (hy : Settles y) :
    Settles (if c then x else y) := by
  split
  · exact hx
  · exact hy

/-! ## System calls -/

/-- Write `bs` over `old` at `off`; a gap reads as zeros. -/
def overwrite (old : Bytes) (off : Nat) (bs : Bytes) : Bytes :=
  if bs = [] then old
  else old.take off ++ List.replicate (off - old.length) 0 ++ bs ++ old.drop (off + bs.length)

/-- `write` at an offset; an entry that is gone takes nothing. -/
def Fs.writeAt (fs : Fs) (k : Key) (off : Nat) (bs : Bytes) : Fs :=
  match fs k with
  | some old => fs.put k (some (overwrite old off bs))
  | none => fs

theorem Fs.writeAt_unlinked (fs : Fs) (k : Key) (off : Nat) (bs : Bytes) : (fs.writeAt k off bs).unlinked = fs.unlinked := by
  unfold Fs.writeAt
  cases fs k with
  | some old => exact Fs.put_unlinked _ _ _
  | none => rfl

theorem Fs.writeAt_ne (fs : Fs) {k k' : Key} (off : Nat) (bs : Bytes) (h : k' ≠ k) :
    fs.writeAt k off bs k' = fs k' := by
  unfold Fs.writeAt
  cases fs k with
  | some old => exact Fs.put_ne _ _ h
  | none => rfl

def resize (c : Bytes) (n : Nat) : Bytes := c.take n ++ List.replicate (n - c.length) 0

/-- `access(p, F_OK) == 0`. -/
def access (k : Key) : Prog γ ε Bool := look fun _ fs => (fs k).isSome

/-- `st_size`, or `none` where `stat` fails. -/
def stat (k : Key) : Prog γ ε (Option Nat) := look fun _ fs => (fs k).map List.length

/-- `truncate`; false where it fails. -/
def truncate (k : Key) (n : Nat) : Prog γ ε Bool :=
  act fun o fs => match fs k with
    | some c => (true, o, fs.put k (some (resize c n)))
    | none => (false, o, fs)

/-- `remove`; false where there is no such entry. -/
def remove (k : Key) : Prog γ ε Bool := act fun o fs => ((fs k).isSome, o, fs.put k none)

/-- `rename`; false where the source does not exist. What stood at `b` is unlinked. -/
def rename (a b : Key) : Prog γ ε Bool :=
  act fun o fs => match fs a with
    | some c => (true, o, ((fs.put a none).put b none).put b (some c))
    | none => (false, o, fs)

theorem rename_run {a b : Key} {w : World γ} {c : Bytes} (h : w.fs a = some c) :
    rename (ε := ε) a b w = .ok true ⟨((w.fs.put a none).put b none).put b (some c), w.own, w.past ++ [(w.own, w.fs)]⟩ := by
  simp [rename, act, h]

/-- `open(p, O_WRONLY | O_CREAT)`, `write` of `bs` at offset 0, `close`. -/
def openWrite (k : Key) (bs : Bytes) : Prog γ ε Unit :=
  act fun o fs => ((), o, ((fs.put k (some ((fs k).getD []))).writeAt k 0 bs))

/-! ## What holds at every moment -/

/-- Every moment so far, the present one last. -/
def World.moments (w : World γ) : List (γ × Fs) := w.past ++ [(w.own, w.fs)]

/-- `P` holds of every moment gone through and of the present one. -/
def World.All (w : World γ) (P : γ → Fs → Prop) : Prop := P w.own w.fs ∧ ∀ m ∈ w.past, P m.1 m.2

/-- Every moment `x` leaves behind it satisfies `P`. -/
def Trails (P : γ → Fs → Prop) (x : Prog γ ε α) : Prop :=
  ∀ w, P w.own w.fs → ∃ l, (x w).world.past = w.past ++ l ∧ ∀ m ∈ l, P m.1 m.2

/-- From a moment that satisfies `P`, so do all that follow while `x` runs, the last one
    included; a value `x` ends with satisfies `Q`. -/
def Keeps (P : γ → Fs → Prop) (x : Prog γ ε α) (Q : α → Prop) : Prop :=
  Trails P x ∧ ∀ w, P w.own w.fs → P (x w).world.own (x w).world.fs ∧ ∀ a w', x w = .ok a w' → Q a

variable {P : γ → Fs → Prop} {Q : α → Prop} {R : β → Prop}

theorem Keeps.all {x : Prog γ ε α} (h : Keeps P x Q) {w : World γ} (hw : w.All P) : (x w).world.All P := by
  obtain ⟨l, hl, hP⟩ := h.1 w hw.1
  refine ⟨(h.2 w hw.1).1, ?_⟩
  intro m hm
  rw [hl] at hm
  exact (List.mem_append.mp hm).elim (hw.2 m) (hP m)

/-- From one world on: the rest of a composition starts in a world all of whose moments
    satisfy `P`. -/
theorem Keeps.bind_all {x : Prog γ ε α} {f : α → Prog γ ε β} {w : World γ} (hx : Keeps P x Q) (hw : w.All P)
    (hf : ∀ a w1, x w = .ok a w1 → Q a → w1.All P → (f a w1).world.All P ∧ ∀ b w', f a w1 = .ok b w' → R b) :
    ((x >>= f) w).world.All P ∧ ∀ b w', (x >>= f) w = .ok b w' → R b := by
  have hall := hx.all hw
  have hpost := (hx.2 w hw.1).2
  rw [bind_run]
  cases hr : x w with
  | ok a w1 => rw [hr] at hall; exact hf a w1 hr (hpost a w1 hr) hall
  | exit e w1 => rw [hr] at hall; exact ⟨hall, fun _ _ h => by cases h⟩
  | hang w1 => rw [hr] at hall; exact ⟨hall, fun _ _ h => by cases h⟩

theorem trails_of_past {x : Prog γ ε α} (h : ∀ w, (x w).world.past = w.past) : Trails P x := fun w _ =>
  ⟨[], by rw [h, List.append_nil], nofun⟩

theorem Trails.bind {x : Prog γ ε α} {f : α → Prog γ ε β} (hx : Keeps P x Q) (hf : ∀ a, Q a → Trails P (f a)) :
    Trails P (x >>= f) := by
  intro w hw
  obtain ⟨h1, h2⟩ := hx.2 w hw
  obtain ⟨l, hl, hP⟩ := hx.1 w hw
  rw [bind_run]
  cases hr : x w with
  | ok a w' =>
    rw [hr] at h1 hl
    obtain ⟨l', hl', hP'⟩ := hf a (h2 a w' hr) w' h1
    change w'.past = w.past ++ l at hl
    exact ⟨l ++ l', by rw [hl', hl, List.append_assoc], fun m hm => (List.mem_append.mp hm).elim (hP m) (hP' m)⟩
  | exit e w' => rw [hr] at hl; exact ⟨l, hl, hP⟩
  | hang w' => rw [hr] at hl; exact ⟨l, hl, hP⟩

theorem Trails.ite {c : Prop} [Decidable c] {x y : Prog γ ε α} (hx : Trails P x) (hy : Trails P y) :
    Trails P (if c then x else y) := by
  split
  · exact hx
  · exact hy

/-- One last act leaves behind only the moment before it. -/
theorem Trails.act {f : γ → Fs → α × γ × Fs} {g : α → Prog γ ε β} (hg : ∀ a w, (g a w).world.past = w.past) :
    Trails P (act f >>= g) := fun w hw =>
  ⟨[(w.own, w.fs)], by rw [act_bind, hg], fun m hm => by rw [List.mem_singleton.mp hm]; exact hw⟩

theorem Trails.pure {a : α} : Trails P (pure a : Prog γ ε α) := trails_of_past fun _ => rfl

theorem Trails.exit {e : ε} : Trails P (exit e : Prog γ ε α) := trails_of_past fun _ => rfl

theorem Keeps.pure {a : α} (h : Q a) : Keeps P (pure a : Prog γ ε α) Q := by
  refine ⟨Trails.pure, fun w hw => ⟨hw, fun a' w' e => ?_⟩⟩
  cases e; exact h

theorem Keeps.bind {x : Prog γ ε α} {f : α → Prog γ ε β} (hx : Keeps P x Q) (hf : ∀ a, Q a → Keeps P (f a) R) :
    Keeps P (x >>= f) R := by
  refine ⟨Trails.bind hx fun a ha => (hf a ha).1, fun w hw => ?_⟩
  obtain ⟨h1, h2⟩ := hx.2 w hw
  rw [bind_run]
  cases hr : x w with
  | ok a w' => rw [hr] at h1; exact (hf a (h2 a w' hr)).2 w' h1
  | exit e w' => rw [hr] at h1; exact ⟨h1, fun _ _ e => by cases e⟩
  | hang w' => rw [hr] at h1; exact ⟨h1, fun _ _ e => by cases e⟩

theorem Keeps.look {f : γ → Fs → α} (h : ∀ o fs, P o fs → Q (f o fs)) : Keeps P (look f : Prog γ ε α) Q := by
  refine ⟨trails_of_past fun _ => rfl, fun w hw => ⟨hw, fun a w' e => ?_⟩⟩
  cases e; exact h _ _ hw

theorem Keeps.read {f : γ → Fs → α} : Keeps P (Posix.look f : Prog γ ε α) fun _ => True := Keeps.look fun _ _ _ => trivial

theorem Keeps.act {f : γ → Fs → α × γ × Fs} (h : ∀ o fs, P o fs → P (f o fs).2.1 (f o fs).2.2 ∧ Q (f o fs).1) :
    Keeps P (act f : Prog γ ε α) Q := by
  refine ⟨fun w hw => ⟨[(w.own, w.fs)], rfl, fun m hm => ?_⟩, fun w hw => ⟨(h _ _ hw).1, fun a w' e => ?_⟩⟩
  · rw [List.mem_singleton.mp hm]; exact hw
  · cases e; exact (h _ _ hw).2

theorem Keeps.exit {e : ε} : Keeps P (exit e : Prog γ ε α) Q :=
  ⟨Trails.exit, fun _ hw => ⟨hw, fun _ _ e => by cases e⟩⟩

theorem Keeps.hang : Keeps P (hang : Prog γ ε α) Q :=
  ⟨trails_of_past fun _ => rfl, fun _ hw => ⟨hw, fun _ _ e => by cases e⟩⟩

theorem Keeps.ite {c : Prop} [Decidable c] {x y : Prog γ ε α} (hx : c → Keeps P x Q) (hy : ¬c → Keeps P y Q) :
    Keeps P (if c then x else y) Q := by
  split
  · exact hx ‹_›
  · exact hy ‹_›

/-- `P` says nothing about the entry `k`: changing it keeps `P`. -/
def Blind (P : γ → Fs → Prop) (k : Key) : Prop := ∀ o fs c, P o fs → P o (fs.put k c)

theorem Blind.writeAt {k : Key} (h : Blind P k) {o : γ} {fs : Fs} (hp : P o fs) (off : Nat) (bs : Bytes) :
    P o (fs.writeAt k off bs) := by
  unfold Fs.writeAt
  split
  · exact h _ _ _ hp
  · exact hp

theorem truncate_keeps {k : Key} (h : Blind P k) (n : Nat) : Keeps P (truncate k n : Prog γ ε Bool) fun _ => True := by
  refine Keeps.act fun o fs hp => ⟨?_, trivial⟩
  split
  · exact h _ _ _ hp
  · exact hp

theorem remove_keeps {k : Key} (h : Blind P k) : Keeps P (remove k : Prog γ ε Bool) fun _ => True :=
  Keeps.act fun _ _ hp => ⟨h _ _ _ hp, trivial⟩

theorem openWrite_keeps {k : Key} (h : Blind P k) (bs : Bytes) : Keeps P (openWrite k bs : Prog γ ε Unit) fun _ => True :=
  Keeps.act fun _ _ hp => ⟨h.writeAt (h _ _ _ hp) _ _, trivial⟩

end

end DiyDdmin.Posix
