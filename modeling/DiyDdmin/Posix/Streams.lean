/-
  DiyDdmin.Posix.Streams — stdio streams over descriptors, and the block-copy loop.

  A descriptor has an offset; `lseek` moves it and leaves the stream's buffer alone. A
  reader refills by reading what it still needs and `ahead` more bytes (a buffer of `B`
  bytes is `ahead m = (B - m % B) % B`), and once a read has met the end of the file it
  reads no more. It follows the file it opened, which may have been unlinked since
  (`gen`). A writer holds back what it is given and hands over any part of it (`spill`)
  until a flush hands over the rest; it goes by the entry, as no entry is unlinked here
  while it is open for writing.

  A reader is worth the bytes it will still deliver (`Reader.rest`), a writer the bytes
  it was given since offset 0 (`Writer.Holds`).

  Proved: a read of no more than what is left delivers exactly the next bytes
  (`read_spec`); a copy loop over enough input hands the writer exactly the next `n`
  bytes (`copyLoop_spec`), and after a flush the file starts with all it was given
  (`flush_holds`); a loop that reads nothing goes round for ever (`copyLoop` hangs).
-/

import DiyDdmin.Posix.Files

namespace DiyDdmin.Posix

/-- How far a library reads ahead, and how early it writes out. -/
structure Stdio where
  ahead : Nat → Nat
  spill : Nat → Nat

/-- `gen` files had been unlinked from the entry when this one was opened. -/
structure Reader where
  key : Key
  gen : Nat
  off : Nat
  buf : Bytes
  eof : Bool
  deriving DecidableEq

/-- A stream open for writing; `none` is the null device. -/
structure Writer where
  key : Option Key
  off : Nat
  buf : Bytes
  deriving DecidableEq

/-- The bytes of the file that is read. -/
def Reader.file (fs : Fs) (i : Reader) : Bytes := fs.file i.key i.gen

/-- Just opened on the file that stands under `k`. -/
def Reader.opened (fs : Fs) (k : Key) : Reader := ⟨k, (fs.unlinked k).length, 0, [], false⟩

/-- It reads the file that stands under `k`. -/
def Reader.On (fs : Fs) (k : Key) (i : Reader) : Prop := i.key = k ∧ i.gen = (fs.unlinked k).length

/-- `fread` of `n` bytes. -/
def Reader.read (io : Stdio) (fs : Fs) (n : Nat) (i : Reader) : Bytes × Reader :=
  if n ≤ i.buf.length ∨ i.eof = true then (i.buf.take n, { i with buf := i.buf.drop n })
  else
    let need := n - i.buf.length
    let got := ((i.file fs).drop i.off).take (need + io.ahead need)
    (i.buf ++ got.take need,
      { i with off := i.off + got.length, buf := got.drop need, eof := decide (got.length < need) })

/-- `lseek(fileno(fp), 0, SEEK_SET)` under a reader. -/
def Reader.rewind (i : Reader) : Reader := { i with off := 0 }

/-- `lseek(fileno(fp), 0, SEEK_SET)` under a writer. -/
def Writer.rewind (o : Writer) : Writer := { o with off := 0 }

/-- Hand over the first `k` bytes held back. -/
def Writer.drain (o : Writer) (k : Nat) (fs : Fs) : Writer × Fs :=
  ({ o with off := o.off + (o.buf.take k).length, buf := o.buf.drop k },
    match o.key with
    | some key => fs.writeAt key o.off (o.buf.take k)
    | none => fs)

/-- `fwrite` of `bs`. -/
def Writer.write (io : Stdio) (o : Writer) (bs : Bytes) (fs : Fs) : Writer × Fs :=
  let o := { o with buf := o.buf ++ bs }
  o.drain (io.spill o.buf.length) fs

/-- `fflush`. -/
def Writer.flush (o : Writer) (fs : Fs) : Writer × Fs := o.drain o.buf.length fs

section

variable {γ ε : Type}

/-- `fopen(p, "rb")`. -/
def fopenRead (k : Key) : Prog γ ε (Option Reader) := look fun _ fs => if (fs k).isSome then some (.opened fs k) else none

theorem fopenRead_run {k : Key} {w : World γ} {X : Bytes} (h : w.fs k = some X) :
    fopenRead (ε := ε) k w = .ok (some (.opened w.fs k)) w := by
  simp [fopenRead, look, h]

/-- `fopen(p, "wb")`: null where the directory to hold the entry is none of `dirs`. -/
def fopenWrite (dirs : Key → Bool) (k : Key) : Prog γ ε (Option Writer) :=
  act fun o fs => if dirs k.dropLast then (some ⟨some k, 0, []⟩, o, fs.put k (some [])) else (none, o, fs)

theorem fopenWrite_run {dirs : Key → Bool} {k : Key} (h : dirs k.dropLast = true) (w : World γ) :
    fopenWrite (ε := ε) dirs k w = .ok (some ⟨some k, 0, []⟩) ⟨w.fs.put k (some []), w.own, w.past ++ [(w.own, w.fs)]⟩ := by
  simp [fopenWrite, act, h]

/-- `fopen("/dev/null", "wb")`. -/
def nullWriter : Writer := ⟨none, 0, []⟩

def fread (io : Stdio) (n : Nat) (i : Reader) : Prog γ ε (Bytes × Reader) := look fun _ fs => i.read io fs n

def fwrite (io : Stdio) (o : Writer) (bs : Bytes) : Prog γ ε Writer :=
  act fun own fs => ((o.write io bs fs).1, own, (o.write io bs fs).2)

def fflush (o : Writer) : Prog γ ε Writer := act fun own fs => ((o.flush fs).1, own, (o.flush fs).2)

/-- `while (n > 0)`: read a block of at most `blk` bytes, write it, count it off. A read
    that delivers nothing leaves the loop where it was, for ever. Each other turn counts
    off a byte or more, so `n` turns are enough. -/
def copyTurns (io : Stdio) (blk : Nat) : Nat → Nat → Reader → Writer → Prog γ ε (Reader × Writer)
  | 0, n, i, o => if n = 0 then pure (i, o) else hang
  | turns + 1, n, i, o =>
    if n = 0 then pure (i, o)
    else do
      let r ← fread io (min n blk) i
      if r.1 = [] then hang
      else do
        let o ← fwrite io o r.1
        copyTurns io blk turns (n - r.1.length) r.2 o

def copyLoop (io : Stdio) (blk n : Nat) (i : Reader) (o : Writer) : Prog γ ε (Reader × Writer) :=
  copyTurns io blk n n i o

end

/-! ## Reading -/

/-- What the reader will still deliver of a file holding `X`. -/
def Reader.rest (X : Bytes) (i : Reader) : Bytes := i.buf ++ X.drop i.off

theorem rest_rewind {X : Bytes} {i : Reader} (h : i.rest X = []) : i.rewind.rest X = X := by
  have hb : i.buf = [] := (List.append_eq_nil_iff.mp h).1
  simp [Reader.rest, Reader.rewind, hb]

/-- After a rewind at least the whole file is there, whatever the buffer holds. -/
theorem le_rest_rewind (X : Bytes) (i : Reader) : X.length ≤ (i.rewind.rest X).length := by
  simp [Reader.rest, Reader.rewind]

/-- The two open the same file. -/
def Reader.Same (i j : Reader) : Prop := i.key = j.key ∧ i.gen = j.gen

theorem Reader.Same.refl {i : Reader} : i.Same i := ⟨rfl, rfl⟩

theorem Reader.Same.trans {i j l : Reader} (h : i.Same j) (h' : j.Same l) : i.Same l := ⟨h.1.trans h'.1, h.2.trans h'.2⟩

theorem Reader.Same.file {i j : Reader} (h : i.Same j) (fs : Fs) : i.file fs = j.file fs := by
  rw [Reader.file, Reader.file, h.1, h.2]

theorem Reader.On.file {fs : Fs} {k : Key} {i : Reader} {X : Bytes} (h : i.On fs k) (hX : fs k = some X) : i.file fs = X := by
  obtain ⟨rfl, hg⟩ := h
  exact Fs.file_of_entry (Nat.le_of_eq hg.symm) hX

theorem Reader.On.same {fs fs' : Fs} {k : Key} {i j : Reader} (h : i.On fs k) (hfs : Fs.Same fs fs' k) (hj : j.Same i) : j.On fs' k :=
  ⟨hj.1.trans h.1, by rw [hj.2, h.2, hfs.2]⟩

theorem read_same (io : Stdio) (fs : Fs) (n : Nat) (i : Reader) : (i.read io fs n).2.Same i := by
  unfold Reader.read; split <;> exact ⟨rfl, rfl⟩

/-- Reading `m` bytes of `Y` and keeping all but the first `k` loses nothing. -/
theorem drop_take_append_drop {α : Type} {Y : List α} {k m : Nat} (h : k ≤ m) (hY : k ≤ Y.length) :
    (Y.take m).drop k ++ Y.drop (Y.take m).length = Y.drop k := by
  have hd : Y.drop (Y.take m).length = Y.drop m := by
    rw [List.length_take]
    rcases Nat.le_total m Y.length with hm | hm
    · rw [Nat.min_eq_left hm]
    · rw [Nat.min_eq_right hm, List.drop_length, List.drop_of_length_le hm]
  rw [hd, ← List.drop_append_of_le_length (by rw [List.length_take]; omega), List.take_append_drop]

theorem read_spec (io : Stdio) {fs : Fs} {X : Bytes} {n : Nat} {i : Reader} (hX : i.file fs = X)
    (he : i.eof = false) (hn : n ≤ (i.rest X).length) :
    (i.read io fs n).1 = (i.rest X).take n ∧ (i.read io fs n).2.rest X = (i.rest X).drop n ∧
      (i.read io fs n).2.eof = false := by
  unfold Reader.read
  by_cases hb : n ≤ i.buf.length
  · rw [if_pos (Or.inl hb)]
    exact ⟨(List.take_append_of_le_length hb).symm, (List.drop_append_of_le_length hb).symm, he⟩
  · rw [if_neg (by simp [hb, he])]
    simp only [hX]
    obtain ⟨need, rfl⟩ : ∃ need, n = i.buf.length + need := ⟨n - i.buf.length, by omega⟩
    have hlen : need ≤ (X.drop i.off).length := by
      simp only [Reader.rest, List.length_append] at hn; omega
    simp only [Nat.add_sub_cancel_left, Reader.rest, List.take_length_add_append, List.drop_length_add_append]
    refine ⟨?_, ?_, ?_⟩
    · rw [List.take_take, Nat.min_eq_left (by omega)]
    · rw [← List.drop_drop]
      exact drop_take_append_drop (by omega) hlen
    · simp only [List.length_take, decide_eq_false_iff_not]; omega

/-! ## Writing -/

theorem overwrite_nil (old : Bytes) (off : Nat) : overwrite old off [] = old := by simp [overwrite]

/-- Writing `v` right after the first `u` over `old` leaves `u ++ v` over `old`. -/
theorem overwrite_append (old u v : Bytes) :
    overwrite (u ++ old.drop u.length) u.length v = (u ++ v) ++ old.drop (u ++ v).length := by
  by_cases hv : v = []
  · simp [hv, overwrite_nil]
  · rw [overwrite, if_neg hv, List.take_left', List.drop_append, List.drop_drop]
    · have h0 : u.length - (u ++ old.drop u.length).length = 0 := by simp
      rw [h0, List.replicate_zero, List.append_nil, List.append_assoc, List.append_assoc, List.drop_of_length_le (by omega)]
      simp
    · rfl

/-- The bytes `w` were given since offset 0, over a file that held `old`; those not yet
    handed over are held back. -/
structure Writer.Holds (fs : Fs) (o : Writer) (k : Key) (old w : Bytes) : Prop where
  key : o.key = some k
  le : o.off ≤ w.length
  buf : o.buf = w.drop o.off
  file : fs k = some (w.take o.off ++ old.drop o.off)

theorem Writer.Holds.start {fs : Fs} {o : Writer} {k : Key} {old : Bytes} (hk : o.key = some k) (hb : o.buf = [])
    (hf : fs k = some old) : Writer.Holds fs o.rewind k old [] :=
  ⟨hk, Nat.zero_le _, by simp [Writer.rewind, hb], by simp [Writer.rewind, hf]⟩

theorem drain_holds {fs : Fs} {o : Writer} {k : Key} {old w : Bytes} (h : o.Holds fs k old w) (n : Nat) :
    (o.drain n fs).1.Holds (o.drain n fs).2 k old w := by
  obtain ⟨hk, hle, hb, hf⟩ := h
  have hu : (w.take o.off).length = o.off := List.length_take_of_le hle
  have hw : w.take (o.off + (o.buf.take n).length) = w.take o.off ++ o.buf.take n := by
    rw [List.take_add, ← hb, List.length_take, ← List.take_eq_take_min]
  refine ⟨hk, ?_, ?_, ?_⟩
  · simp only [Writer.drain, List.length_take, hb, List.length_drop]; omega
  · simp only [Writer.drain]
    rw [← List.drop_drop, ← hb, List.length_take, ← List.drop_eq_drop_min]
  · simp only [Writer.drain, hk, Fs.writeAt, hf, Fs.put_same, hw]
    have := overwrite_append old (w.take o.off) (o.buf.take n)
    rw [List.length_append, hu] at this
    rw [this]

theorem write_holds (io : Stdio) {fs : Fs} {o : Writer} {k : Key} {old w : Bytes} (h : o.Holds fs k old w)
    (bs : Bytes) : (o.write io bs fs).1.Holds (o.write io bs fs).2 k old (w ++ bs) := by
  refine drain_holds (o := { o with buf := o.buf ++ bs }) ⟨h.key, ?_, ?_, ?_⟩ _
  · have := h.le; simp only [List.length_append]; omega
  · rw [List.drop_append_of_le_length h.le, ← h.buf]
  · rw [List.take_append_of_le_length h.le, h.file]

/-- After a flush the file starts with all that was written, nothing is held back, and
    the offset is at its end. -/
theorem flush_holds {fs : Fs} {o : Writer} {k : Key} {old w : Bytes} (h : o.Holds fs k old w) :
    (o.flush fs).2 k = some (w ++ old.drop w.length) ∧ (o.flush fs).1.buf = [] ∧ (o.flush fs).1.key = some k := by
  have hf := drain_holds h o.buf.length
  have hoff : (o.flush fs).1.off = w.length := by
    have := h.le
    simp only [Writer.flush, Writer.drain, h.buf, List.length_take, List.length_drop]; omega
  refine ⟨?_, ?_, h.key⟩
  · have := hf.file
    simp only [Writer.flush] at hoff ⊢
    rw [this, hoff, List.take_length]
  · simp [Writer.flush, Writer.drain]

theorem drain_other {o : Writer} {k : Key} (hk : o.key = some k) (n : Nat) (fs : Fs) {k' : Key} (h : k' ≠ k) :
    (o.drain n fs).2 k' = fs k' := by
  simp only [Writer.drain, hk]
  exact Fs.writeAt_ne _ _ _ h

/-- Writing to the null device changes nothing. -/
theorem drain_null {o : Writer} (hk : o.key = none) (n : Nat) (fs : Fs) : (o.drain n fs).2 = fs := by
  simp [Writer.drain, hk]

/-! ## The copy loop -/

section

variable {γ ε : Type} (io : Stdio)

/-- `I w o fs` says what the writer and the directory are after `w` has been written; a
    write keeps it, and it fixes what the file read from holds. -/
structure Sink (I : Bytes → Writer → Fs → Prop) (src : Fs → Bytes) (X : Bytes) : Prop where
  write : ∀ w o fs bs, I w o fs → I (w ++ bs) (o.write io bs fs).1 (o.write io bs fs).2
  source : ∀ w o fs, I w o fs → src fs = X

variable {io}

theorem copyTurns_spec {I : Bytes → Writer → Fs → Prop} {j : Reader} {X : Bytes} (hI : Sink io I j.file X) {blk : Nat}
    (hblk : 0 < blk) : ∀ (turns n : Nat) (i : Reader) (o : Writer) (v : Bytes) (w : World γ), n ≤ turns →
      I v o w.fs → i.Same j → i.eof = false → n ≤ (i.rest X).length →
      ∃ i' o' w', (copyTurns io blk turns n i o : Prog γ ε _) w = .ok (i', o') w' ∧
        I (v ++ (i.rest X).take n) o' w'.fs ∧ i'.Same j ∧ i'.eof = false ∧ i'.rest X = (i.rest X).drop n ∧
        w'.own = w.own := by
  intro turns
  induction turns with
  | zero =>
    intro n i o v w ht hv hk he hn
    obtain rfl : n = 0 := by omega
    exact ⟨i, o, w, rfl, by simpa using hv, hk, he, by simp, rfl⟩
  | succ turns ih =>
    intro n i o v w ht hv hk he hn
    rw [copyTurns]
    by_cases h0 : n = 0
    · subst h0
      exact ⟨i, o, w, rfl, by simpa using hv, hk, he, by simp, rfl⟩
    rw [if_neg h0]
    have hm : min n blk ≤ (i.rest X).length := by omega
    obtain ⟨hr1, hr2, hr3⟩ := read_spec io ((hk.file w.fs).trans (hI.source _ _ _ hv)) he hm
    have hlen : (i.read io w.fs (min n blk)).1.length = min n blk := by rw [hr1, List.length_take_of_le hm]
    have hne : (i.read io w.fs (min n blk)).1 ≠ [] := by
      intro e; rw [e, List.length_nil] at hlen; omega
    simp only [fread, look_bind, if_neg hne, fwrite, act_bind, hlen]
    obtain ⟨i', o', w', hrun, hI', hk', he', hrest, hown⟩ := ih (n - min n blk) (i.read io w.fs (min n blk)).2
      (o.write io (i.read io w.fs (min n blk)).1 w.fs).1 _
      ⟨(o.write io (i.read io w.fs (min n blk)).1 w.fs).2, w.own, w.past ++ [(w.own, w.fs)]⟩ (by omega)
      (hI.write _ _ _ _ hv) ((read_same _ _ _ _).trans hk) hr3 (by rw [hr2, List.length_drop]; omega)
    refine ⟨i', o', w', hrun, ?_, hk', he', ?_, hown⟩
    · rw [hr1, hr2, List.append_assoc, ← List.take_add] at hI'
      rwa [Nat.add_sub_cancel' (by omega)] at hI'
    · rw [hrest, hr2, List.drop_drop, Nat.add_sub_cancel' (by omega)]

/-- A copy loop that the buffer can serve reads nothing more from the file. -/
theorem copyTurns_off {blk : Nat} : ∀ (turns n : Nat) (i : Reader) (o : Writer) (w : World γ), n ≤ i.buf.length →
    ∀ r w', (copyTurns io blk turns n i o : Prog γ ε _) w = .ok r w' → r.1.off = i.off := by
  intro turns
  induction turns with
  | zero =>
    intro n i o w _ r w' h
    simp only [copyTurns] at h
    split at h
    · cases h; rfl
    · cases h
  | succ turns ih =>
    intro n i o w hn r w' h
    simp only [copyTurns] at h
    split at h
    · cases h; rfl
    · have hm : min n blk ≤ i.buf.length := by omega
      have hread : i.read io w.fs (min n blk) = (i.buf.take (min n blk), { i with buf := i.buf.drop (min n blk) }) := by
        rw [Reader.read, if_pos (Or.inl hm)]
      simp only [fread, look_bind, hread] at h
      split at h
      · cases h
      · simp only [fwrite, act_bind] at h
        have := ih _ _ _ _ (by simp only [List.length_drop, List.length_take]; omega) r w' h
        exact this

/-- A copy loop with enough input hands over exactly the next `n` bytes. -/
theorem copyLoop_spec {I : Bytes → Writer → Fs → Prop} {j : Reader} {X : Bytes} (hI : Sink io I j.file X) (blk : Nat)
    (hblk : 0 < blk) {n : Nat} {i : Reader} {o : Writer} {v : Bytes} {w : World γ} (hv : I v o w.fs) (hk : i.Same j)
    (he : i.eof = false) (hn : n ≤ (i.rest X).length) :
    ∃ i' o' w', (copyLoop io blk n i o : Prog γ ε _) w = .ok (i', o') w' ∧
      I (v ++ (i.rest X).take n) o' w'.fs ∧ i'.Same j ∧ i'.eof = false ∧ i'.rest X = (i.rest X).drop n ∧
      w'.own = w.own :=
  copyTurns_spec hI hblk n n i o v w (Nat.le_refl _) hv hk he hn

theorem drain_same {o : Writer} {k : Key} (hk : o.key = some k) (n : Nat) (fs : Fs) {k' : Key} (h : k' ≠ k) :
    Fs.Same fs (o.drain n fs).2 k' := by
  refine ⟨drain_other hk n fs h, ?_⟩
  simp only [Writer.drain, hk]
  rw [Fs.writeAt_unlinked]

/-- The writer of one file, beside which nothing changes from `base`. -/
def FileSink (base : Fs) (k : Key) (old : Bytes) (w : Bytes) (o : Writer) (fs : Fs) : Prop :=
  o.Holds fs k old w ∧ ∀ k', k' ≠ k → Fs.Same base fs k'

theorem fileSink {base : Fs} {k : Key} {j : Reader} {old X : Bytes} (hne : j.key ≠ k) (hX : j.file base = X) :
    Sink io (FileSink base k old) j.file X where
  write _ o fs bs h := ⟨write_holds io h.1 bs, fun k' hk' =>
    (h.2 k' hk').trans (drain_same (o := { o with buf := o.buf ++ bs }) h.1.key _ fs hk')⟩
  source _ _ _ h := ((h.2 _ hne).file j.gen).trans hX

/-- The null device: the directory stays `base`. -/
def NullSink (base : Fs) (_ : Bytes) (o : Writer) (fs : Fs) : Prop := o.key = none ∧ fs = base

theorem nullSink {base : Fs} {src : Fs → Bytes} {X : Bytes} (hX : src base = X) : Sink io (NullSink base) src X where
  write w o fs bs h := ⟨h.1, by rw [Writer.write, drain_null (o := { o with buf := o.buf ++ bs }) h.1]; exact h.2⟩
  source w o fs h := by rw [h.2]; exact hX

/-! ## What holds at every moment -/

variable {P : γ → Fs → Prop}

/-- The writer's file is one `P` says nothing about. -/
def Writer.Off (P : γ → Fs → Prop) (o : Writer) : Prop := ∀ k, o.key = some k → Blind P k

theorem drain_keeps {o : Writer} (h : o.Off P) (n : Nat) {own : γ} {fs : Fs} (hp : P own fs) :
    P own (o.drain n fs).2 ∧ (o.drain n fs).1.Off P := by
  refine ⟨?_, h⟩
  simp only [Writer.drain]
  split
  · exact (h _ ‹_›).writeAt hp _ _
  · exact hp

theorem fwrite_keeps {o : Writer} (h : o.Off P) (bs : Bytes) :
    Keeps P (fwrite io o bs : Prog γ ε Writer) (Writer.Off P) :=
  Keeps.act fun _ _ hp => drain_keeps (o := { o with buf := o.buf ++ bs }) h _ hp

theorem fflush_keeps {o : Writer} (h : o.Off P) : Keeps P (fflush o : Prog γ ε Writer) (Writer.Off P) :=
  Keeps.act fun _ _ hp => drain_keeps h _ hp

theorem fopenWrite_keeps {dirs : Key → Bool} {k : Key} (h : Blind P k) :
    Keeps P (fopenWrite dirs k : Prog γ ε (Option Writer)) fun o => ∀ o' ∈ o, o'.Off P := by
  refine Keeps.act fun _ _ hp => ?_
  split
  · refine ⟨h _ _ _ hp, fun o' ho' k' e => ?_⟩
    cases ho'
    cases e
    exact h
  · exact ⟨hp, nofun⟩

theorem copyTurns_keeps {blk : Nat} : ∀ (turns n : Nat) (i : Reader) (o : Writer), o.Off P →
    Keeps P (copyTurns io blk turns n i o : Prog γ ε _) fun r => r.2.Off P := by
  intro turns
  induction turns with
  | zero =>
    intro n i o h
    exact Keeps.ite (fun _ => Keeps.pure h) fun _ => Keeps.hang
  | succ turns ih =>
    intro n i o h
    refine Keeps.ite (fun _ => Keeps.pure h) fun _ => ?_
    refine Keeps.bind Keeps.read fun r _ => ?_
    refine Keeps.ite (fun _ => Keeps.hang) fun _ => ?_
    exact Keeps.bind (fwrite_keeps h r.1) fun o' ho' => ih _ _ _ ho'

theorem copyLoop_keeps {blk n : Nat} {i : Reader} {o : Writer} (h : o.Off P) :
    Keeps P (copyLoop io blk n i o : Prog γ ε _) fun r => r.2.Off P := copyTurns_keeps n n i o h

end

end DiyDdmin.Posix
