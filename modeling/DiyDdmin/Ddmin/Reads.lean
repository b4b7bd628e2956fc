/-
  DiyDdmin.Ddmin.Reads — what the two inner loops ask `fread` for.

  The buffers of the reads hold 2048 bytes. Each turn is written once more beside the sizes
  that it requests (`askingTurn`): without them it is the turn of the loop, and so are the
  steps of the machine (`next_eq`). The copying loops request blocks, and the complement
  loop all of `part_size` at once where it skips its part; what the tests read goes through
  `fgets` and `read`, which are bounded by themselves.

  Proved, for both functions, any names, any sizes and any verdicts: if no complement loop
  is entered on a file of more than 2048 bytes for each of its `n` parts, no read requests
  more than its buffer holds, and a loop entered on such a file of up to 2^24 bytes requests
  more (`reads_fit`). A file of two buffers is never too large (`small_roomy`); an input of
  4097 bytes neither half of which fails is (`a_skipped_part_overruns_its_buffer`).
-/

import DiyDdmin.Ddmin.Parts
import DiyDdmin.Posix.Requests

namespace DiyDdmin.Ddmin

open Posix Tester Numeric Systems Reduction Abstract

section

variable (E : Env) (V : Variant)

/-! ## The requests of a turn -/

/-- `writeSubset` -/
def askSubset (l : Locals) (partSize : Int) : Asking Vars Exit Locals := do
  let r ← askCopyLoop E.io 2048 partSize.toNat l.inFp l.outFp.rewind
  let outFp ← .quiet (fflush r.2)
  let bt ← .quiet (byteCountFile E l.outFile)
  if partSize < bt then do
    .quiet (truncateTo E l.outFile partSize)
    pure { l with inFp := r.1, outFp := outFp }
  else pure { l with inFp := r.1, outFp := outFp }

/-- `writeComplement` -/
def askComplement (l : Locals) (cStart partSize : Int) : Asking Vars Exit Locals := do
  let r ← askCopyLoop E.io 2048 cStart.toNat l.inFp.rewind l.outFp.rewind
  let s ← .read E.io partSize.toNat r.1
  if (s.1.length : Int) ≠ partSize then .quiet (exit .complementSpace)
  else do
    let r ← askCopyLoop E.io 2048 (l.fSize - (cStart + partSize)).toNat s.2 r.2
    let outFp ← .quiet (fflush r.2)
    let bt ← .quiet (byteCountFile E l.outFile)
    if (bt : Int) ≠ l.fSize - partSize then do
      .quiet (truncateTo E l.outFile (l.fSize - partSize))
      pure { l with inFp := r.1, outFp := outFp }
    else pure { l with inFp := r.1, outFp := outFp }

/-- `subsetTurn` -/
def askSubsetTurn (n : Int) (fileNo : Nat) (l : Locals) (fSizeLeft nLeft : Int) : Asking Vars Exit Ctl := do
  let partSize := ceilfDiv fSizeLeft nLeft
  let l ← askSubset E l partSize
  let eCode ← .quiet (V.testSubset l.outFile)
  if eCode then do
    .quiet (hold l.outFile)
    pure ⟨.head, 2, fileNo⟩
  else if 0 < nLeft - 1 then pure ⟨.subset l (fSizeLeft - partSize) (nLeft - 1), n, fileNo⟩
  else pure ⟨.complement l 0 n, n, fileNo⟩

/-- `complementTurn` -/
def askComplementTurn (n : Int) (fileNo : Nat) (l : Locals) (cStart nLeft : Int) : Asking Vars Exit Ctl := do
  let partSize := ceilfDiv (l.fSize - cStart) nLeft
  let l ← askComplement E l cStart partSize
  let eCode ← .quiet (V.testComplement l.outFile)
  if eCode then do
    .quiet (hold l.outFile)
    pure ⟨.head, max (n - 1) 2, fileNo⟩
  else if cStart + partSize < l.fSize then pure ⟨.complement l (cStart + partSize) (nLeft - 1), n, fileNo⟩
  else if n < l.fSize then pure ⟨.head, min (n * 2) l.fSize, fileNo⟩
  else do
    let held ← .quiet (look fun v _ => v.held)
    pure ⟨.ret held, n, fileNo⟩

/-- `turn`; what opens a round and what ends one request nothing. -/
def askingTurn (c : Ctl) : Option (Asking Vars Exit Ctl) :=
  match c.pc with
  | .subset l fSizeLeft nLeft => some (askSubsetTurn E V c.n c.fileNo l fSizeLeft nLeft)
  | .complement l cStart nLeft => some (askComplementTurn E V c.n c.fileNo l cStart nLeft)
  | _ => (turn E V c).map .quiet

/-- The requests of the next turn. -/
def asks (s : St) : List Nat :=
  match askingTurn E V s.ctl with
  | some x => x.asks s.w
  | none => []

theorem askSubset_plain (l : Locals) (p : Int) : (askSubset E l p).plain = writeSubset E l p := by
  simp only [askSubset, writeSubset, Asking.plain_bind, Asking.plain_ite, Asking.plain_quiet, Asking.plain_pure, askCopyLoop_plain]

theorem askComplement_plain (l : Locals) (c p : Int) : (askComplement E l c p).plain = writeComplement E l c p := by
  simp only [askComplement, writeComplement, Asking.plain_bind, Asking.plain_ite, Asking.plain_quiet, Asking.plain_pure,
    Asking.plain_read, askCopyLoop_plain]

theorem askingTurn_plain (c : Ctl) : (askingTurn E V c).map Asking.plain = turn E V c := by
  obtain ⟨pc, n, fileNo⟩ := c
  cases pc with
  | subset l f k =>
    simp only [askingTurn, turn, Option.map_some, askSubsetTurn, subsetTurn, Asking.plain_bind, Asking.plain_ite,
      Asking.plain_quiet, Asking.plain_pure, askSubset_plain]
  | complement l c k =>
    simp only [askingTurn, turn, Option.map_some, askComplementTurn, complementTurn, Asking.plain_bind, Asking.plain_ite,
      Asking.plain_quiet, Asking.plain_pure, askComplement_plain]
  | _ => rfl

/-- A step of the machine is the turn whose requests are listed. -/
theorem next_eq (s : St) : next E V s = (askingTurn E V s.ctl).map fun x => (loop E V).settle s.ctl (x.plain s.w) := by
  change (turn E V s.ctl).map _ = _
  rw [← askingTurn_plain, Option.map_map]
  rfl

/-- Every read of the next turn fits the buffer it is given. -/
def Fits (s : St) : Prop := ∀ m ∈ asks E V s, m ≤ 2048

/-- A complement loop that begins here has no more than 2048 bytes for each part. -/
def Roomy (s : St) : Prop :=
  match s.ctl.pc with
  | .complement l cStart nLeft => cStart = 0 → (l.fSize : Int) ≤ 2048 * nLeft
  | _ => True

instance decidableRoomy (s : St) : Decidable (Roomy s) := by
  unfold Roomy
  split <;> infer_instance

end

variable {E : Env} {V : Variant} {fs : Fs}

theorem askSubset_atMost (l : Locals) (p : Int) : Asking.AtMost 2048 (askSubset E l p) :=
  .bind (askCopyLoop_atMost _ _ _ _ _) fun _ => .bind .quiet fun _ => .bind .quiet fun _ => .ite (.bind .quiet fun _ => .pure) .pure

/-- The skipped part is the one request that may be too large. -/
theorem askComplement_atMost {l : Locals} {c p : Int} (hp : p ≤ 2048) : Asking.AtMost 2048 (askComplement E l c p) := by
  refine .bind (askCopyLoop_atMost _ _ _ _ _) fun r => .bind (.read (by omega)) fun s => .ite .quiet ?_
  refine .bind (askCopyLoop_atMost _ _ _ _ _) fun r' => .bind .quiet fun o => .bind .quiet fun bt => ?_
  exact .ite (.bind .quiet fun _ => .pure) .pure

/-- What holds in the two loops. -/
def Portioned (s : St) : Prop :=
  match s.ctl.pc with
  | .subset l _ _ => 0 < l.fSize
  | .complement l cStart nLeft => 0 ≤ cStart ∧ cStart < l.fSize ∧ (l.fSize : Int) - cStart ≤ 2048 * nLeft
  | _ => True

theorem Portioned.fits {s : St} (h : Portioned s) : Fits E V s := by
  obtain ⟨⟨pc, n, fileNo⟩, w⟩ := s
  intro m hm
  cases pc with
  | subset l f k =>
    have hx : Asking.AtMost 2048 (askSubsetTurn E V n fileNo l f k) := by
      refine .bind (askSubset_atMost l _) fun l' => .bind .quiet fun v => ?_
      exact .ite (.bind .quiet fun _ => .pure) (.ite .pure .pure)
    exact hx w m hm
  | complement l c k =>
    obtain ⟨h0, hlt, hle⟩ := h
    have hp : ceilfDiv ((l.fSize : Int) - c) k ≤ 2048 := ceilfDiv_le (j := 11) (by omega) (by omega) (by decide) hle
    have hx : Asking.AtMost 2048 (askComplementTurn E V n fileNo l c k) := by
      refine .bind (askComplement_atMost hp) fun l' => .bind .quiet fun v => ?_
      exact .ite (.bind .quiet fun _ => .pure) (.ite .pure (.ite .pure (.bind .quiet fun _ => .pure)))
    exact hx w m hm
  | _ => cases hm

theorem writeSubset_fSize {l l' : Locals} {p : Int} {w w' : World Vars} (h : writeSubset E l p w = .ok l' w') : l'.fSize = l.fSize := by
  obtain ⟨r, w1, -, h⟩ := bind_eq_ok.mp h
  obtain ⟨o, w2, -, h⟩ := bind_eq_ok.mp h
  obtain ⟨bt, w3, -, h⟩ := bind_eq_ok.mp h
  split at h
  · obtain ⟨-, w4, -, h⟩ := bind_eq_ok.mp h
    cases h; rfl
  · cases h; rfl

theorem writeComplement_fSize {l l' : Locals} {c p : Int} {w w' : World Vars} (h : writeComplement E l c p w = .ok l' w') :
    l'.fSize = l.fSize := by
  obtain ⟨r, w1, -, h⟩ := bind_eq_ok.mp h
  obtain ⟨s, w2, -, h⟩ := bind_eq_ok.mp h
  split at h
  · cases h
  · obtain ⟨r', w3, -, h⟩ := bind_eq_ok.mp h
    obtain ⟨o, w4, -, h⟩ := bind_eq_ok.mp h
    obtain ⟨bt, w5, -, h⟩ := bind_eq_ok.mp h
    split at h
    · obtain ⟨-, w6, -, h⟩ := bind_eq_ok.mp h
      cases h; rfl
    · cases h; rfl

/-- Step lemma. -/
theorem portioned_next {s t : St} (h : Portioned s) (hroom : Roomy t) (hn : next E V s = some t) : Portioned t := by
  obtain ⟨⟨pc, n, fileNo⟩, w⟩ := s
  obtain ⟨x, hx, ⟨c', w', hr, rfl⟩ | ⟨e, w', rfl⟩ | ⟨w', rfl⟩⟩ := Loop.next_cases hn
  rotate_left
  · trivial
  · trivial
  change turn E V ⟨pc, n, fileNo⟩ = some x at hx
  cases pc with
  | entry =>
    cases hx
    obtain ⟨a, w1, -, hr⟩ := bind_eq_ok.mp hr
    split at hr
    · cases hr
    · obtain ⟨b, w2, -, hr⟩ := bind_eq_ok.mp hr
      split at hr
      · cases hr
      · obtain ⟨-, w3, -, hr⟩ := bind_eq_ok.mp hr
        cases hr; trivial
  | head =>
    cases hx
    obtain ⟨held, w1, -, hr⟩ := bind_eq_ok.mp hr
    obtain ⟨fSize, w2, -, hr⟩ := bind_eq_ok.mp hr
    split at hr
    · obtain ⟨inFp, w3, -, hr⟩ := bind_eq_ok.mp hr
      cases inFp with
      | none => cases hr
      | some i =>
        obtain ⟨o, w4, -, hr⟩ := bind_eq_ok.mp hr
        cases o with
        | none => cases hr
        | some o =>
          cases hr
          change 0 < fSize
          omega
    · cases hr; trivial
  | subset l f k =>
    cases hx
    obtain ⟨l', w1, hl, hr⟩ := bind_eq_ok.mp hr
    obtain ⟨v, w2, -, hr⟩ := bind_eq_ok.mp hr
    have hsize := writeSubset_fSize hl
    have hpos : 0 < l.fSize := h
    split at hr
    · obtain ⟨-, w3, -, hr⟩ := bind_eq_ok.mp hr
      cases hr; trivial
    · split at hr
      · cases hr
        change 0 < l'.fSize
        omega
      · cases hr
        have hstart : (l'.fSize : Int) ≤ 2048 * n := hroom rfl
        exact ⟨Int.le_refl _, by omega, by rw [Int.sub_zero]; exact hstart⟩
  | complement l c k =>
    cases hx
    obtain ⟨l', w1, hl, hr⟩ := bind_eq_ok.mp hr
    obtain ⟨v, w2, -, hr⟩ := bind_eq_ok.mp hr
    have hsize := writeComplement_fSize hl
    obtain ⟨h0, hlt, hle⟩ := h
    split at hr
    · obtain ⟨-, w3, -, hr⟩ := bind_eq_ok.mp hr
      cases hr; trivial
    · split at hr
      · cases hr
        have hrest := rest_le (a := (l.fSize : Int) - c) (b := k) (j := 11) (by omega) (by omega) (by decide) hle
        have hpos := ceilfDiv_pos (a := (l.fSize : Int) - c) (b := k) (by omega) (by omega)
        exact ⟨by omega, by omega, by omega⟩
      · split at hr
        · cases hr; trivial
        · obtain ⟨held, w3, -, hr⟩ := bind_eq_ok.mp hr
          cases hr; trivial
  | ret p => cases hx
  | exited e => cases hx
  | hung => cases hx

/-- Run lemma. -/
theorem run_portioned {k : Nat} (h : ∀ j ≤ k, Roomy ((machine E V fs).run j)) : Portioned ((machine E V fs).run k) := by
  induction k with
  | zero => trivial
  | succ k ih =>
    have hk := ih fun j hj => h j (by omega)
    have hroom := h (k + 1) (Nat.le_refl _)
    rw [Machine.run] at hroom ⊢
    cases hn : (machine E V fs).next ((machine E V fs).run k) with
    | none => exact hk
    | some t =>
      rw [hn] at hroom
      exact portioned_next hk hroom hn

/-- A loop that starts on too large a file asks for its first part at once. -/
theorem overruns {s : St} {l : Locals} {nLeft : Int} (hs : s.ctl.pc = .complement l 0 nLeft) (hn : 0 < nLeft)
    (hlarge : 2048 * nLeft < l.fSize) (hsmall : l.fSize ≤ 2 ^ 24) : ¬ Fits E V s := by
  intro h
  have hpart : 2048 < ceilfDiv ((l.fSize : Int) - 0) nLeft := by
    rw [Int.sub_zero, ceilfDiv_eq (by omega) (by omega) hn (by omega), Int.lt_ceil, lt_div_iff₀ (by exact_mod_cast hn)]
    exact_mod_cast hlarge
  have hmem : (ceilfDiv ((l.fSize : Int) - 0) nLeft).toNat ∈ asks E V s := by
    obtain ⟨⟨pc, n, fileNo⟩, w⟩ := s
    obtain rfl : pc = .complement l 0 nLeft := hs
    exact List.mem_append_left _ List.mem_cons_self
  have := h _ hmem
  omega

/-- In every run whose complement loops so far started on files of no more than 2048 bytes
    for each part, all reads fit; where one starts on a larger file, of up to 2^24 bytes,
    one does not. -/
def ReadsFit (E : Env) (V : Variant) (fs : Fs) : Prop :=
  (∀ k, (∀ j ≤ k, Roomy ((machine E V fs).run j)) → ∀ j ≤ k, Fits E V ((machine E V fs).run j)) ∧
  ∀ k l nLeft, ((machine E V fs).run k).ctl.pc = .complement l 0 nLeft → 0 < nLeft → 2048 * nLeft < l.fSize → l.fSize ≤ 2 ^ 24 →
    ¬ Fits E V ((machine E V fs).run k)

/-- For both functions, whatever the names, the sizes and the verdicts. -/
theorem reads_fit (E : Env) (fs : Fs) :
    (∀ byteSeqPath, ReadsFit E (ddmin E byteSeqPath) fs) ∧ ∀ inputDir exeDir, ReadsFit E (ddminDir E inputDir exeDir) fs := by
  have fit : ∀ V, ReadsFit E V fs := fun V =>
    ⟨fun k h j hj => (run_portioned fun i hi => h i (by omega)).fits, fun k l nLeft hs hn hlarge hsmall => overruns hs hn hlarge hsmall⟩
  exact ⟨fun _ => fit _, fun _ _ => fit _⟩

/-- Of a file of at most two buffers each of two parts or more fits one. -/
theorem small_roomy {p : Path} {X : Bytes} (hp : Unnamed E PartName (E.key p)) (hX : fs (E.key p) = some X)
    (hl : X.length ≤ 2 * 2048) {s : St} (hs : (machine E (ddmin E p) fs).Reach s) : Roomy s := by
  cases reach_tracked (ddmin_ready hp hX (by omega)) hs with
  | start => trivial
  | noProgram _ he _ => rw [Roomy, he]; trivial
  | loop a ha hm =>
    obtain ⟨⟨pc, n, fileNo⟩, w⟩ := s
    cases pc with
    | complement l c k =>
      intro hc
      have hpc := hm.pc
      cases hph : a.phase <;> simp only [PcMatch, hph] at hpc
      obtain ⟨j, -, -, hS, -, rfl, rfl⟩ := hpc
      have hwf := hm.wf.parts (Or.inr hph)
      have h2 := hwf.two_le
      have hdone := hwf.done
      have hle := reach_length ha
      rw [hS.fSize]
      omega
    | _ => trivial

/-- Where nothing fails the first complement loop is entered on the whole input. -/
theorem complement_entered {X : Bytes} (h2 : 2 ≤ X.length) (hl : X.length ≤ 2 ^ 24) :
    ∃ s l, (machine (judging fun _ => false) (ddmin (judging fun _ => false) "in".toList) (soleInput "in".toList X)).Reach s ∧
      s.ctl.pc = .complement l 0 2 ∧ l.fSize = X.length := by
  have hp := unnamed_in fun _ => false
  obtain ⟨t, ht, -, -, -, hm⟩ := enter (ddmin_ready hp (sole_in (fun _ => false) X) hl) (by rfl)
  have hhead : AtHead (judging fun _ => false) (ddmin (judging fun _ => false) "in".toList) t 2 X := hm.atHead rfl
  have hrej := parts_rejected hp (judging_judges fun _ => false) hhead (by decide) h2 hl (fun _ _ => rfl) 2 (Nat.le_refl _)
  obtain ⟨a, hm', hcur, -, hphase, -⟩ := round_match (ddmin_layout hp) hhead (by decide) h2 hl 2 (by decide) hrej
  obtain ⟨hn, hph⟩ := hphase (by decide)
  obtain ⟨l, hl, hsize⟩ := match_complement hm' hph
  rw [hcur] at hsize
  rw [bound_zero] at hl
  exact ⟨_, l, reach_after (Machine.Reach.init.next ht) 3, hl, hsize⟩

/-- 4096 bytes of which nothing fails: the first skipped part takes its buffer as it is, and
    the later ones are smaller. -/
theorem reads_fit_two :
    (∃ k l, ((machine (judging fun _ => false) (ddmin (judging fun _ => false) "in".toList)
        (soleInput "in".toList (List.replicate 4096 0))).run k).ctl.pc = .complement l 0 2 ∧ l.fSize = 4096) ∧
    ∀ k, Fits (judging fun _ => false) (ddmin (judging fun _ => false) "in".toList)
      ((machine (judging fun _ => false) (ddmin (judging fun _ => false) "in".toList)
        (soleInput "in".toList (List.replicate 4096 0))).run k) := by
  constructor
  · obtain ⟨s, l, hs, hpc, hsize⟩ := complement_entered (X := List.replicate 4096 0) (by rw [List.length_replicate]; decide)
      (by rw [List.length_replicate]; decide)
    obtain ⟨k, rfl⟩ := hs.exists_run
    exact ⟨k, l, hpc, hsize.trans List.length_replicate⟩
  · intro k
    have hroom := fun j => small_roomy (X := List.replicate 4096 0) (unnamed_in fun _ => false) (sole_in _ _)
      (by rw [List.length_replicate]) (Machine.run_reach j)
    exact ((reads_fit _ _).1 _).1 k (fun j _ => hroom j) k (Nat.le_refl k)

/-- Neither half of 4097 bytes fails: the complement loop asks for 2049 of them at once. -/
theorem a_skipped_part_overruns_its_buffer :
    ∃ s, (machine (judging fun _ => false) (ddmin (judging fun _ => false) "in".toList)
        (soleInput "in".toList (List.replicate 4097 0))).Reach s ∧
      ¬ Fits (judging fun _ => false) (ddmin (judging fun _ => false) "in".toList) s := by
  obtain ⟨s, l, hs, hpc, hsize⟩ := complement_entered (X := List.replicate 4097 0) (by rw [List.length_replicate]; decide)
    (by rw [List.length_replicate]; decide)
  rw [List.length_replicate] at hsize
  exact ⟨s, hs, overruns hpc (by decide) (by rw [hsize]; decide) (by rw [hsize]; decide)⟩

end DiyDdmin.Ddmin
