/-
  DiyDdmin.Range.Restart — what `range` can return, over all selections.

  `CutsTo D clamp` says without threads and files what the calls of `_range` can leave,
  `clamp` being where the recursive call starts again. `LeftAt` reads off a state what can
  still be returned: a step leaves it as it is, but for the one that selects, where each
  failing candidate keeps what comes of it and together they keep all (`select_left`).

  Proved: `range` can return exactly these outcomes (`range_outcomes`), and for a monotone
  verdict function they are those of starting again at the new size less one
  (`restart_loses_nothing`).
-/

import DiyDdmin.Range.Failures
import DiyDdmin.Range.Results
import DiyDdmin.Reduction.Restart

namespace DiyDdmin.Range

open Posix Tester Numeric Systems Reduction WorkPool

/-- `MIN(rs, (input_size-rs-1))` -/
def clamp (rs size : Int) : Int := min rs (size - 1)

/-- `rs = byte_count_file(input_path)-1`: the variant in `test/multithread/range.c` starts
    again at the new size less one, whatever was cut. -/
def plain (_ size : Int) : Int := size - 1

theorem clamp_enough : Enough clamp := fun _ _ _ _ => ⟨Int.le_refl _, by unfold clamp; omega⟩

theorem plain_enough : Enough plain := fun _ _ _ _ => ⟨Int.min_le_right _ _, by unfold plain; omega⟩

theorem cutOf_eq_cut_take {n rs b : Nat} {Y : Bytes} (hb : b + rs ≤ n) : cutOf n rs b Y = cut b rs (Y.take n) := by
  rw [cutOf, cut, List.take_take, Nat.min_eq_left (by omega), List.drop_take]

/-! ## What is left -/

section

variable (E : Env) (D : Bytes → Bool) (s : St) (T U : Bytes)

/-- `U` can come of the accepted candidate `p`. -/
def Ahead (p : Path) : Prop :=
  ∃ c, s.w.fs (E.key p) = some c ∧ CutsTo D clamp c (s.g.inputSize - s.g.rs) (clamp s.g.rs (s.g.inputSize - s.g.rs)) U

/-- `U` can still be returned, `T` being held. -/
def LeftAt : MainPc → Prop
  | .entry => CutsTo D clamp T (toInt T.length) (toInt (T.length - 1)) U
  | .enter size r => CutsTo D clamp T size r U
  | .copying _ r => CutsTo D clamp T s.g.inputSize r U
  | .round r => CutsTo D clamp T s.g.inputSize r U
  | .settingRs r => CutsTo D clamp T s.g.inputSize r U
  | .settingExisting r => CutsTo D clamp T s.g.inputSize r U
  | .pushing r _ => CutsTo D clamp T s.g.inputSize r U
  | .posting r _ => CutsTo D clamp T s.g.inputSize r U
  | .waiting r => CutsTo D clamp T s.g.inputSize r U
  | .selecting r => CutsTo D clamp T s.g.inputSize r U
  | .renamingPart k => Ahead E D s U (s.g.failArr k)
  | .removing _ p => Ahead E D s U p
  | .recursing p => Ahead E D s U p
  | .finishing _ => U = T
  | .ret p => s.w.fs (E.key p) = some U
  | _ => False

end

section

variable {E : Env} {inputPath : Path} {fs : Fs} {D : Bytes → Bool} {s t : St} {T T' U : Bytes} {r : Int} {rand : Nat}

/-! ## Selecting -/

variable (hD : Judges E D) (hs : (system E inputPath fs).Reach s)
include hD hs

/-- Every entry of `fail_arr` names a failing cut of the round. -/
theorem entry_fails (hm : s.main = .selecting r) {k : Nat} (hk : k < s.g.failN) :
    ∃ b : Nat, b + r ≤ s.g.inputSize ∧ D (cut b r.toNat (s.g.log.input.take s.g.inputSize.toNat)) = true ∧
      s.w.fs (E.key (s.g.failArr k)) = some (cut b r.toNat (s.g.log.input.take s.g.inputSize.toNat)) := by
  obtain ⟨⟨-, hw⟩, ⟨hrs, hr, hlt⟩, -⟩ := reach_round hs (by rw [hm]; rfl)
  obtain ⟨ps, hperm, hlength, hfiled, -⟩ := select_filed hs hm
  rw [← hlength] at hk
  obtain ⟨j, hj, hb, -, hfile⟩ := hfiled k hk
  obtain ⟨t, ht, hte⟩ := List.mem_map.mp (hperm.mem_iff.mp (List.getElem_mem hk))
  obtain ⟨htried, hfailed⟩ := List.mem_filter.mp ht
  have hright := hw.tried t htried
  rw [show ps[k].2 = t.begin from (congrArg Prod.snd hte).symm] at hb hfile
  have hcut : cutOf s.g.inputSize.toNat r.toNat t.begin s.g.log.input = _ := cutOf_eq_cut_take hb
  refine ⟨t.begin, by omega, ?_, by rw [hj, ← hcut]; exact hfile⟩
  rw [← hcut, ← hrs, ← hright.bytes, ← hright.verdict D hD]
  exact hfailed

/-- Every failing cut of the round has an entry. -/
theorem cut_listed (hm : s.main = .selecting r) {b : Nat} (hb : b + r ≤ s.g.inputSize)
    (hf : D (cut b r.toNat (s.g.log.input.take s.g.inputSize.toNat)) = true) :
    ∃ k < s.g.failN, s.w.fs (E.key (s.g.failArr k)) = some (cut b r.toNat (s.g.log.input.take s.g.inputSize.toNat)) := by
  obtain ⟨-, ⟨hrs, hr, hlt⟩, -⟩ := reach_round hs (by rw [hm]; rfl)
  obtain ⟨t, ht, rfl, hright⟩ := round_tried hs hm hb
  have hin : t.begin + r.toNat ≤ s.g.inputSize.toNat := by omega
  rw [← cutOf_eq_cut_take hin] at hf ⊢
  have hfailed : t.failed = true := by rw [hright.verdict D hD, hright.bytes, hrs, hf]
  obtain ⟨ps, hperm, hlength, hfiled, -⟩ := select_filed hs hm
  have hmem : (t.worker, t.begin) ∈ failures s.g := List.mem_map.mpr ⟨t, List.mem_filter.mpr ⟨ht, hfailed⟩, rfl⟩
  obtain ⟨k, hk, hkt⟩ := List.getElem_of_mem (hperm.mem_iff.mpr hmem)
  obtain ⟨j, hj, -, -, hfile⟩ := hfiled k hk
  rw [hkt] at hj hfile
  exact ⟨k, hlength ▸ hk, by rw [hj]; exact hfile⟩

/-- Over all selections what can come of the candidates is what can come of the round. -/
theorem select_left (hm : s.main = .selecting r) (hf : 0 < s.g.failN) :
    (∃ k < s.g.failN, Ahead E D s U (s.g.failArr k)) ↔ CutsTo D clamp s.g.log.input s.g.inputSize r U := by
  obtain ⟨-, ⟨hrs, hr, hlt⟩, -⟩ := reach_round hs (by rw [hm]; rfl)
  unfold Ahead
  rw [hrs]
  constructor
  · rintro ⟨k, hk, c, hc, ho⟩
    obtain ⟨b, hb, hfail, hfile⟩ := entry_fails hD hs hm hk
    rw [hfile] at hc
    cases hc
    exact .accept b hr hb hfail ho
  · intro ho
    cases ho with
    | done h0 => omega
    | lower _ _ hquiet _ =>
      obtain ⟨b, hb, hfail, -⟩ := entry_fails hD hs hm hf
      rw [hquiet b hb] at hfail
      cases hfail
    | accept b _ hb hfail ho =>
      obtain ⟨k, hk, hfile⟩ := cut_listed hD hs hm hb hfail
      exact ⟨k, hk, _, hfile, ho⟩

/-! ## Steps -/

/-- A candidate is about to be selected. -/
def Selects (s : St) : Prop := ∃ r, s.main = .selecting r ∧ 0 < s.g.failN

omit hD in
/-- A worker's step is of no consequence. -/
theorem left_worker {th : Worker} (hst : step E (.worker th) s = some t) : LeftAt E D t T U t.main ↔ LeftAt E D s T U s.main := by
  cases hround : s.main.inRound with
  | none =>
    obtain rfl := away_step hs hround hst
    cases s.main <;> exact Iff.rfl
  | some r =>
    obtain ⟨pc, g, w, rfl, hm, -⟩ := round_step hs hround hst
    have hsize := (worker_sizes hm).1
    change LeftAt E D _ T U s.main ↔ _
    cases hm' : s.main <;> rw [hm'] at hround <;> first | cases hround; done | simp only [LeftAt, hsize]

/-- The steps from selecting a candidate to calling `_range` with it. -/
def Accepts : MainPc → Prop
  | .renamingPart _ => True
  | .removing _ _ => True
  | .recursing _ => True
  | _ => False

omit hD in
/-- They carry the candidate along. -/
theorem left_accepts (h' : History E inputPath t T') (hacc : Accepts s.main) (hst : step E (.main rand) s = some t) :
    LeftAt E D t T' U t.main ↔ LeftAt E D s T U s.main := by
  obtain ⟨hlive, x, hx, rfl⟩ := step_main hst
  have hcall := (reach_sound hs hlive).call
  generalize s.main = pc at hx hcall hacc
  cases pc with
  | renamingPart k =>
    cases hx
    obtain ⟨⟨-, c, hc, -⟩, -⟩ := hcall
    simp only [renamingTurn] at h' ⊢
    rw [bind_ok (rename_run hc)]
    simp only [if_true, afterMain, pure_run, LeftAt, Ahead, Fs.put_same, hc]
  | removing i p =>
    cases hx
    obtain ⟨-, j, rfl⟩ := hcall
    have hkeep : (s.w.fs.put (E.key (originFile i)) none) (E.key (failFile j)) = s.w.fs (E.key (failFile j)) :=
      Fs.put_ne _ _ (originFile_ne_failFile E i j).symm
    simp only [remove, act_bind, afterMain, pure_run]
    split_ifs <;> simp only [LeftAt, Ahead, hkeep]
  | recursing p =>
    cases hx
    have hfile : s.w.fs (E.key p) = some T' := h'.file
    change CutsTo D clamp T' _ _ U ↔ Ahead E D s U p
    unfold Ahead
    rw [hfile]
    constructor
    · exact fun ho => ⟨T', rfl, ho⟩
    · rintro ⟨c, hc, ho⟩
      cases hc
      exact ho
  | _ => exact hacc.elim

/-- So does every other step that selects none. -/
theorem left_main {pc : MainPc} {g : Globals} {w : World Vars} (h : History E inputPath s T)
    (h' : History E inputPath ⟨pc, s.workers, g, w⟩ T) (hacc : ¬ Accepts s.main) (hsel : ¬ Selects s)
    (hm : MainMove rand s.w.own.held ((s.w.fs (E.key s.w.own.held)).getD []) s.g s.main pc g) :
    LeftAt E D ⟨pc, s.workers, g, w⟩ T U pc ↔ LeftAt E D s T U s.main := by
  have hnone : ∀ r, s.main = .selecting r → s.g.failN = 0 := fun r hm => by_contra fun hf => hsel ⟨r, hm, Nat.pos_of_ne_zero hf⟩
  have hpass := fun r hm hf b hb => round_passes (r := r) hD hs hm hf (b := b) hb
  have hsized := fun r hm => (reach_round (r := r) hs hm).2.1
  have hknows := h.knows
  rw [h.file, Option.getD_some] at hm
  clear hsel
  generalize s.main = pc0 at hm hacc hnone hpass hsized hknows
  cases hm with
  | copy i r => split_ifs <;> exact Iff.rfl
  | finish r hr => exact (cutsTo_done hr).symm
  | select r hf => exact absurd (hnone r rfl) hf.ne'
  | next r hf =>
    obtain ⟨-, hr, hlt⟩ := hsized r rfl
    have hT : s.g.log.input = T := hknows
    refine (cutsTo_lower hr hlt.le ?_).symm
    intro b hb
    rw [← hT, ← cutOf_eq_cut_take (by omega)]
    exact hpass r rfl hf b hb
  | rename k => exact absurd trivial hacc
  | remove i p => exact absurd trivial hacc
  | recurse p => exact absurd trivial hacc
  | clear i =>
    split_ifs at h' ⊢
    · exact Iff.rfl
    · have hret : s.w.own.held = w.own.held := h'.knows
      have hfile := h'.file
      rw [← hret] at hfile
      change w.fs (E.key s.w.own.held) = some U ↔ U = T
      rw [show w.fs (E.key s.w.own.held) = some T from hfile, Option.some.injEq]
      exact eq_comm
  | _ => exact Iff.rfl

omit hD hs in
theorem select_step (hm : s.main = .selecting r) (hf : 0 < s.g.failN) (rand : Nat) :
    step E (.main rand) s = some ⟨.renamingPart (rand % s.g.failN), s.workers, s.g, s.w⟩ := by
  simp only [step, hm, MainPc.over, Bool.false_eq_true, if_false, mainTurn, if_pos hf, Option.map_some]
  rfl

/-- A selection keeps part of what is left, and all selections together keep all. -/
theorem left_select (h : History E inputPath s T) (hm : s.main = .selecting r) (hf : 0 < s.g.failN) :
    LeftAt E D s T U s.main ↔
      ∃ rand, LeftAt E D ⟨.renamingPart (rand % s.g.failN), s.workers, s.g, s.w⟩ T U (.renamingPart (rand % s.g.failN)) := by
  have hknows := h.knows
  rw [hm] at hknows ⊢
  obtain rfl : s.g.log.input = T := hknows
  refine (select_left hD hs hm hf).symm.trans ⟨?_, ?_⟩
  · rintro ⟨k, hk, hc⟩
    refine ⟨k, ?_⟩
    rw [Nat.mod_eq_of_lt hk]
    exact hc
  · rintro ⟨rand, hc⟩
    exact ⟨rand % s.g.failN, Nat.mod_lt _ hf, hc⟩

/-- Step lemma: nothing is added to what is left, and nothing lost but by a selection. -/
theorem left_next (hp : Unnamed E RangeName (E.key inputPath)) {m : Move} (h : History E inputPath s T)
    (hst : step E m s = some t) (ho : t.main.over = false) :
    ∃ T', History E inputPath t T' ∧ ∀ U, (LeftAt E D t T' U t.main → LeftAt E D s T U s.main) ∧
      (¬ Selects s → LeftAt E D s T U s.main → LeftAt E D t T' U t.main) := by
  obtain ⟨T', hlive, -, hcase⟩ := history_next hp hs h hst
  have h' := hlive.resolve_left fun e => nomatch ho.symm.trans e
  refine ⟨T', h', ?_⟩
  intro U
  cases m with
  | worker th =>
    rcases hcase with ⟨rfl, -⟩ | ⟨⟨rand, p, hmove, -⟩, -⟩
    · have hiff := left_worker (D := D) (T := T') (U := U) hs hst
      exact ⟨hiff.mp, fun _ => hiff.mpr⟩
    · cases hmove
  | main rand =>
    by_cases hacc : Accepts s.main
    · have hiff := left_accepts (D := D) (T := T) (U := U) hs h' hacc hst
      exact ⟨hiff.mp, fun _ => hiff.mpr⟩
    obtain rfl : T' = T := by
      rcases hcase with ⟨e, -⟩ | ⟨⟨_, p, -, hmain⟩, -⟩
      · exact e
      · rw [hmain] at hacc
        exact absurd trivial hacc
    by_cases hsel : Selects s
    · refine ⟨?_, fun hno => absurd hsel hno⟩
      intro hleft
      obtain ⟨r, hm, hf⟩ := hsel
      rw [select_step hm hf rand] at hst
      cases hst
      exact (left_select hD hs h hm hf).mpr ⟨rand, hleft⟩
    · cases (step_cases hst).2.resolve_left (fun e => nomatch ho.symm.trans e) with
      | main _ w hm =>
        have hiff := left_main (U := U) hD hs h h' hacc hsel hm
        exact ⟨hiff.mp, fun _ => hiff.mpr⟩

/-! ## Runs -/

omit hs
variable {X : Bytes} (hp : Unnamed E RangeName (E.key inputPath)) (hX : fs (E.key inputPath) = some X)
include hp hX

/-- What is left was left from the start. -/
theorem reach_left (hs : (system E inputPath fs).Reach s) (h : History E inputPath s T) (ho : s.main.over = false)
    (hleft : LeftAt E D s T U s.main) : CutsTo D clamp X (toInt X.length) (toInt (X.length - 1)) U := by
  induction hs generalizing T with
  | init h0 =>
    subst h0
    obtain rfl : X = T := Option.some.inj (hX.symm.trans h.file)
    exact hleft
  | step hr hst ih =>
    obtain ⟨m, hst⟩ := hst
    have hlive := (step_cases hst).1
    obtain ⟨T0, h0, -⟩ := reach_held hp hX hr hlive
    obtain ⟨T', h', hnext⟩ := left_next hD hr hp h0 hst ho
    obtain rfl : T' = T := Option.some.inj (h'.file.symm.trans h.file)
    exact ih h0 hlive ((hnext U).1 hleft)

/-- What is left can be returned. -/
theorem left_returned (hfree : ∀ th : Worker, fs (E.key (originFile th)) = none) (hsize : toInt X.length ≠ -2 ^ 31)
    (hleft : CutsTo D clamp X (toInt X.length) (toInt (X.length - 1)) U) :
    ∃ s, (system E inputPath fs).Reach s ∧ ∃ q, s.main = .ret q ∧ s.w.fs (E.key q) = some U := by
  refine range_leads (P := fun s => (∃ T, History E inputPath s T ∧ LeftAt E D s T U s.main) ∧ ∀ q, s.main ≠ .ret q) ?_ (.init rfl)
    ⟨⟨X, ⟨hX, Or.inl rfl, fun _ => trivial, trivial⟩, hleft⟩, fun q e => by cases e⟩
  rintro s hs ⟨⟨T, h, hleft⟩, hnot⟩
  -- some step keeps `U` among what is left
  obtain ⟨m, t, T', hst, h', hleft'⟩ : ∃ m t T', step E m s = some t ∧ History E inputPath t T' ∧ LeftAt E D t T' U t.main := by
    by_cases hsel : Selects s
    · obtain ⟨r, hm, hf⟩ := hsel
      obtain ⟨rand, hleft'⟩ := (left_select hD hs h hm hf).mp hleft
      obtain ⟨T', h', -⟩ := left_next hD hs hp h (select_step hm hf rand) rfl
      exact ⟨_, _, T', select_step hm hf rand, h', hleft'⟩
    · obtain ⟨m, t, hst⟩ : ∃ m t, step E m s = some t := by
        by_contra hno
        obtain ⟨q, hq⟩ := range_returns hX hfree hsize hs fun m => Option.eq_none_iff_forall_ne_some.mpr fun t ht => hno ⟨m, t, ht⟩
        exact hnot q hq
      have ho : t.main.over = false := by
        have hfit := reach_fit hX hfree (hs.step ⟨m, hst⟩)
        cases hm : t.main <;> rw [hm] at hfit <;> first | rfl | exact absurd hfit hsize | cases hfit
      obtain ⟨T', h', hnext⟩ := left_next hD hs hp h hst ho
      exact ⟨m, t, T', hst, h', (hnext U).2 hsel hleft⟩
  refine ⟨m, t, hst, ?_⟩
  by_cases hret : ∃ q, t.main = .ret q
  · obtain ⟨q, hq⟩ := hret
    rw [hq] at hleft'
    exact Or.inr ⟨q, hq, hleft'⟩
  · exact Or.inl ⟨⟨T', h', hleft'⟩, fun q hq => hret ⟨q, hq⟩⟩

/-- Over all selections and interleavings `range` returns the outcomes of starting again at
    the clamped length, and nothing else. -/
theorem range_outcomes (hfree : ∀ th : Worker, fs (E.key (originFile th)) = none) :
    (∃ s q, (system E inputPath fs).Reach s ∧ s.main = .ret q ∧ s.w.fs (E.key q) = some U) ↔
      CutsTo D clamp X (toInt X.length) (toInt (X.length - 1)) U := by
  constructor
  · rintro ⟨s, q, hs, hq, hfile⟩
    have hlive : s.main.over = false := by rw [hq]; rfl
    obtain ⟨T, h, -⟩ := reach_held hp hX hs hlive
    apply reach_left hD hp hX hs h hlive
    rw [hq]
    exact hfile
  · intro ho
    by_cases hsize : toInt X.length = -2 ^ 31
    · rw [hsize, toInt_pred_min hsize] at ho
      exact absurd ho (cutsTo_short (by decide) (by decide))
    · obtain ⟨s, hs, q, hq, hfile⟩ := left_returned hD hp hX hfree hsize ho
      exact ⟨s, q, hs, hq, hfile⟩

/-- For a monotone verdict function `range` returns exactly what the variant can return
    that starts every call at its size less one. -/
theorem restart_loses_nothing (hM : Monotone D) (hfree : ∀ th : Worker, fs (E.key (originFile th)) = none) (U : Bytes) :
    (∃ s q, (system E inputPath fs).Reach s ∧ s.main = .ret q ∧ s.w.fs (E.key q) = some U) ↔
      CutsTo D plain X (toInt X.length) (toInt (X.length - 1)) U := by
  rw [range_outcomes hD hp hX hfree]
  by_cases hsize : toInt X.length = -2 ^ 31
  · rw [hsize, toInt_pred_min hsize]
    exact iff_of_false (cutsTo_short (by decide) (by decide)) (cutsTo_short (by decide) (by decide))
  · have hle : toInt X.length ≤ X.length := toInt_le (by omega)
    -- at the start no length is left out
    have hlong : LongPass D X (toInt X.length) (toInt X.length - 1) := fun l h1 h2 => by omega
    rw [toInt_pred hsize]
    exact ⟨fun h => cutsTo_congr hM clamp_enough plain_enough h hle (by omega) hlong,
      fun h => cutsTo_congr hM plain_enough clamp_enough h hle (by omega) hlong⟩

end

def firstThree (c : Bytes) : Bool := c.contains 1 && c.contains 2 && c.contains 3

/-- Four bytes of which the last can go: after this cut the code starts again at length 1,
    and the variant at length 2. -/
theorem restart_loses_nothing_four :
    clamp 1 3 = 1 ∧ plain 1 3 = 2 ∧
    ∃ s q, (system (judging firstThree) "in".toList (soleInput "in".toList [1, 2, 3, 4])).Reach s ∧ s.main = .ret q ∧
      s.w.fs ((judging firstThree).key q) = some [1, 2, 3] := by
  have hM : Monotone firstThree := fun Y Z hs hY => by
    simp only [firstThree, Bool.and_eq_true, List.contains_iff_mem] at hY ⊢
    exact ⟨⟨hs.subset hY.1.1, hs.subset hY.1.2⟩, hs.subset hY.2⟩
  have hsize : toInt (([1, 2, 3, 4] : Bytes).length) = 4 ∧ toInt ((([1, 2, 3, 4] : Bytes).length : Int) - 1) = 3 := by
    constructor <;> exact toInt_of_lt (by decide) (by decide)
  refine ⟨by decide, by decide, ?_⟩
  refine (restart_loses_nothing (judging_judges _) (unnamed_range_in _) (sole_in _ _) hM (fun th => sole_origin _ _ th) [1, 2, 3]).mpr ?_
  rw [hsize.1, hsize.2]
  -- lengths 3 and 2 pass, the cut at 3 of length 1 fails, and what it leaves loses nothing
  have passes : ∀ {T : Bytes} {n r : Int}, (∀ b ≤ (n - r).toNat, firstThree (cut b r.toNat (T.take n.toNat)) = false) →
      AllPass firstThree T n r := fun h b hb => h b (by omega)
  refine .lower (by decide) (by decide) (passes (by decide)) (.lower (by decide) (by decide) (passes (by decide)) ?_)
  refine .accept 3 (by decide) (by decide) (by decide) ?_
  exact .lower (by decide) (by decide) (passes (by decide)) (.lower (by decide) (by decide) (passes (by decide)) (.done (by decide)))

end DiyDdmin.Range
