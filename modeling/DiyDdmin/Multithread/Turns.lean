/-
  DiyDdmin.Multithread.Turns — every step of the multithreaded `range`, one by one.

  Proved: from a state that is as it should be (`Good`) each turn of a thread and of the
  main thread ends, in such a state; it lowers the rank, spends no more tests than are
  allowed for, and changes no entry but those the threads make up names for (`good_next`).
-/

import DiyDdmin.Multithread.Rounds

namespace DiyDdmin.Multithread

open Posix Tester Numeric Systems Reduction

section

variable {E : Env} {D : Bytes → Bool} {X U T : Bytes} {s : St} {w : World Vars} {threads : Thread → ThreadPc} {k : Nat} {rs : Int}
  {i : Thread}

/-! ## Between the steps -/

theorem MainAt.under {R : Round} {held : Path} {pc : MainPc} (h : MainAt D R held U pc) (hp : pc.phase i ≠ .unborn) :
    UnderWay D R.input U pc.rs := by
  cases pc with
  | creating _ _ _ _ _ => exact h.1
  | scanning _ => exact h
  | joining _ _ _ _ => exact h.1
  | selecting _ _ => exact h.1
  | _ => exact absurd rfl hp

/-- The round that is under way can be run. -/
theorem Good.over (h : Good E D X U s T) (hu : UnderWay D T U s.ctl.main.rs) : (round E s T).Over E s.w.fs := by
  obtain ⟨h0, hlt, -⟩ := hu
  have hsize : (round E s T).size = T.length := rfl
  have hrs : (round E s T).rs = s.ctl.main.rs.toNat := rfl
  exact ⟨by omega, by omega, h.small, Mapping.of_bytes h.file, h.apart⟩

theorem Good.size (h : Good E D X U s T) : heldSize E s = T.length := by
  rw [heldSize, h.file]
  rfl

theorem PhaseAt.congr {R : Round} {fs fs' : Fs} {pc : ThreadPc} {ph : Phase} (h : PhaseAt E D R i fs pc ph)
    (hfs : fs' (R.outKey E i) = fs (R.outKey E i)) : PhaseAt E D R i fs' pc ph := by
  cases ph with
  | unborn => exact h
  | running => exact Stage.congr h hfs
  | joined => exact ⟨h.1, fun b hb => hfs.trans (h.2 b hb)⟩

/-- A thread that can move is in the round. -/
theorem Good.running (h : Good E D X U s T) {x : Code ThreadPc} (hx : threadTurn E (s.ctl.threads i) = some x) :
    s.ctl.main.phase i = .running ∧ Stage E D (round E s T) i s.w.fs (s.ctl.threads i) := by
  have hi := h.threads i
  cases hp : s.ctl.main.phase i with
  | unborn =>
    rw [hp] at hi
    rw [show s.ctl.threads i = .absent from hi] at hx
    cases hx
  | running =>
    rw [hp] at hi
    exact ⟨rfl, hi⟩
  | joined =>
    rw [hp] at hi
    rw [show s.ctl.threads i = .absent from hi.1] at hx
    cases hx

/-- A step from `s` to `t`, where the input is `T`. -/
structure Advance (E : Env) (D : Bytes → Bool) (X U : Bytes) (s t : St) (T : Bytes) : Prop where
  good : Good E D X U t T
  rank : rank E t < rank E s
  frame : ∀ k, Unnamed E PartName k → t.w.fs k = s.w.fs k
  tests : ∀ f, Allows D f → spent E f t ≤ spent E f s ∧ (Exact D f → spent E f t = spent E f s)

/-! ## A step of a thread -/

theorem thread_advances (hD : Judges E D) (h : Good E D X U s T) {x : Code ThreadPc} (hx : threadTurn E (s.ctl.threads i) = some x) :
    Advance E D X U s (afterThread s i (x s.w)) T := by
  obtain ⟨hp, hstage⟩ := h.running hx
  have hover := h.over (h.main.under (by rw [hp]; nofun))
  obtain ⟨pc', w', hrun, hturn⟩ := thread_turn hD hover hstage hx
  rw [hrun]
  have hkept := hturn.frame _ (hover.apart _ (Nat.le_add_right _ _))
  have hfile : w'.fs (E.key s.w.own.held) = some T := hkept.1.trans h.file
  have hround : round E ⟨s.ctl.put i pc', w'⟩ T = round E s T := by
    have hgen : w'.fs.unlinked (E.key s.w.own.held) = s.w.fs.unlinked (E.key s.w.own.held) := hkept.2
    simp only [round, Mapping.of, show w'.own.held = s.w.own.held from hturn.held, hgen]
    rfl
  have hgood : Good E D X U ⟨s.ctl.put i pc', w'⟩ T := by
    refine ⟨h.genuine, ?_, h.small, ?_, ?_, ?_⟩
    · change w'.fs (E.key w'.own.held) = some T
      rw [hturn.held, hfile]
    · change ∀ j, s.ctl.fileNo ≤ j → ¬ Own E j (E.key w'.own.held)
      rw [hturn.held]
      exact h.apart
    · intro j
      rw [hround]
      change PhaseAt E D (round E s T) j w'.fs (Function.update s.ctl.threads i pc' j) (s.ctl.main.phase j)
      by_cases hj : j = i
      · subst hj
        rw [Function.update_self, hp]
        exact hturn.stage
      · rw [Function.update_of_ne hj]
        refine (h.threads j).congr (hturn.frame _ (not_own_part ?_)).1
        have := Fin.val_ne_of_ne hj
        omega
    · rw [hround]
      change MainAt D (round E s T) w'.own.held U s.ctl.main
      rw [hturn.held]
      exact h.main
  refine ⟨hgood, rank_lt_of_rest rfl (hgood.size.trans h.size.symm) rfl ?_, fun key hkey => (hturn.frame key (not_own_unnamed hkey _)).1, ?_⟩
  · have hrest := rest_put (heldSize E s) s.ctl i pc' s.ctl.main
    have hlt := hturn.rank
    change rest (heldSize E s) ((s.ctl.put i pc').goto s.ctl.main) < _
    omega
  · intro f hf
    have hplaces : ((round E s T).places i).length = shareSize T.length s.ctl.main.rs i := by
      rw [Round.places, length_part i.isLt, List.length_range]
      rfl
    have hspent := spent_put f s.ctl i pc' s.ctl.main h.size hgood.size rfl
    have htests := hturn.tests
    have hexact := hturn.exact
    simp only [paid, hplaces] at htests hexact
    change spent E f ⟨s.ctl.put i pc', w'⟩ + _ = spent E f s + _ at hspent
    change spent E f ⟨s.ctl.put i pc', w'⟩ ≤ _ ∧ (_ → spent E f ⟨s.ctl.put i pc', w'⟩ = _)
    constructor
    · omega
    · intro he
      have := hexact he.passes
      omega

/-! ## Steps of the main thread -/

/-- Between the rounds, whatever comes next over the same input. -/
theorem Good.between {main main' : MainPc} {k' : Nat} {f : Nat → Nat → Nat} (h : Good E D X U ⟨⟨main, threads, k⟩, w⟩ T)
    (hgone : ∀ i, threads i = .absent) : spent E f ⟨⟨main', threads, k'⟩, w⟩ = w.own.tests.length + main'.due f T.length :=
  spent_between h.size hgone

/-- The turn ends. -/
def Advances (E : Env) (D : Bytes → Bool) (X U : Bytes) (s : St) (x : Code Ctl) : Prop :=
  ∃ c w T, x s.w = .ok c w ∧ Advance E D X U s ⟨c, w⟩ T

theorem entry_advances (h : Good E D X U ⟨⟨.entry, threads, k⟩, w⟩ T) :
    Advances E D X U ⟨⟨.entry, threads, k⟩, w⟩ (entryTurn E ⟨.entry, threads, k⟩) := by
  have hmain : leftmost D T (T.length - 1) = U := h.main
  refine ⟨⟨.looping (T.length - 1), threads, k⟩, w, T, ?_, ⟨h.genuine, h.file, h.small, h.apart, h.threads, ?_, ?_⟩, ?_, fun _ _ => rfl, ?_⟩
  · simp only [entryTurn, look_bind]
    rw [bind_ok (byteCountFile_run h.file)]
    rfl
  · change (T.length : Int) - 1 < T.length
    omega
  · rw [← hmain]
    congr 1
    omega
  · exact rank_lt_of_era (Nat.lt_succ_self 1)
  · intro f _
    have hspent : spent E f ⟨⟨.looping (T.length - 1), threads, k⟩, w⟩ = spent E f ⟨⟨.entry, threads, k⟩, w⟩ := by
      rw [h.between h.threads, h.between h.threads]
      change _ + f T.length ((T.length : Int) - 1).toNat = _ + f T.length (T.length - 1)
      congr 2
      omega
    exact ⟨hspent.le, fun _ => hspent⟩

/-- A round begins, or none is left. -/
theorem looping_advances (h : Good E D X U ⟨⟨.looping rs, threads, k⟩, w⟩ T) :
    Advances E D X U ⟨⟨.looping rs, threads, k⟩, w⟩ (loopingTurn E ⟨.looping rs, threads, k⟩ rs) := by
  obtain ⟨hlt, hleft⟩ : rs < T.length ∧ leftmost D T rs.toNat = U := h.main
  have hsmall := h.small
  unfold Advances
  simp only [loopingTurn, look_bind]
  by_cases h0 : 0 < rs
  · rw [if_pos h0, bind_ok (byteCountFile_run h.file)]
    obtain ⟨r, rfl⟩ : ∃ r : Nat, rs = r := ⟨rs.toNat, by omega⟩
    have hint : toInt (r : Int) = r := toInt_of_lt (by omega) (by omega)
    obtain ⟨hparts, -⟩ := partitions_eq (show 0 < r by omega) (show r ≤ T.length by omega) hsmall
    simp only [hint, hparts]
    refine ⟨_, w, T, rfl, ⟨h.genuine, h.file, h.small, h.apart, ?_, ⟨h0, hlt, hleft⟩, rfl, rfl, rfl⟩, ?_, fun _ _ => rfl, ?_⟩
    · intro i
      have hborn : ¬ i < (0 : Thread) := by simp
      change PhaseAt E D _ i w.fs (threads i) (if i < 0 then .running else .unborn)
      rw [if_neg hborn]
      exact h.threads i
    · refine rank_lt_of_rest rfl rfl rfl ?_
      simp only [rest, Ctl.goto, MainPc.rank, Fin.val_zero, Nat.sub_zero]
      omega
    · intro f _
      simp only [Ctl.goto]
      rw [h.between h.threads, h.between h.threads]
      simp only [MainPc.due, Fin.val_zero, bound_zero, Nat.sub_zero]
      exact ⟨Nat.le_refl _, fun _ => trivial⟩
  · rw [if_neg h0]
    have hdone : leftmost D T rs.toNat = T := leftmost_done (by omega)
    refine ⟨_, w, T, rfl, ⟨h.genuine, h.file, h.small, h.apart, h.threads, rfl, hdone.symm.trans hleft⟩, ?_, fun _ _ => rfl, ?_⟩
    · exact rank_lt_of_era (Nat.lt_succ_self 0)
    · intro f _
      simp only [Ctl.goto]
      rw [h.between h.threads, h.between h.threads]
      simp only [MainPc.due]
      refine ⟨by omega, fun he => ?_⟩
      rw [show rs.toNat = 0 by omega, he.none]

/-- The rank a thread starts with. -/
theorem opening_rank {R : Round} {fs : Fs} (hR : R.Over E fs) (i : Thread) : (ThreadPc.opening (R.data i)).rank ≤ 7 * R.size + 2 := by
  obtain ⟨-, hmax⟩ := partitions_eq hR.pos hR.lt.le hR.small
  have hfirst : size (R.size - R.rs + 1) threadN 0 ≤ R.size - R.rs + 1 := by
    have := bound_add_size_le (f := R.size - R.rs + 1) (show 0 < threadN by decide)
    omega
  have := hR.pos
  have := hR.lt
  change 7 * (maxRangeN R.size R.rs).toNat + 2 ≤ _
  rw [hmax, Int.toNat_natCast]
  omega

/-- Thread `i` goes to `pc`, the main thread to `main`, and nothing else changes. -/
theorem Good.put (h : Good E D X U s T) {main : MainPc} {pc : ThreadPc} (hrs : main.rs = s.ctl.main.rs)
    (hph : ∀ j, j ≠ i → main.phase j = s.ctl.main.phase j) (hi : PhaseAt E D (round E s T) i s.w.fs pc (main.phase i))
    (hmain : MainAt D (round E s T) s.w.own.held U main) : Good E D X U ⟨(s.ctl.put i pc).goto main, s.w⟩ T := by
  have hround : round E ⟨(s.ctl.put i pc).goto main, s.w⟩ T = round E s T := by
    unfold round
    rw [← hrs]
    rfl
  refine ⟨h.genuine, h.file, h.small, h.apart, ?_, ?_⟩
  · intro j
    rw [hround]
    change PhaseAt E D (round E s T) j s.w.fs (Function.update s.ctl.threads i pc j) (main.phase j)
    by_cases hj : j = i
    · subst hj
      rw [Function.update_self]
      exact hi
    · rw [Function.update_of_ne hj, hph j hj]
      exact h.threads j
  · rw [hround]
    exact hmain

theorem rank_put {c : Ctl} {w : World Vars} {main : MainPc} {pc : ThreadPc} (hera : main.era = c.main.era) (hrs : main.rs = c.main.rs)
    (h : pc.rank + main.rank (heldSize E ⟨c, w⟩) < (c.threads i).rank + c.main.rank (heldSize E ⟨c, w⟩)) :
    rank E ⟨(c.put i pc).goto main, w⟩ < rank E ⟨c, w⟩ := by
  refine rank_lt_of_rest hera rfl hrs ?_
  have hrest := rest_put (heldSize E ⟨c, w⟩) c i pc main
  change rest _ ((c.put i pc).goto main) < rest _ c
  omega

theorem creating_advances {parts : List (List Int)} {fSize : Int} {mmapAddr : Mapping} (hm : s.ctl.main = .creating rs parts fSize mmapAddr i)
    (h : Good E D X U s T) : Advances E D X U s (pure (creatingTurn s.ctl rs parts fSize mmapAddr i)) := by
  have hmain := h.main
  rw [hm] at hmain
  obtain ⟨hu, hparts, hfSize, haddr⟩ := hmain
  have hover := h.over (by rw [hm]; exact hu)
  have hrs : ((round E s T).rs : Int) = rs := by
    change ((s.ctl.main.rs.toNat : Nat) : Int) = rs
    rw [hm]
    exact Int.toNat_of_nonneg hu.pos.le
  have hint : toInt rs = (round E s T).rs := by
    have := hover.lt
    have := hover.small
    rw [← hrs]
    exact toInt_of_lt (by omega) (by omega)
  have hborn : s.ctl.threads i = .absent := by
    have hphase : s.ctl.main.phase i = .unborn := by
      rw [hm]
      exact if_neg (lt_irrefl i)
    have := h.threads i
    rwa [hphase] at this
  -- what the thread is handed
  have hdata : (⟨parts.getD i [], maxRangeN fSize (toInt rs), toInt rs, fSize, s.ctl.fileNo + i, mmapAddr⟩ : PthreadData) =
      (round E s T).data i := by
    rw [hint, hparts, hfSize, haddr, List.getD_eq_getElem?_getD, List.getElem?_map, List.getElem?_range i.isLt]
    rfl
  obtain ⟨main, hnext, hrs', hera, hph, hi, hmain', hrank, hdue⟩ : ∃ main, (if hlt : i.val + 1 < threadN then
      MainPc.creating rs parts fSize mmapAddr ⟨i + 1, hlt⟩ else .scanning rs) = main ∧ main.rs = s.ctl.main.rs ∧
      main.era = s.ctl.main.era ∧ (∀ j, j ≠ i → main.phase j = s.ctl.main.phase j) ∧ main.phase i = .running ∧
      MainAt D (round E s T) s.w.own.held U main ∧
      main.rank (heldSize E s) + (7 * heldSize E s + 3) ≤ s.ctl.main.rank (heldSize E s) ∧
      ∀ f : Nat → Nat → Nat, heldSize E s - rs.toNat + 1 ≤ f (heldSize E s) rs.toNat →
        main.due f (heldSize E s) + shareSize (heldSize E s) rs i = s.ctl.main.due f (heldSize E s) := by
    rw [hm]
    have hshare : bound (heldSize E s - rs.toNat + 1) threadN i + shareSize (heldSize E s) rs i =
        bound (heldSize E s - rs.toNat + 1) threadN (i + 1) := bound_succ.symm
    have hle := bound_le (f := heldSize E s - rs.toNat + 1) (show 0 < threadN by decide) (show i.val + 1 ≤ threadN from i.isLt)
    by_cases hlt : i.val + 1 < threadN
    · rw [dif_pos hlt]
      refine ⟨_, rfl, rfl, rfl, ?_, if_pos ?_, ⟨hu, hparts, hfSize, haddr⟩, ?_, ?_⟩
      · intro j hj
        have hne := Fin.val_ne_of_ne hj
        simp only [MainPc.phase, Fin.lt_def]
        congr 1
        exact propext ⟨fun h => by omega, fun h => by omega⟩
      · rw [Fin.lt_def]
        exact Nat.lt_succ_self _
      · simp only [MainPc.rank]
        rw [show threadN - i.val = threadN - (i.val + 1) + 1 by omega, Nat.mul_succ]
        omega
      · intro f hf
        simp only [MainPc.due]
        omega
    · rw [dif_neg hlt]
      refine ⟨_, rfl, rfl, rfl, ?_, rfl, hu, ?_, ?_⟩
      · intro j hj
        have hne := Fin.val_ne_of_ne hj
        exact (if_pos (Fin.lt_def.mpr (by omega))).symm
      · simp only [MainPc.rank]
        rw [show threadN - i.val = 1 by omega]
        omega
      · intro f hf
        rw [show i.val + 1 = threadN by omega, bound_last (by decide)] at hshare
        simp only [MainPc.due]
        omega
  refine ⟨creatingTurn s.ctl rs parts fSize mmapAddr i, s.w, T, rfl, ?_⟩
  have hturn : creatingTurn s.ctl rs parts fSize mmapAddr i = (s.ctl.put i (.opening ((round E s T).data i))).goto main := by
    rw [← hdata, ← hnext]
    rfl
  rw [hturn]
  refine ⟨h.put hrs' hph (by rw [hi]; rfl) hmain', rank_put hera hrs' ?_, fun _ _ => rfl, ?_⟩
  · have hstart := opening_rank hover i
    have hsize : (round E s T).size = heldSize E s := h.size.symm
    change _ + main.rank (heldSize E s) < _ + s.ctl.main.rank (heldSize E s)
    omega
  · intro f hf
    have hround : heldSize E s - rs.toNat + 1 ≤ f (heldSize E s) rs.toNat := by
      have h0 := hu.pos
      have hlt : rs < T.length := hu.lt
      have hnext := hf.next (heldSize E s) rs.toNat (by omega) (by rw [h.size]; omega)
      omega
    have hspent := spent_put f s.ctl i (.opening ((round E s T).data i)) main (E := E) (w := s.w) (v := s.w) (n := heldSize E s) rfl rfl hrs'
    have hdue' := hdue f hround
    rw [hborn, show s.ctl.main.rs = rs by rw [hm]; rfl] at hspent
    simp only [ThreadPc.left] at hspent
    rw [show spent E f ⟨s.ctl, s.w⟩ = spent E f s from rfl] at hspent
    exact ⟨by omega, fun _ => by omega⟩

/-- The main thread's own call has returned. -/
theorem scanning_advances (hm : s.ctl.main = .scanning rs) (h : Good E D X U s T) {failPath : Option Path}
    (hr : s.ctl.threads own = .returned failPath) :
    Advances E D X U s (pure ((s.ctl.put own .absent).goto (.joining rs failPath [] 0))) := by
  have hmain := h.main
  have hstage := h.threads own
  rw [hm] at hmain
  rw [hm, hr] at hstage
  obtain ⟨hpath, hkept⟩ := hstage
  refine ⟨_, s.w, T, rfl, h.put (by rw [hm]; rfl) ?_ ?_ ⟨hmain, by decide, hpath, rfl⟩, rank_put (by rw [hm]; rfl) (by rw [hm]; rfl) ?_,
    fun _ _ => rfl, ?_⟩
  · intro j hj
    rw [hm]
    exact if_neg (by simp [hj])
  · exact ⟨rfl, hkept⟩
  · rw [hm, hr]
    exact Nat.lt_succ_self 11
  · intro f _
    have hspent := spent_put f s.ctl own .absent (.joining rs failPath [] 0) (E := E) (w := s.w) (v := s.w) (n := heldSize E s) rfl rfl (by rw [hm]; rfl)
    rw [hm, hr] at hspent
    simp only [ThreadPc.left, MainPc.due] at hspent
    rw [show spent E f ⟨s.ctl, s.w⟩ = spent E f s from rfl] at hspent
    exact ⟨by omega, fun _ => by omega⟩

/-- A thread is joined. -/
theorem joining_advances {failPath outPath : Option Path} {retList : List Path} (hm : s.ctl.main = .joining rs failPath retList i)
    (h : Good E D X U s T) (hr : s.ctl.threads i = .returned outPath) :
    Advances E D X U s (pure (joiningTurn s.ctl rs failPath retList i outPath)) := by
  have hmain := h.main
  rw [hm] at hmain
  obtain ⟨hu, hi, hfail, hlist⟩ := hmain
  have hi7 : i.val < 7 := Fin.lt_def.mp hi
  have hN : threadN = 8 := rfl
  have hphase : s.ctl.main.phase i = .running := by
    rw [hm]
    exact if_neg (by simp [hi.ne])
  have hstage := h.threads i
  rw [hphase, hr] at hstage
  obtain ⟨hpath, hkept⟩ := hstage
  obtain ⟨main, hnext, hrs, hera, hph, hi', hmain', hrank, hdue⟩ : ∃ main, (if hlt : i.val + 2 < threadN then
      MainPc.joining rs failPath (retList ++ outPath.toList) ⟨i + 1, by omega⟩
      else .selecting rs (retList ++ outPath.toList ++ failPath.toList)) = main ∧ main.rs = s.ctl.main.rs ∧
      main.era = s.ctl.main.era ∧ (∀ j, j ≠ i → main.phase j = s.ctl.main.phase j) ∧ main.phase i = .joined ∧
      MainAt D (round E s T) s.w.own.held U main ∧ main.rank (heldSize E s) < s.ctl.main.rank (heldSize E s) ∧
      ∀ f n, main.due f n = s.ctl.main.due f n := by
    rw [hm]
    have hlist' := results_next (D := D) (R := round E s T) (i := i)
    rw [← hlist, ← hpath] at hlist'
    by_cases hlt : i.val + 2 < threadN
    · rw [dif_pos hlt]
      refine ⟨_, rfl, rfl, rfl, ?_, if_pos (Or.inl ?_), ⟨hu, Fin.lt_def.mpr ?_, hfail, hlist'⟩, ?_, fun _ _ => rfl⟩
      · intro j hj
        have hne := Fin.val_ne_of_ne hj
        simp only [MainPc.phase, Fin.lt_def]
        congr 2
        exact propext ⟨fun h => by omega, fun h => by omega⟩
      · rw [Fin.lt_def]
        exact Nat.lt_succ_self _
      · change i.val + 1 < 7
        omega
      · simp only [MainPc.rank]
        omega
    · rw [dif_neg hlt]
      refine ⟨_, rfl, rfl, rfl, ?_, rfl, ⟨hu, ?_⟩, ?_, fun _ _ => rfl⟩
      · intro j hj
        have hne := Fin.val_ne_of_ne hj
        refine (if_pos ?_).symm
        rw [Fin.lt_def, Fin.ext_iff]
        change j.val < i.val ∨ j.val = 7
        omega
      · have hlast := results_next (D := D) (R := round E s T) (i := own)
        have hi6 : i.val + 1 = own.val := by
          change i.val + 1 = 7
          omega
        rw [← hfail, ← hi6, ← hlist', hi6] at hlast
        exact hlast
      · simp only [MainPc.rank]
        omega
  refine ⟨joiningTurn s.ctl rs failPath retList i outPath, s.w, T, rfl, ?_⟩
  have hturn : joiningTurn s.ctl rs failPath retList i outPath = (s.ctl.put i .absent).goto main := by
    rw [← hnext]
    rfl
  rw [hturn]
  refine ⟨h.put hrs hph (by rw [hi']; exact ⟨rfl, hkept⟩) hmain', rank_put hera hrs ?_, fun _ _ => rfl, ?_⟩
  · rw [hr]
    change 0 + main.rank (heldSize E s) < 0 + s.ctl.main.rank (heldSize E s)
    omega
  · intro f _
    have hspent := spent_put f s.ctl i .absent main (E := E) (w := s.w) (v := s.w) (n := heldSize E s) rfl rfl hrs
    rw [hr, hdue] at hspent
    simp only [ThreadPc.left] at hspent
    rw [show spent E f ⟨s.ctl, s.w⟩ = spent E f s from rfl] at hspent
    exact ⟨by omega, fun _ => by omega⟩

/-- The round has found nothing to leave out, or its leftmost range is left out. -/
theorem selecting_advances {retList : List Path} (h : Good E D X U ⟨⟨.selecting rs retList, threads, k⟩, w⟩ T) :
    Advances E D X U ⟨⟨.selecting rs retList, threads, k⟩, w⟩ (selectingTurn E ⟨.selecting rs retList, threads, k⟩ rs retList) := by
  obtain ⟨hu, hlist⟩ := h.main
  have hover := h.over hu
  obtain ⟨h0, hlt, hleft⟩ := hu
  obtain ⟨r, rfl⟩ : ∃ r : Nat, rs = r := ⟨rs.toNat, by omega⟩
  have hgone : ∀ i, threads i = .absent := fun i => (h.threads i).1
  cases retList with
  | nil =>
    have hnone : firstCut D r T = none := results_nil hlist.symm
    have hleft' : leftmost D T r = U := hleft
    have hpos : 0 < r ∧ r < T.length := ⟨by omega, by exact_mod_cast hlt⟩
    rw [leftmost_none hpos.1 hpos.2 hnone] at hleft'
    refine ⟨⟨.looping (r - 1), threads, k⟩, w, T, rfl, ⟨h.genuine, h.file, h.small, h.apart, hgone, ?_, ?_⟩, ?_, fun _ _ => rfl, ?_⟩
    · change (r : Int) - 1 < T.length
      omega
    · rw [← hleft']
      congr 1
      omega
    · refine rank_lt_of_length rfl rfl ?_
      change ((r : Int) - 1).toNat < (r : Int).toNat
      omega
    · intro f hf
      have hnext := hf.next T.length r hpos.1 hpos.2
      rw [h.between hgone, h.between hgone]
      simp only [MainPc.due, Int.toNat_natCast, show ((r : Int) - 1).toNat = r - 1 by omega]
      refine ⟨by omega, fun he => ?_⟩
      have := he.next T.length r hpos.1 hpos.2
      omega
  | cons p ps =>
    obtain ⟨i, b, hp, hfound, hcut⟩ := first_fails hlist.symm
    obtain rfl : p = partFile (k + i) := hp
    have hfile : w.fs (E.key (partFile (k + i))) = some (cut b r T) := (h.threads i).2 b hfound
    obtain ⟨hle, hfails⟩ := firstCut_some hover.lt.le hcut
    have hlen : (cut b r T).length = T.length - r := length_firstCut hover.lt.le hcut
    have hpos : 0 < r ∧ r < T.length := ⟨hover.pos, hover.lt⟩
    have hsmall := h.small
    have hleft' : leftmost D T r = U := hleft
    rw [leftmost_some hpos.1 hpos.2 hcut] at hleft'
    refine ⟨⟨.looping ((cut b r T).length - 1), threads, k + threadN⟩, ⟨w.fs, { w.own with held := partFile (k + i) }, w.past ++ [(w.own, w.fs)]⟩,
      cut b r T, ?_,
      ⟨h.genuine.shrink (cut_sublist b r T) (by omega) hfails, hfile, by omega, ?_, hgone, ?_, ?_⟩, ?_, fun _ _ => rfl, ?_⟩
    · simp only [selectingTurn, hold, act_bind]
      refine bind_ok (byteCountFile_run ?_)
      exact hfile
    · intro j hj
      have hi := i.isLt
      change k + threadN ≤ j at hj
      exact not_own_part (by omega)
    · change ((cut b r T).length : Int) - 1 < (cut b r T).length
      omega
    · rw [← hleft']
      congr 1
      omega
    · refine rank_lt_of_size rfl ?_
      rw [h.size, heldSize]
      change ((w.fs (E.key (partFile (k + i)))).getD []).length < T.length
      rw [hfile, Option.getD_some]
      omega
    · intro f hf
      have hnext := hf.found T.length r hpos.1 hpos.2 ⟨_, hfails⟩
      have hsize : ((w.fs (E.key (partFile (k + i)))).getD []).length = T.length - r := by
        rw [hfile, Option.getD_some, hlen]
      have hnew : spent E f ⟨⟨.looping ((cut b r T).length - 1), threads, k + threadN⟩,
          ⟨w.fs, { w.own with held := partFile (k + i) }, w.past ++ [(w.own, w.fs)]⟩⟩ =
          w.own.tests.length + f (T.length - r) (T.length - r - 1) := by
        refine (spent_between (n := T.length - r) ?_ hgone).trans ?_
        · exact hsize
        change _ + f (T.length - r) (((cut b r T).length : Int) - 1).toNat = _
        rw [hlen, show (((T.length - r : Nat) : Int) - 1).toNat = T.length - r - 1 by omega]
      rw [hnew, h.between hgone]
      simp only [MainPc.due, Int.toNat_natCast]
      refine ⟨by omega, fun he => ?_⟩
      rw [he.passes] at hfails
      cases hfails

/-! ## Every step -/

theorem main_advances (h : Good E D X U s T) {x : Code Ctl} (hx : mainTurn E s.ctl = some x) : Advances E D X U s x := by
  obtain ⟨⟨main, threads, k⟩, w⟩ := s
  unfold mainTurn at hx
  cases main with
  | entry =>
    cases hx
    exact entry_advances h
  | looping rs =>
    cases hx
    exact looping_advances h
  | creating rs parts fSize mmapAddr i =>
    cases hx
    exact creating_advances rfl h
  | scanning rs =>
    simp only at hx
    split at hx
    · cases hx
      exact scanning_advances rfl h ‹_›
    · cases hx
  | joining rs failPath retList i =>
    simp only at hx
    split at hx
    · cases hx
      exact joining_advances rfl h ‹_›
    · cases hx
  | selecting rs retList =>
    cases hx
    exact selecting_advances h
  | ret _ => cases hx
  | exited _ => cases hx
  | hung => cases hx
  | undefined => cases hx

/-- Step lemma. -/
theorem good_next (hD : Judges E D) (h : Good E D X U s T) {m : Move} {t : St} (hst : step E m s = some t) :
    ∃ T', Advance E D X U s t T' := by
  unfold step at hst
  split at hst
  · cases hst
  cases m with
  | main =>
    obtain ⟨x, hx, rfl⟩ := Option.map_eq_some_iff.mp hst
    obtain ⟨c, w, T', hrun, hadv⟩ := main_advances h hx
    rw [hrun]
    exact ⟨T', hadv⟩
  | thread i =>
    obtain ⟨x, hx, rfl⟩ := Option.map_eq_some_iff.mp hst
    exact ⟨T, thread_advances hD h hx⟩

end

end DiyDdmin.Multithread
