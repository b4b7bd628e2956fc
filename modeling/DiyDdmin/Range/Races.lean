/-
  DiyDdmin.Range.Races — which global variables the threads of `range` race for.

  `accesses` lists, for the step a thread is at, the shared variables that the source reads
  and writes there and the mutex it holds, `c_pid` of `runner` and the log's `file_no`
  among them. Operations on a semaphore or a mutex are listed too, as `sync`: they do not
  conflict with each other, but with a write, as which destroying it counts; so do the uses
  of the memory `fail_arr` points to, which `realloc` moves and `free` gives back. At its
  return from `_range` the main thread is at the rest of `range`, which destroys and frees.
  Two threads race where their next steps get at one variable, one of them writes it, and
  they do not hold the same mutex.

  Left out: what is set before the workers exist and only read from then on (`program_path`,
  `err_msg`); what is not a variable of the source (the buffer of `localtime`); and the
  handler `kill_child`, which reads `c_pid` on whichever thread the alarm reaches and is
  counted to none of them.

  Proved: the lists leave out nothing that a turn changes or depends on (`worker_writes`,
  `main_writes`, `worker_reads`); the main thread races with a worker only in the rest of
  `range`, for `q_sem` and `end_mt`, and there with each of the workers
  (`return_conflicts`); and what two workers race for are exactly `file_no`, `c_pid`,
  `fail_n`, `fail_max`, the pointer `fail_arr` and the memory it points to, which one may
  reallocate while another stores into it (`only_races`). An index that two workers could
  both store at would be another: the table of failing candidates rules it out.
-/

import DiyDdmin.Range.Capacity

namespace DiyDdmin.Range

open Posix Tester Numeric Systems Reduction WorkPool

/-- `failArr` is the pointer, `table` the memory it points to as a whole and `entry k` the
    entry `fail_arr[k]`; `copy i` is the file that `input_path_arr[i]` names. -/
inductive Var where
  | inputSize
  | rs
  | existing
  | failN
  | failMax
  | failArr
  | table
  | entry (k : Nat)
  | outFile (th : Worker)
  | failStack (th : Worker)
  | totalFailN
  | queue
  | fileNo
  | cPid
  | copy (i : Nat)
  | qSem
  | terminatedSem
  | startMt
  | findMt
  | endMt
  deriving DecidableEq, Repr

inductive Mutex where
  | startMt
  | findMt
  | endMt
  deriving DecidableEq, Repr

inductive Kind where
  | read
  | write
  /-- An operation on a semaphore or a mutex, or a use of the table where it is. -/
  | sync
  deriving DecidableEq, Repr

structure Access where
  var : Var
  kind : Kind
  under : Option Mutex
  deriving DecidableEq, Repr

def read (v : Var) : Access := ⟨v, .read, none⟩

def write (v : Var) : Access := ⟨v, .write, none⟩

def sync (v : Var) : Access := ⟨v, .sync, none⟩

def workerAccesses (th : Worker) : WorkerPc → List Access
  | .idle => [sync .qSem]
  | .popping => [sync .startMt, ⟨.queue, .write, some .startMt⟩]
  | .opening _ => [read (.copy th), read (.outFile th)]
  | .prefixing _ _ _ => [read (.copy th)]
  | .skipping _ _ _ => [read (.copy th), read .rs]
  | .postfixing _ _ _ => [read (.copy th), read .inputSize, read .rs]
  | .fitting _ => [read (.outFile th), read .inputSize, read .rs]
  -- `c_pid = fork()`, and the line of the log that counts the test
  | .testing _ => [read (.outFile th), write .cPid, write .fileNo, read .rs]
  | .reserving _ => [sync .findMt, ⟨.failN, .write, some .findMt⟩]
  | .checking _ _ => [read .failN, read .failMax]
  | .doubling _ _ => [write .failMax]
  | .reallocating _ _ => [read .failMax, write .failArr, write .table]
  | .storing _ k => [read .failArr, sync .table, read (.outFile th), write (.entry k)]
  | .naming _ => [write (.failStack th), write (.outFile th)]
  | .closing _ => [sync .endMt, ⟨.existing, .write, some .endMt⟩, sync .terminatedSem]
  | .unlocking _ => [sync .endMt]
  | _ => []

/-- `sem_destroy`, `pthread_mutex_destroy` and `free` at the end of `range`. -/
def tailAccesses : List Access :=
  [write .qSem, write .terminatedSem, write .startMt, write .endMt, write .findMt, read .failArr, write .table] ++
    (List.finRange threadN).flatMap fun th => [write (.outFile th), write (.copy th)]

def mainAccesses : MainPc → List Access
  | .enter _ _ => [write .inputSize]
  | .copying i _ => [write (.copy i)]
  | .round _ => [write .failN]
  | .settingRs _ => [write .rs]
  | .settingExisting _ => [read .inputSize, write .existing]
  | .pushing _ _ => [read .inputSize, sync .startMt, ⟨.queue, .write, some .startMt⟩]
  | .posting _ _ => [sync .qSem]
  | .waiting _ => [sync .terminatedSem]
  | .selecting _ => [read .failN]
  | .renamingPart k => [write .totalFailN, read .failArr, sync .table, read (.entry k)]
  | .removing i _ => [write (.copy i), read .inputSize, read .rs]
  | .recursing _ => [read .inputSize, read .rs]
  | .finishing i => [write (.copy i)]
  | .ret _ => tailAccesses
  | _ => []

/-! ## The lists are complete -/

/-- The variable has one value. What `fileNo`, `cPid`, the files and the mutexes held within
    one step only are is no part of `Globals`. -/
def Same (g g' : Globals) : Var → Prop
  | .inputSize => g'.inputSize = g.inputSize
  | .rs => g'.rs = g.rs
  | .existing => g'.existing = g.existing
  | .failN => g'.failN = g.failN
  | .failMax => g'.failMax = g.failMax
  | .failArr => g'.failLen = g.failLen
  | .table => g'.failLen = g.failLen
  | .entry k => g'.failArr k = g.failArr k
  | .outFile th => g'.outFiles th = g.outFiles th
  | .failStack th => g'.failStack th = g.failStack th
  | .totalFailN => g'.totalFailN = g.totalFailN
  | .queue => g'.queue = g.queue
  | .fileNo => True
  | .cPid => True
  | .copy _ => True
  | .qSem => g'.qSem = g.qSem
  | .terminatedSem => g'.terminatedSem = g.terminatedSem
  | .startMt => True
  | .findMt => True
  | .endMt => g'.endMt = g.endMt

section

variable {th : Worker} {g g' : Globals}

/-- What a worker's turn does not list as written it leaves as it is. -/
theorem worker_writes {pc pc' : WorkerPc} (h : WorkerMove th g pc pc' g') {v : Var}
    (hv : ∀ x ∈ workerAccesses th pc, x.kind ≠ .read → x.var ≠ v) : Same g g' v := by
  cases h with
  | wait hq =>
    have hne := hv (sync .qSem) (by simp [workerAccesses]) (by decide)
    cases v <;> first | rfl | trivial
  | pop hq =>
    have hne := hv ⟨.queue, .write, some .startMt⟩ (by simp [workerAccesses]) (by decide)
    cases v <;> first | rfl | trivial
  | reserve d =>
    have hne := hv ⟨.failN, .write, some .findMt⟩ (by simp [workerAccesses]) (by decide)
    cases v <;> first | rfl | trivial
  | double d k =>
    have hne := hv (write .failMax) List.mem_cons_self (by decide)
    cases v <;> first | rfl | trivial
  | reallocate d k =>
    have h1 := hv (write .failArr) (by simp [workerAccesses]) (by decide)
    have h2 := hv (write .table) (by simp [workerAccesses]) (by decide)
    cases v <;> first | rfl | trivial
  | store d k =>
    have hne := hv (write (.entry k)) (by simp [workerAccesses]) nofun
    cases v with
    | entry j => exact Function.update_of_ne (fun e => hne (congrArg Var.entry e.symm)) _ _
    | _ => first | rfl | trivial
  | name d =>
    have h1 := hv (write (.failStack th)) (by simp [workerAccesses]) nofun
    have h2 := hv (write (.outFile th)) (by simp [workerAccesses]) nofun
    cases v with
    | failStack i => exact Function.update_of_ne (fun e => h1 (congrArg Var.failStack e.symm)) _ _
    | outFile i => exact Function.update_of_ne (fun e => h2 (congrArg Var.outFile e.symm)) _ _
    | _ => first | rfl | trivial
  | close d hl =>
    have h1 := hv (sync .endMt) (by simp [workerAccesses]) (by decide)
    have h2 := hv ⟨.existing, .write, some .endMt⟩ (by simp [workerAccesses]) (by decide)
    have h3 := hv (sync .terminatedSem) (by simp [workerAccesses]) (by decide)
    cases v <;> first | rfl | trivial
  | unlock d =>
    have hne := hv (sync .endMt) (by simp [workerAccesses]) (by decide)
    cases v <;> first | rfl | trivial
  | _ => cases v <;> first | rfl | trivial

/-- So does the main thread's. -/
theorem main_writes {rand : Nat} {held : Path} {cur : Bytes} {pc pc' : MainPc} (h : MainMove rand held cur g pc pc' g') {v : Var}
    (hv : ∀ x ∈ mainAccesses pc, x.kind ≠ .read → x.var ≠ v) : Same g g' v := by
  cases h with
  | push r b hle =>
    have hne := hv ⟨.queue, .write, some .startMt⟩ (by simp [mainAccesses]) (by decide)
    cases v <;> first | rfl | trivial
  | post r b =>
    have hne := hv (sync .qSem) (by simp [mainAccesses]) (by decide)
    cases v <;> first | rfl | trivial
  | wait r hq =>
    have hne := hv (sync .terminatedSem) (by simp [mainAccesses]) (by decide)
    cases v <;> first | rfl | trivial
  | setExisting r hle =>
    have hne := hv (write .existing) (by simp [mainAccesses]) (by decide)
    cases v <;> first | rfl | trivial
  | enter size r =>
    have hne := hv (write .inputSize) List.mem_cons_self (by decide)
    cases v <;> first | rfl | trivial
  | round r hr =>
    have hne := hv (write .failN) List.mem_cons_self (by decide)
    cases v <;> first | rfl | trivial
  | setRs r =>
    have hne := hv (write .rs) List.mem_cons_self (by decide)
    cases v <;> first | rfl | trivial
  | rename k =>
    have hne := hv (write .totalFailN) List.mem_cons_self (by decide)
    cases v <;> first | rfl | trivial
  | _ => cases v <;> first | rfl | trivial

/-- Where a worker goes. -/
def goes : Res Vars Exit (WorkerPc × Globals) → Res Vars Exit WorkerPc
  | .ok r w => .ok r.1 w
  | .exit e w => .exit e w
  | .hang w => .hang w

theorem goes_bind {α : Type} (x : Code α) (f : α → WorkerPc) (w : World Vars) :
    goes ((x >>= fun a => pure (f a, g)) w) = goes ((x >>= fun a => pure (f a, g')) w) := by
  rw [bind_run, bind_run]
  cases x w <;> rfl

/-- And where a worker goes and what it does to the directory depends on nothing else than
    what is listed. -/
theorem worker_reads (E : Env) {pc : WorkerPc} (hsame : ∀ x ∈ workerAccesses th pc, Same g g' x.var) :
    (workerTurn E th g' pc).map (fun x w => goes (x w)) = (workerTurn E th g pc).map fun x w => goes (x w) := by
  have same : ∀ v, (∃ x ∈ workerAccesses th pc, x.var = v) → Same g g' v := fun v ⟨x, hx, hv⟩ => hv ▸ hsame x hx
  cases pc with
  | idle =>
    have hsem : g'.qSem = g.qSem := same .qSem (by simp [workerAccesses, sync])
    simp only [workerTurn, hsem]
    split <;> rfl
  | popping =>
    have hq : g'.queue = g.queue := same .queue (by simp [workerAccesses])
    simp only [workerTurn, hq]
    cases g.queue <;> rfl
  | opening n =>
    have ho : g'.outFiles th = g.outFiles th := same (.outFile th) (by simp [workerAccesses, read])
    simp only [workerTurn, openingTurn, Option.map_some, ho]
    congr 1
    funext w
    rw [bind_run, bind_run]
    cases fopenRead (E.key (originFile th)) w with
    | ok i w' =>
      cases i with
      | none => rfl
      | some i =>
        simp only [bind_run]
        cases fopenWrite E.dirs (E.key (g.outFiles th)) w' with
        | ok o w'' => cases o <;> rfl
        | _ => rfl
    | _ => rfl
  | prefixing n i o =>
    simp only [workerTurn, Option.map_some]
    congr 1
    funext w
    exact goes_bind _ _ w
  | skipping n i o =>
    have hrs : g'.rs = g.rs := same .rs (by simp [workerAccesses, read])
    simp only [workerTurn, Option.map_some, hrs]
    congr 1
    funext w
    exact goes_bind _ _ w
  | postfixing n i o =>
    have hrs : g'.rs = g.rs := same .rs (by simp [workerAccesses, read])
    have hsize : g'.inputSize = g.inputSize := same .inputSize (by simp [workerAccesses, read])
    simp only [workerTurn, Option.map_some, hrs, hsize]
    congr 1
    funext w
    exact goes_bind _ _ w
  | fitting n =>
    have hrs : g'.rs = g.rs := same .rs (by simp [workerAccesses, read])
    have hsize : g'.inputSize = g.inputSize := same .inputSize (by simp [workerAccesses, read])
    have ho : g'.outFiles th = g.outFiles th := same (.outFile th) (by simp [workerAccesses, read])
    simp only [workerTurn, Option.map_some, hrs, hsize, ho]
    congr 1
    funext w
    exact goes_bind _ _ w
  | testing n =>
    have ho : g'.outFiles th = g.outFiles th := same (.outFile th) (by simp [workerAccesses, read])
    simp only [workerTurn, testingTurn, Option.map_some, ho]
    congr 1
    funext w
    rw [look_bind, look_bind, bind_run, bind_run]
    cases testBufferOverflowThread E (g.outFiles th) th w <;> rfl
  | reserving n =>
    have hn : g'.failN = g.failN := same .failN (by simp [workerAccesses])
    simp only [workerTurn, Option.map_some, hn]
    rfl
  | checking n k =>
    have hn : g'.failN = g.failN := same .failN (by simp [workerAccesses, read])
    have hmax : g'.failMax = g.failMax := same .failMax (by simp [workerAccesses, read])
    simp only [workerTurn, Option.map_some, hn, hmax]
    rfl
  | closing n =>
    have hlock : g'.endMt = g.endMt := same .endMt (by simp [workerAccesses, sync])
    simp only [workerTurn, hlock]
    split <;> rfl
  | _ => rfl

end

/-! ## Races -/

/-- What a thread gets at next; the main thread is `none`. -/
def accesses (s : St) : Option Worker → List Access
  | none => mainAccesses s.main
  | some th => workerAccesses th (s.workers th)

/-- One variable, a write among the two, and no mutex that both hold. -/
def Access.Conflicts (a b : Access) : Prop := a.var = b.var ∧ (a.kind = .write ∨ b.kind = .write) ∧ ¬ (a.under ≠ none ∧ a.under = b.under)

def Race (s : St) (i j : Option Worker) (v : Var) : Prop :=
  i ≠ j ∧ ∃ a ∈ accesses s i, ∃ b ∈ accesses s j, a.var = v ∧ a.Conflicts b

instance (a b : Access) : Decidable (a.Conflicts b) := inferInstanceAs (Decidable (_ ∧ _ ∧ ¬ _))

instance (s : St) (i j : Option Worker) (v : Var) : Decidable (Race s i j v) := inferInstanceAs (Decidable (_ ∧ _))

/-- A variable that several workers get at with no rule that keeps them apart. -/
def Loose (v : Var) : Prop := v ∈ [Var.fileNo, .cPid, .failN, .failMax, .failArr, .table]

instance : DecidablePred Loose := fun v => inferInstanceAs (Decidable (v ∈ _))

/-- The rule by which a worker gets at a variable. -/
def Ruled (th : Worker) (pc : WorkerPc) (a : Access) : Prop :=
  match a.var with
  | .inputSize => a.kind = .read
  | .rs => a.kind = .read
  | .queue => a.under = some .startMt
  | .existing => a.under = some .endMt
  | .outFile i => i = th
  | .failStack i => i = th
  | .copy i => i = th
  | .entry k => ∃ b, unstored pc = some (k, b)
  | .totalFailN => False
  | .qSem => a.kind = .sync
  | .terminatedSem => a.kind = .sync
  | .startMt => a.kind = .sync
  | .findMt => a.kind = .sync
  | .endMt => a.kind = .sync
  | _ => True

theorem worker_ruled {th : Worker} {pc : WorkerPc} {a : Access} (ha : a ∈ workerAccesses th pc) : Ruled th pc a := by
  cases pc with
  | storing n k =>
    simp only [workerAccesses, List.mem_cons, List.not_mem_nil, or_false] at ha
    rcases ha with rfl | rfl | rfl | rfl
    · trivial
    · trivial
    · rfl
    · exact ⟨n.begin, rfl⟩
  | _ =>
    simp only [workerAccesses, List.mem_cons, List.not_mem_nil, or_false] at ha
    try rcases ha with rfl | rfl | rfl | rfl
    all_goals first | rfl | trivial

section

variable {E : Env} {inputPath : Path} {fs : Fs} {s : St} {i j : Option Worker} {v : Var}

/-- A worker between jobs waits for the next, or is about to release `end_mt`. -/
theorem quiet_accesses (hs : (system E inputPath fs).Reach s) (ho : s.main.over = false) (hq : Quiet (pool s)) (th : Worker) :
    workerAccesses th (s.workers th) = [sync .qSem] ∨ workerAccesses th (s.workers th) = [sync .endMt] := by
  rcases quiet_pc (hq.hands th) ((reach_sound hs ho).alive th) with h | ⟨d, h⟩
  · rw [h]; exact Or.inl rfl
  · rw [h]; exact Or.inr rfl

theorem away_accesses (hs : (system E inputPath fs).Reach s) (ho : s.main.over = false) (hr : s.main.inRound = none) (th : Worker) :
    workerAccesses th (s.workers th) = [sync .qSem] ∨ workerAccesses th (s.workers th) = [sync .endMt] :=
  quiet_accesses hs ho (away_quiet hs ho (by cases hm : s.main <;> rw [hm] at hr <;> first | rfl | cases hr)) th

theorem quiet_sync {a : Access} {th : Worker} {pc : WorkerPc}
    (h : workerAccesses th pc = [sync .qSem] ∨ workerAccesses th pc = [sync .endMt]) (ha : a ∈ workerAccesses th pc) :
    a.kind = .sync ∧ (a.var = .qSem ∨ a.var = .endMt) := by
  rcases h with h | h
  · rw [h] at ha
    obtain rfl := List.mem_singleton.mp ha
    exact ⟨rfl, Or.inl rfl⟩
  · rw [h] at ha
    obtain rfl := List.mem_singleton.mp ha
    exact ⟨rfl, Or.inr rfl⟩

/-- Up to its return the main thread destroys nothing. -/
theorem main_spares {a : Access} {pc : MainPc} (ha : a ∈ mainAccesses pc) (hw : a.kind = .write) (hv : a.var = .qSem ∨ a.var = .endMt) :
    ∃ p, pc = .ret p := by
  cases pc with
  | ret p => exact ⟨p, rfl⟩
  | _ =>
    simp only [mainAccesses, List.mem_cons, List.not_mem_nil, or_false] at ha
    try rcases ha with rfl | rfl | rfl | rfl
    all_goals first | cases hw; done | (rcases hv with h | h <;> cases h)

/-- The main thread conflicts with a worker only in the rest of `range`, for what workers
    between jobs get at. -/
theorem main_apart (hs : (system E inputPath fs).Reach s) (ho : s.main.over = false) {th : Worker} (h : Race s none (some th) v) :
    (∃ p, s.main = .ret p) ∧ (v = .qSem ∨ v = .endMt) := by
  obtain ⟨-, a, ha, b, hb, rfl, hab, hw, hm⟩ := h
  simp only [accesses] at ha hb
  have hrule := worker_ruled hb
  unfold Ruled at hrule
  rw [← hab] at hrule
  have hquiet : (workerAccesses th (s.workers th) = [sync .qSem] ∨ workerAccesses th (s.workers th) = [sync .endMt]) →
      (∃ p, s.main = .ret p) ∧ (a.var = .qSem ∨ a.var = .endMt) := by
    intro h
    obtain ⟨hsync, hvar⟩ := quiet_sync h hb
    rw [← hab] at hvar
    rw [hsync] at hw
    exact ⟨main_spares ha (hw.resolve_right (by decide)) hvar, hvar⟩
  -- while there are jobs workers only read what it reads, and share its lock where it writes
  have apart : a.kind ≠ .write → b.kind ≠ .write → (∃ p, s.main = .ret p) ∧ (a.var = .qSem ∨ a.var = .endMt) :=
    fun h1 h2 => absurd hw (not_or.mpr ⟨h1, h2⟩)
  cases hmain : s.main with
  | pushing r k =>
    rw [hmain] at ha
    simp only [mainAccesses, List.mem_cons, List.not_mem_nil, or_false] at ha
    rcases ha with rfl | rfl | rfl
    · exact hmain ▸ apart (by decide) (by rw [show b.kind = .read from hrule]; decide)
    · exact hmain ▸ apart (by decide) (by rw [show b.kind = .sync from hrule]; decide)
    · exact absurd ⟨by decide, (show b.under = some .startMt from hrule).symm⟩ hm
  | posting r k =>
    rw [hmain] at ha
    obtain rfl := List.mem_singleton.mp ha
    exact hmain ▸ apart (by decide) (by rw [show b.kind = .sync from hrule]; decide)
  | waiting r =>
    rw [hmain] at ha
    obtain rfl := List.mem_singleton.mp ha
    exact hmain ▸ apart (by decide) (by rw [show b.kind = .sync from hrule]; decide)
  | selecting r => exact hmain ▸ hquiet (quiet_accesses hs ho (selecting_complete hs hmain).1 th)
  | _ => exact hmain ▸ hquiet (away_accesses hs ho (by rw [hmain]; rfl) th)

/-- And there it conflicts with every worker: `range` destroys what they wait on, or the mutex
    one of them has yet to release. -/
theorem return_conflicts (hs : (system E inputPath fs).Reach s) {q : Path} (hq : s.main = .ret q) (th : Worker) :
    Race s none (some th) .qSem ∨ Race s none (some th) .endMt := by
  have hmem : ∀ v, write v ∈ tailAccesses → write v ∈ accesses s none := by
    intro v hv
    rw [accesses, hq]
    exact hv
  rcases away_accesses hs (by rw [hq]; rfl) (by rw [hq]; rfl) th with h | h
  · refine Or.inl ⟨nofun, write .qSem, hmem _ (by decide), sync .qSem, ?_, rfl, rfl, Or.inl rfl, fun e => e.1 rfl⟩
    simp only [accesses, h]
    exact List.mem_cons_self
  · refine Or.inr ⟨nofun, write .endMt, hmem _ (by decide), sync .endMt, ?_, rfl, rfl, Or.inl rfl, fun e => e.1 rfl⟩
    simp only [accesses, h]
    exact List.mem_cons_self

/-- Two workers that get at one variable with no lock in common get at one that is loose. -/
theorem workers_loose (hs : (system E inputPath fs).Reach s) (ho : s.main.over = false) {th th' : Worker}
    (h : Race s (some th) (some th') v) : Loose v := by
  obtain ⟨hne, a, ha, b, hb, rfl, hab, hw, hm⟩ := h
  have hth : th ≠ th' := fun e => hne (congrArg some e)
  simp only [accesses] at ha hb
  have h1 := worker_ruled ha
  have h2 := worker_ruled hb
  unfold Ruled at h1 h2
  rw [← hab] at h2
  cases hv : a.var with
  | inputSize => rw [hv] at h1 h2; rw [h1, h2] at hw; exact absurd hw (by decide)
  | rs => rw [hv] at h1 h2; rw [h1, h2] at hw; exact absurd hw (by decide)
  | queue => rw [hv] at h1 h2; exact absurd ⟨by rw [h1]; decide, h1.trans h2.symm⟩ hm
  | existing => rw [hv] at h1 h2; exact absurd ⟨by rw [h1]; decide, h1.trans h2.symm⟩ hm
  | outFile k => rw [hv] at h1 h2; exact absurd (h1.symm.trans h2) hth
  | failStack k => rw [hv] at h1 h2; exact absurd (h1.symm.trans h2) hth
  | copy k => rw [hv] at h1 h2; exact absurd (Fin.ext (h1.symm.trans h2)) hth
  | totalFailN => rw [hv] at h1; exact h1.elim
  | qSem => rw [hv] at h1 h2; rw [h1, h2] at hw; exact absurd hw (by decide)
  | terminatedSem => rw [hv] at h1 h2; rw [h1, h2] at hw; exact absurd hw (by decide)
  | startMt => rw [hv] at h1 h2; rw [h1, h2] at hw; exact absurd hw (by decide)
  | findMt => rw [hv] at h1 h2; rw [h1, h2] at hw; exact absurd hw (by decide)
  | endMt => rw [hv] at h1 h2; rw [h1, h2] at hw; exact absurd hw (by decide)
  | entry k =>
    -- an index is given to one worker
    rw [hv] at h1 h2
    obtain ⟨c, hc⟩ := h1
    obtain ⟨c', hc'⟩ := h2
    have hround : s.main.inRound ≠ none := by
      intro hr
      have := (quiet_sync (away_accesses hs ho hr th) ha).2
      rw [hv] at this
      rcases this with e | e <;> cases e
    obtain ⟨ps, hps⟩ := reach_listed hs hround
    have e := (hps.claimed th k c hc).symm.trans (hps.claimed th' k c' hc')
    exact absurd (Prod.mk.inj (Option.some.inj e)).1 hth
  | _ => decide

end

/-! ## The races -/

/-- Two bytes of which either can go, and two workers that test. -/
theorem race_two : ∀ v ∈ [Var.fileNo, .cPid, .failN],
    ∃ s, (system (judging fun c => decide (c.length = 1)) "in".toList (soleInput "in".toList [1, 2])).Reach s ∧
      s.main.over = false ∧ Race s (some 0) (some 1) v := by
  have run : ∀ a b v, (System.follow (step (judging fun c => decide (c.length = 1)))
      (List.replicate 14 (.main 0) ++ List.replicate a (.worker 0) ++ List.replicate b (.worker 1))
      (start "in".toList (soleInput "in".toList [1, 2]))).map (fun s => (s.main.over, decide (Race s (some 0) (some 1) v))) =
        some (false, true) →
      ∃ s, (system (judging fun c => decide (c.length = 1)) "in".toList (soleInput "in".toList [1, 2])).Reach s ∧
        s.main.over = false ∧ Race s (some 0) (some 1) v := by
    intro a b v h
    obtain ⟨s, hs, he⟩ := Option.map_eq_some_iff.mp h
    obtain ⟨ho, hr⟩ := Prod.mk.inj he
    exact ⟨s, follow_reach hs, ho, of_decide_eq_true hr⟩
  intro v hv
  simp only [List.mem_cons, List.not_mem_nil, or_false] at hv
  rcases hv with rfl | rfl | rfl
  · exact run 8 8 _ (by decide +kernel)
  · exact run 8 8 _ (by decide +kernel)
  · exact run 10 9 _ (by decide +kernel)

/-- Two bytes and a tester that never fails: `range` returns while worker 0 has `end_mt` yet to
    release, and worker 1 waits for a job. -/
theorem race_return : ∀ v ∈ [Var.qSem, .endMt],
    ∃ s th, (system (judging fun _ => false) "in".toList (soleInput "in".toList [1, 2])).Reach s ∧ s.main.over = false ∧
      Race s none (some th) v := by
  obtain ⟨s, hs, he⟩ := Option.map_eq_some_iff.mp (show (System.follow (step (judging fun _ => false))
      (List.replicate 14 (.main 0) ++ List.replicate 21 (.worker 0) ++ List.replicate 7 (.main 0))
      (start "in".toList (soleInput "in".toList [1, 2]))).map (fun s => (s.main.over, decide (Race s none (some 1) .qSem),
        decide (Race s none (some 0) .endMt))) = some (false, true, true) by decide +kernel)
  obtain ⟨ho, he⟩ := Prod.mk.inj he
  obtain ⟨hq, hm⟩ := Prod.mk.inj he
  intro v hv
  simp only [List.mem_cons, List.not_mem_nil, or_false] at hv
  rcases hv with rfl | rfl
  · exact ⟨s, 1, follow_reach hs, ho, of_decide_eq_true hq⟩
  · exact ⟨s, 0, follow_reach hs, ho, of_decide_eq_true hm⟩

section

variable {E : Env} {inputPath : Path} {fs : Fs} {s : St} {th th' : Worker} {d d' : Node} {j j' : Nat}

/-- Two workers with an index, and no room for the first. -/
theorem race_failMax (hs : (system E inputPath fs).Reach s) (ho : s.main.over = false) (hne : th ≠ th')
    (hpc : s.workers th = .checking d j) (hpc' : s.workers th' = .checking d' j') (hfull : s.g.failMax - threadN ≤ s.g.failN) :
    ∃ t, (system E inputPath fs).Reach t ∧ t.main.over = false ∧ Race t (some th) (some th') .failMax := by
  have hcheck := worker_next (E := E) th ho hpc rfl (by rw [if_pos hfull]; rfl)
  refine ⟨_, hs.step ⟨_, hcheck⟩, ho, fun e => hne (Option.some.inj e), write .failMax, ?_, read .failMax, ?_, rfl, rfl, Or.inl rfl,
    fun h => h.1 rfl⟩
  · simp only [accesses, Function.update_self]
    exact List.mem_cons_self
  · simp only [accesses, Function.update_of_ne hne.symm, hpc']
    exact List.mem_cons_of_mem _ List.mem_cons_self

/-- The second finds room by the `fail_max` that the first has raised, and is to store its
    entry while the first reallocates the table. -/
theorem race_table (hs : (system E inputPath fs).Reach s) (ho : s.main.over = false) (hne : th ≠ th')
    (hpc : s.workers th = .checking d j) (hpc' : s.workers th' = .checking d' j') (hfull : s.g.failMax - threadN ≤ s.g.failN)
    (hroom : s.g.failN < s.g.failMax * 2 - threadN) :
    ∃ t, (system E inputPath fs).Reach t ∧ t.main.over = false ∧ Race t (some th) (some th') .failArr ∧
      Race t (some th) (some th') .table := by
  have hcheck := worker_next (E := E) th ho hpc rfl (by rw [if_pos hfull]; rfl)
  have hdouble := worker_next (E := E) th (s := ⟨s.main, Function.update s.workers th (.doubling d j), s.g, s.w⟩) ho
    (Function.update_self _ _ _) rfl rfl
  obtain ⟨e, he, hm, hg, hth, hth'⟩ : ∃ e, (system E inputPath fs).Reach e ∧ e.main = s.main ∧
      e.g = { s.g with failMax := s.g.failMax * 2 } ∧ e.workers th = .reallocating d j ∧ e.workers th' = .checking d' j' := by
    refine ⟨_, (hs.step ⟨_, hcheck⟩).step ⟨_, hdouble⟩, rfl, rfl, Function.update_self _ _ _, ?_⟩
    simp only [Function.update_of_ne hne.symm, hpc']
  have hoe : e.main.over = false := by rw [hm]; exact ho
  have hstore := worker_next (E := E) th' hoe hth' rfl (by rw [if_neg (by rw [hg]; exact Nat.not_le.mpr hroom)]; rfl)
  have hne' : some th ≠ some th' := fun e => hne (Option.some.inj e)
  refine ⟨_, he.step ⟨_, hstore⟩, hoe, ⟨hne', write .failArr, ?_, read .failArr, ?_, rfl, rfl, Or.inl rfl, fun h => h.1 rfl⟩,
    hne', write .table, ?_, sync .table, ?_, rfl, rfl, Or.inl rfl, fun h => h.1 rfl⟩
  · simp [accesses, Function.update_of_ne hne, hth, workerAccesses]
  · simp [accesses, workerAccesses]
  · simp [accesses, Function.update_of_ne hne, hth, workerAccesses]
  · simp [accesses, workerAccesses]

end

/-- Thirteen bytes of which any one can go: two workers find the table short of room. -/
theorem race_thirteen : ∀ v ∈ [Var.failMax, .failArr, .table],
    ∃ s, (system (judging fun c => decide (c.length = 12)) "in".toList (soleInput "in".toList (List.replicate 13 0))).Reach s ∧
      s.main.over = false ∧ Race s (some 0) (some 1) v := by
  have hD := judging_judges fun c => decide (c.length = 12)
  have hlen : (List.replicate 13 (0 : UInt8)).length = 13 := List.length_replicate
  -- the round of single bytes, all of them pushed
  obtain ⟨s0, h0, hun0, hm0, hsize0⟩ := reach_first hD (q := 1) (fun c hc => decide_eq_false (by omega)) (by rw [hlen]; decide)
    (by decide) (by rw [hlen]; decide) (sole_in (fun c => decide (c.length = 12)) (List.replicate 13 0)) (fun th => sole_origin _ _ th)
  rw [hlen] at hsize0
  obtain ⟨s1, h1, hm1, hg1, hidle1⟩ := away_idle h0 (by rw [hm0]; rfl) (by rw [hm0]; rfl)
  obtain ⟨s, hs, ⟨hidle, hlock, hsize, hmax, -⟩, hm, hq, hn, hrs⟩ := push_all h1 (hm1.trans hm0) (by omega)
    (by rw [hg1]; simp only; omega) hidle1 (by rw [hg1])
  rw [hg1] at hsize hmax
  have hsize : s.g.inputSize = 13 := hsize.trans hsize0
  have hmax : s.g.failMax = 16 := hmax.trans hun0.1
  have hround : s.main.inRound = some 1 := by rw [hm]; rfl
  have hq : s.g.qSem = 13 := by
    rw [hq, hg1]
    simp only [jobs, hsize0]
    decide
  have hcut : ∀ c : Bytes, c.length = s.g.inputSize.toNat - s.g.rs.toNat → decide (c.length = 12) = true := fun c hc =>
    decide_eq_true (by omega)
  -- worker 0 does 11 jobs and takes a twelfth, and worker 1 the last
  obtain ⟨a, ha, hsa, hla, hqa, hna, hia⟩ := solo_jobs 0 (k := 11) hD hs hround hcut hlock (hidle 0) (by omega)
    (by rw [hn, hmax]; decide)
  have hra : a.main.inRound = some 1 := by rw [hsa.main]; exact hround
  obtain ⟨b, hb, hsb, hlb, hqb, hnb, d, hdb⟩ := solo_take 0 hD ha hra (by rw [hsa.size, hsa.rs]; exact hcut) hla hia (by omega)
  have hidleb : b.workers 1 = .idle := by
    rw [hsb.others 1 (by decide), hsa.others 1 (by decide)]
    exact hidle 1
  obtain ⟨c, hc, hsc, -, -, hnc, d', hdc⟩ := solo_take 1 hD hb (by rw [hsb.main]; exact hra)
    (by rw [hsb.size, hsb.rs, hsa.size, hsa.rs]; exact hcut) hlb hidleb (by omega)
  have hoc : c.main.over = false := by rw [hsc.main, hsb.main, hsa.main, hm]; rfl
  have hmaxc : c.g.failMax = 16 := by rw [hsc.max, hsb.max, hsa.max, hmax]
  have hcheck : c.workers 0 = .checking d a.g.failN := by rw [hsc.others 0 (by decide), hdb]
  have hfull : c.g.failMax - threadN ≤ c.g.failN := by
    rw [hmaxc, hnc, hnb, hna, hn]
    decide
  have hroom : c.g.failN < c.g.failMax * 2 - threadN := by
    rw [hmaxc, hnc, hnb, hna, hn]
    decide
  intro v hv
  simp only [List.mem_cons, List.not_mem_nil, or_false] at hv
  obtain ⟨t, ht, hot, harr, htable⟩ := race_table hc hoc (by decide) hcheck hdc hfull hroom
  rcases hv with rfl | rfl | rfl
  · exact race_failMax hc hoc (by decide) hcheck hdc hfull
  · exact ⟨t, ht, hot, harr⟩
  · exact ⟨t, ht, hot, htable⟩

/-- Up to its return from `_range` the main thread races with no worker; in the rest of
    `range` what it races with workers for are `q_sem` and `end_mt`. What two workers race for,
    over all inputs, testers and interleavings, are the counter of the log, `c_pid`, `fail_n`,
    `fail_max`, the pointer `fail_arr` and the table it points to, and all of these: every
    other variable is under one mutex, only read in a round, or one worker's own. -/
theorem only_races :
    (¬ ∃ E inputPath fs s th v, (system E inputPath fs).Reach s ∧ s.main.over = false ∧ (∀ q, s.main ≠ .ret q) ∧
      Race s none (some th) v) ∧
    (∀ v, (∃ E inputPath fs s th, (system E inputPath fs).Reach s ∧ s.main.over = false ∧ Race s none (some th) v) ↔
      v ∈ [Var.qSem, .endMt]) ∧
    ∀ v, (∃ E inputPath fs s th th', (system E inputPath fs).Reach s ∧ s.main.over = false ∧ Race s (some th) (some th') v) ↔
      v ∈ [Var.fileNo, .cPid, .failN, .failMax, .failArr, .table] := by
  refine ⟨?_, fun v => ⟨?_, ?_⟩, fun v => ⟨?_, ?_⟩⟩
  · rintro ⟨E, inputPath, fs, s, th, v, hs, ho, hret, h⟩
    obtain ⟨⟨q, hq⟩, -⟩ := main_apart hs ho h
    exact hret q hq
  · rintro ⟨E, inputPath, fs, s, th, hs, ho, h⟩
    obtain ⟨-, rfl | rfl⟩ := main_apart hs ho h
    · exact List.mem_cons_self
    · exact List.mem_cons_of_mem _ List.mem_cons_self
  · intro hv
    obtain ⟨s, th, hs, ho, h⟩ := race_return v hv
    exact ⟨_, _, _, s, th, hs, ho, h⟩
  · rintro ⟨E, inputPath, fs, s, th, th', hs, ho, h⟩
    exact workers_loose hs ho h
  · intro hv
    by_cases h2 : v ∈ [Var.fileNo, .cPid, .failN]
    · obtain ⟨s, hs, ho, h⟩ := race_two v h2
      exact ⟨_, _, _, s, 0, 1, hs, ho, h⟩
    · have h13 : v ∈ [Var.failMax, .failArr, .table] := by
        simp only [List.mem_cons, List.not_mem_nil, or_false] at hv h2 ⊢
        tauto
      obtain ⟨s, hs, ho, h⟩ := race_thirteen v h13
      exact ⟨_, _, _, s, 0, 1, hs, ho, h⟩

end DiyDdmin.Range
