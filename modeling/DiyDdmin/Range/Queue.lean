/-
  DiyDdmin.Range.Queue — the linked job queue (`src/range.c`: `init_queue`, `push_queue`,
  `pop_queue`; `src/include/range.h`: `struct node`, `struct queue_t`).

  The heap is a table of nodes; a node that is freed leaves a gap. An address stands for
  one allocation and is not used again, so that a pointer to a freed node never passes for
  one to a later node in the same place. `malloc` gives a node or null. A null or freed
  node that is dereferenced ends the run as a fault. `count` is an `unsigned int`.

  A caller of `pop_queue` reads the node it is given and frees it at any later time
  (`held`). `pushed` and `popped` are not in the source: the jobs so far (ghost).

  Proved: as long as `malloc` gives a node and fewer than 2^32 jobs are queued at once, the
  nodes from `front` on hold the jobs pushed and not yet popped in the order they were
  pushed, the jobs come out in that order, no operation faults, and a popped node keeps its
  job until it is freed (`queue_is_fifo`); so the queue is the list the model of `range`
  keeps (`refines_list`). With 2^32 jobs `count` is back at zero
  (`a_full_count_loses_every_job`).
-/

import DiyDdmin.Systems.Segments
import DiyDdmin.Range.Code

namespace DiyDdmin.Range.Queue

open Systems

abbrev Addr := Nat

/-- What a job is: `rs` and `begin`. -/
structure Job where
  rs : Int
  begin : Int
  deriving DecidableEq, Repr

/-- `struct node` -/
structure Cell where
  job : Job
  next : Option Addr
  deriving DecidableEq, Repr

/-- The nodes, by allocation; `none` once freed. -/
abbrev Heap := List (Option Cell)

/-- `struct queue_t` -/
structure QueueT where
  count : Nat
  front : Option Addr
  rear : Option Addr
  deriving DecidableEq, Repr

/-- `count++` on an `unsigned int`. -/
def incr (count : Nat) : Nat := if count = 2 ^ 32 - 1 then 0 else count + 1

/-- `count--` on an `unsigned int`. -/
def decr (count : Nat) : Nat := if count = 0 then 2 ^ 32 - 1 else count - 1

inductive Res (α : Type) where
  | ok (a : α)
  /-- `cannot pop_queue()` -/
  | exit
  /-- A null or freed node was dereferenced. -/
  | fault

def cellAt (h : Heap) (a : Addr) : Option Cell := h[a]?.join

/-- The node a pointer leads to. -/
def deref (h : Heap) : Option Addr → Option Cell
  | none => none
  | some a => cellAt h a

def initQueue : QueueT := ⟨0, none, none⟩

/-- `push_queue`; `given` is whether `malloc` gave a node. The three assignments to its
    fields come first. -/
def pushQueue (given : Bool) (rs begin : Int) (h : Heap) (q : QueueT) : Res (Heap × QueueT) :=
  if given = false then .fault
  else
    let node := h.length
    let h := h ++ [some ⟨⟨rs, begin⟩, none⟩]
    if q.count = 0 then .ok (h, ⟨incr q.count, some node, some node⟩)
    else match q.rear with
      | none => .fault
      | some rear => match cellAt h rear with
        | none => .fault
        | some c => .ok (h.set rear (some { c with next := some node }), ⟨incr q.count, q.front, some node⟩)

/-- `pop_queue` -/
def popQueue (h : Heap) (q : QueueT) : Res (Option Addr × QueueT) :=
  if q.count = 0 then .exit
  else match deref h q.front with
    | none => .fault
    | some c => .ok (q.front, ⟨decr q.count, c.next, q.rear⟩)

/-- `free` -/
def free (h : Heap) (a : Addr) : Res Heap :=
  match cellAt h a with
  | none => .fault
  | some _ => .ok (h.set a none)

/-- The jobs in the nodes reachable from `front`, cut at `count`. -/
def contents (h : Heap) (q : QueueT) : Option (List Job) :=
  (walk Cell.next (cellAt h) q.count q.front).map (List.map Cell.job)

structure St where
  heap : Heap
  q : QueueT
  /-- The nodes popped and not freed yet, with the jobs read from them. -/
  held : List (Addr × Job)
  pushed : List Job
  popped : List Job
  deriving DecidableEq

inductive Event where
  | push (given : Bool) (rs begin : Int)
  /-- `pop_queue`, and the caller's reading of the node it gets. -/
  | pop
  | free (a : Addr)

def step (e : Event) (s : St) : Res St :=
  match e with
  | .push given rs begin => match pushQueue given rs begin s.heap s.q with
    | .ok (h, q) => .ok { s with heap := h, q := q, pushed := s.pushed ++ [⟨rs, begin⟩] }
    | .exit => .exit
    | .fault => .fault
  | .pop => match popQueue s.heap s.q with
    | .ok (n, q) => match n, deref s.heap n with
      | some a, some c => .ok { s with q := q, held := s.held ++ [(a, c.job)], popped := s.popped ++ [c.job] }
      | _, _ => .fault
    | .exit => .exit
    | .fault => .fault
  | .free a => match free s.heap a with
    | .ok h => .ok { s with heap := h, held := s.held.filter (·.1 ≠ a) }
    | .exit => .exit
    | .fault => .fault

def start : St := ⟨[], initQueue, [], [], []⟩

/-- A pop is of a queue that is not empty, and only popped nodes are freed, once each. -/
def Legal (s : St) : Event → Prop
  | .push _ _ _ => True
  | .pop => s.popped.length < s.pushed.length
  | .free a => a ∈ s.held.map Prod.fst

/-- `malloc` gives a node, and `count` has room for one more. -/
def Roomy (s : St) : Event → Prop
  | .push given _ _ => given = true ∧ s.pushed.length - s.popped.length + 1 < 2 ^ 32
  | _ => True

instance (s : St) (e : Event) : Decidable (Legal s e) :=
  match e with
  | .push _ _ _ => inferInstanceAs (Decidable True)
  | .pop => inferInstanceAs (Decidable (_ < _))
  | .free _ => inferInstanceAs (Decidable (_ ∈ _))

instance (s : St) (e : Event) : Decidable (Roomy s e) :=
  match e with
  | .push _ _ _ => inferInstanceAs (Decidable (_ ∧ _))
  | .pop => inferInstanceAs (Decidable True)
  | .free _ => inferInstanceAs (Decidable True)

/-- The runs whose steps all meet `C`. -/
def system (C : St → Event → Prop) : System St := ⟨(· = start), fun s t => ∃ e, Legal s e ∧ C s e ∧ step e s = .ok t⟩

/-! ## The heap -/

section

variable {h : Heap} {a b : Addr} {c : Cell}

theorem cellAt_lt (hc : cellAt h a = some c) : a < h.length := by
  by_contra hge
  unfold cellAt at hc
  rw [List.getElem?_eq_none (Nat.le_of_not_lt hge)] at hc
  cases hc

theorem cellAt_append (o : Option Cell) (ha : a < h.length) : cellAt (h ++ [o]) a = cellAt h a := by
  unfold cellAt
  rw [List.getElem?_append_left ha]

theorem cellAt_new (h : Heap) (c : Cell) : cellAt (h ++ [some c]) h.length = some c := by
  unfold cellAt
  rw [List.getElem?_append_right (Nat.le_refl _), Nat.sub_self]
  rfl

theorem cellAt_set (o : Option Cell) (ha : a < h.length) : cellAt (h.set a o) a = o := by
  unfold cellAt
  rw [List.getElem?_set_self ha]
  rfl

theorem cellAt_set_ne (o : Option Cell) (hne : a ≠ b) : cellAt (h.set a o) b = cellAt h b := by
  unfold cellAt
  rw [List.getElem?_set_ne hne]

def jobAt (h : Heap) (a : Addr) : Option Job := (cellAt h a).map Cell.job

theorem jobAt_lt {j : Job} (hj : jobAt h a = some j) : a < h.length := by
  obtain ⟨c, hc, -⟩ := Option.map_eq_some_iff.mp hj
  exact cellAt_lt hc

theorem jobAt_append (o : Option Cell) {j : Job} (hj : jobAt h a = some j) : jobAt (h ++ [o]) a = some j := by
  rw [jobAt, cellAt_append o (jobAt_lt hj)]
  exact hj

/-- Linking a node further leaves every node's job as it is. -/
theorem jobAt_link (hc : cellAt h b = some c) (next : Option Addr) {j : Job} (hj : jobAt h a = some j) :
    jobAt (h.set b (some { c with next := next })) a = some j := by
  by_cases hab : b = a
  · subst hab
    rw [jobAt, hc] at hj
    rw [jobAt, cellAt_set _ (cellAt_lt hc)]
    exact hj
  · rw [jobAt, cellAt_set_ne _ hab]
    exact hj

end

/-! ## What the queue stands for -/

/-- The jobs pushed and not yet popped. -/
def St.queued (s : St) : List Job := s.pushed.drop s.popped.length

/-- The queue's nodes are those at `l`, from `front` on: they hold the jobs queued, and none
    of them is held by a caller. `rear` counts only where there is a last one. -/
structure Rep (s : St) (l : List Addr) : Prop where
  seg : Segment Cell.next (cellAt s.heap) s.q.front l none
  rear : ∀ a, l.getLast? = some a → s.q.rear = some a
  count : s.q.count = l.length
  room : l.length < 2 ^ 32
  jobs : l.map (jobAt s.heap) = s.queued.map some
  held : ∀ x ∈ s.held, jobAt s.heap x.1 = some x.2
  nodup : (l ++ s.held.map Prod.fst).Nodup
  order : s.popped <+: s.pushed

section

variable {s : St} {l : List Addr}

theorem Rep.length (h : Rep s l) : l.length = s.pushed.length - s.popped.length := by
  have hlen := congrArg List.length h.jobs
  rwa [List.length_map, List.length_map, St.queued, List.length_drop] at hlen

theorem Rep.job (h : Rep s l) {a : Addr} (ha : a ∈ l) : ∃ j, jobAt s.heap a = some j := by
  obtain ⟨c, hc⟩ := h.seg.cell ha
  exact ⟨c.job, by rw [jobAt, hc]; rfl⟩

/-- Every node of the queue or in a caller's hands is one of the heap's. -/
theorem Rep.lt (h : Rep s l) {a : Addr} (ha : a ∈ l ++ s.held.map Prod.fst) : a < s.heap.length := by
  rcases List.mem_append.mp ha with ha | ha
  · obtain ⟨j, hj⟩ := h.job ha
    exact jobAt_lt hj
  · obtain ⟨x, hx, rfl⟩ := List.mem_map.mp ha
    exact jobAt_lt (h.held x hx)

theorem Rep.contents (h : Rep s l) : contents s.heap s.q = some s.queued := by
  obtain ⟨ns, hwalk, hcells⟩ := h.seg.walk
  rw [Queue.contents, h.count, hwalk, Option.map_some]
  have hjobs : (ns.map Cell.job).map some = s.queued.map some := by
    rw [← h.jobs, show l.map (jobAt s.heap) = (l.map (cellAt s.heap)).map (Option.map Cell.job) by
      rw [List.map_map]; rfl, hcells, List.map_map, List.map_map]
    rfl
  rw [List.map_injective_iff.mpr (Option.some_injective Job) hjobs]

/-- What a push leaves alone: it adds a node and links it to the last one, if there is one. -/
theorem Rep.pushed (h : Rep s l) (rs begin : Int) {heap : Heap} {q : QueueT} (hroom : l.length + 1 < 2 ^ 32)
    (hseg : Segment Cell.next (cellAt heap) q.front (l ++ [s.heap.length]) none) (hrear : q.rear = some s.heap.length)
    (hcount : q.count = l.length + 1) (hnew : jobAt heap s.heap.length = some ⟨rs, begin⟩)
    (hkept : ∀ a j, jobAt s.heap a = some j → jobAt heap a = some j) :
    Rep { s with heap := heap, q := q, pushed := s.pushed ++ [⟨rs, begin⟩] } (l ++ [s.heap.length]) where
  seg := hseg
  rear := by
    intro a ha
    rw [List.getLast?_concat] at ha
    cases ha
    exact hrear
  count := by rw [List.length_append, List.length_singleton]; exact hcount
  room := by rw [List.length_append, List.length_singleton]; exact hroom
  jobs := by
    have hsame : l.map (jobAt heap) = l.map (jobAt s.heap) := by
      apply List.map_congr_left
      intro a ha
      obtain ⟨j, hj⟩ := h.job ha
      rw [hj, hkept a j hj]
    rw [List.map_append, hsame, h.jobs, List.map_singleton, hnew, St.queued, St.queued,
      List.drop_append_of_le_length h.order.length_le, List.map_append, List.map_singleton]
  held := fun x hx => hkept _ _ (h.held x hx)
  nodup := by
    rw [List.append_assoc, List.singleton_append, List.perm_middle.nodup_iff, List.nodup_cons]
    exact ⟨fun hmem => absurd (h.lt hmem) (Nat.lt_irrefl _), h.nodup⟩
  order := h.order.trans (List.prefix_append _ _)

theorem incr_of_lt {n : Nat} (h : n + 1 < 2 ^ 32) : incr n = n + 1 := if_neg (by omega)

theorem decr_succ (n : Nat) : decr (n + 1) = n := if_neg (Nat.succ_ne_zero n)

theorem pushQueue_run {h : Heap} {q : QueueT} {r : Addr} {c : Cell} (rs begin : Int) (hcount : q.count ≠ 0)
    (hrear : q.rear = some r) (hc : cellAt h r = some c) :
    pushQueue true rs begin h q = .ok ((h ++ [some (⟨⟨rs, begin⟩, none⟩ : Cell)]).set r (some { c with next := some h.length }),
      ⟨incr q.count, q.front, some h.length⟩) := by
  have hold : cellAt (h ++ [some (⟨⟨rs, begin⟩, none⟩ : Cell)]) r = some c := (cellAt_append _ (cellAt_lt hc)).trans hc
  unfold pushQueue
  simp only [Bool.true_eq_false, if_false, if_neg hcount, hrear, hold]

theorem step_push {given : Bool} {rs begin : Int} {h : Heap} {q : QueueT} (hpush : pushQueue given rs begin s.heap s.q = .ok (h, q)) :
    step (.push given rs begin) s = .ok { s with heap := h, q := q, pushed := s.pushed ++ [⟨rs, begin⟩] } := by
  simp only [step, hpush]

/-- A queue that is not empty has a last node, and `rear` points to it. -/
theorem Rep.last (h : Rep s l) (hne : s.q.count ≠ 0) : ∃ l' r c, l = l' ++ [r] ∧ s.q.rear = some r ∧
    Segment Cell.next (cellAt s.heap) s.q.front l' (some r) ∧ cellAt s.heap r = some c := by
  rcases List.eq_nil_or_concat l with rfl | ⟨l', r, rfl⟩
  · exact absurd h.count hne
  · rw [List.concat_eq_append] at h ⊢
    obtain ⟨hseg, c, hc, -⟩ := segment_snoc.mp h.seg
    exact ⟨l', r, c, rfl, h.rear r List.getLast?_concat, hseg, hc⟩

theorem push_rep (h : Rep s l) (rs begin : Int) (hroom : l.length + 1 < 2 ^ 32) :
    ∃ t, step (.push true rs begin) s = .ok t ∧ t.pushed = s.pushed ++ [⟨rs, begin⟩] ∧ t.popped = s.popped ∧
      Rep t (l ++ [s.heap.length]) := by
  have hnode := cellAt_new s.heap ⟨⟨rs, begin⟩, none⟩
  have hincr : incr s.q.count = l.length + 1 := by rw [h.count, incr_of_lt hroom]
  by_cases hcount : s.q.count = 0
  · -- the queue is empty: whatever `rear` points to is not followed
    have hpush : pushQueue true rs begin s.heap s.q = .ok (s.heap ++ [some ⟨⟨rs, begin⟩, none⟩],
        ⟨incr s.q.count, some s.heap.length, some s.heap.length⟩) := by
      unfold pushQueue
      simp only [Bool.true_eq_false, if_false, if_pos hcount]
    obtain rfl : l = [] := List.length_eq_zero_iff.mp (h.count.symm.trans hcount)
    refine ⟨_, step_push hpush, rfl, rfl, h.pushed rs begin hroom ?_ rfl hincr ?_ ?_⟩
    · exact ⟨rfl, _, hnode, rfl⟩
    · rw [jobAt, hnode]
      rfl
    · intro a j hj
      exact jobAt_append _ hj
  · obtain ⟨l', r, c, rfl, hrear, hseg, hc⟩ := h.last hcount
    have hr := cellAt_lt hc
    have hold : cellAt (s.heap ++ [some (⟨⟨rs, begin⟩, none⟩ : Cell)]) r = some c := (cellAt_append _ hr).trans hc
    have hne : r ≠ s.heap.length := Nat.ne_of_lt hr
    refine ⟨_, step_push (pushQueue_run rs begin hcount hrear hc), rfl, rfl, h.pushed rs begin hroom ?_ rfl hincr ?_ ?_⟩
    · apply segment_snoc.mpr
      refine ⟨segment_snoc.mpr ⟨hseg.congr ?_, _, cellAt_set _ (cellAt_lt hold), rfl⟩, ⟨⟨rs, begin⟩, none⟩, ?_, rfl⟩
      · intro a ha
        have hnodup := (List.nodup_append.mp h.nodup).1
        have hra : r ≠ a := fun e =>
          (List.nodup_append.mp hnodup).2.2 a ha r List.mem_cons_self e.symm
        obtain ⟨n, hn⟩ := hseg.cell ha
        rw [cellAt_set_ne _ hra, cellAt_append _ (cellAt_lt hn)]
      · rw [cellAt_set_ne _ hne]
        exact hnode
    · rw [jobAt, cellAt_set_ne _ hne, hnode]
      rfl
    · intro a j hj
      exact jobAt_link hold _ (jobAt_append _ hj)

theorem popQueue_run {h : Heap} {q : QueueT} {a : Addr} {c : Cell} (hcount : q.count ≠ 0) (hfront : q.front = some a)
    (hc : cellAt h a = some c) : popQueue h q = .ok (some a, ⟨decr q.count, c.next, q.rear⟩) := by
  have hd : deref h q.front = some c := by
    rw [hfront]
    exact hc
  unfold popQueue
  rw [if_neg hcount, hd, hfront]

theorem step_pop {q : QueueT} {a : Addr} {c : Cell} (hpop : popQueue s.heap s.q = .ok (some a, q)) (hc : cellAt s.heap a = some c) :
    step .pop s = .ok { s with q := q, held := s.held ++ [(a, c.job)], popped := s.popped ++ [c.job] } := by
  simp only [step, hpop, deref, hc]

theorem pop_rep (h : Rep s l) (hsome : s.popped.length < s.pushed.length) :
    ∃ a j rest t, step .pop s = .ok t ∧ s.queued = j :: rest ∧ t.queued = rest ∧ t.pushed = s.pushed ∧
      t.popped = s.popped ++ [j] ∧ t.held = s.held ++ [(a, j)] ∧ ∃ l', Rep t l' := by
  have hlen := h.length
  have hcount := h.count
  have hjobs := h.jobs
  have hroom := h.room
  cases hl : l with
  | nil =>
    rw [hl, List.length_nil] at hlen
    omega
  | cons a l' =>
    subst hl
    obtain ⟨hfront, c, hc, hseg⟩ := h.seg
    have hpos : ¬ s.q.count = 0 := by
      rw [hcount, List.length_cons]
      omega
    cases hq : s.queued with
    | nil =>
      rw [hq] at hjobs
      cases hjobs
    | cons j rest =>
      rw [hq, List.map_cons, List.map_cons, jobAt, hc] at hjobs
      obtain ⟨hj, hrest⟩ := List.cons.inj hjobs
      obtain rfl : c.job = j := Option.some.inj hj
      have hpushed : s.pushed = s.popped ++ c.job :: rest := by
        rw [← hq, St.queued]
        exact (List.prefix_iff_eq_append.mp h.order).symm
      have hqueued : s.pushed.drop (s.popped ++ [c.job]).length = rest := by
        have happ : s.pushed = (s.popped ++ [c.job]) ++ rest := by rw [hpushed, List.append_assoc, List.singleton_append]
        rw [happ, List.drop_left]
      have hcount' : decr s.q.count = l'.length := by
        rw [hcount, List.length_cons, decr_succ]
      refine ⟨a, c.job, rest, ⟨s.heap, ⟨decr s.q.count, c.next, s.q.rear⟩, s.held ++ [(a, c.job)], s.pushed,
        s.popped ++ [c.job]⟩, ?_, rfl, hqueued, rfl, rfl, rfl, l', ?_⟩
      · exact step_pop (popQueue_run hpos hfront hc) hc
      · refine ⟨hseg, ?_, hcount', ?_, ?_, ?_, ?_, ?_⟩
        · -- where this was the last node `rear` is left as it is, and nothing goes by it
          intro b hb
          apply h.rear
          rw [List.getLast?_cons, hb]
          rfl
        · rw [List.length_cons] at hroom
          omega
        · change l'.map (jobAt s.heap) = (s.pushed.drop (s.popped ++ [c.job]).length).map some
          rw [hqueued]
          exact hrest
        · intro x hx
          rcases List.mem_append.mp hx with hx | hx
          · exact h.held x hx
          · rw [List.mem_singleton.mp hx, jobAt, hc]
            rfl
        · change (l' ++ (s.held ++ [(a, c.job)]).map Prod.fst).Nodup
          rw [List.map_append, List.map_singleton, ← List.append_assoc, (List.perm_append_singleton _ _).nodup_iff]
          exact h.nodup
        · change s.popped ++ [c.job] <+: s.pushed
          exact ⟨rest, by rw [hpushed, List.append_assoc, List.singleton_append]⟩

theorem free_rep (h : Rep s l) {a : Addr} (ha : a ∈ s.held.map Prod.fst) :
    ∃ t, step (.free a) s = .ok t ∧ t.pushed = s.pushed ∧ t.popped = s.popped ∧ Rep t l := by
  obtain ⟨x, hx, rfl⟩ := List.mem_map.mp ha
  obtain ⟨c, hc, -⟩ := Option.map_eq_some_iff.mp (h.held x hx)
  have hnot : ∀ b ∈ l, x.1 ≠ b := fun b hb e => (List.nodup_append.mp h.nodup).2.2 b hb x.1 ha e.symm
  refine ⟨⟨s.heap.set x.1 none, s.q, s.held.filter (·.1 ≠ x.1), s.pushed, s.popped⟩, ?_, rfl, rfl, ?_⟩
  · simp only [step, free, hc]
  · refine ⟨h.seg.congr fun b hb => cellAt_set_ne none (hnot b hb), h.rear, h.count, h.room, ?_, ?_, ?_, h.order⟩
    · have hsame : l.map (jobAt (s.heap.set x.1 none)) = l.map (jobAt s.heap) := by
        apply List.map_congr_left
        intro b hb
        rw [jobAt, cellAt_set_ne none (hnot b hb), jobAt]
      exact hsame.trans h.jobs
    · intro y hy
      obtain ⟨hmem, hne⟩ := List.mem_filter.mp hy
      rw [jobAt, cellAt_set_ne none (of_decide_eq_true hne).symm]
      exact h.held y hmem
    · exact h.nodup.sublist (List.Sublist.append (List.Sublist.refl l) ((List.filter_sublist).map Prod.fst))

end

/-! ## Runs -/

/-- What a step does to a queue that stands for its jobs: it does not fault, and the queue
    after it stands for one job more at the end, one less at the front, or the same. -/
theorem step_rep {s : St} {l : List Addr} (h : Rep s l) {e : Event} (hl : Legal s e) (hr : Roomy s e) :
    ∃ t, step e s = .ok t ∧ (∃ l', Rep t l') ∧
      ((∃ j, t.queued = s.queued ++ [j]) ∨ (∃ j, s.queued = j :: t.queued) ∨ t.queued = s.queued) := by
  have hlen := h.length
  cases e with
  | push given rs begin =>
    obtain ⟨rfl, hroom⟩ := hr
    obtain ⟨t, ht, hpushed, hpopped, hrep⟩ := push_rep h rs begin (by omega)
    refine ⟨t, ht, ⟨_, hrep⟩, Or.inl ⟨⟨rs, begin⟩, ?_⟩⟩
    rw [St.queued, hpushed, hpopped, List.drop_append_of_le_length h.order.length_le, St.queued]
  | pop =>
    obtain ⟨a, j, rest, t, ht, hq, hqueued, -, -, -, hrep⟩ := pop_rep h hl
    exact ⟨t, ht, hrep, Or.inr (Or.inl ⟨j, by rw [hq, hqueued]⟩)⟩
  | free a =>
    obtain ⟨t, ht, hpushed, hpopped, hrep⟩ := free_rep h hl
    refine ⟨t, ht, ⟨l, hrep⟩, Or.inr (Or.inr ?_)⟩
    rw [St.queued, St.queued, hpushed, hpopped]

theorem start_rep : Rep start [] where
  seg := rfl
  rear a ha := by cases ha
  count := rfl
  room := by decide
  jobs := rfl
  held x hx := by cases hx
  nodup := List.nodup_nil
  order := List.prefix_refl []

/-- Run lemma. -/
theorem reach_rep {s : St} (hs : (system Roomy).Reach s) : ∃ l, Rep s l := by
  refine System.Reach.invariant (T := system Roomy) (P := fun s => ∃ l, Rep s l) ?_ ?_ hs
  · intro s h
    rw [show s = start from h]
    exact ⟨[], start_rep⟩
  · intro s t _ h hst
    obtain ⟨l, h⟩ := h
    obtain ⟨e, hl, hr, he⟩ := hst
    obtain ⟨u, hu, hrep, -⟩ := step_rep h hl hr
    rw [hu] at he
    cases he
    exact hrep

/-- The queue refines the list. -/
theorem refines_fifo : System.Refines (system Roomy) (fifo Job) fun s q => contents s.heap s.q = some q where
  start := by
    intro s h
    rw [show s = start from h]
    exact ⟨[], rfl, rfl⟩
  step := by
    intro s t q hs _ hq hst
    obtain ⟨e, hl, hr, he⟩ := hst
    obtain ⟨l, h⟩ := reach_rep hs
    obtain ⟨u, hu, ⟨l', hrep⟩, hmove⟩ := step_rep h hl hr
    rw [hu] at he
    cases he
    obtain rfl : s.queued = q := Option.some.inj (h.contents.symm.trans hq)
    exact ⟨t.queued, .single hmove, hrep.contents⟩

/-- The linked queue is a FIFO list: the nodes from `front` on, cut at `count`, hold the
    jobs pushed and not yet popped, in the order they were pushed; the jobs popped are the
    first ones pushed, in that order; no push, pop or free dereferences a null or freed
    node; and a popped node still holds its job until it is freed. -/
theorem queue_is_fifo {s : St} (hs : (system Roomy).Reach s) :
    contents s.heap s.q = some (s.pushed.drop s.popped.length) ∧ s.popped <+: s.pushed ∧
      (∀ e, Legal s e → Roomy s e → ∃ t, step e s = .ok t) ∧ ∀ x ∈ s.held, jobAt s.heap x.1 = some x.2 := by
  obtain ⟨l, h⟩ := reach_rep hs
  refine ⟨h.contents, h.order, ?_, h.held⟩
  intro e hl hr
  obtain ⟨t, ht, -⟩ := step_rep h hl hr
  exact ⟨t, ht⟩

/-- An event of a run under `Roomy`. -/
def roomyStep (e : Event) (s : St) : Option St :=
  if Legal s e ∧ Roomy s e then
    match step e s with
    | .ok t => some t
    | _ => none
  else none

theorem roomyStep_reach {es : List Event} {t : St} (h : System.follow roomyStep es start = some t) : (system Roomy).Reach t := by
  refine System.Reach.follow (T := system Roomy) ?_ (.init rfl) h
  intro e _ s t he
  obtain ⟨⟨hl, hr⟩, he⟩ := Option.ite_none_right_eq_some.mp he
  cases hres : step e s with
  | ok u =>
    rw [hres] at he
    cases he
    exact ⟨e, hl, hr, hres⟩
  | exit =>
    rw [hres] at he
    cases he
  | fault =>
    rw [hres] at he
    cases he

/-- Two jobs go in and out, `rear` is left at a node that is freed, and a third goes in. -/
theorem queue_is_fifo_three :
    ∃ s, (system Roomy).Reach s ∧ s.heap = [some ⟨⟨1, 0⟩, some 1⟩, none, some ⟨⟨2, 0⟩, none⟩] ∧ s.popped = [⟨1, 0⟩, ⟨1, 1⟩] ∧
      contents s.heap s.q = some [⟨2, 0⟩] := by
  have hrun : (System.follow roomyStep [.push true 1 0, .push true 1 1, .pop, .pop, .free 1, .push true 2 0] start).map
      (fun s => (s.heap, s.pushed, s.popped)) =
        some ([some ⟨⟨1, 0⟩, some 1⟩, none, some ⟨⟨2, 0⟩, none⟩], [⟨1, 0⟩, ⟨1, 1⟩, ⟨2, 0⟩], [⟨1, 0⟩, ⟨1, 1⟩]) := by
    decide +kernel
  obtain ⟨s, hs, he⟩ := Option.map_eq_some_iff.mp hrun
  simp only [Prod.mk.injEq] at he
  obtain ⟨hheap, hpushed, hpopped⟩ := he
  have hfifo := queue_is_fifo (roomyStep_reach hs)
  rw [hpushed, hpopped] at hfifo
  exact ⟨s, roomyStep_reach hs, hheap, hpopped, hfifo.1⟩

/-- One push after another, `count` has come to hold any number below 2^32. -/
theorem filled : ∀ k, k < 2 ^ 32 → ∃ s, (system Roomy).Reach s ∧ s.pushed.length = k ∧ s.popped = [] := by
  intro k
  induction k with
  | zero =>
    intro _
    exact ⟨start, .init rfl, rfl, rfl⟩
  | succ k ih =>
    intro hk
    obtain ⟨s, hs, hpushed, hpopped⟩ := ih (by omega)
    obtain ⟨l, h⟩ := reach_rep hs
    have hlen := h.length
    rw [hpushed, hpopped, List.length_nil, Nat.sub_zero] at hlen
    obtain ⟨t, ht, hmore, hsame, -⟩ := push_rep h 0 0 (by omega)
    have hroomy : Roomy s (.push true 0 0) := ⟨rfl, by rw [hpushed, hpopped, List.length_nil]; omega⟩
    refine ⟨t, hs.step ⟨.push true 0 0, trivial, hroomy, ht⟩, ?_, hsame.trans hpopped⟩
    rw [hmore, List.length_append, hpushed, List.length_singleton]

/-- Where `malloc` fails the push writes through null; and with 2^32 jobs in the queue `count`
    is back at zero, and none of them is reachable. -/
theorem a_full_count_loses_every_job :
    step (.push false 1 0) start = .fault ∧
    (∃ s, (system fun _ _ => True).Reach s ∧ s.queued.length = 2 ^ 32 ∧ contents s.heap s.q = some []) ∧
    ¬ (∀ s, (system fun _ _ => True).Reach s →
      contents s.heap s.q = some s.queued ∧ ∀ e, Legal s e → ∃ t, step e s = .ok t) := by
  have hfault : step (.push false 1 0) start = .fault := rfl
  have hlost : ∃ s, (system fun _ _ => True).Reach s ∧ s.queued.length = 2 ^ 32 ∧ contents s.heap s.q = some [] := by
    obtain ⟨s, hs, hpushed, hpopped⟩ := filled (2 ^ 32 - 1) (by decide)
    obtain ⟨l, h⟩ := reach_rep hs
    have hcount : s.q.count = 2 ^ 32 - 1 := by rw [h.count, h.length, hpushed, hpopped, List.length_nil, Nat.sub_zero]
    have hne : s.q.count ≠ 0 := by
      rw [hcount]
      decide
    obtain ⟨l', r, c, -, hrear, -, hc⟩ := h.last hne
    have hpush := step_push (pushQueue_run 0 0 hne hrear hc)
    have hany : (system fun _ _ => True).Reach s := by
      refine System.Reach.invariant (T := system Roomy) (P := (system fun _ _ => True).Reach) (fun s h => .init h) ?_ hs
      intro s t _ hr hst
      obtain ⟨e, hl, -, he⟩ := hst
      exact hr.step ⟨e, hl, trivial, he⟩
    refine ⟨_, hany.step ⟨.push true 0 0, trivial, trivial, hpush⟩, ?_, ?_⟩
    · rw [St.queued, hpopped, List.length_nil, List.drop_zero, List.length_append, hpushed, List.length_singleton]
      omega
    · unfold contents
      rw [show incr s.q.count = 0 from if_pos hcount]
      rfl
  refine ⟨hfault, hlost, ?_⟩
  intro hclaim
  obtain ⟨s, hs, hlen, hnone⟩ := hlost
  rw [(hclaim s hs).1] at hnone
  rw [Option.some.inj hnone, List.length_nil] at hlen
  omega

/-! ## The list the model of `range` keeps -/

def jobOf (n : Range.Node) : Job := ⟨n.rs, n.begin⟩

/-- Beside a queue with the same jobs, a push, a pop and a pop of the empty queue do what
    they do in the model of `range`. -/
theorem refines_list {s : St} (hs : (system Roomy).Reach s) {g : Globals} (hg : contents s.heap s.q = some (g.queue.map jobOf)) :
    (∀ n : Range.Node, Roomy s (.push true n.rs n.begin) → ∃ t, step (.push true n.rs n.begin) s = .ok t ∧
      contents t.heap t.q = some ((g.push n).queue.map jobOf)) ∧
    (∀ n q, g.queue = n :: q → ∃ t a, step .pop s = .ok t ∧ t.held = s.held ++ [(a, jobOf n)] ∧
      contents t.heap t.q = some (q.map jobOf)) ∧
    (g.queue = [] → step .pop s = .exit) := by
  obtain ⟨l, h⟩ := reach_rep hs
  have hlen := h.length
  have hqueued : s.queued = g.queue.map jobOf := Option.some.inj (h.contents.symm.trans hg)
  refine ⟨?_, ?_, ?_⟩
  · intro n hr
    have hroom := hr.2
    obtain ⟨t, ht, hpushed, hpopped, hrep⟩ := push_rep h n.rs n.begin (by omega)
    refine ⟨t, ht, ?_⟩
    rw [hrep.contents, St.queued, hpushed, hpopped, List.drop_append_of_le_length h.order.length_le,
      show s.pushed.drop s.popped.length = g.queue.map jobOf from hqueued]
    simp only [Globals.push, List.map_append, List.map_singleton, jobOf]
  · intro n q hq
    have hsome : s.popped.length < s.pushed.length := by
      have hcount := congrArg List.length hqueued
      rw [St.queued, List.length_drop, hq, List.length_map, List.length_cons] at hcount
      omega
    obtain ⟨a, j, rest, t, ht, hold, hnew, -, -, hheld, l', hrep⟩ := pop_rep h hsome
    rw [hqueued, hq, List.map_cons] at hold
    obtain ⟨rfl, rfl⟩ := List.cons.inj hold
    exact ⟨t, a, ht, hheld, by rw [hrep.contents, hnew]⟩
  · intro hq
    have hempty : s.q.count = 0 := by
      have hcount := congrArg List.length hqueued
      rw [St.queued, List.length_drop, hq, List.map_nil, List.length_nil] at hcount
      rw [h.count, hlen, hcount]
    simp only [step, popQueue, if_pos hempty]

end DiyDdmin.Range.Queue
