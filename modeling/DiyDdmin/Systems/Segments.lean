/-
  DiyDdmin.Systems.Segments — linked segments of a heap, and the queue they stand for.

  Nothing here is about a particular program. A heap maps addresses to cells, and a cell
  has a link, an address or null. `Segment next h p l q` says that from the pointer `p`
  the links lead through the addresses `l` and then to the pointer `q`; `walk` collects
  the cells met on so many steps, and fails at null and at an address with no cell.

  Proved: a segment is cut at its end as at its start (`segment_snoc`), a change of other
  cells leaves it alone (`Segment.congr`), and a walk of its length collects its cells
  (`Segment.walk`). `fifo` is the queue as a list, what a linked queue refines.
-/

import DiyDdmin.Systems.Reach

namespace DiyDdmin.Systems

variable {ι ν : Type*}

def Segment (next : ν → Option ι) (h : ι → Option ν) : Option ι → List ι → Option ι → Prop
  | p, [], q => p = q
  | p, a :: l, q => p = some a ∧ ∃ n, h a = some n ∧ Segment next h (next n) l q

/-- The cells met on `k` steps from `p`. -/
def walk (next : ν → Option ι) (h : ι → Option ν) : Nat → Option ι → Option (List ν)
  | 0, _ => some []
  | _ + 1, none => none
  | k + 1, some a => (h a).bind fun n => (walk next h k (next n)).map (n :: ·)

section

variable {next : ν → Option ι} {h h' : ι → Option ν} {p q : Option ι} {l : List ι} {a : ι}

theorem segment_snoc : Segment next h p (l ++ [a]) q ↔ Segment next h p l (some a) ∧ ∃ n, h a = some n ∧ next n = q := by
  induction l generalizing p with
  | nil => exact Iff.rfl
  | cons b l ih =>
    constructor
    · intro h
      obtain ⟨hp, n, hn, hl⟩ := h
      obtain ⟨hl, hlast⟩ := ih.mp hl
      exact ⟨⟨hp, n, hn, hl⟩, hlast⟩
    · intro h
      obtain ⟨⟨hp, n, hn, hl⟩, hlast⟩ := h
      exact ⟨hp, n, hn, ih.mpr ⟨hl, hlast⟩⟩

theorem Segment.congr (hs : Segment next h p l q) (hcells : ∀ a ∈ l, h' a = h a) : Segment next h' p l q := by
  induction l generalizing p with
  | nil => exact hs
  | cons b l ih =>
    obtain ⟨hp, n, hn, hl⟩ := hs
    exact ⟨hp, n, (hcells b List.mem_cons_self).trans hn, ih hl fun a ha => hcells a (List.mem_cons_of_mem b ha)⟩

/-- A segment passes through cells only. -/
theorem Segment.cell (hs : Segment next h p l q) (ha : a ∈ l) : ∃ n, h a = some n := by
  induction l generalizing p with
  | nil => cases ha
  | cons b l ih =>
    obtain ⟨-, n, hn, hl⟩ := hs
    rcases List.mem_cons.mp ha with rfl | ha
    · exact ⟨n, hn⟩
    · exact ih hl ha

theorem Segment.walk (hs : Segment next h p l q) : ∃ ns, walk next h l.length p = some ns ∧ l.map h = ns.map some := by
  induction l generalizing p with
  | nil => exact ⟨[], rfl, rfl⟩
  | cons b l ih =>
    obtain ⟨rfl, n, hn, hl⟩ := hs
    obtain ⟨ns, hwalk, hcells⟩ := ih hl
    refine ⟨n :: ns, ?_, ?_⟩
    · rw [List.length_cons, Systems.walk, hn, Option.bind_some, hwalk, Option.map_some]
    · rw [List.map_cons, List.map_cons, hn, hcells]

end

/-- The queue as a list: one more at the end, the first one off, or nothing. -/
def fifo (α : Type*) : System (List α) :=
  ⟨(· = []), fun q t => (∃ x, t = q ++ [x]) ∨ (∃ x, q = x :: t) ∨ t = q⟩

end DiyDdmin.Systems
