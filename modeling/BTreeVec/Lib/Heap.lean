import Mathlib.Data.List.Basic

/-!
# A store of cells with fresh addresses

Addresses are handed out in order and never reused, so an access after `free` is
an access to an absent cell rather than to somebody else's. Every law below is
unconditional: writing to, or freeing, an absent cell changes nothing.
-/

/-- Cells by address; a freed cell is `none`. -/
structure Heap (V : Type) where
  cells : List (Option V)
deriving DecidableEq

namespace Heap

variable {V : Type}

/-- No cell was ever allocated. -/
def empty : Heap V := ⟨[]⟩

/-- The live cell at `a`, if any. -/
def read (h : Heap V) (a : Nat) : Option V := (h.cells[a]?).join

/-- The address the next allocation returns. -/
def next (h : Heap V) : Nat := h.cells.length

def alloc (h : Heap V) (v : V) : Heap V := ⟨h.cells ++ [some v]⟩

/-- Apply `f` to the cell at `a`, if it is live. -/
def update (h : Heap V) (a : Nat) (f : V → V) : Heap V := ⟨h.cells.modify a (Option.map f)⟩

def free (h : Heap V) (a : Nat) : Heap V := ⟨h.cells.set a none⟩

@[simp] theorem read_empty (a : Nat) : (empty : Heap V).read a = none := by simp [empty, read]

@[simp] theorem next_alloc (h : Heap V) (v : V) : (h.alloc v).next = h.next + 1 := by
  simp [alloc, next]

@[simp] theorem next_update (h : Heap V) (a : Nat) (f : V → V) : (h.update a f).next = h.next := by
  simp [update, next]

@[simp] theorem next_free (h : Heap V) (a : Nat) : (h.free a).next = h.next := by
  simp [free, next]

/-- Live cells lie below the allocation mark. -/
theorem lt_next_of_read {h : Heap V} {a : Nat} {v : V} (hr : h.read a = some v) : a < h.next := by
  unfold read at hr
  unfold next
  by_contra hn
  rw [List.getElem?_eq_none (Nat.le_of_not_lt hn)] at hr
  simp at hr

theorem read_of_next_le {h : Heap V} {a : Nat} (ha : h.next ≤ a) : h.read a = none := by
  by_contra hn
  obtain ⟨v, hv⟩ := Option.ne_none_iff_exists'.mp hn
  exact absurd (lt_next_of_read hv) (Nat.not_lt_of_le ha)

theorem read_alloc (h : Heap V) (v : V) (b : Nat) :
    (h.alloc v).read b = if b = h.next then some v else h.read b := by
  unfold alloc read next
  rcases Nat.lt_trichotomy b h.cells.length with hb | hb | hb
  · rw [List.getElem?_append_left hb, if_neg (Nat.ne_of_lt hb)]
  · subst hb; simp
  · rw [if_neg (Nat.ne_of_gt hb), List.getElem?_eq_none (by simp; omega),
      List.getElem?_eq_none (by omega)]

theorem read_update (h : Heap V) (a : Nat) (f : V → V) (b : Nat) :
    (h.update a f).read b = if b = a then (h.read a).map f else h.read b := by
  unfold update read
  rw [List.getElem?_modify]
  by_cases hb : b = a
  · subst hb
    cases hc : h.cells[b]? with
    | none => simp
    | some c => simp
  · simp [hb, Ne.symm hb]

theorem update_update (h : Heap V) (a : Nat) (v w : V) :
    (h.update a fun _ => v).update a (fun _ => w) = h.update a fun _ => w := by
  unfold update
  rw [List.modify_modify_eq, Option.map_comp_map]
  rfl

theorem update_eq_self {h : Heap V} {a : Nat} {v : V} (hr : h.read a = some v) :
    (h.update a fun _ => v) = h := by
  refine congrArg Heap.mk (List.ext_getElem? fun b => ?_)
  rw [List.getElem?_modify]
  by_cases hb : a = b
  · subst hb
    rcases hc : h.cells[a]? with _ | _ | c
    · simp
    · simp
    · rw [read, hc] at hr
      cases hr
      simp
  · simp [hb]

theorem read_free (h : Heap V) (a b : Nat) :
    (h.free a).read b = if b = a then none else h.read b := by
  unfold free read
  rw [List.getElem?_set]
  by_cases hb : b = a
  · subst hb
    by_cases hl : b < h.cells.length <;> simp [hl]
  · simp [hb, Ne.symm hb]

end Heap
