import BTreeVec.Lib.Traverse
import BTreeVec.Model.Vec

/-!
# Iterators

`Iter`, `IterMut` and `IntoIter` from `lib.rs`. The first two differ only in what
they hand out, an item or the slot of it, so they share the cursor they move.
-/

set_option linter.dupNamespace false

namespace BTreeVec

open Prog

variable {T P : Type} {B : Nat} [TaggedPtr P]

/-- The fields of `Iter` and of `IterMut`. -/
structure Cursor where
  leaf : Option Addr
  index : Nat
  remaining : Nat
deriving DecidableEq, Repr

abbrev Iter := Cursor

abbrev IterMut := Cursor

namespace Cursor

/-- The cursor at the start of `v`, as `iter` and `iter_mut` build it. -/
def start (v : BTreeVec) : Exec T P B Cursor := do
  match v.root with
  | none => return ⟨none, 0, v.len⟩
  | some root => return ⟨some (← leafFor root 0).1, 0, v.len⟩

/-- The part of `next` after the leaf is settled. -/
def take (self : Cursor) (leaf : Addr) : Exec T P B (Option Slot × Cursor) := do
  let remaining ← sub .underflow self.remaining 1
  return (some (leaf, self.index), ⟨some leaf, self.index + 1, remaining⟩)

/-- `next` up to the access to the item. -/
def advance (self : Cursor) : Exec T P B (Option Slot × Cursor) := do
  match self.leaf with
  | none => return (none, self)
  | some leaf => do
      if self.index = (← Node.length .leaf leaf) then
        match ← NodeRef.next leaf with
        | none => return (none, { self with leaf := none })
        | some leaf => take { self with index := 0 } leaf
      else take self leaf

def sizeHint (self : Cursor) : Nat × Option Nat := (self.remaining, some self.remaining)

end Cursor

/-- One turn of the loop in `nth`: climb from the child at `childIndex` of `parent`. -/
def nthStep (parent : Addr) (childIndex n : Nat) :
    Exec T P B ((Addr × Nat × Nat) ⊕ Option (Addr × Nat)) := do
  let node ← derefInternal parent
  let sizes ← orFault .outOfBounds (node.sizes.slice? 0 node.length)
  match position (sizes.drop (childIndex + 1)) n with
  | (some i, n) => do
      let child ← InternalNode.child parent (childIndex + 1 + i)
      return .inr (some (← leafFor child n))
  | (none, n) => do
      let childIndex ← Node.index .internal parent
      match ← NodeRef.parent parent with
      | none => return .inr none
      | some parent => return .inl (parent, childIndex, n)

/-- The free function `nth`. -/
def nth (leaf : Addr) (index n : Nat) : Exec T P B (Option (Addr × Nat)) := do
  let rest ← sub .underflow (← Node.length .leaf leaf) index
  if rest ≤ n then
    let childIndex ← Node.index .leaf leaf
    match ← NodeRef.parent leaf with
    | none => return none
    | some parent =>
        loop .outOfFuel (fun (parent, childIndex, n) => nthStep parent childIndex n)
          ((← get).heap.next + 1) (parent, childIndex, n - rest)
  else return some (leaf, index + n)

namespace Cursor

/-- `nth` up to the access to the item. -/
def skip (self : Cursor) (n : Nat) : Exec T P B (Option Slot × Cursor) := do
  match self.leaf with
  | none => return (none, ⟨none, self.index, 0⟩)
  | some leaf => do
      match ← nth leaf self.index n with
      | none => return (none, ⟨none, self.index, 0⟩)
      | some (leaf, i) => do
          let remaining ← sub .underflow (← sub .underflow self.remaining n) 1
          return (some (leaf, i), ⟨some leaf, i + 1, remaining⟩)

/-- `&leaf.into_children()[i]` for the slot a step arrived at. -/
def item : Option Slot × Cursor → Exec T P B (Option T × Cursor)
  | (none, self) => return (none, self)
  | (some slot, self) => return (some (← LeafNode.child slot.1 slot.2), self)

/-- `&mut leaf.children_mut()[i]` for the slot a step arrived at. -/
def itemMut : Option Slot × Cursor → Exec T P B (Option Slot × Cursor)
  | (none, self) => return (none, self)
  | (some slot, self) => do
      let _ ← LeafNode.child slot.1 slot.2
      return (some slot, self)

end Cursor

def BTreeVec.iter (self : BTreeVec) : Exec T P B Iter := Cursor.start self

def BTreeVec.iterMut (self : BTreeVec) : Exec T P B IterMut := Cursor.start self

def Iter.next (self : Iter) : Exec T P B (Option T × Iter) := do
  Cursor.item (← Cursor.advance self)

def Iter.nth (self : Iter) (n : Nat) : Exec T P B (Option T × Iter) := do
  Cursor.item (← Cursor.skip self n)

def IterMut.next (self : IterMut) : Exec T P B (Option Slot × IterMut) := do
  Cursor.itemMut (← Cursor.advance self)

def IterMut.nth (self : IterMut) (n : Nat) : Exec T P B (Option Slot × IterMut) := do
  Cursor.itemMut (← Cursor.skip self n)

/-- `Clone`: a second iterator at the same place. -/
def Iter.clone (self : Iter) : Iter := ⟨self.leaf, self.index, self.remaining⟩

/-- `ExactSizeIterator::len`, which the three iterators have in common. -/
def exactLen (hint : Nat × Option Nat) : Exec T P B Nat := do
  let (lower, upper) := hint
  check .assertion (some lower = upper)
  return lower

def Iter.len (self : Iter) : Exec T P B Nat := exactLen (Cursor.sizeHint self)

def IterMut.len (self : IterMut) : Exec T P B Nat := exactLen (Cursor.sizeHint self)

/-- The iterator owns the vector it came from. -/
structure IntoIter where
  leaf : Option Addr
  length : Nat
  index : Nat
  remaining : Nat
  tree : BTreeVec
deriving DecidableEq, Repr

def BTreeVec.intoIter (self : BTreeVec) : Exec T P B IntoIter := do
  match self.root with
  | none => return ⟨none, 0, 0, self.len, self⟩
  | some root => do
      let (leaf, _) ← leafFor root 0
      return ⟨some leaf, ← Node.length .leaf leaf, 0, self.len, self⟩

namespace IntoIter

/-- The part of `next` after the leaf is settled. -/
def take (self : IntoIter) (leaf : Addr) : Exec T P B (Option T × IntoIter) := do
  let remaining ← sub .underflow self.remaining 1
  let item ← LeafNode.takeChild leaf self.index
  return (some item,
    { self with leaf := some leaf, index := self.index + 1, remaining := remaining })

def next (self : IntoIter) : Exec T P B (Option T × IntoIter) := do
  match self.leaf with
  | none => return (none, self)
  | some leaf => do
      if self.index = self.length then
        match ← NodeRef.next leaf with
        | none => return (none, { self with leaf := none })
        | some leaf => do
            let length ← Node.length .leaf leaf
            LeafNode.setZeroLength leaf
            take { self with index := 0, length := length } leaf
      else take self leaf

def sizeHint (self : IntoIter) : Nat × Option Nat := (self.remaining, some self.remaining)

def len (self : IntoIter) : Exec T P B Nat := exactLen self.sizeHint

/-- The default `nth` of `Iterator`: the items that are skipped are dropped. -/
def nth (self : IntoIter) (n : Nat) : Exec T P B (Option T × IntoIter) :=
  skipNext (fun item => modify fun s => { s with dropped := s.dropped ++ [item] }) next n self

/-- `Drop`: the rest of the current leaf, then the vector itself. -/
def drop (self : IntoIter) : Exec T P B Unit := do
  match self.leaf with
  | none => pure ()
  | some leaf =>
      forEach (List.range' self.index (self.length - self.index)) fun i => do
        let item ← LeafNode.takeChild leaf i
        modify fun s => { s with dropped := s.dropped ++ [item] }
  self.tree.drop

end IntoIter

end BTreeVec
