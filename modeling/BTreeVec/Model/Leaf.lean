import BTreeVec.Model.Node

/-!
# Leaf nodes

The methods of `node/leaf.rs`. `self` is the address of the leaf.
-/

namespace BTreeVec.LeafNode

open Prog

variable {T P : Type} {B : Nat}

/-- `children.as_ptr() + from`, `len` items of it, copied to `dst.children + to`. -/
def copyItems (src i dst j len : Nat) : Exec T P B Unit := do
  let items ← orFault .outOfBounds ((← derefLeaf src).children.slice? i (i + len))
  let children ← orFault .outOfBounds ((← derefLeaf dst).children.copyFrom? j items)
  modifyLeaf dst fun n => { n with children := children }

section
variable [TaggedPtr P]

def new : LeafNode T P B where
  nodePrefix := .new .leaf
  length := 0
  children := .replicate B none
  next := none

/-- `LeafRef::alloc`. -/
def alloc : Exec T P B Addr := allocate (.leaf new)

def split (self : Addr) (strategy : SplitStrategy) : Exec T P B Addr := do
  let (left, right) := strategy.sizes B
  check .assertion ((← derefLeaf self).length = B)
  let new ← alloc
  copyItems self left new 0 right
  let next := (← derefLeaf self).next
  modifyLeaf new fun n => { n with next := next }
  modifyLeaf self fun n => { n with next := some new }
  modifyLeaf self fun n => { n with length := left }
  modifyLeaf new fun n => { n with length := right }
  return new

end

def merge (self other : Addr) : Exec T P B Unit := do
  let length := (← derefLeaf self).length
  check .assertion (length ≤ B / 2)
  check .assertion ((← derefLeaf other).length ≤ B / 2)
  copyItems other 0 self length (← derefLeaf other).length
  check .assertion ((← derefLeaf self).next = some other)
  let next := (← derefLeaf other).next
  modifyLeaf self fun n => { n with next := next }
  modifyLeaf other fun n => { n with next := none }
  let count := (← derefLeaf other).length
  modifyLeaf self fun n => { n with length := n.length + count }
  modifyLeaf other fun n => { n with length := 0 }

def simpleInsert (self : Addr) (i : Nat) (item : T) : Exec T P B Unit := do
  let n ← derefLeaf self
  let children ← orFault .outOfBounds (n.children.rotateRight? i (n.length + 1))
  let children ← orFault .outOfBounds (children.set? i (some item))
  modifyLeaf self fun n => { n with children := children, length := n.length + 1 }

def simpleRemove (self : Addr) (i : Nat) : Exec T P B T := do
  let n ← derefLeaf self
  check .assertion (n.length > 0)
  let children ← orFault .outOfBounds (n.children.rotateLeft? i n.length)
  let item ← orFault .outOfBounds (children.get? (n.length - 1))
  let children ← orFault .outOfBounds (children.set? (n.length - 1) none)
  modifyLeaf self fun n => { n with children := children, length := n.length - 1 }
  orFault .uninit item

/-- `&self.children()[i]`. -/
def child (self : Addr) (i : Nat) : Exec T P B T := do
  let n ← derefLeaf self
  let children ← orFault .outOfBounds (n.children.slice? 0 n.length)
  let item ← orFault .outOfBounds children[i]?
  orFault .uninit item

/-- `self.children_mut()[i] = item`, which drops what was there. -/
def setChild (self : Addr) (i : Nat) (item : T) : Exec T P B Unit := do
  let old ← child self i
  let children ← orFault .outOfBounds ((← derefLeaf self).children.set? i (some item))
  modifyLeaf self fun n => { n with children := children }
  modify fun s => { s with dropped := s.dropped ++ [old] }

def setZeroLength (self : Addr) : Exec T P B Unit :=
  modifyLeaf self fun n => { n with length := 0 }

/-- `take_raw_child(i).assume_init()`. -/
def takeChild (self : Addr) (i : Nat) : Exec T P B T := do
  modifyLeaf self fun n => { n with length := min n.length i }
  let n ← derefLeaf self
  let item ← orFault .outOfBounds (n.children.get? i)
  let children ← orFault .outOfBounds (n.children.set? i none)
  modifyLeaf self fun n => { n with children := children }
  orFault .uninit item

/-- `self.children()`, every item of it initialized. -/
def items (self : Addr) : Exec T P B (List T) := do
  let n ← derefLeaf self
  let children ← orFault .outOfBounds (n.children.slice? 0 n.length)
  orFault .uninit (children.mapM id)

/-- The `Drop` of a leaf runs the destructor of every item. -/
def drop (self : Addr) : Exec T P B Unit := do
  let items ← items self
  modify fun s => { s with dropped := s.dropped ++ items }

/-- `clone` is the `Clone` of the element type. -/
def cloneFrom (clone : T → T) (self other : Addr) (nextLeaf : Option Addr) : Exec T P B Unit := do
  let items ← items other
  let children ← orFault .outOfBounds
    ((← derefLeaf self).children.copyFrom? 0 (items.map (some ∘ clone)))
  modifyLeaf self fun n => { n with children := children }
  let length := (← derefLeaf other).length
  modifyLeaf self fun n => { n with length := length }
  modifyLeaf self fun n => { n with next := nextLeaf }

end BTreeVec.LeafNode
