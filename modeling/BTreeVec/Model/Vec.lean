import BTreeVec.Model.Insert
import BTreeVec.Model.Remove

/-!
# The vector

`BTreeVec` from `lib.rs`. A method that takes `&mut self` returns the new vector
next to its result. A mutable reference to an item is the slot it points to, a
leaf and an index in it.
-/

set_option linter.dupNamespace false

namespace BTreeVec

open Prog

variable {T P : Type} {B : Nat} [TaggedPtr P]

/--
The closure of `leaf_for` under `position`: the first size the index is below,
each size before it being taken off the index.
-/
def position : List Nat → Nat → Option Nat × Nat
  | [], index => (none, index)
  | size :: sizes, index =>
      if size ≤ index then
        let (i, index) := position sizes (index - size)
        (i.map (· + 1), index)
      else (some 0, index)

/-- One turn of the loop in `leaf_for`. -/
def leafForStep (root : Addr) (index : Nat) : Exec T P B ((Addr × Nat) ⊕ (Addr × Nat)) := do
  match ← cast root with
  | .leaf => return .inr (root, index)
  | .internal => do
      let node ← derefInternal root
      let last ← sub .underflow node.length 1
      let (i, index) := position (node.sizes.toList.take last) index
      let child ← InternalNode.child root (i.getD last)
      return .inl (child, index)

def leafFor (root : Addr) (index : Nat) : Exec T P B (Addr × Nat) := do
  loop .outOfFuel (fun (root, index) => leafForStep root index) ((← get).heap.next + 1)
    (root, index)

structure BTreeVec where
  root : Option Addr
  size : Nat
deriving DecidableEq, Repr

/-- A `&mut T` into the vector: the leaf and the index of the item in it. -/
abbrev Slot := Addr × Nat

namespace BTreeVec

def create : Exec T P B BTreeVec := do
  check .assertion (B ≥ 3)
  return ⟨none, 0⟩

def len (self : BTreeVec) : Nat := self.size

def isEmpty (self : BTreeVec) : Bool := self.size = 0

def getMut (self : BTreeVec) (index : Nat) : Exec T P B (Option Slot) := do
  if index < self.size then
    let (leaf, index) ← leafFor (← orFault .unwrap self.root) index
    let _ ← LeafNode.child leaf index
    return some (leaf, index)
  else return none

def get (self : BTreeVec) (index : Nat) : Exec T P B (Option T) := do
  if index < self.size then
    let (leaf, index) ← leafFor (← orFault .unwrap self.root) index
    return some (← LeafNode.child leaf index)
  else return none

def first (self : BTreeVec) : Exec T P B (Option T) := self.get 0

def last (self : BTreeVec) : Exec T P B (Option T) :=
  if 1 ≤ self.size then self.get (self.size - 1) else return none

def firstMut (self : BTreeVec) : Exec T P B (Option Slot) := self.getMut 0

def lastMut (self : BTreeVec) : Exec T P B (Option Slot) := do
  if 1 ≤ self.size then self.getMut (self.size - 1) else return none

/-- `Index`. -/
def index (self : BTreeVec) (index : Nat) : Exec T P B T := do
  orFault .unwrap (← self.get index)

/-- `IndexMut`. -/
def indexMut (self : BTreeVec) (index : Nat) : Exec T P B Slot := do
  orFault .unwrap (← self.getMut index)

/-- `*r = item` for a reference `r` that `get_mut` returned. -/
def write (slot : Slot) (item : T) : Exec T P B Unit := LeafNode.setChild slot.1 slot.2 item

def insert (self : BTreeVec) (index : Nat) (item : T) : Exec T P B BTreeVec := do
  check .assertion (index ≤ self.size)
  let root ← match self.root with
    | some root => pure root
    | none => LeafNode.alloc
  let (leaf, index) ← leafFor root index
  let root ← Insert.insert leaf index item self.size
  return ⟨some root, self.size + 1⟩

def push (self : BTreeVec) (item : T) : Exec T P B BTreeVec := self.insert self.size item

def remove (self : BTreeVec) (index : Nat) : Exec T P B (BTreeVec × T) := do
  check .assertion (index < self.size)
  let (leaf, index) ← leafFor (← orFault .unwrap self.root) index
  let (root, item) ← Remove.remove leaf index
  return (⟨some root, ← sub .underflow self.size 1⟩, item)

def pop (self : BTreeVec) : Exec T P B (BTreeVec × Option T) :=
  if 1 ≤ self.size then do
    let (self, item) ← self.remove (self.size - 1)
    return (self, some item)
  else return (self, none)

def drop (self : BTreeVec) : Exec T P B Unit := do
  match self.root with
  | none => return ()
  | some root => NodeRef.destroyPrefix ((← MonadState.get).heap.next + 1) root

/-- `cloneItem` is the `Clone` of the element type. -/
def clone (cloneItem : T → T) (self : BTreeVec) : Exec T P B BTreeVec := do
  match self.root with
  | none => return ⟨none, self.size⟩
  | some root => do
      let (root, _) ← NodeRef.cloneNode cloneItem ((← MonadState.get).heap.next + 1) root none
      return ⟨some root, self.size⟩

end BTreeVec

end BTreeVec
