import BTreeVec.Model.Leaf
import BTreeVec.Model.Internal

/-!
# Node references

The `Node` trait and the methods of `NodeRef` from `node/mod.rs`. The generic
parameter `N: Node` is a `NodeKind`: a method of the trait takes the kind and the
address, and runs the method of that node type.
-/

namespace BTreeVec

open Prog

variable {T P : Type} {B : Nat}

/-- `N::Child`: an item, or a child together with its size. -/
abbrev Child (T : Type) : NodeKind → Type
  | .leaf => T
  | .internal => Addr × Nat

namespace Node

def itemSize : (N : NodeKind) → Child T N → Nat
  | .leaf, _ => 1
  | .internal, item => item.2

def length (N : NodeKind) (self : Addr) : Exec T P B Nat :=
  match N with
  | .leaf => do return (← derefLeaf self).length
  | .internal => do return (← derefInternal self).length

def size (N : NodeKind) (self : Addr) : Exec T P B Nat :=
  match N with
  | .leaf => do return (← derefLeaf self).length
  | .internal => InternalNode.size self

def index (N : NodeKind) (self : Addr) : Exec T P B Nat :=
  match N with
  | .leaf => do return (← derefLeaf self).nodePrefix.index
  | .internal => do return (← derefInternal self).nodePrefix.index

def simpleInsert [TaggedPtr P] :
    (N : NodeKind) → Addr → Nat → Child T N → Exec T P B Unit
  | .leaf, self, i, item => LeafNode.simpleInsert self i item
  | .internal, self, i, item => InternalNode.simpleInsert self i item

def simpleRemove [TaggedPtr P] : (N : NodeKind) → Addr → Nat → Exec T P B (Child T N)
  | .leaf, self, i => LeafNode.simpleRemove self i
  | .internal, self, i => InternalNode.simpleRemove self i

def split [TaggedPtr P] (N : NodeKind) (self : Addr) (strategy : SplitStrategy) :
    Exec T P B Addr :=
  match N with
  | .leaf => LeafNode.split self strategy
  | .internal => InternalNode.split self strategy

def merge (N : NodeKind) (self other : Addr) : Exec T P B Unit :=
  match N with
  | .leaf => LeafNode.merge self other
  | .internal => InternalNode.merge self other

end Node

namespace NodeRef

section
variable [TaggedPtr P]

/-- `into_parent`, `parent` and `parent_mut`; `None` stands for `Err(self)`. -/
def parent (self : Addr) : Exec T P B (Option Addr) := do
  return (← derefPrefix self).parent.get

/-- The left and right sibling under the same parent; the middle one is `self`. -/
def siblings (N : NodeKind) (self : Addr) : Exec T P B (Option Addr × Option Addr) := do
  let index ← Node.index N self
  match ← parent self with
  | none => pure (none, none)
  | some parent => do
      let left ← if 1 ≤ index then InternalNode.childPtr parent (index - 1) else pure none
      let right ← InternalNode.childPtr parent (index + 1)
      pure (left, right)

/--
`NodeRef<N>::destroy`. The copy of the node that `Layout::for_value` looks at is
a temporary, and the end of that statement runs its destructor.
-/
def destroy : Nat → NodeKind → Addr → Exec T P B Unit
  | 0, _, _ => throw .outOfFuel
  | fuel + 1, N, self => do
      check .assertion ((← parent self) = none)
      let c ← deref self
      modify fun s => { s with destroyed := s.destroyed ++ [(self, c)] }
      match N with
      | .leaf => LeafNode.drop self
      | .internal => InternalNode.destroyChildren (fun child => do
          destroy fuel (← cast child) child) self
      deallocate self

/-- `NodeRef<Prefix>::destroy`. -/
def destroyPrefix (fuel : Nat) (self : Addr) : Exec T P B Unit := do
  destroy fuel (← cast self) self

/--
`clone_node`: the copy of the subtree at `self`, and the first leaf of the subtree
according to the code. In the leaf case the code takes that leaf from `node`,
which is the leaf being copied.
-/
def cloneNode (clone : T → T) : Nat → Addr → Option Addr → Exec T P B (Addr × Addr)
  | 0, _, _ => throw .outOfFuel
  | fuel + 1, self, nextLeaf => do
      match ← cast self with
      | .internal => do
          let new ← InternalNode.alloc
          let leaf ← InternalNode.cloneFrom (cloneNode clone fuel) new self nextLeaf
          pure (new, leaf)
      | .leaf => do
          let new ← LeafNode.alloc
          LeafNode.cloneFrom clone new self nextLeaf
          pure (new, self)

end

/-- `into_next`; `None` stands for `Err(self)`. -/
def next (self : Addr) : Exec T P B (Option Addr) := do
  return (← derefLeaf self).next

end NodeRef

end BTreeVec
