import BTreeVec.Model.NodeRef

/-!
# Removal

`remove.rs`: take an item out of a leaf, then climb to the root. A node left with
too few children borrows one from a sibling or is merged with one, and its parent
is repaired from the description of what was done.
-/

namespace BTreeVec.Remove

open Prog

variable {T P : Type} {B : Nat} [TaggedPtr P]

/-- `src` and `dest` are indices of two nodes within the same parent. -/
inductive RemovalKind where
  | merged (src dest : Nat)
  | moved (src dest size : Nat)
  | absorbed (index : Nat)
deriving DecidableEq, Repr

structure Removal where
  node : Addr
  kind : RemovalKind

inductive RemovalResult where
  | removal (r : Removal)
  | done (root : Addr)

/-- The part of `remove_once` after the left sibling had no child to spare. -/
def mergeOrBorrowRight (N : NodeKind) (node : Addr) (left right : Option Addr) :
    Exec T P B RemovalKind := do
  match right, left with
  | some right, _ => do
      if (← Node.length N right) > B / 2 then
        let moved ← Node.simpleRemove N right 0
        let src ← Node.index N right
        let dest ← Node.index N node
        Node.simpleInsert N node (← Node.length N node) moved
        return .moved src dest (Node.itemSize N moved)
      else
        Node.merge N node right
        return .merged (← Node.index N right) (← Node.index N node)
  | none, some left => do
      Node.merge N left node
      return .merged (← Node.index N node) (← Node.index N left)
  | none, none => throw .unreachable

/-- Restore the minimum occupancy of `node` with the help of a sibling. -/
def rebalance (N : NodeKind) (node : Addr) (left right : Option Addr) :
    Exec T P B RemovalKind := do
  match left with
  | none => mergeOrBorrowRight N node left right
  | some l => do
      if (← Node.length N l) > B / 2 then
        let moved ← Node.simpleRemove N l (← sub .underflow (← Node.length N l) 1)
        let src ← Node.index N l
        let dest ← Node.index N node
        Node.simpleInsert N node 0 moved
        return .moved src dest (Node.itemSize N moved)
      else mergeOrBorrowRight N node left right

/-- The part of `remove_once` after the child was removed from `node`. -/
def restore (N : NodeKind) (node : Addr) : Exec T P B RemovalKind := do
  let (left, right) ← NodeRef.siblings N node
  let hasSibling := left.isSome || right.isSome
  if (← Node.length N node) ≥ B / 2 ∨ ¬ hasSibling then
    return .absorbed (← Node.index N node)
  else rebalance N node left right

def removeOnce (N : NodeKind) (node : Addr) (i : Nat) :
    Exec T P B (Removal × Child T N) := do
  let item ← Node.simpleRemove N node i
  return (⟨node, ← restore N node⟩, item)

/-- The parent to go on with and the slot of it that became empty, if any. -/
def repairSizes (removal : Removal) : Exec T P B (Option (Addr × Option Nat)) := do
  let parent ← NodeRef.parent removal.node
  match removal.kind with
  | .merged src dest => do
      let parent ← orFault .unwrap parent
      let size ← InternalNode.replaceSize parent src 0
      InternalNode.addSize parent dest size
      InternalNode.subSize parent dest 1
      return some (parent, some src)
  | .moved src dest size => do
      let parent ← orFault .unwrap parent
      InternalNode.subSize parent src size
      InternalNode.addSize parent dest size
      InternalNode.subSize parent dest 1
      return some (parent, none)
  | .absorbed index =>
      match parent with
      | some parent => do
          InternalNode.subSize parent index 1
          return some (parent, none)
      | none => return none

def handleRemoval (removal : Removal) : Exec T P B RemovalResult := do
  match ← repairSizes removal with
  | none => return .done removal.node
  | some (parent, some empty) => do
      let (removal, child) ← removeOnce .internal parent empty
      NodeRef.destroyPrefix ((← get).heap.next + 1) child.1
      return .removal removal
  | some (parent, none) => do
      return .removal ⟨parent, .absorbed (← Node.index .internal parent)⟩

/-- `Done` in the loop of `remove`: a root with a single child gives way to it. -/
def collapseRoot (root : Addr) : Exec T P B Addr := do
  if (← Node.length .internal root) = 1 then
    let child ← InternalNode.simpleRemove root 0
    NodeRef.destroy ((← get).heap.next + 1) .internal root
    return child.1
  else return root

/-- The loop goes up one level at a time, as in `insert`. -/
def remove (node : Addr) (i : Nat) : Exec T P B (Addr × T) := do
  let (removal, item) ← removeOnce .leaf node i
  match ← handleRemoval removal with
  | .done root => return (root, item)
  | .removal removal => do
      let fuel := (← get).heap.next + 2
      let root ← loop .outOfFuel (fun removal => do
        match ← handleRemoval removal with
        | .removal removal => pure (.inl removal)
        | .done root => .inr <$> collapseRoot root) fuel removal
      return (root, item)

end BTreeVec.Remove
