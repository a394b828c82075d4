import BTreeVec.Model.NodeRef

/-!
# Insertion

`insert.rs`: put an item into a leaf, then climb to the root, adding one to the
counts and handing each split-off node to the parent of the node it came from.
-/

namespace BTreeVec.Insert

open Prog

variable {T P : Type} {B : Nat} [TaggedPtr P]

/-- `new` is what `node` was split into, if it was. -/
structure Insertion where
  node : Addr
  new : Option Addr

inductive InsertionResult where
  | insertion (i : Insertion)
  | done (root : Addr)

/-- If `node` is full it is split, and the new node is returned. -/
def insertOnce (N : NodeKind) (node : Addr) (index : Nat) (item : Child T N) :
    Exec T P B (Option Addr) := do
  if (← Node.length N node) = B then
    if B - B / 2 ≤ index then
      let new ← Node.split N node .largerLeft
      Node.simpleInsert N new (index - (B - B / 2)) item
      return some new
    else
      let new ← Node.split N node .largerRight
      Node.simpleInsert N node index item
      return some new
  else
    Node.simpleInsert N node index item
    return none

/-- The end of `handle_insertion`, once there is a parent. -/
def updateParent (parent : Addr) (index : Nat) (new : Option (Addr × Nat)) :
    Exec T P B InsertionResult := do
  InternalNode.addSize parent index 1
  match new with
  | none => return .insertion ⟨parent, none⟩
  | some (new, size) => do
      InternalNode.subSize parent index size
      let split ← insertOnce .internal parent (index + 1) (new, size)
      return .insertion ⟨parent, split⟩

def handleInsertion (N : NodeKind) (insertion : Insertion) (rootSize : Nat) :
    Exec T P B InsertionResult := do
  let index ← Node.index N insertion.node
  let new ← match insertion.new with
    | none => pure none
    | some new => do
        let size ← Node.size N new
        pure (some (new, size))
  let parent ← match ← NodeRef.parent insertion.node, new with
    | some parent, _ => pure (some parent)
    | none, none => pure none
    | none, some _ => do
        -- new root
        let parent ← InternalNode.alloc
        InternalNode.simpleInsert parent 0 (insertion.node, rootSize)
        pure (some parent)
  match parent with
  | none => return .done insertion.node
  | some parent => updateParent parent index new

/--
The loop of `insert` goes up one level at a time. There are no more levels than
live nodes, so the number of cells ever allocated bounds it.
-/
def insert (node : Addr) (index : Nat) (item : T) (rootSize : Nat) : Exec T P B Addr := do
  let new ← insertOnce .leaf node index item
  let result ← handleInsertion .leaf ⟨node, new⟩ rootSize
  let fuel := (← get).heap.next + 2
  loop .outOfFuel (fun result => match result with
    | .done root => pure (.inr root)
    | .insertion ins => .inl <$> handleInsertion .internal ins rootSize) fuel result

end BTreeVec.Insert
