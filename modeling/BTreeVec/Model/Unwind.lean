import BTreeVec.Model.Vec

/-!
# A `Clone` that panics

`clone` once more, for an element type whose `Clone` may panic: `cloneItem` gives `none` where
it does, and `panic` is that panic. It unwinds through `clone_node`, where nothing has a
destructor, so the nodes made so far stay allocated, and the items in them are not dropped.
-/

set_option linter.dupNamespace false

namespace BTreeVec

open Prog

variable {T P : Type} {B : Nat}

namespace LeafNode

/-- The loop of `clone_from`, from the slot `i` on. -/
def tryCloneItems (cloneItem : T → Option T) (panic : Fault) (self : Addr) :
    Nat → List T → Exec T P B Unit
  | _, [] => pure ()
  | i, item :: items => do
      let item ← orFault panic (cloneItem item)
      let children ← orFault .outOfBounds ((← derefLeaf self).children.set? i (some item))
      modifyLeaf self fun n => { n with children := children }
      tryCloneItems cloneItem panic self (i + 1) items

def tryCloneFrom (cloneItem : T → Option T) (panic : Fault) (self other : Addr)
    (nextLeaf : Option Addr) : Exec T P B Unit := do
  let items ← items other
  tryCloneItems cloneItem panic self 0 items
  let length := (← derefLeaf other).length
  modifyLeaf self fun n => { n with length := length }
  modifyLeaf self fun n => { n with next := nextLeaf }

end LeafNode

variable [TaggedPtr P]

def NodeRef.tryCloneNode (cloneItem : T → Option T) (panic : Fault) :
    Nat → Addr → Option Addr → Exec T P B (Addr × Addr)
  | 0, _, _ => throw .outOfFuel
  | fuel + 1, self, nextLeaf => do
      match ← cast self with
      | .internal => do
          let new ← InternalNode.alloc
          let leaf ← InternalNode.cloneFrom (tryCloneNode cloneItem panic fuel) new self nextLeaf
          pure (new, leaf)
      | .leaf => do
          let new ← LeafNode.alloc
          LeafNode.tryCloneFrom cloneItem panic new self nextLeaf
          pure (new, self)

def BTreeVec.tryClone (cloneItem : T → Option T) (panic : Fault) (self : BTreeVec) :
    Exec T P B BTreeVec := do
  match self.root with
  | none => return ⟨none, self.size⟩
  | some root => do
      let fuel := (← MonadState.get).heap.next + 1
      let (root, _) ← NodeRef.tryCloneNode cloneItem panic fuel root none
      return ⟨some root, self.size⟩

end BTreeVec
