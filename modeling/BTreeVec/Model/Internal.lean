import BTreeVec.Model.Node

/-!
# Internal nodes

The methods of `node/internal.rs`. `self` is the address of the node; a child is
an address together with the number of items below it.
-/

namespace BTreeVec.InternalNode

open Prog

variable {T P : Type} {B : Nat}

/-- `self.children[i].take().unwrap()`. -/
def takeChild (self : Addr) (i : Nat) : Exec T P B Addr := do
  let n ← derefInternal self
  let child ← orFault .outOfBounds (n.children.get? i)
  let children ← orFault .outOfBounds (n.children.set? i none)
  modifyInternal self fun n => { n with children := children }
  orFault .unwrap child

/-- `self.children[i] = Some(child)`. -/
def putChild (self : Addr) (i : Nat) (child : Addr) : Exec T P B Unit := do
  let children ← orFault .outOfBounds ((← derefInternal self).children.set? i (some child))
  modifyInternal self fun n => { n with children := children }

/-- `self.sizes[i] += n`. -/
def addSize (self : Addr) (i n : Nat) : Exec T P B Unit := do
  let m ← derefInternal self
  let size ← orFault .outOfBounds (m.sizes.get? i)
  let sizes ← orFault .outOfBounds (m.sizes.set? i (size + n))
  modifyInternal self fun m => { m with sizes := sizes }

/-- `self.sizes[i] -= n`. -/
def subSize (self : Addr) (i n : Nat) : Exec T P B Unit := do
  let m ← derefInternal self
  let size ← orFault .outOfBounds (m.sizes.get? i)
  let size ← sub .underflow size n
  let sizes ← orFault .outOfBounds (m.sizes.set? i size)
  modifyInternal self fun m => { m with sizes := sizes }

/-- `mem::replace(&mut self.sizes[i], n)`. -/
def replaceSize (self : Addr) (i n : Nat) : Exec T P B Nat := do
  let m ← derefInternal self
  let size ← orFault .outOfBounds (m.sizes.get? i)
  let sizes ← orFault .outOfBounds (m.sizes.set? i n)
  modifyInternal self fun m => { m with sizes := sizes }
  return size

/-- `dst.sizes[j..][..len].copy_from_slice(&src.sizes[i..i + len])`. -/
def copySizes (src i dst j len : Nat) : Exec T P B Unit := do
  let sizes ← orFault .outOfBounds ((← derefInternal src).sizes.slice? i (i + len))
  let sizes ← orFault .outOfBounds ((← derefInternal dst).sizes.copyFrom? j sizes)
  modifyInternal dst fun n => { n with sizes := sizes }

/--
The loop shared by `split` and `merge`: the children of `src` from slot `i` on
move to the slots of `dst` from `j` on. The two differ in how a moved child gets
its parent, which is `newParent`.
-/
def moveChildren (src i dst j len : Nat) (newParent : ParentPtr P → ParentPtr P) :
    Exec T P B Unit :=
  forEach (List.range len) fun m => do
    let child ← takeChild src (i + m)
    modifyPrefix child fun p => { p with parent := newParent p.parent }
    setIndex child (j + m)
    putChild dst (j + m) child

/-- `child_ptr`: `None` past the length. -/
def childPtr (self : Addr) (i : Nat) : Exec T P B (Option Addr) := do
  let n ← derefInternal self
  let children ← orFault .outOfBounds (n.children.slice? 0 n.length)
  return children[i]?.join

/-- `child_mut`, `into_child` and `child_ref`: the child, which must be there. -/
def child (self : Addr) (i : Nat) : Exec T P B Addr := do
  orFault .unwrap (← childPtr self i)

/-- The sum over all slots, used or not. -/
def size (self : Addr) : Exec T P B Nat := do
  return (← derefInternal self).sizes.toList.sum

def merge (self other : Addr) : Exec T P B Unit := do
  let length := (← derefInternal self).length
  check .assertion (length ≤ B / 2)
  check .assertion ((← derefInternal other).length ≤ B / 2)
  let parent := (← derefPrefix (← child self 0)).parent
  let count := (← derefInternal other).length
  copySizes other 0 self length count
  moveChildren other 0 self length count fun _ => parent
  modifyInternal self fun n => { n with length := n.length + count }
  modifyInternal other fun n => { n with length := 0 }

section
variable [TaggedPtr P]

def new : InternalNode P B where
  nodePrefix := .new .internal
  length := 0
  children := .replicate B none
  sizes := .replicate B 0

/-- `InternalRef::alloc`. -/
def alloc : Exec T P B Addr := allocate (.internal new)

def split (self : Addr) (strategy : SplitStrategy) : Exec T P B Addr := do
  let (left, right) := strategy.sizes B
  check .assertion ((← derefInternal self).length = B)
  let new ← alloc
  copySizes self left new 0 right
  moveChildren self left new 0 right fun p => p.set (some new)
  modifyInternal self fun n => { n with length := left }
  modifyInternal new fun n => { n with length := right }
  return new

def simpleInsert (this : Addr) (i : Nat) (item : Addr × Nat) : Exec T P B Unit := do
  let length := (← derefInternal this).length
  check .assertion (length < B)
  setIndex item.1 i
  setParent item.1 (some this)
  let n ← derefInternal this
  let children ← orFault .outOfBounds (n.children.rotateRight? i (length + 1))
  let sizes ← orFault .outOfBounds (n.sizes.rotateRight? i (length + 1))
  let children ← orFault .outOfBounds (children.set? i (some item.1))
  let sizes ← orFault .outOfBounds (sizes.set? i item.2)
  modifyInternal this fun n =>
    { n with children := children, sizes := sizes, length := n.length + 1 }
  forEach (List.range' (i + 1) (length - i)) fun i => do
    setIndex (← child this i) i

def simpleRemove (self : Addr) (i : Nat) : Exec T P B (Addr × Nat) := do
  let n ← derefInternal self
  let length := n.length
  check .assertion (length > 0)
  let children ← orFault .outOfBounds (n.children.rotateLeft? i length)
  let sizes ← orFault .outOfBounds (n.sizes.rotateLeft? i length)
  modifyInternal self fun n => { n with children := children, sizes := sizes }
  forEach (List.range' i (length - 1 - i)) fun i => do
    setIndex (← child self i) i
  let child ← takeChild self (length - 1)
  let size ← replaceSize self (length - 1) 0
  setParent child none
  setIndex child 0
  modifyInternal self fun n => { n with length := n.length - 1 }
  return (child, size)

/-- `destroy` is `NodeRef<Prefix>::destroy`. -/
def destroyChildren (destroy : Addr → Exec T P B Unit) (self : Addr) : Exec T P B Unit := do
  let length := (← derefInternal self).length
  modifyInternal self fun n => { n with length := 0 }
  forEach (List.range length) fun i => do
    let child ← takeChild self i
    setParent child none
    destroy child

/--
Copy the children of `other`, last to first; `cloneNode` is the method of that
name, and `nextLeaf` is what the leaf cloned next has to its right.
-/
def cloneChildren (cloneNode : Addr → Option Addr → Exec T P B (Addr × Addr)) (self other : Addr) :
    List Nat → Option Addr → Exec T P B (Option Addr)
  | [], nextLeaf => pure nextLeaf
  | i :: is, nextLeaf => do
      let (node, leaf) ← cloneNode (← child other i) nextLeaf
      setParent node (some self)
      putChild self i node
      cloneChildren cloneNode self other is (some leaf)

def cloneFrom (cloneNode : Addr → Option Addr → Exec T P B (Addr × Addr)) (self other : Addr)
    (nextLeaf : Option Addr) : Exec T P B Addr := do
  let length := (← derefInternal other).length
  let nextLeaf ← cloneChildren cloneNode self other (List.range length).reverse nextLeaf
  modifyInternal self fun n => { n with length := length }
  let sizes := (← derefInternal other).sizes
  modifyInternal self fun n => { n with sizes := sizes }
  orFault .unwrap nextLeaf

end

end BTreeVec.InternalNode
