import Mathlib.Algebra.GroupWithZero.Nat
import BTreeVec.Lib.Prog
import BTreeVec.Lib.Heap
import BTreeVec.Lib.Slots

/-!
# Nodes, pointers and the node store

The data of `node/mod.rs`, `node/leaf.rs`, `node/internal.rs` and
`node/parent_ptr.rs`. A node lives in a cell of an explicit store and is reached
by its address, as in the code it is reached by a `NonNull`. The cell remembers
which type was allocated there; the code remembers it only as the tag of the
parent pointer, and `cast` believes the tag. A dereference that disagrees with
the cell is a fault of its own here, so "no cast ever takes one node type for the
other" is a statement about runs.

An array slot of type `MaybeUninit<T>` is an `Option T`, with `none` for a slot
that holds nothing. Copying out of a slot leaves the old bits behind, as it does
in the code.
-/

namespace BTreeVec

/-- A pointer to an allocated node. -/
abbrev Addr := Nat

/-- How a run can stop short. -/
inductive Fault where
  /-- A failed `assert!`. -/
  | assertion
  /-- `unwrap` or `expect` on `None`. -/
  | unwrap
  /-- An index or a slice outside its array. -/
  | outOfBounds
  /-- A `usize` subtraction below zero. -/
  | underflow
  /-- `unreachable!()`. -/
  | unreachable
  /-- A dereference of an address that holds no live node. -/
  | dangling
  /-- A node dereferenced as the other node type. -/
  | miscast
  /-- `assume_init` on a slot that holds nothing. -/
  | uninit
  /-- A loop or recursion that did not end within its bound. -/
  | outOfFuel
deriving DecidableEq, Repr

inductive NodeKind where
  | internal
  | leaf
deriving DecidableEq, Repr

namespace NodeKind

/-- `kind as usize`. -/
def toNat : NodeKind → Nat
  | internal => 0
  | leaf => 1

def variants : List NodeKind := [internal, leaf]

end NodeKind

/-- What a parent field can point at: the static `SENTINEL`, or an internal node. -/
inductive RawPtr where
  | sentinel
  | node (a : Addr)
deriving DecidableEq, Repr

/--
The `tagged-pointer` crate's `TaggedPtr<_, 1>`: a pointer and one bit of tag.
The laws are what the crate documents and all that this development assumes.
-/
class TaggedPtr (P : Type) where
  new : RawPtr → Nat → P
  ptr : P → RawPtr
  tag : P → Nat
  setPtr : P → RawPtr → P
  tag_lt : ∀ p, tag p < 2
  ptr_new : ∀ r t, t < 2 → ptr (new r t) = r
  tag_new : ∀ r t, t < 2 → tag (new r t) = t
  ptr_setPtr : ∀ p r, ptr (setPtr p r) = r
  tag_setPtr : ∀ p r, tag (setPtr p r) = tag p

/-- A tagged pointer kept as a pair, for running the model. -/
structure PairPtr where
  raw : RawPtr
  bit : Fin 2
deriving DecidableEq, Repr

instance : TaggedPtr PairPtr where
  new r t := ⟨r, Fin.ofNat 2 t⟩
  ptr p := p.raw
  tag p := p.bit.val
  setPtr p r := { p with raw := r }
  tag_lt p := p.bit.isLt
  ptr_new _ _ _ := rfl
  tag_new _ _ h := Nat.mod_eq_of_lt h
  ptr_setPtr _ _ := rfl
  tag_setPtr _ _ := rfl

/-- The parent of a node together with the node's own kind. -/
structure ParentPtr (P : Type) where
  tagged : P
deriving DecidableEq, Repr

namespace ParentPtr

variable {P : Type} [TaggedPtr P]

def new (kind : NodeKind) : ParentPtr P := ⟨TaggedPtr.new .sentinel kind.toNat⟩

def get (p : ParentPtr P) : Option Addr :=
  match TaggedPtr.ptr p.tagged with
  | .sentinel => none
  | .node a => some a

def set (p : ParentPtr P) (ptr : Option Addr) : ParentPtr P :=
  ⟨TaggedPtr.setPtr p.tagged (match ptr with
    | none => .sentinel
    | some a => .node a)⟩

def kind (p : ParentPtr P) : NodeKind :=
  NodeKind.variants.get ⟨TaggedPtr.tag p.tagged, TaggedPtr.tag_lt p.tagged⟩

@[simp] theorem get_new (k : NodeKind) : (new k : ParentPtr P).get = none := by
  cases k <;> simp [new, get, NodeKind.toNat, TaggedPtr.ptr_new]

@[simp] theorem kind_new (k : NodeKind) : (new k : ParentPtr P).kind = k := by
  cases k <;> simp [new, kind, NodeKind.toNat, TaggedPtr.tag_new, NodeKind.variants]

@[simp] theorem get_set (p : ParentPtr P) (o : Option Addr) : (p.set o).get = o := by
  cases o <;> simp [set, get, TaggedPtr.ptr_setPtr]

@[simp] theorem kind_set (p : ParentPtr P) (o : Option Addr) : (p.set o).kind = p.kind := by
  simp [set, kind, TaggedPtr.tag_setPtr]

end ParentPtr

inductive SplitStrategy where
  | largerLeft
  | largerRight
deriving DecidableEq, Repr

/-- The sizes of the two halves, `b` being the branching factor. -/
def SplitStrategy.sizes (self : SplitStrategy) (b : Nat) : Nat × Nat :=
  match self with
  | largerLeft => (b - b / 2, b / 2)
  | largerRight => (b / 2, b - b / 2)

structure Prefix (P : Type) where
  parent : ParentPtr P
  index : Nat
deriving DecidableEq

def Prefix.new {P : Type} [TaggedPtr P] (kind : NodeKind) : Prefix P := ⟨.new kind, 0⟩

structure LeafNode (T P : Type) (B : Nat) where
  nodePrefix : Prefix P
  length : Nat
  children : Slots (Option T) B
  next : Option Addr
deriving DecidableEq

structure InternalNode (P : Type) (B : Nat) where
  nodePrefix : Prefix P
  length : Nat
  children : Slots (Option Addr) B
  sizes : Slots Nat B
deriving DecidableEq

/-- A node in the store, with the type it was allocated as. -/
inductive Cell (T P : Type) (B : Nat) where
  | leaf (n : LeafNode T P B)
  | internal (n : InternalNode P B)
deriving DecidableEq

namespace Cell

variable {T P : Type} {B : Nat}

/-- Both node types are `repr(C)` and start with the prefix. -/
def nodePrefix : Cell T P B → Prefix P
  | leaf n => n.nodePrefix
  | internal n => n.nodePrefix

def mapPrefix (f : Prefix P → Prefix P) : Cell T P B → Cell T P B
  | leaf n => leaf { n with nodePrefix := f n.nodePrefix }
  | internal n => internal { n with nodePrefix := f n.nodePrefix }

end Cell

/--
The allocator's memory, with the two effects a vector leaves behind: which nodes
were handed to `NodeRef::destroy`, each as it was at that moment, and which items
had their destructor run.
-/
structure Store (T P : Type) (B : Nat) where
  heap : Heap (Cell T P B)
  destroyed : List (Addr × Cell T P B)
  dropped : List T
deriving DecidableEq

def Store.empty {T P : Type} {B : Nat} : Store T P B := ⟨.empty, [], []⟩

/-- Code that works on the store. -/
abbrev Exec (T P : Type) (B : Nat) (α : Type) := EStateM Fault (Store T P B) α

variable {T P : Type} {B : Nat}

/-! ## Dereferencing -/

def deref (a : Addr) : Exec T P B (Cell T P B) := do
  Prog.orFault .dangling ((← get).heap.read a)

/-- `Deref` of a `NodeRef<LeafNode>`. -/
def derefLeaf (a : Addr) : Exec T P B (LeafNode T P B) := do
  match ← deref a with
  | .leaf n => pure n
  | .internal _ => throw .miscast

/-- `Deref` of a `NodeRef<InternalNode>`. -/
def derefInternal (a : Addr) : Exec T P B (InternalNode P B) := do
  match ← deref a with
  | .internal n => pure n
  | .leaf _ => throw .miscast

/-- `Deref` of a `NodeRef<Prefix>`, and `Node::prefix`. -/
def derefPrefix (a : Addr) : Exec T P B (Prefix P) := do
  return (← deref a).nodePrefix

def modifyLeaf (a : Addr) (f : LeafNode T P B → LeafNode T P B) : Exec T P B Unit := do
  let n ← derefLeaf a
  modify fun s => { s with heap := s.heap.update a fun _ => .leaf (f n) }

def modifyInternal (a : Addr) (f : InternalNode P B → InternalNode P B) : Exec T P B Unit := do
  let n ← derefInternal a
  modify fun s => { s with heap := s.heap.update a fun _ => .internal (f n) }

def modifyPrefix (a : Addr) (f : Prefix P → Prefix P) : Exec T P B Unit := do
  let _ ← deref a
  modify fun s => { s with heap := s.heap.update a (Cell.mapPrefix f) }

/-- `VerifiedAlloc::allocate` followed by the write of the new node. -/
def allocate (c : Cell T P B) : Exec T P B Addr :=
  modifyGet fun s => (s.heap.next, { s with heap := s.heap.alloc c })

/-- `VerifiedAlloc::deallocate`. -/
def deallocate (a : Addr) : Exec T P B Unit := do
  let _ ← deref a
  modify fun s => { s with heap := s.heap.free a }

section
variable [TaggedPtr P]

/-- `NodeRef<Prefix>::cast`: the kind comes from the tag. -/
def cast (a : Addr) : Exec T P B NodeKind := do
  return (← derefPrefix a).parent.kind

/-- `prefix.parent.set(p)`. -/
def setParent (a : Addr) (p : Option Addr) : Exec T P B Unit :=
  modifyPrefix a fun q => { q with parent := q.parent.set p }

end

/-- `prefix.index = i`. -/
def setIndex (a : Addr) (i : Nat) : Exec T P B Unit :=
  modifyPrefix a fun q => { q with index := i }

end BTreeVec
