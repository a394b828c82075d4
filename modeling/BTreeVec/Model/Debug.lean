import BTreeVec.Model.Vec

/-!
# Drawing a vector

`debug.rs` prints the tree of a vector as a graph in the DOT language. Nodes have ids there,
which they keep from one print to the next as long as the `State` is the same.
-/

namespace BTreeVec.Debug

open Prog

/-- The `BTreeMap` in an `IdMap`, as a list of its entries. -/
abbrev IdMap (α : Type) := List (α × Nat)

namespace IdMap

variable {α : Type} [DecidableEq α]

def new : IdMap α := []

/-- The id of the value, which is put into the map if it was not there. -/
def get (self : IdMap α) (value : α) : Nat × IdMap α :=
  match self.lookup value with
  | some id => (id, self)
  | none => (self.length + 1, self ++ [(value, self.length + 1)])

end IdMap

abbrev State := IdMap Addr

namespace State

def new : State := IdMap.new

def id (self : State) (node : Addr) : Nat × State := IdMap.get self node

end State

/-- A line of the output. -/
inductive Line where
  | digraph
  | size (len : Nat)
  | root (id : Nat)
  | internal (id index length : Nat)
  | child (id childId size : Nat)
  | leaf (id index length : Nat)
  | slot (id i : Nat)
  | item (id i : Nat) (label : String)
  | close
deriving DecidableEq, Repr

def i1 : String := "    "

namespace Line

/-- The line as it is written, without the line break. -/
def text : Line → String
  | digraph => "digraph \x7b"
  | size len => s!"{i1}R [label=\"Size: {len}\" shape=rectangle]"
  | root id => s!"{i1}R -> N{id}"
  | internal id index length =>
      s!"{i1}N{id} [label=\"i{id}\\n#{index}\\nL: {length}\" shape=rectangle]"
  | child id childId n => s!"{i1}N{id} -> N{childId} [label={n}]"
  | leaf id index length =>
      s!"{i1}N{id} [label=\"L{id}\\n#{index}\\nL: {length}\" shape=rectangle]"
  | slot id i => s!"{i1}N{id} -> N{id}C{i}"
  | item id i label => s!"{i1}N{id}C{i} [label=\"{label}\" shape=rectangle]"
  | close => "\x7d"

end Line

section

variable {T P : Type} {B : Nat} [TaggedPtr P] (itemFmt : T → String)

/-- The loop of `fmt_leaf`; `itemFmt` is the `Debug` of the element type. -/
def fmtItems (id : Nat) (node : Addr) : List Nat → Exec T P B (List Line)
  | [] => return []
  | i :: is => do
      let item ← LeafNode.child node i
      return .slot id i :: .item id i (itemFmt item) :: (← fmtItems id node is)

def fmtLeaf (state : State) (node : Addr) : Exec T P B (List Line × State) := do
  let (id, state) := state.id node
  let index ← Node.index .leaf node
  let length ← Node.length .leaf node
  return (.leaf id index length :: (← fmtItems itemFmt id node (List.range length)), state)

/-- The loop of `fmt_internal`. -/
def fmtChildren (fmtPrefix : State → Addr → Exec T P B (List Line × State)) (id : Nat)
    (node : Addr) : List Nat → State → Exec T P B (List Line × State)
  | [], state => return ([], state)
  | i :: is, state => do
      let child ← InternalNode.child node i
      let (childId, state) := state.id child
      let size ← orFault .outOfBounds ((← derefInternal node).sizes.get? i)
      let (lines, state) ← fmtPrefix state child
      let (rest, state) ← fmtChildren fmtPrefix id node is state
      return (.child id childId size :: lines ++ rest, state)

def fmtInternal (fmtPrefix : State → Addr → Exec T P B (List Line × State)) (state : State)
    (node : Addr) : Exec T P B (List Line × State) := do
  let (id, state) := state.id node
  let index ← Node.index .internal node
  let length ← Node.length .internal node
  let (lines, state) ← fmtChildren fmtPrefix id node (List.range length) state
  return (.internal id index length :: lines, state)

/-- The recursion goes down one level at a time, as in `destroy`. -/
def fmtPrefix : Nat → State → Addr → Exec T P B (List Line × State)
  | 0, _, _ => throw .outOfFuel
  | fuel + 1, state, node => do
      match ← cast node with
      | .internal => fmtInternal (fmtPrefix fuel) state node
      | .leaf => fmtLeaf itemFmt state node

/-- The lines for a vector, and the `State` afterwards. -/
def VecDebug.lines (vec : BTreeVec) (state : State) : Exec T P B (List Line × State) := do
  match vec.root with
  | none => return ([.digraph, .size vec.len, .close], state)
  | some root => do
      let (id, state) := state.id root
      let (lines, state) ← fmtPrefix itemFmt ((← get).heap.next + 1) state root
      return ([.digraph, .size vec.len, .root id] ++ lines ++ [.close], state)

/-- `Display` for `VecDebug`. -/
def VecDebug.fmt (vec : BTreeVec) (state : State) : Exec T P B (String × State) := do
  let (lines, state) ← lines itemFmt vec state
  return (String.join (lines.map fun line => line.text ++ "\n"), state)

end

end BTreeVec.Debug
