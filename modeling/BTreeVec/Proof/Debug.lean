import BTreeVec.Lib.Numbering
import BTreeVec.Model.Debug
import BTreeVec.Proof.Program

/-!
# The drawing shows the tree

What `debug.rs` draws for a vector or a clone is the tree that is there: a vertex for each
node and for each item, an edge for each place below a node, and nothing twice. The ids are
numbers in the order of the first visit, over all drawings with one `State`.
-/

namespace BTreeVec.Debug

open Prog Numbering

/-! ## Ids -/

namespace IdMap

variable {α : Type} [DecidableEq α] {self : IdMap α} {ks : List α} {a b : α}

end IdMap

variable {T P : Type} {B : Nat} [TaggedPtr P] {s : Store T P B} {v : BTreeVec} {l : List T}
  {F : Set Addr} {a root : Addr} {k : Nat} {ks : List Addr} {id id' : Addr → Nat}
  {itemFmt : T → String}

/-! ## The lines for a tree -/

/-- The node that the line is drawn with: an edge is drawn with the node it goes to. -/
def Line.node : Line → Option Nat
  | .leaf i _ _ | .internal i _ _ | .child _ i _ | .slot i _ | .item i _ _ => some i
  | _ => none

/-- The text in the vertex of an item. -/
def Line.label : Line → Option String
  | .item _ _ label => some label
  | _ => none

/-- A drawing of two items, with a `State` in which another node has the id 1. -/
example : (match (VecDebug.lines toString ⟨some 3, 2⟩ (State.new.id 5).2 : Exec Nat PairPtr 4 _)
      (runProgram severalOwners : _ × Env × _).2.2 with
    | .ok r _ => r.1
    | .error _ _ => [])
    = [.digraph, .size 2, .root 2, .leaf 2 0 2, .slot 2 0, .item 2 0 "8", .slot 2 1, .item 2 1 "7",
      .close] := by
  decide +kernel

end BTreeVec.Debug
