import BTreeVec.Proof.NodeOps
import BTreeVec.Model.Client

/-!
# What `insert_once` does to a node

`insert_once` as its callers see it: the node on its own, whatever tree it is in, and
any index in it. `NodeAt` says of an internal node that each entry is a child with its
count, that the child has the node as its parent and its slot as its index, and that no
slot past the length holds a child. It says nothing of the counts past the length.
-/

namespace BTreeVec

open Prog

variable {T P : Type} {B : Nat} [TaggedPtr P] {s s' : Store T P B} {N : NodeKind}
  {node : Addr} {nx : Option Addr} {E : List (Child T N)} {item : Child T N} {index : Nat}

namespace Insert

/--
The node holds the children `E`, one more than it did, or it is left with the first half of
them and the rest are in the new node, which there was not before. The size of the new node
is what its parent is told.
-/
def InsertedOnce (s s' : Store T P B) (N : NodeKind) (node : Addr) (E : List (Child T N))
    (nx : Option Addr) : Option Addr → Prop
  | none => E.length ≤ B ∧ NodeAt s' N node E nx
  | some new => E.length = B + 1 ∧ s.heap.read new = none ∧ ∃ E₁ E₂, E = E₁ ++ E₂
      ∧ (B / 2 ≤ E₁.length ∧ E₁.length ≤ B / 2 + 1)
      ∧ (B / 2 ≤ E₂.length ∧ E₂.length ≤ B / 2 + 1)
      ∧ NodeAt s' N node E₁ (some new) ∧ NodeAt s' N new E₂ nx
      ∧ Node.size N new s' = .ok (E₂.map (Node.itemSize N)).sum s'

theorem Inserted.once {new : Option Addr} (h : Inserted s s' N node E nx new) :
    InsertedOnce s s' N node E nx new := by
  cases h with
  | fits hat f => exact ⟨hat.length_le, hat⟩
  | @split E₁ E₂ hE hlen hmin₁ hmax₁ hmin₂ hmax₂ c hc hat₁ hat₂ hsized hlink f =>
      have hnew := Heap.read_of_next_le hc
      refine ⟨hlen, hnew, E₁, E₂, hE, ⟨hmin₁, hmax₁⟩, ⟨hmin₂, hmax₂⟩, hat₁, hat₂, ?_⟩
      -- the sum over all slots is the sum over the children, for a new node has no old counts
      have hrun := (Node.size_spec (Q := fun r t => r = s'.total c ∧ t = s') hat₂ hsized).mpr
        ⟨rfl, rfl⟩
      obtain ⟨r, t, he, rfl, rfl⟩ := returns_iff.mp hrun
      rw [he, hat₂.total]

/--
**`insert_once` inserts one child**, in a leaf and in an internal node, at any index, and it
splits the node just when it was full, into itself and a new one.
-/
theorem insert_once_inserts (hB : 3 ≤ B) (h : NodeAt s N node E nx) (hi : index ≤ E.length)
    (hx : Insertable s N E item) : ∃ new s',
      (insertOnce N node index item : Exec T P B _) s = .ok new s'
      ∧ (new.isSome ↔ E.length = B)
      ∧ InsertedOnce s s' N node (E.take index ++ item :: E.drop index) nx new := by
  have hE : E.take index ++ E.drop index = E := List.take_append_drop index E
  have hlen : (E.take index ++ item :: E.drop index).length = E.length + 1 := by
    rw [List.length_append, List.length_cons, ← Nat.add_assoc, ← List.length_append, hE]
  rw [← hE] at h hx
  have hrun := insertOnce_spec h hx hB
  rw [List.length_take_of_le hi] at hrun
  obtain ⟨new, s', he, hins⟩ := returns_iff.mp hrun
  have honce := hins.once
  refine ⟨new, s', he, ?_, honce⟩
  cases new with
  | none =>
      have hle := honce.1
      rw [hlen] at hle
      simp only [Option.isSome_none, Bool.false_eq_true, false_iff]
      omega
  | some c =>
      have hfull := honce.1
      rw [hlen] at hfull
      simp only [Option.isSome_some, true_iff]
      omega

theorem pushed_three : ∃ (v : BTreeVec) (s : Store Nat PairPtr 3),
    history ((List.range 3).map .push) Store.empty = .ok v s
      ∧ s.body 0 = some (.leaf [0, 1, 2] none) :=
  returns_iff.mp (by decide +kernel)

/-- A full internal node, and a leaf that is in no node. -/
theorem full_internal : ∃ (new : Addr) (s : Store Nat PairPtr 3),
    (do
      let _ ← history ((List.range 8).map Op.push ++ [Op.insert 0 9, Op.insert 0 8])
      LeafNode.alloc) Store.empty = .ok new s
      ∧ new = 8 ∧ s.body 2 = some (.internal [(0, 2), (7, 2), (1, 2)])
      ∧ s.link 0 = some (some 2, 0) ∧ s.link 7 = some (some 2, 1) ∧ s.link 1 = some (some 2, 2)
      ∧ s.link 8 = some (none, 0) :=
  returns_iff.mp (by decide +kernel)

/-- A full leaf with 9 put in front of its last item, and a full internal node with a leaf. -/
theorem insert_once_inserts_full :
    (∃ (s : Store Nat PairPtr 3) (new : Option Addr) (s' : Store Nat PairPtr 3),
      insertOnce .leaf 0 2 (9 : Nat) s = .ok new s' ∧ (new.isSome ↔ 3 = 3)
      ∧ InsertedOnce s s' .leaf 0 [0, 1, 9, 2] none new)
    ∧ ∃ (s : Store Nat PairPtr 3) (new : Option Addr) (s' : Store Nat PairPtr 3),
      insertOnce .internal 2 1 (8, 0) s = .ok new s' ∧ (new.isSome ↔ 3 = 3)
      ∧ InsertedOnce s s' .internal 2 [(0, 2), (8, 0), (7, 2), (1, 2)] none new := by
  obtain ⟨_, s, _, h⟩ := pushed_three
  obtain ⟨_, t, _, rfl, hb, h₀, h₁, h₂, hx⟩ := full_internal
  exact ⟨⟨s, insert_once_inserts (N := .leaf) (E := [0, 1, 2]) (by decide) h (by decide) trivial⟩,
    t, insert_once_inserts (N := .internal) (E := [(0, 2), (7, 2), (1, 2)]) (by decide)
      ⟨hb, h₀, h₁, h₂, trivial⟩ (by decide) ⟨⟨none, 0, hx⟩, by decide⟩⟩

end Insert

end BTreeVec
