import BTreeVec.Proof.LeafOps
import BTreeVec.Proof.InternalOps
import BTreeVec.Model.Insert

/-!
# Both node types at once

The algorithms of `insert.rs` and `remove.rs` are generic over the node type, and
so are their proofs. `NodeAt s N a E nx` says that the node at `a`, of kind `N`,
has the children `E`; a leaf is followed by `nx`, of which an internal node knows
nothing. The specifications of the two node types are restated in these terms, and
`insert_once` is the first algorithm to be verified with them.
-/

namespace BTreeVec

open Prog

variable {T P : Type} {B : Nat} [TaggedPtr P] {s s' : Store T P B} {N : NodeKind}
  {a b : Addr} {nx : Option Addr}

def NodeAt (s : Store T P B) : (N : NodeKind) → Addr → List (Child T N) → Option Addr → Prop
  | .leaf, a, xs, nx => s.body a = some (.leaf xs nx)
  | .internal, a, es, _ => s.body a = some (.internal es) ∧ Adopted s a 0 es

/-- The child nodes among the children. -/
def kidsOf : (N : NodeKind) → List (Child T N) → List Addr
  | .leaf, _ => []
  | .internal, es => es.map Prod.fst

/-- A child that sits in no node. -/
def Detached (s : Store T P B) : (N : NodeKind) → Child T N → Prop
  | .leaf, _ => True
  | .internal, c => s.link c.1 = some (none, 0)

/-- A child that can go into a node with the children `E`: a node of its own, and none of them. -/
def Insertable (s : Store T P B) : (N : NodeKind) → List (Child T N) → Child T N → Prop
  | .leaf, _, _ => True
  | .internal, E, c => (∃ q i, s.link c.1 = some (q, i)) ∧ c.1 ∉ E.map Prod.fst

/-- `size()` of the node is the number of items at or below it. -/
def Sized (s : Store T P B) : NodeKind → Addr → Prop
  | .leaf, _ => True
  | .internal, a => InternalNode.Clean s a

@[simp] theorem kidsOf_nil : kidsOf N ([] : List (Child T N)) = [] := by
  cases N <;> rfl

@[simp] theorem kidsOf_append (xs ys : List (Child T N)) :
    kidsOf N (xs ++ ys) = kidsOf N xs ++ kidsOf N ys := by
  cases N
  · exact List.map_append
  · rfl

theorem mem_kidsOf_cons {x : Child T N} {xs : List (Child T N)} {y : Addr} :
    y ∈ kidsOf N (x :: xs) ↔ y ∈ kidsOf N [x] ∨ y ∈ kidsOf N xs := by
  rw [show x :: xs = [x] ++ xs from rfl, kidsOf_append, List.mem_append]

theorem kidsOf_mono {xs ys : List (Child T N)} (h : xs ⊆ ys) {y : Addr} (hy : y ∈ kidsOf N xs) :
    y ∈ kidsOf N ys := by
  cases N with
  | leaf => exact absurd hy List.not_mem_nil
  | internal => exact List.map_subset _ h hy

namespace NodeAt

variable {E : List (Child T N)}

theorem body (h : NodeAt s N a E nx) : ∃ b, s.body a = some b ∧ b.kind = N
    ∧ b.width = E.length ∧ b.total = (E.map (Node.itemSize N)).sum ∧ b.kids = kidsOf N E := by
  cases N with
  | leaf =>
      refine ⟨_, h, rfl, rfl, ?_, rfl⟩
      show E.length = (E.map fun _ => 1).sum
      simp
  | internal => exact ⟨_, h.1, rfl, rfl, rfl, rfl⟩

theorem tag (h : NodeAt s N a E nx) : s.tag a = some N := by
  obtain ⟨b, hb, rfl, _⟩ := h.body
  exact Store.tag_of_body hb

theorem width (h : NodeAt s N a E nx) : s.width a = E.length := by
  obtain ⟨b, hb, _, hw, _⟩ := h.body
  rw [Store.width, hb, Option.map_some, Option.getD_some, hw]

theorem total (h : NodeAt s N a E nx) : s.total a = (E.map (Node.itemSize N)).sum := by
  obtain ⟨b, hb, _, _, ht, _⟩ := h.body
  rw [Store.total, hb, Option.map_some, Option.getD_some, ht]

theorem kids (h : NodeAt s N a E nx) : s.kids a = kidsOf N E := by
  obtain ⟨b, hb, _, _, _, hk⟩ := h.body
  rw [Store.kids, hb, Option.map_some, Option.getD_some, hk]

theorem lt_next (h : NodeAt s N a E nx) : a < s.heap.next := by
  obtain ⟨b, hb, _⟩ := h.body
  exact Store.lt_next_of_body hb

theorem length_le (h : NodeAt s N a E nx) : E.length ≤ B := by
  obtain ⟨b, hb, _, hw, _⟩ := h.body
  rw [← hw]
  exact Store.width_le hb

/-- A child node is linked to the node it is a child of. -/
theorem link_of_mem (h : NodeAt s N a E nx) {x : Addr} (hx : x ∈ kidsOf N E) :
    ∃ i, s.link x = some (some a, i) := by
  cases N with
  | leaf => exact absurd hx List.not_mem_nil
  | internal =>
      obtain ⟨i, _, hi⟩ := h.2.link_of_mem hx
      exact ⟨i, hi⟩

theorem nodup (h : NodeAt s N a E nx) : (kidsOf N E).Nodup := by
  cases N with
  | leaf => exact List.nodup_nil
  | internal => exact h.2.nodup

/-- A node has one list of children, and what follows one leaf can follow another. -/
theorem unique {E' : List (Child T N)} {nx' : Option Addr} (h : NodeAt s N a E nx)
    (h' : NodeAt s N a E' nx') :
    E = E' ∧ ∀ {t : Store T P B} {c : Addr} {F : List (Child T N)},
      NodeAt t N c F nx → NodeAt t N c F nx' := by
  cases N with
  | leaf =>
      have := (show s.body a = _ from h).symm.trans h'
      rw [Option.some.injEq, Body.leaf.injEq] at this
      obtain ⟨rfl, rfl⟩ := this
      exact ⟨rfl, fun h => h⟩
  | internal =>
      have := h.1.symm.trans h'.1
      rw [Option.some.injEq, Body.internal.injEq] at this
      exact ⟨this, fun h => h⟩

theorem congr (h : NodeAt s N a E nx) (hb : s'.body a = s.body a)
    (hl : ∀ x ∈ kidsOf N E, s'.link x = s.link x) : NodeAt s' N a E nx := by
  cases N with
  | leaf => exact hb.trans h
  | internal =>
      exact ⟨hb.trans h.1, h.2.congr fun e he => hl e.1 (List.mem_map_of_mem he)⟩

theorem frame (h : NodeAt s N a E nx) {bs ls : Set Addr} (f : Frame s s' bs ls) (ha : a ∉ bs)
    (hl : ∀ x ∈ kidsOf N E, x ∉ ls) : NodeAt s' N a E nx :=
  h.congr (f.body a ha) fun x hx => f.link x (hl x hx)

/-- Only the counts of an internal node were written. -/
theorem recount {E E' : List (Addr × Nat)} (h : NodeAt s .internal a E nx)
    (hb : s'.body a = some (.internal E')) (hk : E'.map Prod.fst = E.map Prod.fst)
    (f : Frame s s' {a} ∅) : NodeAt s' .internal a E' nx := by
  refine ⟨hb, Adopted.of_get fun i x hx => ?_⟩
  rw [hk, List.getElem?_map, Option.map_eq_some_iff] at hx
  obtain ⟨e, he, rfl⟩ := hx
  rw [f.link e.1 (Set.notMem_empty _)]
  exact h.2.link_get he

/-- Two nodes that are both well formed and different share no child. -/
theorem not_mem_kids {E' : List (Child T N)} {nx' : Option Addr} (h : NodeAt s N a E nx)
    (h' : NodeAt s N b E' nx') (hab : a ≠ b) {x : Addr} (hx : x ∈ kidsOf N E) :
    x ∉ kidsOf N E' := by
  intro hx'
  obtain ⟨i, hi⟩ := h.link_of_mem hx
  obtain ⟨j, hj⟩ := h'.link_of_mem hx'
  rw [hi, Option.some.injEq, Prod.mk.injEq, Option.some.injEq] at hj
  exact hab hj.1

end NodeAt

theorem InternalNode.Clean.frame {bs ls : Set Addr} (h : Clean s a) (f : Frame s s' bs ls)
    (ha : a ∉ bs) : Clean s' a := by
  obtain ⟨n, es, hr, hn, hs⟩ := h
  obtain ⟨p, hr'⟩ := f.read_internal hr ha
  have hb : s'.body a = some (.internal es) :=
    (f.body a ha).trans (Store.body_internal.mpr ⟨n, hr, hn⟩)
  exact ⟨_, es, hr', holds_of_body hr' hb, hs⟩

theorem Sized.frame {bs ls : Set Addr} (h : Sized s N a) (f : Frame s s' bs ls) (ha : a ∉ bs) :
    Sized s' N a := by
  cases N with
  | leaf => trivial
  | internal => exact InternalNode.Clean.frame h f ha

namespace Detached

variable {x : Child T N}

theorem frame (h : Detached s N x) {bs ls : Set Addr} (f : Frame s s' bs ls)
    (hl : ∀ y ∈ kidsOf N [x], y ∉ ls) : Detached s' N x := by
  cases N with
  | leaf => trivial
  | internal => exact (f.link x.1 (hl x.1 (List.mem_singleton.mpr rfl))).trans h

/-- A detached child is in no node, for the children of a node have a parent. -/
theorem insertable (h : Detached s N x) {E : List (Child T N)} (hE : NodeAt s N a E nx) :
    Insertable s N E x := by
  cases N with
  | leaf => trivial
  | internal =>
      refine ⟨⟨none, 0, h⟩, fun hmem => ?_⟩
      obtain ⟨i, hi⟩ := hE.link_of_mem (x := x.1) hmem
      rw [show s.link x.1 = _ from h] at hi
      cases hi

end Detached

namespace Insertable

variable {x : Child T N} {E E' : List (Child T N)}

theorem lt_next (h : Insertable s N E x) {y : Addr} (hy : y ∈ kidsOf N [x]) :
    y < s.heap.next := by
  cases N with
  | leaf => exact absurd hy List.not_mem_nil
  | internal =>
      obtain rfl := List.mem_singleton.mp (show y ∈ [x.1] from hy)
      obtain ⟨⟨q, i, hl⟩, _⟩ := h
      exact Store.lt_next_of_link hl

theorem not_mem (h : Insertable s N E x) {y : Addr} (hy : y ∈ kidsOf N [x]) : y ∉ kidsOf N E := by
  cases N with
  | leaf => exact absurd hy List.not_mem_nil
  | internal =>
      obtain rfl := List.mem_singleton.mp (show y ∈ [x.1] from hy)
      exact h.2

theorem frame (h : Insertable s N E x) (hE : E' ⊆ E) {bs ls : Set Addr} (f : Frame s s' bs ls)
    (hl : ∀ y ∈ kidsOf N [x], y ∉ ls) : Insertable s' N E' x := by
  cases N with
  | leaf => trivial
  | internal =>
      obtain ⟨⟨q, i, hlink⟩, hn⟩ := h
      refine ⟨⟨q, i, ?_⟩, fun hmem => hn (List.map_subset _ hE hmem)⟩
      rw [f.link x.1 (hl x.1 (List.mem_singleton.mpr rfl)), hlink]

end Insertable

namespace Node

/-! ## The methods of the trait -/

theorem length_spec {E : List (Child T N)} (h : NodeAt s N a E nx)
    {Q : Nat → Store T P B → Prop} : Returns (length N a) s Q ↔ Q E.length s := by
  cases N with
  | leaf =>
      obtain ⟨n, hr, hn⟩ := Store.body_leaf.mp h
      unfold length
      simp only [returns_bind, returns_derefLeaf, returns_pure, hr, Option.some.injEq,
        Cell.leaf.injEq, exists_eq_left', hn.length]
  | internal =>
      obtain ⟨n, hr, hn⟩ := Store.body_internal.mp h.1
      unfold length
      simp only [returns_bind, returns_derefInternal, returns_pure, hr, Option.some.injEq,
        Cell.internal.injEq, exists_eq_left', hn.length]

theorem size_spec {E : List (Child T N)} (h : NodeAt s N a E nx) (hs : Sized s N a)
    {Q : Nat → Store T P B → Prop} : Returns (size N a) s Q ↔ Q (s.total a) s := by
  cases N with
  | leaf =>
      have ht : s.total a = E.length := by
        rw [Store.total, show s.body a = _ from h]; rfl
      rw [ht]
      exact length_spec (N := .leaf) h
  | internal =>
      rw [h.total]
      exact InternalNode.size_spec h.1 hs

theorem index_spec {E : List (Child T N)} (h : NodeAt s N a E nx) {l : Option Addr × Nat}
    (hl : s.link a = some l) {Q : Nat → Store T P B → Prop} :
    Returns (index N a) s Q ↔ Q l.2 s := by
  obtain ⟨c, hc, rfl⟩ := Option.map_eq_some_iff.mp hl
  cases N with
  | leaf =>
      obtain ⟨n, hr, hn⟩ := Store.body_leaf.mp h
      rw [hc, Option.some.injEq] at hr
      subst hr
      simp [index, hc, Cell.link, Cell.nodePrefix]
  | internal =>
      obtain ⟨n, hr, hn⟩ := Store.body_internal.mp h.1
      rw [hc, Option.some.injEq] at hr
      subst hr
      simp [index, hc, Cell.link, Cell.nodePrefix]

theorem simpleInsert_spec {xs ys : List (Child T N)} {x : Child T N}
    (h : NodeAt s N a (xs ++ ys) nx) (hlt : (xs ++ ys).length < B)
    (hx : Insertable s N (xs ++ ys) x) :
    Returns (simpleInsert N a xs.length x) s (fun _ s' =>
      NodeAt s' N a (xs ++ x :: ys) nx ∧ (Sized s N a → Sized s' N a)
      ∧ Frame s s' {a} {y | y ∈ kidsOf N (x :: ys)}) := by
  cases N with
  | leaf =>
      refine (LeafNode.simpleInsert_spec x h hlt).mono ?_
      intro _ s' hs
      exact ⟨hs.1, fun _ => trivial, hs.2.mono (Set.Subset.refl _) (Set.empty_subset _)⟩
  | internal =>
      obtain ⟨⟨q, i, hl⟩, hn⟩ := hx
      refine (InternalNode.simpleInsert_spec h.1 hlt h.2 hl hn).mono ?_
      intro _ s' hs
      exact ⟨⟨hs.1, hs.2.1⟩, hs.2.2.1, hs.2.2.2⟩

theorem simpleRemove_spec {xs ys : List (Child T N)} {x : Child T N}
    (h : NodeAt s N a (xs ++ x :: ys) nx) :
    Returns (simpleRemove N a xs.length) s (fun r s' => r = x
      ∧ NodeAt s' N a (xs ++ ys) nx ∧ Detached s' N x
      ∧ Frame s s' {a} {y | y ∈ kidsOf N (x :: ys)}) := by
  cases N with
  | leaf =>
      refine (LeafNode.simpleRemove_spec h).mono ?_
      intro r s' hs
      exact ⟨hs.1, hs.2.1, trivial, hs.2.2.mono (Set.Subset.refl _) (Set.empty_subset _)⟩
  | internal =>
      refine (InternalNode.simpleRemove_spec h.1 h.2).mono ?_
      intro r s' hs
      exact ⟨hs.1, ⟨hs.2.1, hs.2.2.1⟩, hs.2.2.2.1, hs.2.2.2.2⟩

theorem split_spec (strategy : SplitStrategy) {xs ys : List (Child T N)}
    (h : NodeAt s N a (xs ++ ys) nx) (hx : xs.length = (strategy.sizes B).1)
    (hy : ys.length = (strategy.sizes B).2) (hlen : (xs ++ ys).length = B) :
    Returns (split N a strategy) s (fun new s' => new = s.heap.next
      ∧ NodeAt s' N a xs (some new) ∧ NodeAt s' N new ys nx ∧ Sized s' N new
      ∧ s'.link new = some (none, 0)
      ∧ Frame s s' {a, s.heap.next} ({s.heap.next} ∪ {x | x ∈ kidsOf N ys})) := by
  cases N with
  | leaf =>
      refine (LeafNode.split_spec h hx hy hlen).mono ?_
      intro new s' hs
      obtain ⟨h1, h2, h3, h4, h5⟩ := hs
      exact ⟨h1, h2, h3, trivial, h4, h5.mono (Set.Subset.refl _) Set.subset_union_left⟩
  | internal =>
      refine (InternalNode.split_spec h.1 h.2 hx hy hlen).mono ?_
      intro new s' hs
      obtain ⟨h1, h2, h3, h4, h5, h6, h7, h8⟩ := hs
      exact ⟨h1, ⟨h2, h3⟩, ⟨h4, h5⟩, h6, h7, h8⟩

theorem merge_spec {xs ys : List (Child T N)} (hab : a ≠ b) (ha : NodeAt s N a xs (some b))
    (hb : NodeAt s N b ys nx) (hx : xs.length ≤ B / 2) (hy : ys.length ≤ B / 2)
    (hk : N = .internal → xs ≠ [] ∧ ∃ k, ∀ y ∈ kidsOf N (xs ++ ys), s.tag y = some k) :
    Returns (merge N a b) s (fun _ s' => NodeAt s' N a (xs ++ ys) nx ∧ NodeAt s' N b [] none
      ∧ Frame s s' {a, b} {y | y ∈ kidsOf N ys}) := by
  cases N with
  | leaf =>
      refine (LeafNode.merge_spec hab ha hb hx hy).mono ?_
      intro _ s' hs
      exact ⟨hs.1, hs.2.1, hs.2.2.mono (Set.Subset.refl _) (Set.empty_subset _)⟩
  | internal =>
      obtain ⟨hne, k, hk⟩ := hk rfl
      obtain ⟨x, xs, rfl⟩ := List.exists_cons_of_ne_nil hne
      refine (InternalNode.merge_spec (k := k) hab ha.1 hb.1 ha.2 hb.2 hx hy ?_).mono ?_
      · intro y hy'
        apply hk
        rw [kidsOf_append, List.mem_append]
        rcases mem_kidsOf_cons.mp (show y ∈ kidsOf .internal (x :: ys) from hy') with hy' | hy'
        · exact Or.inl (mem_kidsOf_cons.mpr (Or.inl hy'))
        · exact Or.inr hy'
      · intro _ s' hs
        exact ⟨⟨hs.1, hs.2.1⟩, ⟨hs.2.2.1, trivial⟩, hs.2.2.2⟩

end Node

namespace Insert

/--
What `insert_once` made of a node that should now have the children `E`: they fit,
or the node and a new one to its right share them.
-/
inductive Inserted (s s' : Store T P B) (N : NodeKind) (a : Addr) (E : List (Child T N))
    (nx : Option Addr) : Option Addr → Prop where
  | fits (hat : NodeAt s' N a E nx) (f : Frame s s' {a} {y | y ∈ kidsOf N E}) :
      Inserted s s' N a E nx none
  | split {E₁ E₂ : List (Child T N)} (hE : E = E₁ ++ E₂) (hlen : E.length = B + 1)
      (hmin₁ : B / 2 ≤ E₁.length) (hmax₁ : E₁.length ≤ B / 2 + 1)
      (hmin₂ : B / 2 ≤ E₂.length) (hmax₂ : E₂.length ≤ B / 2 + 1)
      {c : Addr} (hc : s.heap.next ≤ c)
      (hat₁ : NodeAt s' N a E₁ (some c)) (hat₂ : NodeAt s' N c E₂ nx)
      (hsized : Sized s' N c) (hlink : s'.link c = some (none, 0))
      (f : Frame s s' {a, c} ({c} ∪ {y | y ∈ kidsOf N E})) :
      Inserted s s' N a E nx (some c)

/-- The frame of a split followed by an insertion into one of the halves. -/
theorem frame_split {s₁ s₂ : Store T P B} {c : Addr} {E ys zs : List (Child T N)} {n : Addr}
    (f₁ : Frame s s₁ {a, n} ({n} ∪ {y | y ∈ kidsOf N ys}))
    (f₂ : Frame s₁ s₂ {c} {y | y ∈ kidsOf N zs}) (hc : c = a ∨ c = n)
    (hy : ys ⊆ E) (hz : zs ⊆ E) :
    Frame s s₂ {a, n} ({n} ∪ {y | y ∈ kidsOf N E}) := by
  refine (f₁.trans f₂).mono ?_ ?_
  · intro y h
    rcases h with h | h
    · exact h
    · rcases hc with rfl | rfl
      · exact Or.inl h
      · exact Or.inr h
  · intro y h
    rcases h with (h | h) | h
    · exact Or.inl h
    · exact Or.inr (kidsOf_mono hy h)
    · exact Or.inr (kidsOf_mono hz h)

/-- The node at `a` was split: it keeps the children `E₁`, and the new node has `E₂`. -/
structure Halved (s s₁ : Store T P B) (N : NodeKind) (a : Addr) (E₁ E₂ : List (Child T N))
    (nx : Option Addr) : Prop where
  before : NodeAt s N a (E₁ ++ E₂) nx
  left : NodeAt s₁ N a E₁ (some s.heap.next)
  right : NodeAt s₁ N s.heap.next E₂ nx
  sized : Sized s₁ N s.heap.next
  link : s₁.link s.heap.next = some (none, 0)
  frame : Frame s s₁ {a, s.heap.next} ({s.heap.next} ∪ {y | y ∈ kidsOf N E₂})

namespace Halved

variable {s₁ : Store T P B} {E₁ E₂ : List (Child T N)} {x : Child T N}

theorem disjoint (h : Halved s s₁ N a E₁ E₂ nx) {y : Addr} (hy : y ∈ kidsOf N E₁) :
    y ∉ kidsOf N E₂ := by
  have hnd := h.before.nodup
  rw [kidsOf_append, List.nodup_append] at hnd
  intro hy'
  exact hnd.2.2 y hy y hy' rfl

/-- The new node is no child of the old one, nor the child to insert. -/
theorem new_not_mem (h : Halved s s₁ N a E₁ E₂ nx) (hx : Insertable s N (E₁ ++ E₂) x)
    {F : List (Child T N)} (hF : F ⊆ E₁ ++ E₂) : s.heap.next ∉ kidsOf N (x :: F) := by
  intro hmem
  rcases mem_kidsOf_cons.mp hmem with hmem | hmem
  · exact Nat.lt_irrefl _ (hx.lt_next hmem)
  · obtain ⟨i, hi⟩ := h.before.link_of_mem (kidsOf_mono hF hmem)
    exact Nat.lt_irrefl _ (Store.lt_next_of_link hi)

theorem insertable (h : Halved s s₁ N a E₁ E₂ nx) (hx : Insertable s N (E₁ ++ E₂) x)
    {F : List (Child T N)} (hF : F ⊆ E₁ ++ E₂) : Insertable s₁ N F x := by
  refine hx.frame hF h.frame fun y hy hmem => ?_
  rcases hmem with hmem | hmem
  · exact Nat.ne_of_lt (hx.lt_next hy) hmem
  · exact hx.not_mem hy (kidsOf_mono (List.subset_append_right _ _) hmem)

/-- The item belongs to the new node. -/
theorem insert_new {X Y : List (Child T N)} (h : Halved s s₁ N a E₁ (X ++ Y) nx)
    (hx : Insertable s N (E₁ ++ (X ++ Y)) x) (h₁ : E₁.length = B - B / 2)
    (h₂ : (X ++ Y).length = B / 2) (hB : 3 ≤ B) :
    Returns (Node.simpleInsert N s.heap.next X.length x) s₁ (fun _ s' =>
      Inserted s s' N a (E₁ ++ (X ++ x :: Y)) nx (some s.heap.next)) := by
  have hY : Y ⊆ E₁ ++ (X ++ Y) := fun y hy =>
    List.mem_append_right _ (List.mem_append_right _ hy)
  have hlen : (X ++ x :: Y).length = B / 2 + 1 := by
    rw [← h₂, List.length_append, List.length_append, List.length_cons]
    omega
  -- the slot is in the new node, and the old one keeps what it has
  have hx₁ := h.insertable hx (List.subset_append_right E₁ (X ++ Y))
  refine (Node.simpleInsert_spec h.right (by omega) hx₁).mono ?_
  intro _ s₂ h₂'
  obtain ⟨hat, hsz, f₂⟩ := h₂'
  refine .split rfl ?_ (by omega) (by omega) (by omega) (by omega) (Nat.le_refl _) ?_ hat
    (hsz h.sized) ((f₂.link _ (h.new_not_mem hx hY)).trans h.link) ?_
  · rw [List.length_append]
    omega
  · refine h.left.frame f₂ (fun he => Nat.ne_of_lt h.before.lt_next he) fun y hy hmem => ?_
    rcases mem_kidsOf_cons.mp hmem with hmem | hmem
    · exact hx.not_mem hmem (kidsOf_mono (List.subset_append_left _ _) hy)
    · exact h.disjoint hy (kidsOf_mono (List.subset_append_right _ _) hmem)
  · refine frame_split h.frame f₂ (Or.inr rfl) ?_ ?_
    · intro y hy
      simp only [List.mem_append, List.mem_cons] at hy ⊢
      tauto
    · intro y hy
      simp only [List.mem_append, List.mem_cons] at hy ⊢
      tauto

/-- The item stays in the node. -/
theorem insert_old {X Y : List (Child T N)} (h : Halved s s₁ N a (X ++ Y) E₂ nx)
    (hx : Insertable s N ((X ++ Y) ++ E₂) x) (h₁ : (X ++ Y).length = B / 2)
    (h₂ : E₂.length = B - B / 2) (hB : 3 ≤ B) :
    Returns (Node.simpleInsert N a X.length x) s₁ (fun _ s' =>
      Inserted s s' N a ((X ++ x :: Y) ++ E₂) nx (some s.heap.next)) := by
  have hY : Y ⊆ (X ++ Y) ++ E₂ := fun y hy =>
    List.mem_append_left _ (List.mem_append_right _ hy)
  have hlen : (X ++ x :: Y).length = B / 2 + 1 := by
    rw [← h₁, List.length_append, List.length_append, List.length_cons]
    omega
  have hne : s.heap.next ∉ ({a} : Set Addr) := fun he => Nat.ne_of_gt h.before.lt_next he
  -- the slot is in the old node, and the new one keeps what it has
  have hx₁ := h.insertable hx (List.subset_append_left (X ++ Y) E₂)
  refine (Node.simpleInsert_spec h.left (by omega) hx₁).mono ?_
  intro _ s₂ h₂'
  obtain ⟨hat, _, f₂⟩ := h₂'
  refine .split rfl ?_ (by omega) (by omega) (by omega) (by omega) (Nat.le_refl _) hat ?_
    (h.sized.frame f₂ hne) ((f₂.link _ (h.new_not_mem hx hY)).trans h.link) ?_
  · rw [List.length_append]
    omega
  · refine h.right.frame f₂ hne fun y hy hmem => ?_
    rcases mem_kidsOf_cons.mp hmem with hmem | hmem
    · exact hx.not_mem hmem (kidsOf_mono (List.subset_append_right _ _) hy)
    · exact h.disjoint (kidsOf_mono (List.subset_append_right _ _) hmem) hy
  · refine frame_split h.frame f₂ (Or.inl rfl) ?_ ?_
    · intro y hy
      simp only [List.mem_append, List.mem_cons] at hy ⊢
      tauto
    · intro y hy
      simp only [List.mem_append, List.mem_cons] at hy ⊢
      tauto

end Halved

/-- `split`, where the node is full. -/
theorem split_halved (strategy : SplitStrategy) {E₁ E₂ : List (Child T N)}
    (h : NodeAt s N a (E₁ ++ E₂) nx) (h₁ : E₁.length = (strategy.sizes B).1)
    (h₂ : E₂.length = (strategy.sizes B).2) (hfull : (E₁ ++ E₂).length = B) :
    Returns (Node.split N a strategy) s (fun new s₁ => new = s.heap.next
      ∧ Halved s s₁ N a E₁ E₂ nx) := by
  refine (Node.split_spec strategy h h₁ h₂ hfull).mono ?_
  intro _ s₁ hs
  obtain ⟨rfl, hat₁, hat₂, hsz, hl, f⟩ := hs
  exact ⟨rfl, h, hat₁, hat₂, hsz, hl, f⟩

theorem insertOnce_spec {xs ys : List (Child T N)} {x : Child T N}
    (h : NodeAt s N a (xs ++ ys) nx) (hx : Insertable s N (xs ++ ys) x) (hB : 3 ≤ B) :
    Returns (insertOnce N a xs.length x) s (fun r s' =>
      Inserted s s' N a (xs ++ x :: ys) nx r) := by
  have hle := h.length_le
  rw [insertOnce, returns_bind, Node.length_spec h, returns_ite]
  refine ⟨fun hfull => ?_, fun hfull => ?_⟩
  · have hlen := hfull
    rw [List.length_append] at hlen
    rw [returns_ite]
    refine ⟨fun hi => ?_, fun hi => ?_⟩
    · -- full, and the slot is in the right half
      obtain ⟨X₁, X₂, rfl, hX₁⟩ : ∃ X₁ X₂, xs = X₁ ++ X₂ ∧ X₁.length = B - B / 2 :=
        ⟨xs.take (B - B / 2), xs.drop (B - B / 2), (List.take_append_drop _ _).symm,
          List.length_take_of_le hi⟩
      rw [List.append_assoc] at h hx hfull
      have hX₂ : (X₂ ++ ys).length = B / 2 := by
        rw [List.length_append] at hlen ⊢
        omega
      have hidx : (X₁ ++ X₂).length - (B - B / 2) = X₂.length := by
        rw [List.length_append]
        omega
      rw [returns_bind]
      refine (split_halved .largerLeft h hX₁ hX₂ hfull).mono ?_
      intro _ s₁ h₁
      obtain ⟨rfl, hhalved⟩ := h₁
      rw [hidx, returns_bind, List.append_assoc]
      exact hhalved.insert_new hx hX₁ hX₂ hB
    · -- full, and the slot is in the left half
      obtain ⟨Y₁, Y₂, rfl, hY₁⟩ : ∃ Y₁ Y₂, ys = Y₁ ++ Y₂ ∧ (xs ++ Y₁).length = B / 2 := by
        refine ⟨ys.take (B / 2 - xs.length), ys.drop (B / 2 - xs.length),
          (List.take_append_drop _ _).symm, ?_⟩
        rw [List.length_append, List.length_take_of_le (by omega)]
        omega
      rw [← List.append_assoc] at h hx hfull
      have hY₂ : Y₂.length = B - B / 2 := by
        rw [List.length_append] at hfull
        omega
      rw [returns_bind]
      refine (split_halved .largerRight h hY₁ hY₂ hfull).mono ?_
      intro _ s₁ h₁
      obtain ⟨rfl, hhalved⟩ := h₁
      have hE : xs ++ x :: (Y₁ ++ Y₂) = (xs ++ x :: Y₁) ++ Y₂ := by simp
      rw [returns_bind, hE]
      exact hhalved.insert_old hx hY₁ hY₂ hB
  · rw [returns_bind]
    -- there is room
    refine (Node.simpleInsert_spec h (by omega) hx).mono ?_
    intro _ s₁ h₁
    obtain ⟨hat, _, f₁⟩ := h₁
    exact .fits hat
      (f₁.mono (Set.Subset.refl _) fun y => kidsOf_mono (List.subset_append_right _ _))

end Insert

end BTreeVec
