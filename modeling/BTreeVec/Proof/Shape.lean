import BTreeVec.Proof.Refine

/-!
# The shape of a reachable tree

The invariants of the tree, said of the node records as they lie in the store:
which counts they hold, which parent and index, how they are linked, how many
children they have. All of them follow from the rows of `Tree`.
-/

namespace BTreeVec

open Prog

variable {T P : Type} {B : Nat} [TaggedPtr P] {s s' : Store T P B} {v : BTreeVec} {l : List T}
  {F : Set Addr} {root a x : Addr} {Ds : List (List Addr)} {U : List Addr}

/-! ## Reading the records -/

namespace Store

omit [TaggedPtr P]

/-- The children that the length of the node at `a` covers. -/
def childrenAt (s : Store T P B) (a : Addr) : List Addr :=
  match s.heap.read a with
  | some (.internal n) => (n.children.toList.take n.length).filterMap id
  | _ => []

/-- The items that the length of the leaf at `a` covers. -/
def itemsAt (s : Store T P B) (a : Addr) : List T :=
  match s.heap.read a with
  | some (.leaf n) => (n.children.toList.take n.length).filterMap id
  | _ => []

def IsLeaf (s : Store T P B) (a : Addr) : Prop := ∃ n, s.heap.read a = some (.leaf n)

instance (s : Store T P B) (a : Addr) : Decidable (s.IsLeaf a) :=
  match h : s.heap.read a with
  | some (.leaf n) => isTrue ⟨n, h⟩
  | some (.internal _) => isFalse fun ⟨_, hn⟩ => by rw [h] at hn; cases hn
  | none => isFalse fun ⟨_, hn⟩ => by rw [h] at hn; cases hn

def lengthAt (s : Store T P B) (a : Addr) : Nat := ((s.heap.read a).map Cell.length).getD 0

/-- The leaves at or below the node at `a`, left to right, looking down `fuel` levels. -/
def leavesIn (s : Store T P B) : Nat → Addr → List Addr
  | 0, _ => []
  | fuel + 1, a =>
      match s.heap.read a with
      | some (.leaf _) => [a]
      | _ => (s.childrenAt a).flatMap (leavesIn s fuel)

/-- There are no more levels than cells. -/
def leaves (s : Store T P B) (a : Addr) : List Addr := s.leavesIn s.heap.next a

/-- The number of items in the leaves at or below the node at `a`. -/
def countBelow (s : Store T P B) (a : Addr) : Nat := ((s.leaves a).map s.lengthAt).sum

end Store

omit [TaggedPtr P] in
/-- `a` is `d` levels below the root. -/
inductive Reach (s : Store T P B) (root : Addr) : Nat → Addr → Prop where
  | root : Reach s root 0 root
  | child {d : Nat} {p c : Addr} (hp : Reach s root d p) (hc : c ∈ s.childrenAt p) :
      Reach s root (d + 1) c

omit [TaggedPtr P] in
/-- Following `next` from a leaf, or from nowhere, visits the leaves `as` and ends. -/
inductive Chain (s : Store T P B) : Option Addr → List Addr → Prop where
  | nil : Chain s none []
  | cons {a : Addr} {n : LeafNode T P B} {as : List Addr} (ha : s.heap.read a = some (.leaf n))
      (h : Chain s n.next as) : Chain s (some a) (a :: as)

theorem filterMap_take_map {α β : Type} (f : α → β) (xs : List α) (zs : List (Option β)) :
    ((xs.map (some ∘ f) ++ zs).take xs.length).filterMap id = xs.map f := by
  rw [← List.length_map (f := some ∘ f), List.take_left, List.filterMap_map]
  show xs.filterMap (some ∘ f) = xs.map f
  rw [List.filterMap_eq_map]

theorem childrenAt_of_body {b : Body T} (h : s.body a = some b) : s.childrenAt a = b.kids := by
  cases b with
  | leaf xs nx =>
      obtain ⟨n, hr, _⟩ := Store.body_leaf.mp h
      rw [Store.childrenAt, hr]; rfl
  | internal es =>
      obtain ⟨n, hr, hn⟩ := Store.body_internal.mp h
      rw [Store.childrenAt, hr]
      show (n.children.toList.take n.length).filterMap id = es.map Prod.fst
      rw [hn.children, hn.length]
      exact filterMap_take_map Prod.fst es _

theorem itemsAt_of_body {b : Body T} (h : s.body a = some b) : s.itemsAt a = b.items := by
  cases b with
  | leaf xs nx =>
      obtain ⟨n, hr, hn⟩ := Store.body_leaf.mp h
      obtain ⟨rest, hc⟩ := hn.children
      have hf := filterMap_take_map (fun y : T => y) xs rest
      rw [List.map_id'] at hf
      rw [Store.itemsAt, hr]
      show (n.children.toList.take n.length).filterMap id = xs
      rw [hc, hn.length]
      exact hf
  | internal es =>
      obtain ⟨n, hr, _⟩ := Store.body_internal.mp h
      rw [Store.itemsAt, hr]; rfl

theorem lengthAt_of_body {b : Body T} (h : s.body a = some b) : s.lengthAt a = b.width := by
  cases b with
  | leaf xs nx =>
      obtain ⟨n, hr, hn⟩ := Store.body_leaf.mp h
      rw [Store.lengthAt, hr]
      exact hn.length
  | internal es =>
      obtain ⟨n, hr, hn⟩ := Store.body_internal.mp h
      rw [Store.lengthAt, hr]
      exact hn.length

namespace Counted

theorem leavesIn {k fuel : Nat} (h : Counted s k a) (hk : k < fuel) :
    s.leavesIn fuel a = s.leavesUnder k a := by
  induction fuel generalizing k a with
  | zero => exact absurd hk (Nat.not_lt_zero k)
  | succ fuel ih =>
      cases k with
      | zero =>
          obtain ⟨xs, nx, hb⟩ := h
          obtain ⟨n, hr, _⟩ := Store.body_leaf.mp hb
          rw [Store.leavesIn, hr]; rfl
      | succ k =>
          obtain ⟨es, hb, _, he⟩ := h
          obtain ⟨n, hr, _⟩ := Store.body_internal.mp hb
          have hc := childrenAt_of_body hb
          have hkids : s.kids a = es.map Prod.fst := by rw [Store.kids, hb]; rfl
          rw [Store.leavesIn, hr, Store.leavesUnder, hkids]
          show (s.childrenAt a).flatMap _ = _
          rw [hc]
          refine List.flatMap_congr fun c hc => ?_
          obtain ⟨e, hem, rfl⟩ := List.mem_map.mp hc
          exact ih (he e hem).1 (by omega)

theorem leaves {k : Nat} (h : Counted s k a) : s.leaves a = s.leavesUnder k a :=
  h.leavesIn h.height_lt

theorem body_leaf {k : Nat} (h : Counted s k a) (hx : x ∈ s.leavesUnder k a) :
    ∃ xs nx, s.body x = some (.leaf xs nx) := by
  induction k generalizing a with
  | zero =>
      obtain rfl := List.mem_singleton.mp (show x ∈ [a] from hx)
      exact h
  | succ k ih =>
      obtain ⟨es, hb, _, he⟩ := h
      have hkids : s.kids a = es.map Prod.fst := by rw [Store.kids, hb]; rfl
      rw [Store.leavesUnder, hkids, List.mem_flatMap] at hx
      obtain ⟨c, hc, hx⟩ := hx
      obtain ⟨e, hem, rfl⟩ := List.mem_map.mp hc
      exact ih (he e hem).1 hx

theorem countBelow {k : Nat} (h : Counted s k a) :
    s.countBelow a = (s.itemsUnder k a).length := by
  rw [Store.countBelow, h.leaves, Store.itemsUnder, List.length_flatMap]
  refine congrArg List.sum (List.map_congr_left fun x hx => ?_)
  obtain ⟨xs, nx, hb⟩ := h.body_leaf hx
  rw [lengthAt_of_body hb, Store.items, hb]; rfl

theorem items {k : Nat} (h : Counted s k a) :
    (s.leaves a).flatMap s.itemsAt = s.itemsUnder k a := by
  rw [h.leaves, Store.itemsUnder]
  refine List.flatMap_congr fun x hx => ?_
  obtain ⟨xs, nx, hb⟩ := h.body_leaf hx
  rw [itemsAt_of_body hb, Store.items, hb]; rfl

end Counted

/-! ## Every live node is in a row -/

/-- A node is in the top row, or its parents are in the row above its own. -/
theorem Below.find_row (h : Below s U Ds l) (hx : x ∈ U ++ Ds.flatten) :
    ∃ W Ds', x ∈ W ∧ Below s W Ds' l ∧ (W = U ∧ Ds' = Ds ∨ ∃ A, Below s A (W :: Ds') l) := by
  induction Ds generalizing U with
  | nil =>
      rw [List.flatten_nil, List.append_nil] at hx
      exact ⟨U, [], hx, h, Or.inl ⟨rfl, rfl⟩⟩
  | cons D Ds ih =>
      rcases List.mem_append.mp hx with hx | hx
      · exact ⟨U, D :: Ds, hx, h, Or.inl ⟨rfl, rfl⟩⟩
      · obtain ⟨W, Ds', hxW, hW, hor⟩ := ih h.2.2 hx
        refine ⟨W, Ds', hxW, hW, Or.inr ?_⟩
        rcases hor with ⟨rfl, rfl⟩ | hA
        · exact ⟨U, h⟩
        · exact hA

/-- The row of a live node of a vector. -/
structure InRow (v : BTreeVec) (s : Store T P B) (l : List T) (root : Addr)
    (Ds : List (List Addr)) (W : List Addr) (Ds' : List (List Addr)) : Prop where
  root_eq : v.root = some root
  tree : Tree s root Ds l
  below : Below s W Ds' l
  above : W = [root] ∧ Ds' = Ds ∨ ∃ A, Below s A (W :: Ds') l

theorem rowNodes_root_perm (Ds : List (List Addr)) (root : Addr) :
    (rowNodes Ds [root] []).Perm ([root] ++ Ds.flatten) := by
  rw [rowNodes, List.flatten_nil, List.append_nil]
  exact List.perm_append_comm

theorem Sound.row (h : Sound v s l F) (hx : s.heap.read x ≠ none) :
    ∃ root Ds W Ds', InRow v s l root Ds W Ds' ∧ x ∈ W := by
  have hF := h.live x hx
  cases h.vec with
  | empty => exact absurd hF (Set.notMem_empty x)
  | @tree root Ds l ht =>
      have hmem := (rowNodes_root_perm Ds root).mem_iff.mp hF
      obtain ⟨W, Ds', hxW, hW, hor⟩ := ht.below.find_row hmem
      exact ⟨root, Ds, W, Ds', ⟨rfl, ht, hW, hor⟩, hxW⟩

theorem Below.nodeAt (h : Below s U Ds l) (hx : x ∈ U) :
    ∃ E nx, NodeAt s (rowKind Ds) x E nx := by
  obtain ⟨C, hrow⟩ := h.rowAt
  obtain ⟨E, nx, hE, _⟩ := hrow.nodeAt hx
  exact ⟨E, nx, hE⟩

/-- An internal node is in a row with another row below it. -/
theorem Below.internal (h : Below s U Ds l) (hx : x ∈ U) {n : InternalNode P B}
    (hn : s.heap.read x = some (.internal n)) :
    ∃ D Ds' es, Ds = D :: Ds' ∧ NodeAt s .internal x es none ∧ n.Holds es := by
  obtain ⟨E, nx, hE⟩ := h.nodeAt hx
  cases Ds with
  | nil =>
      obtain ⟨m, hm, _⟩ := Store.body_leaf.mp (show s.body x = some (.leaf E nx) from hE)
      rw [hn] at hm
      cases hm
  | cons D Ds' =>
      exact ⟨D, Ds', E, rfl, hE, InternalNode.holds_of_body hn hE.1⟩

/-- A leaf is in the last row. -/
theorem Below.leaf (h : Below s U Ds l) (hx : x ∈ U) {n : LeafNode T P B}
    (hn : s.heap.read x = some (.leaf n)) :
    Ds = [] ∧ ∃ xs nx, s.body x = some (.leaf xs nx) ∧ n.Holds xs nx := by
  obtain ⟨E, nx, hE⟩ := h.nodeAt hx
  cases Ds with
  | nil =>
      obtain ⟨m, hm, hxs⟩ := Store.body_leaf.mp (show s.body x = some (.leaf E nx) from hE)
      rw [hn, Option.some.injEq, Cell.leaf.injEq] at hm
      exact ⟨rfl, E, nx, hE, hm ▸ hxs⟩
  | cons D Ds' =>
      obtain ⟨m, hm, _⟩ := Store.body_internal.mp hE.1
      rw [hn] at hm
      cases hm

/-! ## Calls in bounds return -/

/-- A call stops short only where its index is out of bounds, by the assertion that says so. -/
theorem Sound.exec_error (h : Sound v s l F) {op : Op T} {e : Fault}
    (he : op.exec v s = .error e s') : e = .assertion ∧ ¬ op.InBounds v := by
  obtain ⟨rfl, _, ho⟩ := h.vec.exec_error h.branching he
  have hsize := h.vec.size
  refine ⟨rfl, ?_⟩
  cases op with
  | insert i x =>
      simp only [Op.onList, ite_eq_right_iff, reduceCtorEq, imp_false] at ho
      simp only [Op.InBounds, BTreeVec.len, hsize]
      exact ho
  | remove i =>
      simp only [Op.onList, Option.map_eq_none_iff, List.getElem?_eq_none_iff] at ho
      simp only [Op.InBounds, BTreeVec.len, hsize]
      exact Nat.not_lt.mpr ho
  | _ => simp [Op.onList] at ho

theorem Sound.exec_ok (h : Sound v s l F) {op : Op T} (hb : op.InBounds v) :
    ∃ v' r s', op.exec v s = .ok (v', r) s' := by
  cases he : op.exec v s with
  | ok r s' => exact ⟨r.1, r.2, s', rfl⟩
  | error e s' => exact absurd hb (h.exec_error he).2

/-! ## A vector to look at -/

/-- Eight items pushed and five popped again. -/
def grownAndShrunk : List (Op Nat) := (List.range 8).map .push ++ List.replicate 5 .pop

/-- With `B = 3` an empty leaf is left, and a root with more levels than items need. -/
theorem grownAndShrunk_run : ∃ (v : BTreeVec) (s : Store Nat PairPtr 3),
    history grownAndShrunk Store.empty = .ok v s
      ∧ v = ⟨some 6, 3⟩ ∧ 2 ∈ s.childrenAt 6 ∧ 0 ∈ s.childrenAt 2 ∧ s.IsLeaf 0 :=
  returns_iff.mp (by decide +kernel)

theorem grownAndShrunk_reachable : ∃ s : Store Nat PairPtr 3, Reachable ⟨some 6, 3⟩ s
    ∧ Reach s 6 2 0 ∧ s.IsLeaf 0 := by
  obtain ⟨v, s, h, rfl, h₁, h₂, hl⟩ := grownAndShrunk_run
  exact ⟨s, .history h, .child (.child .root h₁) h₂, hl⟩

/-! ## Counts -/

/-- Every count is the number of items below the child, and the size that of all items. -/
structure CountsExact (v : BTreeVec) (s : Store T P B) : Prop where
  sizes : ∀ a n, s.heap.read a = some (.internal n) → ∀ i < n.length, ∃ c,
    n.children.get? i = some (some c) ∧ n.sizes.get? i = some (s.countBelow c)
  size : v.size = match v.root with
    | none => 0
    | some root => s.countBelow root

theorem Sound.countsExact (h : Sound v s l F) : CountsExact v s where
  sizes a n hn i hi := by
    obtain ⟨root, Ds, W, Ds', hrow, ha⟩ := h.row (by rw [hn]; exact Option.some_ne_none _)
    obtain ⟨D, Ds', es, rfl, hat, hes⟩ := hrow.below.internal ha hn
    obtain ⟨es', hb, _, he⟩ := (hrow.below.counted.1 a ha).1
    obtain rfl : es = es' := by
      rw [hat.1] at hb
      injection hb with hb
      injection hb
    rw [hes.length] at hi
    obtain ⟨rest, hsz⟩ := hes.sizes
    have hget : es[i]? = some es[i] := List.getElem?_eq_getElem hi
    obtain ⟨hc, hcount⟩ := he es[i] (List.getElem_mem hi)
    refine ⟨es[i].1, Slots.get?_append_left hes.children ?_, Slots.get?_append_left hsz ?_⟩
    · rw [List.getElem?_map, hget]; rfl
    · rw [List.getElem?_map, hget, hc.countBelow, ← hcount]; rfl
  size := by
    cases h.vec with
    | empty => rfl
    | tree ht =>
        obtain ⟨hc, hl⟩ := ht.counted
        show _ = s.countBelow _
        rw [hc.countBelow, hl]

/--
**The counts are exact**, and no call takes anything off a count, or off any other
`usize`, that is too small for it.
-/
theorem counts_exact (h : Reachable v s) :
    CountsExact v s ∧ ∀ (op : Op T) (s' : Store T P B), op.exec v s ≠ .error .underflow s' := by
  obtain ⟨l, F, hs⟩ := h.sound
  refine ⟨hs.countsExact, fun op s' he => ?_⟩
  exact absurd (hs.exec_error he).1 (by decide)

theorem counts_exact_grownAndShrunk : ∃ s : Store Nat PairPtr 3, CountsExact ⟨some 6, 3⟩ s
    ∧ ∀ op s', Op.exec ⟨some 6, 3⟩ op s ≠ .error .underflow s' := by
  obtain ⟨s, h, _⟩ := grownAndShrunk_reachable
  exact ⟨s, counts_exact h⟩

/-! ## Prefixes -/

/-- Every node knows its place in the tree, and its tag is the type it was allocated as. -/
structure PrefixesCorrect (v : BTreeVec) (s : Store T P B) : Prop where
  root : ∀ a, v.root = some a → ∃ c, s.heap.read a = some c
    ∧ c.nodePrefix.parent.get = none ∧ c.nodePrefix.index = 0
  parent : ∀ a c, s.heap.read a = some c → v.root ≠ some a → ∃ p n,
    c.nodePrefix.parent.get = some p ∧ s.heap.read p = some (.internal n)
      ∧ c.nodePrefix.index < n.length ∧ n.children.get? c.nodePrefix.index = some (some a)
      ∧ InternalNode.child p c.nodePrefix.index s = .ok a s
  child : ∀ p n i a, s.heap.read p = some (.internal n) → i < n.length →
    n.children.get? i = some (some a) → ∃ c, s.heap.read a = some c
      ∧ c.nodePrefix.parent.get = some p ∧ c.nodePrefix.index = i
  kind : ∀ a c, s.heap.read a = some c →
    (c.nodePrefix.parent.kind = .leaf ↔ ∃ n, c = .leaf n)

theorem NodeAt.child_link {es : List (Addr × Nat)} {nx : Option Addr}
    (h : NodeAt s .internal a es nx) {n : InternalNode P B} (hn : n.Holds es) {i : Nat}
    (hi : i < n.length) (hx : n.children.get? i = some (some x)) : s.link x = some (some a, i) := by
  rw [hn.length] at hi
  have hget := List.getElem?_eq_getElem hi
  have hes : n.children.get? i = some (some es[i].1) := by
    refine Slots.get?_append_left hn.children ?_
    rw [List.getElem?_map, hget]; rfl
  rw [hx, Option.some.injEq, Option.some.injEq] at hes
  rw [hes, h.2.link_get hget, Nat.zero_add]

theorem Sound.prefixesCorrect (h : Sound v s l F) : PrefixesCorrect v s where
  root a ha := by
    cases h.vec with
    | empty => cases ha
    | tree ht =>
        cases ha
        obtain ⟨c, hc, hlink⟩ := Option.map_eq_some_iff.mp ht.link
        exact ⟨c, hc, congrArg Prod.fst hlink, congrArg Prod.snd hlink⟩
  parent a c hc hne := by
    obtain ⟨root, Ds, W, Ds', hrow, ha⟩ := h.row (by rw [hc]; exact Option.some_ne_none _)
    rcases hrow.above with ⟨rfl, _⟩ | ⟨A, hA⟩
    · rw [hrow.root_eq, List.mem_singleton.mp ha] at hne
      exact absurd rfl hne
    · -- a node with a row above it has a parent there, which has it in a slot
      obtain ⟨L, R, rfl⟩ := List.append_of_mem ha
      obtain ⟨A₁, p, A₂, D₁, xs, ys, D₂, _, _, _, _, hp, _⟩ := hA.1.parent
      have hlink := (Adopted.append.mp hp.2).2.1
      rw [Nat.zero_add, Store.link, hc, Option.map_some, Option.some.injEq] at hlink
      have hparent : c.nodePrefix.parent.get = some p := congrArg Prod.fst hlink
      have hindex : c.nodePrefix.index = xs.length := congrArg Prod.snd hlink
      obtain ⟨n, hn, hes⟩ := Store.body_internal.mp hp.1
      rw [hindex]
      refine ⟨p, n, hparent, hn, ?_, ?_, ?_⟩
      · rw [hes.length, List.length_append, List.length_cons]; omega
      · refine Slots.get?_append_left hes.children ?_
        simp
      · obtain ⟨b, t, he, rfl, rfl⟩ := returns_iff.mp
          ((InternalNode.child_spec hp.1 (Q := fun r t => r = a ∧ t = s)).mpr ⟨rfl, rfl⟩)
        exact he
  child p n i a hn hi ha := by
    obtain ⟨root, Ds, W, Ds', hrow, hp⟩ := h.row (by rw [hn]; exact Option.some_ne_none _)
    obtain ⟨D, Ds', es, rfl, hat, hes⟩ := hrow.below.internal hp hn
    obtain ⟨c, hc, hlink⟩ := Option.map_eq_some_iff.mp (hat.child_link hes hi ha)
    exact ⟨c, hc, congrArg Prod.fst hlink, congrArg Prod.snd hlink⟩
  kind a c hc := by
    obtain ⟨root, Ds, W, Ds', hrow, ha⟩ := h.row (by rw [hc]; exact Option.some_ne_none _)
    cases c with
    | leaf n =>
        obtain ⟨_, xs, nx, _, hn⟩ := hrow.below.leaf ha hc
        exact ⟨fun _ => ⟨n, rfl⟩, fun _ => hn.kind⟩
    | internal n =>
        obtain ⟨D, Ds', es, _, _, hn⟩ := hrow.below.internal ha hc
        constructor
        · intro hk
          rw [show (Cell.internal n).nodePrefix.parent.kind = .internal from hn.kind] at hk
          cases hk
        · intro h
          obtain ⟨m, hm⟩ := h
          cases hm

/--
**The prefixes are correct.** The root has no parent and index 0, any other node sits in
the slot of its parent that its index says, and no call takes a node for the other kind.
-/
theorem prefixes_correct (h : Reachable v s) :
    PrefixesCorrect v s ∧ ∀ (op : Op T) (s' : Store T P B), op.exec v s ≠ .error .miscast s' := by
  obtain ⟨l, F, hs⟩ := h.sound
  refine ⟨hs.prefixesCorrect, fun op s' he => ?_⟩
  exact absurd (hs.exec_error he).1 (by decide)

theorem prefixes_correct_grownAndShrunk : ∃ s : Store Nat PairPtr 3, PrefixesCorrect ⟨some 6, 3⟩ s
    ∧ ∀ op s', Op.exec ⟨some 6, 3⟩ op s ≠ .error .miscast s' := by
  obtain ⟨s, h, _⟩ := grownAndShrunk_reachable
  exact ⟨s, prefixes_correct h⟩

/-! ## Balance -/

structure Balanced (v : BTreeVec) (s : Store T P B) : Prop where
  /-- All leaves are `d` levels below the root. -/
  depth : ∀ r, v.root = some r → ∃ d, ∀ d' a, Reach s r d' a → s.IsLeaf a → d' = d
  full : ∀ a c, s.heap.read a = some c → c.length ≤ B
  root : ∀ r n, v.root = some r → s.heap.read r = some (.internal n) → 2 ≤ n.length
  internal : ∀ a n, s.heap.read a = some (.internal n) → 1 ≤ n.length
  /-- A node with a sibling. -/
  sibling : ∀ p n i a, s.heap.read p = some (.internal n) → 2 ≤ n.length → i < n.length →
    n.children.get? i = some (some a) → B / 2 ≤ s.lengthAt a
  /-- With `B` large enough, every node other than the root has a sibling. -/
  wide : 4 ≤ B → ∀ a c, s.heap.read a = some c → v.root ≠ some a → B / 2 ≤ c.length

theorem length_eq_width {b : Body T} {c : Cell T P B} (hb : s.body a = some b)
    (hc : s.heap.read a = some c) : c.length = s.width a ∧ s.lengthAt a = s.width a := by
  have hl := lengthAt_of_body hb
  have hw : s.width a = b.width := by rw [Store.width, hb]; rfl
  refine ⟨?_, hl.trans hw.symm⟩
  rw [hw, ← hl, Store.lengthAt, hc]; rfl

theorem InRow.length_eq {W : List Addr} {Ds' : List (List Addr)}
    (h : InRow v s l root Ds W Ds') (ha : a ∈ W) {c : Cell T P B} (hc : s.heap.read a = some c) :
    c.length = s.width a ∧ s.lengthAt a = s.width a ∧ s.width a ≤ B := by
  obtain ⟨E, nx, hE⟩ := h.below.nodeAt ha
  obtain ⟨b, hb, _⟩ := hE.body
  obtain ⟨h₁, h₂⟩ := length_eq_width hb hc
  exact ⟨h₁, h₂, by rw [hE.width]; exact hE.length_le⟩

theorem childrenAt_eq_kids (h : Below s U Ds l) (ha : a ∈ U) : s.childrenAt a = s.kids a := by
  obtain ⟨E, nx, hE⟩ := h.nodeAt ha
  obtain ⟨b, hb, _, _, _, hk⟩ := hE.body
  rw [childrenAt_of_body hb, Store.kids, hb]; rfl

/-- Going down from the root ends in the row as many levels below it. -/
theorem Tree.rows_of_reach (h : Tree s root Ds l) {d : Nat} (hx : Reach s root d x) :
    ∃ As W Ds', [root] :: Ds = As ++ W :: Ds' ∧ As.length = d ∧ x ∈ W ∧ Below s W Ds' l := by
  induction hx with
  | root => exact ⟨[], [root], Ds, rfl, rfl, List.mem_singleton.mpr rfl, h.below⟩
  | @child d p c hp hc ih =>
      obtain ⟨As, W, Ds', hrows, hd, hpW, hW⟩ := ih
      rw [childrenAt_eq_kids hW hpW] at hc
      cases Ds' with
      | nil => exact absurd (hW.kids_mem hpW hc) List.not_mem_nil
      | cons D Ds' =>
          refine ⟨As ++ [W], D, Ds', by rw [hrows]; simp, by simp [hd], ?_, hW.2.2⟩
          rw [← hW.1.kids]
          exact List.mem_flatMap.mpr ⟨p, hpW, hc⟩

theorem Tree.row_of_reach (h : Tree s root Ds l) {d : Nat} (hx : Reach s root d x) :
    ∃ W Ds', x ∈ W ∧ Below s W Ds' l ∧ d + Ds'.length = Ds.length := by
  obtain ⟨As, W, Ds', hrows, hd, hxW, hW⟩ := h.rows_of_reach hx
  refine ⟨W, Ds', hxW, hW, ?_⟩
  have := congrArg List.length hrows
  rw [List.length_cons, List.length_append, List.length_cons, hd] at this
  omega

/-- Below nodes with two children all nodes have a sibling, if `B` is at least 4. -/
theorem Below.wide (h : Below s U Ds l) (hB : 4 ≤ B)
    (hU : Ds ≠ [] → ∀ a ∈ U, 2 ≤ s.width a) : ∀ x ∈ Ds.flatten, B / 2 ≤ s.width x := by
  induction Ds generalizing U with
  | nil => intro x hx; exact absurd hx List.not_mem_nil
  | cons D Ds ih =>
      have hD : ∀ c ∈ D, B / 2 ≤ s.width c := by
        intro c hc
        have hc' := hc
        rw [← h.1.kids] at hc'
        obtain ⟨a, ha, hca⟩ := List.mem_flatMap.mp hc'
        exact h.2.1 a ha (hU (List.cons_ne_nil _ _) a ha) c hca hc
      intro x hx
      rcases List.mem_append.mp hx with hx | hx
      · exact hD x hx
      · refine ih h.2.2 (fun _ a ha => ?_) x hx
        have := hD a ha
        omega

theorem Sound.balanced (h : Sound v s l F) : Balanced v s where
  depth r hr := by
    cases h.vec with
    | empty => cases hr
    | @tree root Ds l ht =>
        cases hr
        refine ⟨Ds.length, fun d' a ha ⟨n, hn⟩ => ?_⟩
        obtain ⟨W, Ds', haW, hW, hd⟩ := ht.row_of_reach ha
        -- a leaf is in the lowest row, whatever way leads to it
        obtain ⟨rfl, _⟩ := hW.leaf haW hn
        exact hd
  full a c hc := by
    obtain ⟨root, Ds, W, Ds', hrow, ha⟩ := h.row (by rw [hc]; exact Option.some_ne_none _)
    obtain ⟨h₁, _, h₂⟩ := hrow.length_eq ha hc
    rw [h₁]
    exact h₂
  root r n hr hn := by
    cases h.vec with
    | empty => cases hr
    | @tree root Ds l ht =>
        cases hr
        obtain ⟨D, Ds', es, rfl, hat, hes⟩ := ht.below.internal List.mem_cons_self hn
        rw [hes.length, ← hat.width]
        exact ht.wide (List.cons_ne_nil _ _)
  internal a n hn := by
    obtain ⟨root, Ds, W, Ds', hrow, ha⟩ := h.row (by rw [hn]; exact Option.some_ne_none _)
    obtain ⟨D, Ds', es, rfl, hat, hes⟩ := hrow.below.internal ha hn
    have hne := hrow.below.1.inner a ha
    rw [hat.kids] at hne
    rw [hes.length]
    exact List.length_pos_iff.mpr fun he => hne (by rw [he, kidsOf_nil])
  sibling p n i a hn hlen hi ha := by
    obtain ⟨root, Ds, W, Ds', hrow, hp⟩ := h.row (by rw [hn]; exact Option.some_ne_none _)
    obtain ⟨D, Ds', es, rfl, hat, hes⟩ := hrow.below.internal hp hn
    rw [hes.length, ← hat.width] at hlen
    have hak : a ∈ s.kids p := by
      rw [hes.length] at hi
      have hget : n.children.get? i = some (some es[i].1) := by
        refine Slots.get?_append_left hes.children ?_
        rw [List.getElem?_map, List.getElem?_eq_getElem hi]; rfl
      rw [ha, Option.some.injEq, Option.some.injEq] at hget
      rw [hat.kids, hget]
      exact List.mem_map_of_mem (List.getElem_mem hi)
    -- the child is in the row below, so it is as occupied as that row must be
    have haD : a ∈ D := by
      rw [← hrow.below.1.kids]
      exact List.mem_flatMap.mpr ⟨p, hp, hak⟩
    obtain ⟨E, nx, hE⟩ := hrow.below.2.2.nodeAt haD
    obtain ⟨b, hb, _, hw, _⟩ := hE.body
    rw [lengthAt_of_body hb, hw, ← hE.width]
    exact hrow.below.kids_wide hp hlen hak
  wide hB a c hc hne := by
    obtain ⟨root, Ds, W, Ds', hrow, ha⟩ := h.row (by rw [hc]; exact Option.some_ne_none _)
    rw [(hrow.length_eq ha hc).1]
    have hF := h.live a (by rw [hc]; exact Option.some_ne_none _)
    cases h.vec with
    | empty => exact absurd hF (Set.notMem_empty a)
    | @tree root Ds l ht =>
        refine ht.below.wide hB (fun hD x hx => ?_) a ?_
        · rw [List.mem_singleton.mp hx]
          exact ht.wide hD
        · refine (List.mem_append.mp hF).resolve_right fun har => ?_
          rw [List.flatten_nil, List.append_nil, List.mem_singleton] at har
          exact hne (by rw [har])

/-- **The tree is balanced**, and a node with a sibling is at least half full. -/
theorem tree_balanced (h : Reachable v s) : Balanced v s := by
  obtain ⟨l, F, hs⟩ := h.sound
  exact hs.balanced

theorem tree_balanced_grownAndShrunk : ∃ s : Store Nat PairPtr 3, Balanced ⟨some 6, 3⟩ s := by
  obtain ⟨s, h, _⟩ := grownAndShrunk_reachable
  exact ⟨s, tree_balanced h⟩

/-! ## The leaf chain -/

/-- The leaves of the tree, in order, are the chain from the first of them. -/
structure ChainMatches (v : BTreeVec) (s : Store T P B) : Prop where
  chain : ∀ r, v.root = some r → Chain s (s.leaves r).head? (s.leaves r)
  nodup : ∀ r, v.root = some r → (s.leaves r).Nodup
  all : ∀ a n, s.heap.read a = some (.leaf n) → ∃ r, v.root = some r ∧ a ∈ s.leaves r

theorem RowAt.chain (h : RowAt s .leaf U l none) : Chain s U.head? U := by
  induction U generalizing l with
  | nil => exact .nil
  | cons a U ih =>
      obtain ⟨E, C, rfl, hE, h⟩ := h
      obtain ⟨n, hr, hn⟩ := Store.body_leaf.mp (show s.body a = some (.leaf E _) from hE)
      refine .cons hr ?_
      rw [hn.next, Option.or_none]
      exact ih h

theorem Tree.leaves (h : Tree s root Ds l) : s.leaves root = s.leavesUnder Ds.length root :=
  h.counted.1.leaves

theorem Tree.leaves_nodup (h : Tree s root Ds l) : (s.leaves root).Nodup := by
  obtain ⟨As, hal, _⟩ := h.atLeaves
  rw [h.leaves]
  exact (List.nodup_append.mp (List.nodup_append.mp hal.nodup).2.1).1

/-- The rows above the leaves have internal nodes only. -/
theorem Above.internal {cnt : Addr → Nat} {As : List (List Addr)} {size : Nat}
    (h : Above s U cnt As size) (hx : x ∈ As.flatten) : ∃ es, s.body x = some (.internal es) := by
  induction As generalizing U cnt with
  | nil => exact absurd hx List.not_mem_nil
  | cons A As ih =>
      rcases List.mem_append.mp (List.flatten_cons ▸ hx) with hx | hx
      · obtain ⟨es, nx, hes, _⟩ := h.1.row.nodeAt hx
        exact ⟨es, hes.1⟩
      · exact ih h.2.2.2 hx

theorem Sound.chainMatches (h : Sound v s l F) : ChainMatches v s where
  chain r hr := by
    cases h.vec with
    | empty => cases hr
    | @tree root Ds l ht =>
        cases hr
        obtain ⟨As, hal, _⟩ := ht.atLeaves
        rw [ht.leaves]
        exact hal.row.chain
  nodup r hr := by
    cases h.vec with
    | empty => cases hr
    | @tree root Ds l ht =>
        cases hr
        exact ht.leaves_nodup
  all a n hn := by
    have hF := h.live a (by rw [hn]; exact Option.some_ne_none _)
    cases h.vec with
    | empty => exact absurd hF (Set.notMem_empty a)
    | @tree root Ds l ht =>
        refine ⟨root, rfl, ?_⟩
        obtain ⟨As, hal, hperm⟩ := ht.atLeaves
        rw [ht.leaves]
        have hmem := hperm.mem_iff.mpr hF
        refine (List.mem_append.mp (show a ∈ _ ++ As.flatten from hmem)).resolve_right fun haA => ?_
        -- the rows above the leaves have internal nodes only
        obtain ⟨es, hes⟩ := hal.above.internal haA
        obtain ⟨m, hm, _⟩ := Store.body_internal.mp hes
        rw [hn] at hm
        cases hm

/--
**The leaf chain matches the tree.** That a call in bounds returns is also to say that
the leaf that `LeafNode::merge` absorbs is the next one, as its assertion demands.
-/
theorem chain_matches (h : Reachable v s) : ChainMatches v s
    ∧ ∀ op : Op T, op.InBounds v → ∃ v' r s', op.exec v s = .ok (v', r) s' := by
  obtain ⟨l, F, hs⟩ := h.sound
  exact ⟨hs.chainMatches, fun op hb => hs.exec_ok hb⟩

theorem chain_matches_grownAndShrunk : ∃ s : Store Nat PairPtr 3, ChainMatches ⟨some 6, 3⟩ s
    ∧ ∀ op, Op.InBounds ⟨some 6, 3⟩ op → ∃ v' r s', Op.exec ⟨some 6, 3⟩ op s = .ok (v', r) s' := by
  obtain ⟨s, h, _⟩ := grownAndShrunk_reachable
  exact ⟨s, chain_matches h⟩

end BTreeVec
