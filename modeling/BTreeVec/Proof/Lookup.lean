import BTreeVec.Proof.Shape

/-!
# What `leaf_for` relies on

The tree of a vector is balanced, and its nodes are linked to their parents. `leaf_for`
looks at neither: it needs the counts on its way down, and a child to go to. `Subtree`
asks for no more than that, of the node records as they lie in the store. The height may
differ from child to child, so the descent is bounded by the nodes it has left above it.
-/

namespace BTreeVec

open Prog

variable {T P : Type} {B : Nat} [TaggedPtr P] {s : Store T P B} {v : BTreeVec} {root a x : Addr}
  {ls : List Addr} {index : Nat}

/-- The number of items in the leaves `ls`. -/
def Store.weight (s : Store T P B) (ls : List Addr) : Nat := (ls.map s.lengthAt).sum

omit [TaggedPtr P] in
@[simp] theorem weight_append (ls ms : List Addr) :
    s.weight (ls ++ ms) = s.weight ls + s.weight ms := by
  rw [Store.weight, List.map_append, List.sum_append]; rfl

omit [TaggedPtr P] in
@[simp] theorem weight_cons (x : Addr) (ls : List Addr) :
    s.weight (x :: ls) = s.lengthAt x + s.weight ls := List.sum_cons

omit [TaggedPtr P] in
@[simp] theorem weight_nil : s.weight [] = 0 := rfl

/--
The node at the root of a subtree with the leaves `ls`, left to right. Every count in
it is exact, and no internal node in it is empty; `es` are the children with the leaves
below each.
-/
inductive Subtree (s : Store T P B) : Addr → List Addr → Prop where
  | leaf {a : Addr} {n : LeafNode T P B} (hn : s.heap.read a = some (.leaf n))
      (hk : n.nodePrefix.parent.kind = .leaf) : Subtree s a [a]
  | internal {a : Addr} {n : InternalNode P B} {es : List (Addr × List Addr)}
      (hn : s.heap.read a = some (.internal n)) (hk : n.nodePrefix.parent.kind = .internal)
      (hlen : n.length = es.length) (hne : es ≠ [])
      (hes : ∀ i e, es[i]? = some e →
        n.children.get? i = some (some e.1) ∧ n.sizes.get? i = some (s.weight e.2))
      (hsub : ∀ e ∈ es, Subtree s e.1 e.2) : Subtree s a (es.flatMap Prod.snd)

omit [TaggedPtr P] in
theorem Reach.trans {d e : Nat} {b : Addr} (h : Reach s root d a) (h' : Reach s a e b) :
    Reach s root (d + e) b := by
  induction h' with
  | root => exact h
  | child _ hc ih => exact .child ih hc

omit [TaggedPtr P] in
/-- The first step of a way down. -/
theorem Reach.first {d : Nat} (h : Reach s root (d + 1) x) :
    ∃ c ∈ s.childrenAt root, Reach s c d x := by
  induction d generalizing x with
  | zero =>
      cases h with
      | child hp hc =>
          cases hp
          exact ⟨x, hc, .root⟩
  | succ d ih =>
      cases h with
      | child hp hc =>
          obtain ⟨c, hcr, hcp⟩ := ih hp
          exact ⟨c, hcr, .child hcp hc⟩

omit [TaggedPtr P] in
/-- An array that agrees with a list on the first slots starts with it. -/
theorem Slots.take_of_get? {α β : Type} {f : α → β} {w : Slots β B} {n : Nat} {es : List α}
    (hn : n = es.length) (hes : ∀ i e, es[i]? = some e → w.get? i = some (f e)) :
    w.toList.take n = es.map f := by
  refine List.ext_getElem? fun i => ?_
  rw [List.getElem?_map, List.getElem?_take]
  by_cases hi : i < n
  · have hget : es[i]? = some (es.get ⟨i, hn ▸ hi⟩) := List.getElem?_eq_getElem _
    rw [if_pos hi, hget]
    exact hes i _ hget
  · rw [if_neg hi, List.getElem?_eq_none (by omega)]
    rfl

omit [TaggedPtr P] in
/-- The slots below the length hold the children `es`. -/
theorem childrenAt_of_get {β : Type} {n : InternalNode P B} {es : List (Addr × β)}
    (hn : s.heap.read a = some (.internal n)) (hlen : n.length = es.length)
    (hes : ∀ i e, es[i]? = some e → n.children.get? i = some (some e.1)) :
    s.childrenAt a = es.map Prod.fst := by
  rw [Store.childrenAt, hn]
  show (n.children.toList.take n.length).filterMap id = es.map Prod.fst
  rw [Slots.take_of_get? hlen hes, List.filterMap_map]
  show es.filterMap (some ∘ Prod.fst) = es.map Prod.fst
  rw [List.filterMap_eq_map]

namespace Subtree

theorem live (h : Subtree s a ls) : a < s.heap.next := by
  cases h with
  | leaf hn _ => exact Heap.lt_next_of_read hn
  | internal hn _ _ _ _ _ => exact Heap.lt_next_of_read hn

theorem isLeaf (h : Subtree s a ls) : ∀ x ∈ ls, s.IsLeaf x := by
  induction h with
  | @leaf a n hn _ =>
      intro x hx
      obtain rfl := List.mem_singleton.mp hx
      exact ⟨n, hn⟩
  | internal _ _ _ _ _ _ ih =>
      intro x hx
      obtain ⟨e, he, hx⟩ := List.mem_flatMap.mp hx
      exact ih e he x hx

/-- No way down from a node comes back to it. -/
theorem acyclic (h : Subtree s a ls) : ∀ d, ¬ Reach s a (d + 1) a := by
  induction h with
  | @leaf a n hn _ =>
      intro d hr
      obtain ⟨c, hc, _⟩ := hr.first
      rw [Store.childrenAt, hn] at hc
      exact absurd hc List.not_mem_nil
  | @internal a n es hn hk hlen hne hes hsub ih =>
      intro d hr
      have hcs := childrenAt_of_get hn hlen fun i e he => (hes i e he).1
      obtain ⟨c, hc, hca⟩ := hr.first
      have hcc : Reach s c (d + 1) c := .child hca hc
      rw [hcs] at hc
      obtain ⟨e, he, rfl⟩ := List.mem_map.mp hc
      exact ih e he d hcc

end Subtree

/-! ## The descent -/

omit [TaggedPtr P] in
/-- What is in a slot below the length is the child there, whatever lies past the length. -/
theorem InternalNode.child_get {n : InternalNode P B} {i : Nat} {c : Addr}
    (hn : s.heap.read a = some (.internal n)) (hi : i < n.length) (hB : n.length ≤ B)
    (hc : n.children.get? i = some (some c)) {Q : Addr → Store T P B → Prop} :
    Returns (child a i) s Q ↔ Q c s := by
  have hslice : n.children.slice? 0 n.length = some (n.children.toList.take n.length) := by
    rw [Slots.slice?, if_pos ⟨Nat.zero_le _, hB⟩, List.drop_zero]
  have hget : (n.children.toList.take n.length)[i]? = some (some c) := by
    rw [List.getElem?_take, if_pos hi]
    exact hc
  unfold child childPtr
  simp [hn, hslice, hget]

omit [TaggedPtr P] in
theorem weight_flatMap (es : List (Addr × List Addr)) :
    s.weight (es.flatMap Prod.snd) = (es.map fun e => s.weight e.2).sum := by
  induction es with
  | nil => rfl
  | cons e es ih => rw [List.flatMap_cons, weight_append, ih, List.map_cons, List.sum_cons]

/-- One turn of the loop, of which the count of the last child has no part. -/
theorem Subtree.step {n : InternalNode P B} {es : List (Addr × List Addr)}
    (hn : s.heap.read a = some (.internal n)) (hk : n.nodePrefix.parent.kind = .internal)
    (hlen : n.length = es.length) (hne : es ≠ [])
    (hes : ∀ i e, es[i]? = some e →
      n.children.get? i = some (some e.1) ∧ n.sizes.get? i = some (s.weight e.2))
    (hi : index ≤ s.weight (es.flatMap Prod.snd)) :
    Returns (leafForStep a index) s (fun r s' => s' = s ∧ ∃ xs e ys i,
      es = xs ++ e :: ys ∧ r = .inl (e.1, i) ∧ index = s.weight (xs.flatMap Prod.snd) + i
      ∧ i ≤ s.weight e.2 ∧ (i = s.weight e.2 → ys = [])) := by
  obtain ⟨es, e, rfl⟩ : ∃ es' e, es = es' ++ [e] :=
    ⟨es.dropLast, es.getLast hne, (List.dropLast_append_getLast hne).symm⟩
  rw [List.length_append, List.length_singleton] at hlen
  have hlast := hes es.length e (by simp)
  have hB : n.length ≤ B := by
    have hlt := (List.getElem?_eq_some_iff.mp hlast.1).1
    rw [Slots.length_toList] at hlt
    omega
  -- only the slots before the last are searched, and those are in use
  have htake : n.sizes.toList.take (n.length - 1) = es.map fun e => s.weight e.2 := by
    refine Slots.take_of_get? (by omega) fun i e he => (hes i e ?_).2
    rw [List.getElem?_append_left (List.getElem?_eq_some_iff.mp he).1, he]
  have htag : s.tag a = some .internal := by
    rw [Store.tag, hn, Option.map_some]
    exact congrArg _ hk
  unfold leafForStep
  simp only [returns_bind, returns_cast htag, returns_derefInternal, returns_sub, returns_pure]
  refine ⟨n, hn, by omega, ?_⟩
  rw [htake]
  rw [List.flatMap_append, weight_append, List.flatMap_singleton] at hi
  rcases position_spec (es.map fun e => s.weight e.2) index with
    ⟨S₁, m, S₂, i, hS, hp, rfl, hlt⟩ | ⟨i, hp, rfl⟩
  · -- one of the children before the last
    obtain ⟨xs, zs, rfl, rfl, hzs⟩ := List.map_eq_append_iff.mp hS
    obtain ⟨e', ys, rfl, rfl, rfl⟩ := List.map_eq_cons_iff.mp hzs
    have hget := hes xs.length e' (by simp)
    rw [List.length_append, List.length_cons] at hlen
    rw [hp, Option.getD_some, List.length_map, InternalNode.child_get hn (by omega) hB hget.1]
    refine ⟨rfl, xs, e', ys ++ [e], i, by simp, rfl, ?_, by omega, fun h => by omega⟩
    rw [weight_flatMap]
  · -- the last child
    rw [hp, Option.getD_none, hlen, Nat.add_sub_cancel,
      InternalNode.child_get hn (by omega) hB hlast.1]
    rw [weight_flatMap] at hi
    exact ⟨rfl, es, e, [], i, rfl, rfl, by rw [weight_flatMap], by omega, fun _ => rfl⟩

/-- Where the search for `index` among the leaves `ls` ends. -/
structure Located (s : Store T P B) (ls : List Addr) (index : Nat) (leaf : Addr) (k : Nat) :
    Prop where
  split : ∃ L R, ls = L ++ leaf :: R ∧ s.weight L + k = index ∧ (k = s.lengthAt leaf → R = [])
  le : k ≤ s.lengthAt leaf

/--
The loop, with the nodes `V` above the one it is at. They are different from all that is
still to come, so the fuel that the store gives is enough.
-/
theorem Subtree.descend (h : Subtree s a ls) : ∀ (V : List Addr) (fuel index : Nat), V.Nodup →
    (∀ x ∈ V, x < s.heap.next ∧ ∀ d, ¬ Reach s a d x) → s.heap.next < V.length + fuel →
    index ≤ s.weight ls →
    Returns (loop .outOfFuel (fun (root, index) => leafForStep root index) fuel (a, index)
      : Exec T P B (Addr × Nat)) s (fun r s' => s' = s ∧ Located s ls index r.1 r.2) := by
  -- `V` are the nodes passed so far: live and distinct, so they bound the fuel
  have hpos : ∀ (V : List Addr) (fuel : Nat), V.Nodup → (∀ x ∈ V, x < s.heap.next) →
      s.heap.next < V.length + fuel → ∃ fuel', fuel = fuel' + 1 := by
    intro V fuel hnd hV hf
    have := length_le_of_nodup hnd hV
    exact Nat.exists_eq_succ_of_ne_zero (by omega)
  induction h with
  | @leaf a n hn hk =>
      intro V fuel index hnd hV hf hi
      obtain ⟨fuel, rfl⟩ := hpos V fuel hnd (fun x hx => (hV x hx).1) hf
      have htag : s.tag a = some .leaf := by
        rw [Store.tag, hn, Option.map_some]
        exact congrArg _ hk
      rw [loop, returns_bind]
      unfold leafForStep
      simp only [returns_bind, returns_cast htag, returns_pure]
      rw [weight_cons, weight_nil, Nat.add_zero] at hi
      exact ⟨trivial, ⟨[], [], rfl, Nat.zero_add _, fun _ => rfl⟩, hi⟩
  | @internal a n es hn hk hlen hne hes hsub ih =>
      intro V fuel index hnd hV hf hi
      obtain ⟨fuel, rfl⟩ := hpos V fuel hnd (fun x hx => (hV x hx).1) hf
      have ha : Subtree s a (es.flatMap Prod.snd) := .internal hn hk hlen hne hes hsub
      have hcs := childrenAt_of_get hn hlen fun i e he => (hes i e he).1
      rw [loop, returns_bind]
      refine (Subtree.step hn hk hlen hne hes hi).mono ?_
      intro _ s' hr
      obtain ⟨rfl, xs, e, ys, i, rfl, rfl, rfl, hle, hlast⟩ := hr
      have he : e ∈ xs ++ e :: ys := List.mem_append_right _ List.mem_cons_self
      have hchild : ∀ {d : Nat} {x : Addr}, Reach s' e.1 d x → Reach s' a (d + 1) x := by
        intro d x hx
        have hea : Reach s' a 1 e.1 := .child .root (by rw [hcs]; exact List.mem_map_of_mem he)
        have := hea.trans hx
        rwa [Nat.add_comm] at this
      -- a node is not below itself, so the path does not come back to it
      have haV : a ∉ V := fun hmem => (hV a hmem).2 0 .root
      refine (ih e he (a :: V) fuel i (List.nodup_cons.mpr ⟨haV, hnd⟩) ?_ ?_ hle).mono ?_
      · intro x hx
        rcases List.mem_cons.mp hx with rfl | hx
        · exact ⟨ha.live, fun d hd => ha.acyclic d (hchild hd)⟩
        · exact ⟨(hV x hx).1, fun d hd => (hV x hx).2 (d + 1) (hchild hd)⟩
      · rw [List.length_cons]
        omega
      · intro r s hr
        obtain ⟨rfl, hloc⟩ := hr
        obtain ⟨L, R, hL, rfl, hR⟩ := hloc.split
        refine ⟨rfl, ⟨xs.flatMap Prod.snd ++ L, R ++ ys.flatMap Prod.snd, ?_, ?_, ?_⟩, hloc.le⟩
        · rw [List.flatMap_append, List.flatMap_cons, hL]
          simp
        · rw [weight_append]
          omega
        · intro hk
          obtain rfl := hR hk
          rw [hlast (by rw [hL, weight_append, weight_cons, weight_nil]; omega)]
          rfl

theorem Subtree.leafFor_spec (h : Subtree s root ls) (hi : index ≤ s.weight ls) :
    Returns (leafFor root index) s (fun r s' => s' = s ∧ Located s ls index r.1 r.2) := by
  rw [leafFor, returns_bind, returns_get]
  refine h.descend [] _ index List.nodup_nil (fun x hx => absurd hx List.not_mem_nil) ?_ hi
  rw [List.length_nil]
  omega

omit [TaggedPtr P] in
/-- An index below the number of items is that of an item in the leaf. -/
theorem Located.lt {leaf : Addr} {k : Nat} (h : Located s ls index leaf k)
    (hi : index < s.weight ls) : k < s.lengthAt leaf := by
  obtain ⟨L, R, rfl, rfl, hR⟩ := h.split
  refine Nat.lt_of_le_of_ne h.le fun hk => ?_
  rw [hR hk, weight_append, weight_cons, weight_nil] at hi
  omega

/--
**The search finds the leaf for an index**, in any subtree with exact counts: the leaf
where the item with that index is, or the last one if there is no such item.
-/
theorem leaf_for_locates (h : Subtree s root ls) (hi : index ≤ s.weight ls) :
    ∃ leaf k L R, leafFor root index s = .ok (leaf, k) s
      ∧ ls = L ++ leaf :: R ∧ s.IsLeaf leaf ∧ k ≤ s.lengthAt leaf ∧ s.weight L + k = index
      ∧ (index < s.weight ls → k < s.lengthAt leaf)
      ∧ (index = s.weight ls → R = [] ∧ k = s.lengthAt leaf) := by
  obtain ⟨r, s', he, rfl, hloc⟩ := returns_iff.mp (h.leafFor_spec hi)
  have hlt := hloc.lt
  have hle := hloc.le
  obtain ⟨L, R, rfl, rfl, hR⟩ := hloc.split
  refine ⟨r.1, r.2, L, R, he, rfl, h.isLeaf r.1 (mem_mid.mpr (Or.inl rfl)), hle, rfl, hlt, ?_⟩
  intro heq
  rw [weight_append, weight_cons] at heq
  have hk : r.2 = s'.lengthAt r.1 := by omega
  exact ⟨hR hk, hk⟩

/-- The tree of a vector is one of these subtrees. -/
theorem Counted.subtree {k : Nat} (h : Counted s k a) : Subtree s a (s.leavesUnder k a) := by
  induction k generalizing a with
  | zero =>
      obtain ⟨xs, nx, hb⟩ := h
      obtain ⟨n, hn, hh⟩ := Store.body_leaf.mp hb
      exact .leaf hn hh.kind
  | succ k ih =>
      have hc := h
      obtain ⟨es, hb, hne, he⟩ := h
      obtain ⟨n, hn, hh⟩ := Store.body_internal.mp hb
      obtain ⟨rest, hsz⟩ := hh.sizes
      have hkids : s.kids a = es.map Prod.fst := by rw [Store.kids, hb]; rfl
      have hleaves : s.leavesUnder (k + 1) a
          = (es.map fun e => (e.1, s.leavesUnder k e.1)).flatMap Prod.snd := by
        rw [Store.leavesUnder, hkids, List.flatMap_map, List.flatMap_map]
      rw [hleaves]
      refine .internal hn hh.kind (by rw [hh.length, List.length_map]) (by simp [hne]) ?_ ?_
      · intro i e hi
        rw [List.getElem?_map, Option.map_eq_some_iff] at hi
        obtain ⟨e, hi, rfl⟩ := hi
        obtain ⟨hce, hsize⟩ := he e (List.mem_of_getElem? hi)
        -- the recorded size is the number of items, which are those of the leaves
        have hw : s.weight (s.leavesUnder k e.1) = e.2 := by
          rw [hsize, ← hce.countBelow, Store.countBelow, hce.leaves]; rfl
        refine ⟨Slots.get?_append_left hh.children ?_, Slots.get?_append_left hsz ?_⟩
        · rw [List.getElem?_map, hi]; rfl
        · rw [List.getElem?_map, hi]
          exact congrArg some hw.symm
      · intro e hmem
        obtain ⟨e', hmem', rfl⟩ := List.mem_map.mp hmem
        exact ih (he e' hmem').1

theorem Sound.subtree {l : List T} {F : Set Addr} (h : Sound v s l F) (hr : v.root = some root) :
    Subtree s root (s.leaves root) ∧ s.weight (s.leaves root) = v.size := by
  have hsize := h.countsExact.size
  rw [hr] at hsize
  refine ⟨?_, hsize.symm⟩
  cases h.vec with
  | empty => cases hr
  | @tree root Ds l ht =>
      obtain rfl := Option.some.inj hr
      rw [ht.leaves]
      exact ht.counted.1.subtree

/-- The third item, of a root with more levels than items need. -/
theorem leaf_for_locates_grownAndShrunk : ∃ (s : Store Nat PairPtr 3) (leaf k : Nat)
    (L R : List Addr), leafFor 6 2 s = .ok (leaf, k) s
      ∧ s.leaves 6 = L ++ leaf :: R ∧ s.IsLeaf leaf ∧ k ≤ s.lengthAt leaf ∧ s.weight L + k = 2
      ∧ (2 < s.weight (s.leaves 6) → k < s.lengthAt leaf)
      ∧ (2 = s.weight (s.leaves 6) → R = [] ∧ k = s.lengthAt leaf) := by
  obtain ⟨s, h, _⟩ := grownAndShrunk_reachable
  obtain ⟨l, F, hs⟩ := h.sound
  have hroot : BTreeVec.root ⟨some 6, 3⟩ = some 6 := rfl
  obtain ⟨hsub, hw⟩ := hs.subtree hroot
  exact ⟨s, leaf_for_locates hsub (by rw [hw]; decide)⟩

end BTreeVec
