import BTreeVec.Lib.Traverse
import BTreeVec.Proof.Shape

/-!
# Traversing a vector

`next` follows the leaf chain, an index follows the counts. The two give the same
items as long as the chain has no empty leaf after one with items: `next` leaves a
leaf that is used up for the one after it and takes the item at index 0 there
without another look at the length.
-/

set_option linter.dupNamespace false

namespace BTreeVec

open Prog

variable {T P : Type} {B : Nat} [TaggedPtr P] {s s' : Store T P B} {v : BTreeVec} {l : List T}
  {F : Set Addr} {root a : Addr} {Ds : List (List Addr)} {R : List Addr} {c : Cursor}

/-! ## What is to be shown -/

/-- `next` on `IterMut`, and the item behind the reference that it gives. -/
def IterMut.nextItem (self : IterMut) : Exec T P B (Option T × IterMut) := do
  let (slot, self) ← IterMut.next self
  match slot with
  | none => return (none, self)
  | some slot => return (some (← LeafNode.child slot.1 slot.2), self)

/-- All three iterators give the items `l` that the indices give, and then nothing. -/
structure Traversed (v : BTreeVec) (s : Store T P B) (l : List T) : Prop where
  len : v.len = l.length
  get : ∀ i, v.get i s = .ok l[i]? s
  iter : ∀ k, Returns (do drain Cursor.sizeHint Iter.next k (← v.iter)) s
    (fun r _ => r = traversal k l)
  iterMut : ∀ k, Returns (do drain Cursor.sizeHint IterMut.nextItem k (← v.iterMut)) s
    (fun r _ => r = traversal k l)
  intoIter : ∀ k, Returns (do drain IntoIter.sizeHint IntoIter.next k (← v.intoIter)) s
    (fun r _ => r = traversal k l)

/-- No leaf without items comes after a leaf with items. -/
def NoGap (v : BTreeVec) (s : Store T P B) : Prop :=
  ∀ r, v.root = some r →
    (s.leaves r).Pairwise fun a b => s.lengthAt a ≠ 0 → s.lengthAt b ≠ 0

/-! ## The rest of a traversal -/

/-- The leaves `R`, the chain after a leaf, hold the items `l`, each leaf at least one. -/
structure Tail (s : Store T P B) (R : List Addr) (l : List T) : Prop where
  row : RowAt s .leaf R l none
  full : ∀ b ∈ R, s.items b ≠ []

theorem Tail.cons {b : Addr} (h : Tail s (b :: R) l) : ∃ x E l', l = x :: E ++ l'
    ∧ s.body b = some (.leaf (x :: E) R.head?) ∧ Tail s R l' := by
  obtain ⟨E, l', rfl, hE, hrow⟩ := h.row
  have hb : s.body b = some (.leaf E (R.head?.or none)) := hE
  rw [Option.or_none] at hb
  have hne := h.full b List.mem_cons_self
  rw [Store.items, hb] at hne
  obtain ⟨x, E, rfl⟩ := List.exists_cons_of_ne_nil (show E ≠ [] from hne)
  exact ⟨x, E, l', rfl, hb, hrow, fun y hy => h.full y (List.mem_cons_of_mem _ hy)⟩

theorem Tail.congr (h : Tail s R l) (hb : ∀ x ∈ R, s'.body x = s.body x) : Tail s' R l where
  row := h.row.congr hb fun x hx => absurd hx (by simp [kidsOf])
  full b hbR := by
    rw [Store.items, hb b hbR]
    exact h.full b hbR

/-- The items `l` are to come, the next of them at the cursor. -/
inductive CursorAt (s : Store T P B) : List T → Cursor → Prop where
  | done {i : Nat} : CursorAt s [] ⟨none, i, 0⟩
  | leaf {a : Addr} {R : List Addr} {xs ys l : List T}
      (ha : s.body a = some (.leaf (xs ++ ys) R.head?)) (hR : Tail s R l) :
      CursorAt s (ys ++ l) ⟨some a, xs.length, (ys ++ l).length⟩

theorem CursorAt.sizeHint (h : CursorAt s l c) : c.sizeHint = (l.length, some l.length) := by
  cases h <;> rfl

/-- The item in a slot. -/
def Store.slot (s : Store T P B) (p : Slot) : Option T := (s.items p.1)[p.2]?

theorem LeafNode.child_slot {p : Slot} {x : T} (h : s.slot p = some x)
    {Q : T → Store T P B → Prop} : Returns (child p.1 p.2) s Q ↔ Q x s := by
  rw [Store.slot, Store.items] at h
  cases hb : s.body p.1 with
  | none => rw [hb] at h; exact absurd h (by simp)
  | some b =>
      rw [hb] at h
      cases b with
      | leaf xs nx => exact child_spec hb h
      | internal es => exact absurd h (by simp [Body.items])

theorem NodeRef.next_spec {xs : List T} {nx : Option Addr} (hb : s.body a = some (.leaf xs nx))
    {Q : Option Addr → Store T P B → Prop} : Returns (NodeRef.next a) s Q ↔ Q nx s := by
  obtain ⟨n, hr, hn⟩ := Store.body_leaf.mp hb
  simp [NodeRef.next, hr, hn.next]

namespace Cursor

/-! ## One call of `next` -/

variable {E : List T} {i m : Nat} {nx : Option Addr}
  {Q : Option Slot × Cursor → Store T P B → Prop}

theorem advance_stay (ha : s.body a = some (.leaf E nx)) (hi : i ≠ E.length) :
    Returns (advance ⟨some a, i, m⟩) s Q
      ↔ 1 ≤ m ∧ Q (some (a, i), ⟨some a, i + 1, m - 1⟩) s := by
  have hE : NodeAt s .leaf a E nx := ha
  unfold advance
  simp only [returns_bind, Node.length_spec hE, if_neg hi, take, returns_sub, returns_pure]

theorem advance_move {b : Addr} (ha : s.body a = some (.leaf E (some b))) :
    Returns (advance ⟨some a, E.length, m⟩) s Q
      ↔ 1 ≤ m ∧ Q (some (b, 0), ⟨some b, 1, m - 1⟩) s := by
  have hE : NodeAt s .leaf a E (some b) := ha
  unfold advance
  simp only [returns_bind, Node.length_spec hE, if_true, NodeRef.next_spec ha, take,
    returns_sub, returns_pure]

theorem advance_end (ha : s.body a = some (.leaf E none)) :
    Returns (advance ⟨some a, E.length, m⟩) s Q ↔ Q (none, ⟨none, E.length, m⟩) s := by
  have hE : NodeAt s .leaf a E none := ha
  unfold advance
  simp only [returns_bind, Node.length_spec hE, if_true, NodeRef.next_spec ha,
    returns_pure]

theorem advance_spec (h : CursorAt s l c) : Returns (advance c) s (fun r s' =>
    s' = s ∧ r.1.map s.slot = l.head?.map some ∧ CursorAt s l.tail r.2) := by
  cases h with
  | done => exact ⟨rfl, rfl, .done⟩
  | @leaf a R xs ys l ha hR =>
      cases ys with
      | cons y ys =>
          -- an item is left in the leaf
          have hi : xs.length ≠ (xs ++ y :: ys).length := by simp
          rw [advance_stay ha hi]
          refine ⟨by simp, rfl, ?_, ?_⟩
          · rw [Option.map_some, Store.slot, Store.items, ha]
            simp [Body.items]
          · have ha' : s.body a = some (.leaf (xs ++ [y] ++ ys) R.head?) := by
              rw [ha, List.append_assoc, List.singleton_append]
            have := CursorAt.leaf ha' hR
            rwa [List.length_append, List.length_singleton] at this
      | nil =>
          rw [List.append_nil] at ha
          cases R with
          | nil =>
              -- the last leaf ends here
              rw [advance_end ha, show l = [] from hR.row]
              exact ⟨rfl, rfl, .done⟩
          | cons b R =>
              -- the next leaf is not empty: its first item is the next one
              obtain ⟨x, E, l, rfl, hb, hR⟩ := hR.cons
              rw [advance_move ha]
              refine ⟨by simp, rfl, ?_, ?_⟩
              · rw [Option.map_some, Store.slot, Store.items, hb]
                rfl
              · have hb' : s.body b = some (.leaf ([x] ++ E) R.head?) := hb
                exact .leaf hb' hR

end Cursor

theorem Iter.next_spec (h : CursorAt s l c) : Returns (Iter.next c) s (fun r s' =>
    r.1 = l.head? ∧ s' = s ∧ CursorAt s l.tail r.2) := by
  rw [Iter.next, returns_bind]
  refine (Cursor.advance_spec h).mono ?_
  intro r s' hr
  obtain ⟨rfl, hslot, hc⟩ := hr
  obtain ⟨slot, c⟩ := r
  cases l with
  | nil =>
      obtain rfl : slot = none := Option.map_eq_none_iff.mp hslot
      exact ⟨rfl, rfl, hc⟩
  | cons x l =>
      obtain ⟨p, rfl, hp⟩ := Option.map_eq_some_iff.mp hslot
      rw [Cursor.item, returns_bind, LeafNode.child_slot hp]
      exact ⟨rfl, rfl, hc⟩

theorem IterMut.nextItem_spec (h : CursorAt s l c) : Returns (IterMut.nextItem c) s (fun r s' =>
    r.1 = l.head? ∧ s' = s ∧ CursorAt s l.tail r.2) := by
  unfold IterMut.nextItem
  simp only [IterMut.next, returns_bind]
  refine (Cursor.advance_spec h).mono ?_
  intro r s' hr
  obtain ⟨rfl, hslot, hc⟩ := hr
  obtain ⟨slot, c⟩ := r
  cases l with
  | nil =>
      obtain rfl : slot = none := Option.map_eq_none_iff.mp hslot
      exact ⟨rfl, rfl, hc⟩
  | cons x l =>
      obtain ⟨p, rfl, hp⟩ := Option.map_eq_some_iff.mp hslot
      rw [Cursor.itemMut, returns_bind, LeafNode.child_slot hp, returns_pure]
      simp only [returns_bind]
      rw [LeafNode.child_slot hp]
      exact ⟨rfl, rfl, hc⟩

/-! ## Taking the items out -/

/-- The leaf was emptied, or never had an item. -/
def Emptied (s : Store T P B) (a : Addr) : Prop := ∃ nx, s.body a = some (.leaf [] nx)

/--
The items `l` are to come, the next of them at the cursor, out of the leaves `A` of `v`. The
length that `IntoIter` remembers is the one the leaf had; the leaf itself gives up its
length before its first item is taken.
-/
inductive IntoAt (s : Store T P B) (v : BTreeVec) (A : List Addr) : List T → IntoIter → Prop where
  | done {n i : Nat} (hA : ∀ b ∈ A, Emptied s b) : IntoAt s v A [] ⟨none, n, i, 0, v⟩
  | leaf {L R : List Addr} {a : Addr} {n : LeafNode T P B} {zs rest : List (Option T)}
      {ys l : List T} (hA : A = L ++ a :: R) (nodup : A.Nodup)
      (hL : ∀ b ∈ L, Emptied s b) (ha : s.heap.read a = some (.leaf n))
      (hk : n.nodePrefix.parent.kind = .leaf)
      (hc : n.children.toList = zs ++ (ys.map some ++ rest))
      (hlen : n.length = if zs = [] then ys.length else 0) (hn : n.next = R.head?)
      (hR : Tail s R l) :
      IntoAt s v A (ys ++ l) ⟨some a, zs.length + ys.length, zs.length, (ys ++ l).length, v⟩

/--
A call of `next` took the item in `slot` out: it is in the leaf the call started at, or it
is the first in the leaf after that one. The leaf has no length from then on.
-/
structure Took (s s' : Store T P B) (A : List Addr) (c c' : IntoIter) (slot : Slot) : Prop where
  leaf : c'.leaf = some slot.1
  index : c'.index = slot.2 + 1
  place : c.leaf = some slot.1 ∧ slot.2 = c.index ∧ c.index ≠ c.length ∧ c'.length = c.length
    ∨ slot.2 = 0 ∧ c.index = c.length ∧ c'.length = s.lengthAt slot.1
      ∧ ∃ L a R, c.leaf = some a ∧ A = L ++ a :: slot.1 :: R
  zero : s'.lengthAt slot.1 = 0
  other : ∀ x, x ≠ slot.1 → s'.heap.read x = s.heap.read x

/-- The length does not cover the slots before the cursor. -/
theorem min_length_eq_zero {zs : List (Option T)} {m j : Nat} (h : m = if zs = [] then j else 0) :
    min m zs.length = 0 := by
  rw [h]
  split
  · rename_i hz
    rw [hz, List.length_nil, Nat.min_zero]
  · exact Nat.zero_min _

namespace IntoIter

variable {n : LeafNode T P B} {zs rest : List (Option T)} {x : T} {ys : List T} {m : Nat}
  {A L : List Addr}

theorem sizeHint_spec {c : IntoIter} (h : IntoAt s v A l c) :
    c.sizeHint = (l.length, some l.length) := by
  cases h <;> rfl

/-- The item is taken out of the leaf `a`, whichever leaf the call started at. -/
theorem take_spec (hA : A = L ++ a :: R) (nodup : A.Nodup) (hL : ∀ b ∈ L, Emptied s b)
    (ha : s.heap.read a = some (.leaf n)) (hk : n.nodePrefix.parent.kind = .leaf)
    (hc : n.children.toList = zs ++ some x :: (ys.map some ++ rest))
    (hlen : min n.length zs.length = 0) (hn : n.next = R.head?) (hR : Tail s R l)
    (o : Option Addr) :
    Returns (take ⟨o, zs.length + 1 + ys.length, zs.length, (x :: ys ++ l).length, v⟩ a) s
      (fun r s' => r = (some x, ⟨some a, zs.length + 1 + ys.length, zs.length + 1,
          (ys ++ l).length, v⟩)
        ∧ IntoAt s' v A (ys ++ l) r.2 ∧ Frame s s' {a} ∅ ∧ s'.lengthAt a = 0) := by
  unfold take
  simp only [returns_bind, returns_sub]
  refine ⟨by simp, (LeafNode.takeChild_spec ha hc).mono ?_⟩
  intro y s' hr
  obtain ⟨rfl, c, hcs, w⟩ := hr
  rw [returns_pure]
  have f := Frame.of_body ha w rfl
  have hnot : ∀ b ∈ L ++ R, b ≠ a := by
    rw [hA, List.nodup_middle, List.nodup_cons] at nodup
    intro b hb he
    subst he
    exact nodup.1 hb
  have hbody : ∀ b ∈ L ++ R, s'.body b = s.body b := fun b hb => f.body b (hnot b hb)
  have hL' : ∀ b ∈ L, Emptied s' b := by
    intro b hb
    obtain ⟨nx, hnx⟩ := hL b hb
    exact ⟨nx, (hbody b (List.mem_append_left _ hb)).trans hnx⟩
  -- the slot that was taken from is behind the cursor now
  have hcs' : c.toList = zs ++ [none] ++ (ys.map some ++ rest) := by
    rw [hcs, List.append_assoc, List.singleton_append]
  have := IntoAt.leaf (v := v) hA nodup hL' w.self hk hcs' (by simp [hlen]) hn
    (hR.congr fun b hb => hbody b (List.mem_append_right _ hb))
  rw [List.length_append, List.length_singleton] at this
  refine ⟨rfl, this, f, ?_⟩
  rw [Store.lengthAt, w.self]
  exact hlen

/-- The next leaf is entered: it loses its length before its first item is taken. -/
theorem enter_spec {E : List T} (hA : A = L ++ a :: R) (nodup : A.Nodup)
    (hL : ∀ b ∈ L, Emptied s b) (ha : s.body a = some (.leaf (x :: E) R.head?))
    (hR : Tail s R l) (c : IntoIter) (hc : c.remaining = (x :: E ++ l).length ∧ c.tree = v) :
    Returns (do
        let length ← Node.length .leaf a
        LeafNode.setZeroLength a
        take { c with index := 0, length := length } a) s
      (fun r s' => r = (some x, ⟨some a, (x :: E).length, 1, (E ++ l).length, v⟩)
        ∧ IntoAt s' v A (E ++ l) r.2 ∧ Frame s s' {a} ∅ ∧ s'.lengthAt a = 0) := by
  have hE : NodeAt s .leaf a (x :: E) R.head? := ha
  obtain ⟨n, hr, hn⟩ := Store.body_leaf.mp ha
  obtain ⟨rest, hn'⟩ := hn.children
  simp only [returns_bind, Node.length_spec hE, LeafNode.setZeroLength]
  refine (modifyLeaf_spec hr _).mono ?_
  intro _ s₁ w
  have f := Frame.of_body hr w rfl
  have hnot : ∀ z ∈ L ++ R, z ≠ a := by
    have hnd := nodup
    rw [hA, List.nodup_middle, List.nodup_cons] at hnd
    intro z hz he
    subst he
    exact hnd.1 hz
  have hR₁ : Tail s₁ R l := hR.congr fun z hz => f.body z (hnot z (List.mem_append_right _ hz))
  have hL₁ : ∀ z ∈ L, Emptied s₁ z := by
    intro z hz
    obtain ⟨nx, hnx⟩ := hL z hz
    exact ⟨nx, (f.body z (hnot z (List.mem_append_left _ hz))).trans hnx⟩
  have hlen : (x :: E).length = ([] : List (Option T)).length + 1 + E.length := by
    rw [List.length_cons, List.length_nil]; omega
  rw [hc.1, hc.2, hlen]
  refine (take_spec hA nodup hL₁ w.self hn.kind hn' (Nat.zero_min _) hn.next hR₁ c.leaf).mono ?_
  intro r s' hr
  obtain ⟨rfl, hat, f₂, hzero⟩ := hr
  have f' := f.trans f₂
  rw [Set.union_self, Set.union_self] at f'
  exact ⟨rfl, hat, f', hzero⟩

theorem next_spec {c : IntoIter} (h : IntoAt s v A l c) : Returns (next c) s (fun r s' =>
    r.1 = l.head? ∧ IntoAt s' v A l.tail r.2 ∧ Frame s s' {x | x ∈ A} ∅
      ∧ (l = [] ∧ s' = s ∧ r.2.leaf = none ∨ l ≠ [] ∧ ∃ slot, Took s s' A c r.2 slot)) := by
  cases h with
  | done hA => exact ⟨rfl, .done hA, Frame.refl s _ _, Or.inl ⟨rfl, rfl, rfl⟩⟩
  | @leaf L R a n zs rest ys l hA nodup hL ha hk hc hlen hn hR =>
      have hsub : ∀ b ∈ a :: R, ({b} : Set Addr) ⊆ {x | x ∈ A} := by
        intro b hb y he
        subst he
        rw [hA]
        exact List.mem_append_right _ hb
      cases ys with
      | cons y ys =>
          -- the item is in the leaf the cursor is in
          have hi : zs.length ≠ zs.length + (y :: ys).length := by simp
          have hlen' : zs.length + (y :: ys).length = zs.length + 1 + ys.length := by
            rw [List.length_cons]; omega
          simp only [next, if_neg hi]
          rw [hlen']
          refine (take_spec hA nodup hL ha hk hc (min_length_eq_zero hlen) hn hR (some a)).mono ?_
          intro r s' hr
          obtain ⟨rfl, hat, f, hzero⟩ := hr
          refine ⟨rfl, hat, f.mono (hsub a List.mem_cons_self) (Set.Subset.refl _), Or.inr ?_⟩
          refine ⟨List.cons_ne_nil _ _, (a, zs.length), rfl, rfl, ?_, hzero, fun x hx => ?_⟩
          · rw [← hlen']
            exact Or.inl ⟨rfl, rfl, hi, rfl⟩
          · exact f.read x hx (Set.notMem_empty x)
      | nil =>
          -- the leaf is exhausted, and the one after it is entered
          unfold next
          simp only [List.length_nil, Nat.add_zero, if_true, NodeRef.next, returns_bind,
            returns_derefLeaf, returns_pure]
          refine ⟨n, ha, ?_⟩
          have hL' : ∀ b ∈ L ++ [a], Emptied s b := by
            intro b hb
            rcases List.mem_append.mp hb with hb | hb
            · exact hL b hb
            · obtain rfl := List.mem_singleton.mp hb
              refine ⟨R.head?, Store.body_leaf.mpr ⟨n, ha, hk, ?_, ⟨_, rfl⟩, hn⟩⟩
              rw [hlen, List.length_nil, ite_self]
          cases R with
          | nil =>
              rw [hn, show l = [] from hR.row]
              exact ⟨rfl, .done (hA ▸ hL'), Frame.refl s _ _, Or.inl ⟨rfl, rfl, rfl⟩⟩
          | cons b R =>
              rw [hn]
              obtain ⟨x, E, l, rfl, hb, hR⟩ := hR.cons
              have hA' : A = (L ++ [a]) ++ b :: R := by
                rw [hA, List.append_assoc, List.singleton_append]
              have henter := enter_spec hA' nodup hL' hb hR
                ⟨some a, zs.length, zs.length, (x :: E ++ l).length, v⟩ ⟨rfl, rfl⟩
              simp only [returns_bind] at henter
              simp only [List.head?_cons, returns_bind]
              refine henter.mono ?_
              intro _ s₁ h₁
              refine Returns.mono h₁ ?_
              intro _ s₂ h₂
              refine Returns.mono h₂ ?_
              intro r s' hr
              obtain ⟨rfl, hat, f, hzero⟩ := hr
              have hbA := hsub b (List.mem_cons_of_mem _ List.mem_cons_self)
              refine ⟨rfl, hat, f.mono hbA (Set.Subset.refl _), Or.inr ?_⟩
              refine ⟨List.cons_ne_nil _ _, (b, 0), rfl, rfl, Or.inr ?_, hzero, fun x hx => ?_⟩
              · exact ⟨rfl, rfl, (lengthAt_of_body hb).symm, L, a, R, rfl, hA⟩
              · exact f.read x hx (Set.notMem_empty x)

end IntoIter

/-! ## The start -/

/-- `a` is the leaf of the first item, if there is one, and `R` are the leaves after it. -/
structure FirstLeaf (s : Store T P B) (root a : Addr) (R : List Addr) (E l : List T) : Prop where
  body : s.body a = some (.leaf E R.head?)
  row : RowAt s .leaf R l none
  leaves : ∃ U, s.leaves root = U ++ a :: R ∧ ∀ b ∈ U, Emptied s b
  nodup : (s.leaves root).Nodup
  last : E = [] → R = []

theorem Tree.firstLeaf (h : Tree s root Ds l) : Returns (leafFor root 0) s (fun r s' =>
    s' = s ∧ ∃ R E l', l = E ++ l' ∧ FirstLeaf s root r.1 R E l') := by
  have hl : Tree s root Ds ([] ++ l) := h
  refine hl.leafFor_spec.mono ?_
  intro r s' hr
  obtain ⟨rfl, U, V, As, l₁, xs, ys, l₂, hs, -⟩ := hr
  obtain ⟨rfl, rfl⟩ := List.append_eq_nil_iff.mp hs.pre_eq.symm
  have hU : s'.leaves root = U ++ r.1 :: V := h.leaves.trans hs.leaves
  refine ⟨rfl, V, ys, l₂, hs.post_eq, ?_, hs.row₂, ⟨U, hU, fun b hb => ?_⟩,
    h.leaves_nodup, hs.last⟩
  · have hleaf : s'.body r.1 = some (.leaf ys (V.head?.or none)) := hs.leaf
    rwa [Option.or_none] at hleaf
  · obtain ⟨E, nx, hE, hsub⟩ := hs.row₁.nodeAt hb
    obtain rfl := List.subset_nil.mp hsub
    exact ⟨nx, hE⟩

theorem lengthAt_ne_zero {b : Addr} (h : Tree s root Ds l) (hb : b ∈ s.leaves root) :
    s.lengthAt b ≠ 0 ↔ s.items b ≠ [] := by
  rw [h.leaves] at hb
  obtain ⟨xs, nx, hbody⟩ := h.counted.1.body_leaf hb
  rw [lengthAt_of_body hbody, Store.items, hbody]
  exact List.length_eq_zero_iff.not

/-- A gap could only be after the leaf where a traversal starts. -/
theorem FirstLeaf.noGap_iff {E l' : List T} (h : Tree s root Ds l) (hf : FirstLeaf s root a R E l')
    {n : Nat} : NoGap ⟨some root, n⟩ s ↔ ∀ b ∈ R, s.items b ≠ [] := by
  obtain ⟨U, hU, hempty⟩ := hf.leaves
  have hmem : ∀ b, b ∈ U ++ a :: R → (s.lengthAt b ≠ 0 ↔ s.items b ≠ []) := fun b hb =>
    lengthAt_ne_zero h (hU ▸ hb)
  have ha : s.items a = E := by rw [Store.items, hf.body]; rfl
  constructor
  · intro hgap b hb
    have hp := hgap root rfl
    rw [hU, List.pairwise_append, List.pairwise_cons] at hp
    have hE : E ≠ [] := fun hE => absurd hb (by rw [hf.last hE]; exact List.not_mem_nil)
    have hab := hp.2.1.1 b hb
    rw [hmem a (mem_mid.mpr (Or.inl rfl)), hmem b (mem_mid.mpr (Or.inr (Or.inr hb))), ha] at hab
    exact hab hE
  · intro hfull r hr
    obtain rfl := Option.some.inj hr
    have hR : ∀ b ∈ R, s.lengthAt b ≠ 0 := fun b hb =>
      (hmem b (mem_mid.mpr (Or.inr (Or.inr hb)))).mpr (hfull b hb)
    have hU0 : ∀ b ∈ U, ¬ s.lengthAt b ≠ 0 := by
      intro b hb h0
      obtain ⟨nx, hnx⟩ := hempty b hb
      refine (hmem b (mem_mid.mpr (Or.inr (Or.inl hb)))).mp h0 ?_
      rw [Store.items, hnx]
      rfl
    rw [hU, List.pairwise_append, List.pairwise_cons]
    refine ⟨?_, ⟨fun b hb _ => hR b hb, ?_⟩, fun b hb _ _ h0 => absurd h0 (hU0 b hb)⟩
    · exact List.pairwise_of_forall_mem_list fun b hb _ _ h0 => absurd h0 (hU0 b hb)
    · exact List.pairwise_of_forall_mem_list fun _ _ c hc _ => hR c hc

theorem FirstLeaf.tail {E l' : List T} (h : Tree s root Ds l) (hf : FirstLeaf s root a R E l')
    {n : Nat} (hgap : NoGap ⟨some root, n⟩ s) : Tail s R l' :=
  ⟨hf.row, (hf.noGap_iff h).mp hgap⟩

theorem Cursor.start_spec (h : VecAt s v l F) (hgap : NoGap v s) :
    Returns (start v) s (fun c s' => s' = s ∧ CursorAt s l c) := by
  cases h with
  | empty => exact ⟨rfl, .done⟩
  | @tree root Ds l h =>
      unfold start
      simp only [returns_bind, returns_pure]
      refine h.firstLeaf.mono ?_
      intro r s' hr
      obtain ⟨rfl, R, E, l', rfl, hf⟩ := hr
      have hb : s'.body r.1 = some (.leaf ([] ++ E) R.head?) := hf.body
      exact ⟨rfl, .leaf hb (hf.tail h hgap)⟩

/-- The leaves of the vector. -/
def Store.leavesOf (s : Store T P B) (v : BTreeVec) : List Addr :=
  match v.root with
  | none => []
  | some root => s.leaves root

theorem VecAt.leaves_nodup (h : VecAt s v l F) : (s.leavesOf v).Nodup := by
  cases h with
  | empty => exact List.nodup_nil
  | tree h => exact h.leaves_nodup

theorem BTreeVec.intoIter_spec (h : VecAt s v l F) (hgap : NoGap v s) :
    Returns v.intoIter s (fun c s' => s' = s ∧ IntoAt s v (s.leavesOf v) l c ∧ c.index = 0) := by
  cases h with
  | empty => exact ⟨rfl, .done fun b hb => absurd hb List.not_mem_nil, rfl⟩
  | @tree root Ds l h =>
      unfold intoIter
      simp only [returns_bind, returns_pure]
      refine h.firstLeaf.mono ?_
      intro r s' hr
      obtain ⟨rfl, R, E, l', rfl, hf⟩ := hr
      have hE : NodeAt s' .leaf r.1 E R.head? := hf.body
      rw [Node.length_spec hE]
      obtain ⟨n, hn, hh⟩ := Store.body_leaf.mp hf.body
      obtain ⟨rest, hc⟩ := hh.children
      obtain ⟨U, hU, hempty⟩ := hf.leaves
      have hc' : n.children.toList = [] ++ (E.map some ++ rest) := hc
      have := IntoAt.leaf (v := ⟨some root, (E ++ l').length⟩) hU hf.nodup hempty hn
        hh.kind hc' hh.length hh.next (hf.tail h hgap)
      rw [List.length_nil, Nat.zero_add] at this
      exact ⟨rfl, this, trivial⟩

/-! ## A traversal goes through just when there is no gap -/

theorem VecAt.traversed (h : VecAt s v l F) (hgap : NoGap v s) : Traversed v s l where
  len := h.size
  get i := by
    obtain ⟨r, s', he, rfl, rfl⟩ := returns_iff.mp (h.get i)
    exact he
  iter k := by
    rw [returns_bind, BTreeVec.iter]
    refine (Cursor.start_spec h hgap).mono ?_
    intro c s' hc
    obtain ⟨rfl, hc⟩ := hc
    refine returns_drain (fun l c t => t = s' ∧ CursorAt s' l c) (fun l c t ht => ht.2.sizeHint) ?_
      ⟨rfl, hc⟩
    -- one call of `next`, from a cursor that has `l` to come
    intro l c t ht
    obtain ⟨rfl, hc⟩ := ht
    exact Iter.next_spec hc
  iterMut k := by
    rw [returns_bind, BTreeVec.iterMut]
    refine (Cursor.start_spec h hgap).mono ?_
    intro c s' hc
    obtain ⟨rfl, hc⟩ := hc
    refine returns_drain (fun l c t => t = s' ∧ CursorAt s' l c) (fun l c t ht => ht.2.sizeHint) ?_
      ⟨rfl, hc⟩
    intro l c t ht
    obtain ⟨rfl, hc⟩ := ht
    exact IterMut.nextItem_spec hc
  intoIter k := by
    rw [returns_bind]
    refine (BTreeVec.intoIter_spec h hgap).mono ?_
    intro c s' hc
    obtain ⟨rfl, hc, _⟩ := hc
    refine returns_drain (fun l c t => IntoAt t v (s'.leavesOf v) l c)
      (fun l c t => IntoIter.sizeHint_spec) ?_ hc
    intro l c t hc
    exact (IntoIter.next_spec hc).mono fun _ _ hr => ⟨hr.1, hr.2.1⟩

theorem LeafNode.child_returns {xs : List T} {nx : Option Addr} {i : Nat}
    {Q : T → Store T P B → Prop} (hb : s.body a = some (.leaf xs nx))
    (h : Returns (child a i) s Q) : ∃ x, xs[i]? = some x ∧ Q x s := by
  cases hx : xs[i]? with
  | some x => exact ⟨x, rfl, (child_spec hb hx).mp h⟩
  | none =>
      obtain ⟨n, hr, hn⟩ := Store.body_leaf.mp hb
      obtain ⟨rest, hc⟩ := hn.children
      have hsl := Slots.slice?_prefix hc
      rw [List.length_map, ← hn.length] at hsl
      have hx' : (xs.map some)[i]? = none := by rw [List.getElem?_map, hx]; rfl
      simp [child, hr, hsl, hx'] at h

/-- A traversal that stops nowhere has met no empty leaf. -/
theorem Iter.full_of_drains {E l' : List T} {i m : Nat} (ha : s.body a = some (.leaf E R.head?))
    (hi : i ≤ E.length) (hR : RowAt s .leaf R l' none)
    (h : Drains Cursor.sizeHint Iter.next ⟨some a, i, m⟩ s) : ∀ b ∈ R, s.items b ≠ [] := by
  -- by the leaves still to come, and in a leaf by the items still to come
  induction R generalizing a E l' i m with
  | nil => intro b hb; exact absurd hb List.not_mem_nil
  | cons b R ihR =>
      obtain ⟨k, hk⟩ := Nat.exists_eq_add_of_le hi
      induction k generalizing i m with
      | zero =>
          obtain rfl : i = E.length := hk.symm
          obtain ⟨E', l', rfl, hE', hR⟩ := hR
          have hb : s.body b = some (.leaf E' (R.head?.or none)) := hE'
          rw [Option.or_none] at hb
          have hn := h.next
          rw [Iter.next, returns_bind, Cursor.advance_move ha] at hn
          obtain ⟨_, hn⟩ := hn
          rw [Cursor.item, returns_bind] at hn
          obtain ⟨x, hx, hd⟩ := LeafNode.child_returns hb hn
          rw [returns_pure] at hd
          obtain ⟨hlt, _⟩ := List.getElem?_eq_some_iff.mp hx
          have hrest := ihR hb hlt hR hd
          intro c hc
          rcases List.mem_cons.mp hc with rfl | hc
          · rw [Store.items, hb]
            exact List.ne_nil_of_length_pos hlt
          · exact hrest c hc
      | succ k ihk =>
          have hn := h.next
          rw [Iter.next, returns_bind, Cursor.advance_stay ha (by omega)] at hn
          obtain ⟨_, hn⟩ := hn
          rw [Cursor.item, returns_bind] at hn
          obtain ⟨x, _, hd⟩ := LeafNode.child_returns ha hn
          rw [returns_pure] at hd
          exact ihk (by omega) hd (by omega)

theorem VecAt.noGap (h : VecAt s v l F) (ht : Traversed v s l) : NoGap v s := by
  cases h with
  | empty => intro r hr; cases hr
  | @tree root Ds l h =>
      obtain ⟨r, s', he, rfl, R, E, l', rfl, hf⟩ := returns_iff.mp h.firstLeaf
      refine (hf.noGap_iff h).mpr (Iter.full_of_drains (i := 0) (m := (E ++ l').length) hf.body
        (Nat.zero_le _) hf.row ?_)
      intro k
      have hk := ht.iter k
      unfold BTreeVec.iter at hk
      simp only [Cursor.start, returns_bind, returns_pure] at hk
      rw [Returns, he] at hk
      exact hk.mono fun _ _ _ => trivial

/-- Only one list can be what the indices give. -/
theorem VecAt.traversed_unique (h : VecAt s v l F) {l' : List T} (ht : Traversed v s l') :
    l' = l := by
  refine List.ext_getElem? fun i => ?_
  have hg := h.get i
  rw [Returns, ht.get i] at hg
  exact hg.1

/-- Only a leaf that is the root may be empty. -/
def LeavesFilled (v : BTreeVec) (s : Store T P B) : Prop :=
  ∀ a ∈ s.leavesOf v, v.root ≠ some a → s.lengthAt a ≠ 0

theorem LeavesFilled.noGap (hf : LeavesFilled v s) (h : VecAt s v l F) : NoGap v s := by
  intro r hr
  cases h with
  | empty => cases hr
  | @tree root Ds l ht =>
      obtain rfl := Option.some.inj hr
      cases Ds with
      | nil =>
          rw [ht.leaves]
          exact List.pairwise_singleton _ _
      | cons D Ds =>
          refine List.pairwise_of_forall_mem_list fun _ _ b hb _ => hf b hb fun he => ?_
          obtain rfl := Option.some.inj he
          rw [ht.leaves] at hb
          obtain ⟨xs, nx, hbody⟩ := ht.counted.1.body_leaf hb
          obtain ⟨E, nx', hE⟩ := ht.below.nodeAt List.mem_cons_self
          have hi : s.body root = some (.internal E) := hE.1
          rw [hbody] at hi
          cases hi

/-- With `B` at least 4 only a lone leaf can be empty. -/
theorem VecAt.leavesFilled (h : VecAt s v l F) (hB : 4 ≤ B) : LeavesFilled v s := by
  intro b hb hroot
  cases h with
  | empty => exact absurd hb List.not_mem_nil
  | @tree root Ds l ht =>
      have hb : b ∈ s.leaves root := hb
      rw [ht.leaves] at hb
      obtain ⟨xs, nx, hbody⟩ := ht.counted.1.body_leaf hb
      obtain ⟨As, _, hperm⟩ := ht.atLeaves
      have hmem := hperm.mem_iff.mp (List.mem_append_right _ (List.mem_append_left _ hb))
      rw [(rowNodes_root_perm Ds root).mem_iff, List.singleton_append, List.mem_cons] at hmem
      have hD := hmem.resolve_left fun he => hroot (by rw [he])
      have hwide := ht.below.wide hB (fun hne a ha => List.mem_singleton.mp ha ▸ ht.wide hne) b hD
      have hw : s.width b = xs.length := by rw [Store.width, hbody]; rfl
      rw [lengthAt_of_body hbody]
      show xs.length ≠ 0
      omega

theorem Sound.leavesFilled (h : Sound v s l F) (hB : 4 ≤ B) : LeavesFilled v s :=
  h.vec.leavesFilled hB

theorem Sound.noGap (h : Sound v s l F) (hB : 4 ≤ B) : NoGap v s :=
  (h.leavesFilled hB).noGap h.vec

/--
**Traversal and indices agree just when there is no gap** in the leaf chain, and there
never is one if `B` is at least 4.
-/
theorem traversal_iff (h : Reachable v s) :
    ((∃ l, Traversed v s l) ↔ NoGap v s) ∧ (4 ≤ B → NoGap v s) := by
  obtain ⟨l, F, hs⟩ := h.sound
  refine ⟨⟨fun ⟨l', ht⟩ => ?_, fun hgap => ⟨l, hs.vec.traversed hgap⟩⟩, hs.noGap⟩
  obtain rfl := hs.vec.traversed_unique ht
  exact hs.vec.noGap ht

theorem pushed_four : ∃ (v : BTreeVec) (s : Store Nat PairPtr 4),
    history ((List.range 8).map .push) Store.empty = .ok v s ∧ v.size = 8 :=
  returns_iff.mp (by decide +kernel)

theorem traversal_iff_pushed : ∃ (v : BTreeVec) (s : Store Nat PairPtr 4), v.size = 8
    ∧ ((∃ l, Traversed v s l) ↔ NoGap v s) ∧ (4 ≤ 4 → NoGap v s) := by
  obtain ⟨v, s, h, hsize⟩ := pushed_four
  exact ⟨v, s, hsize, traversal_iff (.history h)⟩

theorem grownAndShrunk_next : ∃ (v : BTreeVec) (s : Store Nat PairPtr 3),
    history grownAndShrunk Store.empty = .ok v s ∧ v.size = 3
      ∧ ¬ Returns (do drain Cursor.sizeHint Iter.next 4 (← v.iter)) s (fun _ _ => True) :=
  returns_iff.mp (by decide +kernel)

/-- Three items, and the fourth call, which should give nothing, takes 1 off a count of 0. -/
theorem traversal_fails_three : ∃ (v : BTreeVec) (s : Store Nat PairPtr 3),
    history grownAndShrunk Store.empty = .ok v s ∧ v.size = 3 ∧ ¬ ∃ l, Traversed v s l := by
  obtain ⟨v, s, h, hsize, hn⟩ := grownAndShrunk_next
  refine ⟨v, s, h, hsize, fun ⟨l, ht⟩ => hn ((ht.iter 4).mono fun _ _ _ => trivial)⟩

end BTreeVec
