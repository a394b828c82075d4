import BTreeVec.Proof.Ownership
import BTreeVec.Proof.Skip

/-!
# Taking a vector apart, item by item

An item leaves the vector in one of three ways: `next` hands it out, `IntoIter::drop` takes
it out of the leaf the cursor is in, or the drop of the leaf it is in drops it. What keeps
them apart is the length of the leaf. A leaf is without length from the moment its first
item is taken, so a ledger of the slots that were taken, at the positions 0, 1, 2 and so
on, is never at odds with what the leaves still cover.
-/

set_option linter.dupNamespace false

namespace BTreeVec

open Prog

variable {T P : Type} {B : Nat} [TaggedPtr P] {s₀ s s' t : Store T P B} {v : BTreeVec}
  {l : List T} {F : Set Addr} {root a : Addr} {A : List Addr} {c c' : IntoIter} {slot : Slot}
  {n k : Nat} {tr : List (Slot × Store T P B)}

/-! ## What is to be shown -/

/--
The items that the `k` calls gave in `ys`, that `IntoIter::drop` took out, and that were dropped
with the leaves are those of the vector. The slots in `tr` were taken one after another.
-/
structure Accounted (v : BTreeVec) (s s' : Store T P B) (k : Nat) (ys : List (Option T))
    (tr : List (Slot × Store T P B)) : Prop where
  /-- The calls give the items in order, and nothing after the last. -/
  given : ys = (List.range k).map fun i => (s.itemsOf v)[i]?
  items : ∃ taken left, ys.filterMap id ++ taken ++ left = s.itemsOf v
    ∧ s'.dropped = s.dropped ++ taken ++ left
    ∧ tr.map (fun p => s.slot p.1) = (ys.filterMap id ++ taken).map some
  /-- A slot that is taken was filled, and was not taken before. -/
  filled : ∀ p ∈ tr, ∃ i, SlotAt s (s.leavesOf v) p.1 i
  once : (tr.map Prod.fst).Nodup
  /-- No length covers a slot that was taken, neither right after that nor later. -/
  uncovered : ∀ p ∈ tr, p.2.lengthAt p.1.1 ≤ p.1.2
  stays : tr.Pairwise fun p q => q.2.lengthAt p.1.1 ≤ p.1.2

/-! ## The ledger -/

omit [TaggedPtr P] in
/--
The slots in `tr`, taken one after another from the store `s` on, are those of the items
from the index `n` on in `s₀`. Each is in a leaf without length from then on.
-/
structure Ledger (s₀ : Store T P B) (A : List Addr) (s : Store T P B) (n : Nat)
    (tr : List (Slot × Store T P B)) : Prop where
  slots : List.Forall₂ (SlotAt s₀ A) (tr.map Prod.fst) (List.range' n tr.length)
  zero : ∀ p ∈ tr, p.2.lengthAt p.1.1 = 0
  kept : ∀ p ∈ tr, ∀ x, s.lengthAt x = 0 → p.2.lengthAt x = 0
  stays : tr.Pairwise fun p q => q.2.lengthAt p.1.1 = 0

namespace Ledger

omit [TaggedPtr P]

theorem nil : Ledger s₀ A s n [] where
  slots := .nil
  zero _ hp := absurd hp List.not_mem_nil
  kept _ hp := absurd hp List.not_mem_nil
  stays := .nil

theorem cons (hslot : SlotAt s₀ A slot n) (hzero : s'.lengthAt slot.1 = 0)
    (hkept : ∀ x, s.lengthAt x = 0 → s'.lengthAt x = 0) (h : Ledger s₀ A s' (n + 1) tr) :
    Ledger s₀ A s n ((slot, s') :: tr) where
  slots := .cons hslot h.slots
  zero p hp := by
    rcases List.mem_cons.mp hp with rfl | hp
    · exact hzero
    · exact h.zero p hp
  kept p hp x hx := by
    rcases List.mem_cons.mp hp with rfl | hp
    · exact hkept x hx
    · exact h.kept p hp x (hkept x hx)
  stays := .cons (fun q hq => h.kept q hq _ hzero) h.stays

end Ledger

omit [TaggedPtr P] in
/-- Nothing but a leaf that has lost its length was written. -/
theorem lengthAt_zero (hzero : s'.lengthAt a = 0)
    (ho : ∀ x, x ≠ a → s'.heap.read x = s.heap.read x) {x : Addr} (hx : s.lengthAt x = 0) :
    s'.lengthAt x = 0 := by
  by_cases hxa : x = a
  · rw [hxa]
    exact hzero
  · rw [Store.lengthAt, ho x hxa]
    exact hx

/-! ## The cursor and the ledger -/

omit [TaggedPtr P] in
/-- The first `n` items of `s₀` were taken: all before the cursor, and none after it. -/
structure Progress (s₀ s : Store T P B) (A : List Addr) (c : IntoIter) (n : Nat) : Prop where
  place : ∀ a, c.leaf = some a → ∃ L R, A = L ++ a :: R ∧ c.length = s₀.lengthAt a
    ∧ c.index ≤ c.length ∧ s₀.weight L + c.index = n ∧ ∀ b ∈ R, s.lengthAt b = s₀.lengthAt b

omit [TaggedPtr P] in
/-- The slot that a call takes is the one of the next item. -/
theorem Progress.step (h : Progress s₀ s A c n) (hnd : A.Nodup) (ht : Took s s' A c c' slot)
    (hle : c'.index ≤ c'.length) : SlotAt s₀ A slot n ∧ Progress s₀ s' A c' (n + 1) := by
  have hindex := ht.index
  have hother : ∀ {L R : List Addr}, A = L ++ slot.1 :: R → ∀ b ∈ R,
      s'.lengthAt b = s.lengthAt b := by
    intro L R hA b hb
    rw [hA, List.nodup_middle, List.nodup_cons] at hnd
    rw [Store.lengthAt, ht.other b fun he => hnd.1 (he ▸ List.mem_append_right _ hb)]
    rfl
  rcases ht.place with ⟨hleaf, hi, hne, hlen⟩ | ⟨hi, hend, hlen, L, a, R, hleaf, hA⟩
  · -- the item is in the leaf the call started at
    obtain ⟨L, R, hA, hlen₀, hle₀, hn, hR⟩ := h.place slot.1 hleaf
    refine ⟨⟨L, R, hA, by omega, by omega⟩, ⟨fun b hb => ?_⟩⟩
    rw [ht.leaf, Option.some.injEq] at hb
    subst hb
    refine ⟨L, R, hA, hlen.trans hlen₀, hle, by omega, fun b hb => ?_⟩
    rw [hother hA b hb]
    exact hR b hb
  · -- the item is the first of the next leaf, and the two places that name it agree
    obtain ⟨L', R', hA', hlen₀, hle₀, hn, hR⟩ := h.place a hleaf
    obtain ⟨rfl, rfl⟩ := mid_unique (hA' ▸ hnd) (hA'.symm.trans hA)
    have hA₂ : A = (L' ++ [a]) ++ slot.1 :: R := by rw [hA]; simp
    have hlen' := hlen.trans (hR slot.1 List.mem_cons_self)
    have hw : s₀.weight (L' ++ [a]) = n := by
      rw [weight_append, weight_cons, weight_nil]
      omega
    refine ⟨⟨L' ++ [a], R, hA₂, by omega, by omega⟩, ⟨fun b hb => ?_⟩⟩
    rw [ht.leaf, Option.some.injEq] at hb
    subst hb
    refine ⟨L' ++ [a], R, hA₂, hlen', hle, by omega, fun b hb => ?_⟩
    rw [hother hA₂ b hb]
    exact hR b (List.mem_cons_of_mem _ hb)

theorem IntoAt.index_le (h : IntoAt s v A l c) (hc : c.leaf = some a) : c.index ≤ c.length := by
  cases h with
  | done hA => cases hc
  | leaf hA nodup hL ha hk hc hlen hn hR => exact Nat.le_add_right _ _

/-! ## The rest of a leaf -/

section
variable {m : LeafNode T P B} {zs rest : List (Option T)} {ys : List T}

omit [TaggedPtr P] in
/-- What `IntoIter::drop` takes out of the leaf it is at. -/
theorem LeafNode.takeRest_spec (ha : s.heap.read a = some (.leaf m))
    (hc : m.children.toList = zs ++ (ys.map some ++ rest))
    (hlen : m.length = if zs = [] then ys.length else 0) :
    Returns (forEach (List.range' zs.length ys.length) fun i => do
        let item ← takeChild a i
        modify fun s => { s with dropped := s.dropped ++ [item] } : Exec T P B Unit) s
      (fun _ t => ∃ m', t.heap.read a = some (.leaf m') ∧ m'.length = 0
        ∧ m'.nodePrefix = m.nodePrefix ∧ m'.next = m.next
        ∧ (∀ x, x ≠ a → t.heap.read x = s.heap.read x) ∧ t.heap.next = s.heap.next
        ∧ t.dropped = s.dropped ++ ys) := by
  induction ys generalizing zs s m with
  | nil =>
      rw [List.length_nil, List.range'_zero]
      refine ⟨m, ha, ?_, rfl, rfl, fun _ _ => rfl, rfl, (List.append_nil _).symm⟩
      rw [hlen, List.length_nil, ite_self]
  | cons y ys ih =>
      rw [List.length_cons, List.range'_succ, forEach, returns_bind, returns_bind]
      -- the slot taken joins the empty ones to the left: `zs` grows by `none`
      refine (takeChild_spec ha hc).mono ?_
      intro x s₁ h₁
      obtain ⟨rfl, c, hcs, w⟩ := h₁
      rw [returns_modify]
      have hcs' : c.toList = zs ++ [none] ++ (ys.map some ++ rest) := by
        rw [List.append_assoc, List.singleton_append]
        exact hcs
      have hrest := ih (s := { s₁ with dropped := s₁.dropped ++ [x] }) w.self hcs'
        (by simp [min_length_eq_zero hlen])
      rw [List.length_append, List.length_singleton] at hrest
      refine hrest.mono ?_
      intro _ t ht
      obtain ⟨m', hr, hm, hp, hnx, ho, hnext, hd⟩ := ht
      refine ⟨m', hr, hm, hp, hnx, fun z hz => ?_, hnext.trans w.next, ?_⟩
      · rw [ho z hz]
        exact w.other z hz
      · rw [hd, w.dropped, List.append_assoc, List.singleton_append]

omit [TaggedPtr P] in
theorem IntoIter.takesOf_spec (ha : s.heap.read a = some (.leaf m))
    (hc : m.children.toList = zs ++ (ys.map some ++ rest))
    (hlen : m.length = if zs = [] then ys.length else 0)
    (hslot : ∀ j < ys.length, SlotAt s₀ A (a, zs.length + j) (n + j)) :
    (takesOf a (List.range' zs.length ys.length) s).length = ys.length
      ∧ Ledger s₀ A s n (takesOf a (List.range' zs.length ys.length) s) := by
  induction ys generalizing zs s m n with
  | nil => exact ⟨rfl, .nil⟩
  | cons y ys ih =>
      obtain ⟨x, s₁, he, rfl, c, hcs, w⟩ := returns_iff.mp (LeafNode.takeChild_spec ha hc)
      rw [List.length_cons, List.range'_succ, takesOf, he]
      have hcs' : c.toList = zs ++ [none] ++ (ys.map some ++ rest) := by
        rw [List.append_assoc, List.singleton_append]
        exact hcs
      have hzero := min_length_eq_zero hlen
      -- what is left starts a slot and a position later
      have hslot' : ∀ j < ys.length, SlotAt s₀ A (a, (zs ++ [none]).length + j) (n + 1 + j) := by
        intro j hj
        have := hslot (j + 1) (Nat.succ_lt_succ hj)
        rw [List.length_append, List.length_singleton]
        rwa [show zs.length + 1 + j = zs.length + (j + 1) by omega,
          show n + 1 + j = n + (j + 1) by omega]
      obtain ⟨hcount, hledger⟩ := ih (s := { s₁ with dropped := s₁.dropped ++ [x] }) w.self hcs'
        (by simp [hzero]) hslot'
      rw [List.length_append, List.length_singleton] at hcount hledger
      have hempty : Store.lengthAt { s₁ with dropped := s₁.dropped ++ [x] } a = 0 := by
        rw [Store.lengthAt, w.self]
        exact hzero
      refine ⟨congrArg (· + 1) hcount, .cons (hslot 0 (Nat.succ_pos _)) hempty ?_ hledger⟩
      intro z hz
      exact lengthAt_zero hempty w.other hz

end

/-! ## Dropping the iterator -/

/-- The items of the leaves `A` of `s` may have gone, and nothing else happened to the nodes. -/
structure Drained (s t : Store T P B) (A : List Addr) : Prop where
  body : ∀ x, x ∉ A → t.body x = s.body x
  link : ∀ x, t.link x = s.link x
  next_le : s.heap.next ≤ t.heap.next
  leaf : ∀ b ∈ A, ∃ xs nx, t.body b = some (.leaf xs nx)

theorem VecAt.leaves_mem (h : VecAt s v l F) (ha : a ∈ s.leavesOf v) : a ∈ F := by
  cases h with
  | empty => exact absurd ha List.not_mem_nil
  | @tree root Ds l h =>
      have ha : a ∈ s.leaves root := ha
      rw [h.leaves] at ha
      exact h.nodesUnder_perm.mem_iff.mp (s.leavesUnder_subset _ _ ha)

/-- Dropping a vector of which the items were taken from the leaves drops what is left. -/
theorem VecAt.drop_drained (h : VecAt s v l F) (hd : Drained s t (s.leavesOf v)) :
    Returns v.drop t (fun _ t' => t'.dropped = t.dropped ++ (s.leavesOf v).flatMap t.items
      ∧ ∀ x, x ∉ F → t'.heap.read x = t.heap.read x) := by
  cases h with
  | empty => exact ⟨(List.append_nil _).symm, fun _ _ => rfl⟩
  | @tree root Ds l h =>
      obtain ⟨hc, _⟩ := h.counted
      have hA : s.leavesOf ⟨some root, l.length⟩ = s.leavesUnder Ds.length root := h.leaves
      rw [hA] at hd ⊢
      obtain ⟨htall, hnodes, hleaves⟩ := hc.tall.congr fun x _ => by
        by_cases hx : x ∈ s.leavesUnder Ds.length root
        · exact Or.inr ⟨hc.body_leaf hx, hd.leaf x hx⟩
        · exact Or.inl (hd.body x hx)
      have hperm := hnodes ▸ h.nodesUnder_perm
      have hlt := Nat.lt_of_lt_of_le hc.height_lt hd.next_le
      refine (BTreeVec.drop_spec htall hlt ((hd.link root).trans h.link)
        (hperm.nodup_iff.mpr h.nodup)).mono ?_
      intro _ t' hraz
      refine ⟨?_, fun x hx => hraz.other x fun hm => hx (hperm.mem_iff.mp hm)⟩
      rw [hraz.dropped, Store.itemsUnder, hleaves]

theorem Emptied.items (h : Emptied s a) : s.items a = [] := by
  obtain ⟨nx, hb⟩ := h
  rw [Store.items, hb]
  rfl

theorem RowAt.body_leaf {U : List Addr} {nx : Option Addr} (h : RowAt s .leaf U l nx) (ha : a ∈ U) :
    ∃ xs nx, s.body a = some (.leaf xs nx) := by
  obtain ⟨E, nx, hE, _⟩ := h.nodeAt ha
  exact ⟨E, nx, hE⟩

namespace IntoIter

/-- Dropping the iterator drops the items that are to come, and ends the vector. -/
theorem drop_spec (hv : VecAt s₀ v l F) {l' : List T}
    (h : IntoAt s v (s₀.leavesOf v) l' c) (f : Frame s₀ s {x | x ∈ s₀.leavesOf v} ∅)
    (hp : Progress s₀ s (s₀.leavesOf v) c n) :
    Returns c.drop s (fun _ t => ∃ taken left, l' = taken ++ left
      ∧ t.dropped = s.dropped ++ taken ++ left ∧ (∀ x, x ∉ F → t.heap.read x = s.heap.read x)
      ∧ (takes 0 c s).length = taken.length
      ∧ Ledger s₀ (s₀.leavesOf v) s n (takes 0 c s)) := by
  have hlink : ∀ x, s.link x = s₀.link x := fun x => f.link x (Set.notMem_empty x)
  cases h with
  | done hA =>
      -- every leaf was emptied by `next` before
      have hd : Drained s₀ s (s₀.leavesOf v) := by
        refine ⟨fun x hx => f.body x hx, hlink, f.next_le, fun b hb => ?_⟩
        obtain ⟨nx, hnx⟩ := hA b hb
        exact ⟨[], nx, hnx⟩
      refine (hv.drop_drained hd).mono ?_
      intro _ t ht
      refine ⟨[], [], rfl, ?_, ht.2, rfl, .nil⟩
      rw [ht.1, List.append_nil, List.append_right_inj]
      exact List.flatMap_eq_nil_iff.mpr fun b hb => (hA b hb).items
  | @leaf L R a m zs rest ys l' hA nodup hL ha hk hc hlen hm hR =>
      unfold IntoIter.drop
      simp only [returns_bind, Nat.add_sub_cancel_left]
      -- the rest of the leaf the iterator is in goes first
      refine (LeafNode.takeRest_spec ha hc hlen).mono ?_
      intro _ s₁ h₁
      obtain ⟨m', hr, hlen', hpre, hnx, ho, hnext, hdrop⟩ := h₁
      have hbody : ∀ x, x ≠ a → s₁.body x = s.body x := fun x hx => by
        rw [Store.body, ho x hx]; rfl
      have haA : a ∈ s₀.leavesOf v := hA ▸ mem_mid.mpr (Or.inl rfl)
      have ha₁ : Emptied s₁ a :=
        ⟨R.head?, Store.body_leaf.mpr ⟨m', hr, by rw [hpre]; exact hk, hlen', ⟨_, rfl⟩,
          hnx.trans hm⟩⟩
      have hnot : a ∉ L ++ R := by
        rw [hA, List.nodup_middle, List.nodup_cons] at nodup
        exact nodup.1
      have hL₁ : ∀ b ∈ L, Emptied s₁ b := by
        intro b hb
        obtain ⟨nx, hnx⟩ := hL b hb
        exact ⟨nx, (hbody b fun he => hnot (he ▸ List.mem_append_left _ hb)).trans hnx⟩
      have hR₁ : Tail s₁ R l' := hR.congr fun b hb =>
        hbody b fun he => hnot (he ▸ List.mem_append_right _ hb)
      -- what the tree has left is the leaves to the right
      have hd : Drained s₀ s₁ (s₀.leavesOf v) := by
        refine ⟨fun x hx => ?_, fun x => ?_, hnext ▸ f.next_le, fun b hb => ?_⟩
        · rw [hbody x fun he => hx (he ▸ haA)]
          exact f.body x hx
        · rw [← hlink x]
          by_cases hx : x = a
          · rw [hx, Store.link, Store.link, hr, ha, Option.map_some, Option.map_some, Cell.link,
              Cell.link, Cell.nodePrefix, Cell.nodePrefix, hpre]
          · rw [Store.link, ho x hx]; rfl
        · rw [hA, mem_mid] at hb
          rcases hb with rfl | hb | hb
          · exact ⟨[], ha₁⟩
          · exact ⟨[], hL₁ b hb⟩
          · exact hR₁.row.body_leaf hb
      refine (hv.drop_drained hd).mono ?_
      intro _ t ht
      obtain ⟨hdrop', hother⟩ := ht
      refine ⟨ys, l', rfl, ?_, fun x hx => ?_, ?_⟩
      · rw [hdrop', hdrop, hA, List.flatMap_append, List.flatMap_cons, ha₁.items,
          List.flatMap_eq_nil_iff.mpr fun b hb => (hL₁ b hb).items, hR₁.row.items]
        rfl
      · rw [hother x hx, ho x fun he => hx (he ▸ hv.leaves_mem haA)]
      · obtain ⟨L', R', hA', hlen₀, _, hw, _⟩ := hp.place a rfl
        simp only [takes, Nat.add_sub_cancel_left]
        refine takesOf_spec ha hc hlen fun j hj => ⟨L', R', hA', ?_, ?_⟩
        · show zs.length + j < s₀.lengthAt a
          rw [← hlen₀]
          exact Nat.add_lt_add_left hj _
        · show s₀.weight L' + (zs.length + j) = n + j
          rw [← hw, Nat.add_assoc]

omit [TaggedPtr P] in
theorem takes_some {x : T} {c₁ : IntoIter} {s₁ : Store T P B}
    (he : (next c : Exec T P B (Option T × IntoIter)) s = .ok (some x, c₁) s₁)
    (hleaf : c₁.leaf = some slot.1) (hindex : c₁.index = slot.2 + 1) :
    takes (k + 1) c s = (slot, s₁) :: takes k c₁ s₁ := by
  rw [takes, he]
  simp [hleaf, hindex]

omit [TaggedPtr P] in
theorem takes_none {c₁ : IntoIter} {s₁ : Store T P B}
    (he : (next c : Exec T P B (Option T × IntoIter)) s = .ok (none, c₁) s₁) :
    takes (k + 1) c s = takes k c₁ s₁ := by
  rw [takes, he]
  rfl

theorem range_map_getElem? (l : List T) (k : Nat) :
    (List.range (k + 1)).map (l[·]?) = l.head? :: (List.range k).map (l.tail[·]?) := by
  rw [List.range_succ_eq_map, List.map_cons, List.map_map, List.head?_eq_getElem?]
  refine congrArg _ (List.map_congr_left fun i _ => ?_)
  exact List.getElem?_tail.symm

/-- The calls of `next`, and then the drop, go through the items to come. -/
theorem consume_spec (hv : VecAt s₀ v l F) (hnd : (s₀.leavesOf v).Nodup) {l' : List T}
    (h : IntoAt s v (s₀.leavesOf v) l' c) (f : Frame s₀ s {x | x ∈ s₀.leavesOf v} ∅)
    (hp : Progress s₀ s (s₀.leavesOf v) c n) (k : Nat) :
    Returns (consume k c) s (fun ys t => ys = (List.range k).map (l'[·]?)
      ∧ ∃ taken left, l' = ys.filterMap id ++ taken ++ left
        ∧ t.dropped = s.dropped ++ taken ++ left ∧ (∀ x, x ∉ F → t.heap.read x = s.heap.read x)
        ∧ (takes k c s).length = (ys.filterMap id ++ taken).length
        ∧ Ledger s₀ (s₀.leavesOf v) s n (takes k c s)) := by
  induction k generalizing s c l' n with
  | zero =>
      rw [consume, returns_bind]
      -- no more calls of `next`: what is left is dropped
      refine (drop_spec hv h f hp).mono ?_
      intro _ t ht
      obtain ⟨taken, left, hl, hdrop, hother, hlen, hledger⟩ := ht
      exact ⟨rfl, taken, left, hl, hdrop, hother, hlen, hledger⟩
  | succ k ih =>
      obtain ⟨⟨o, c₁⟩, s₁, he, ho, hat, f₁, hmoved⟩ := returns_iff.mp (next_spec h)
      have f' := f.trans f₁
      rw [Set.union_self, Set.union_self] at f'
      rw [consume, returns_bind]
      refine returns_iff.mpr ⟨_, _, he, ?_⟩
      simp only [returns_bind, returns_pure]
      obtain rfl : o = l'.head? := ho
      rcases hmoved with ⟨rfl, rfl, hleaf⟩ | ⟨hne, slot, htook⟩
      · -- nothing was left, and nothing is taken any more
        have hp₁ : Progress s₀ s₁ (s₀.leavesOf v) c₁ n :=
          ⟨fun a ha => absurd (hleaf.symm.trans ha) (Option.some_ne_none a).symm⟩
        rw [takes_none he]
        refine (ih hat f hp₁).mono ?_
        intro ys t ht
        obtain ⟨rfl, hrest⟩ := ht
        exact ⟨(range_map_getElem? [] k).symm, hrest⟩
      · obtain ⟨x, l', rfl⟩ := List.exists_cons_of_ne_nil hne
        obtain ⟨hslot, hp₁⟩ := hp.step hnd htook (hat.index_le htook.leaf)
        refine (ih hat f' hp₁).mono ?_
        intro ys t ht
        obtain ⟨rfl, taken, left, hl, hdrop, hother, hlen, hledger⟩ := ht
        rw [takes_some he htook.leaf htook.index]
        refine ⟨(range_map_getElem? (x :: l') k).symm, taken, left, ?_, ?_, fun z hz => ?_,
          congrArg (· + 1) hlen, ?_⟩
        · exact congrArg (x :: ·) hl
        · rw [hdrop, f₁.dropped]
        · rw [hother z hz, f₁.read z (fun hm => hz (hv.leaves_mem hm)) (Set.notMem_empty z)]
        · exact hledger.cons hslot htook.zero fun z hz => lengthAt_zero htook.zero htook.other hz

end IntoIter

theorem Emptied.lengthAt (h : Emptied s a) : s.lengthAt a = 0 := by
  obtain ⟨nx, hb⟩ := h
  exact lengthAt_of_body hb

theorem Progress.start (h : IntoAt s v A l c) (hc : c.index = 0) : Progress s s A c 0 := by
  refine ⟨fun b hb => ?_⟩
  cases h with
  | done hA => cases hb
  | @leaf L R a m zs rest ys l hA nodup hL ha hk hchildren hlen hn hR =>
      obtain rfl := Option.some.inj hb
      obtain rfl : zs = [] := List.length_eq_zero_iff.mp hc
      refine ⟨L, R, hA, ?_, Nat.le_add_right _ _, ?_, fun _ _ => rfl⟩
      · rw [Store.lengthAt, ha]
        exact (Nat.zero_add _).trans hlen.symm
      · have hw : s.weight L = 0 := by
          refine List.sum_eq_zero_iff_forall_eq_nat.mpr fun i hi => ?_
          obtain ⟨b, hb, rfl⟩ := List.mem_map.mp hi
          exact (hL b hb).lengthAt
        rw [hw]
        rfl

/-- `into_iter`, some calls of `next`, and the drop of the iterator. -/
theorem VecAt.consume (h : VecAt s v l F) (hgap : NoGap v s) (k : Nat) :
    ∃ c, (v.intoIter : Exec T P B IntoIter) s = .ok c s
      ∧ Returns (IntoIter.consume k c) s (fun ys t => ys = (List.range k).map (l[·]?)
        ∧ ∃ taken left, l = ys.filterMap id ++ taken ++ left
          ∧ t.dropped = s.dropped ++ taken ++ left
          ∧ (∀ x, x ∉ F → t.heap.read x = s.heap.read x)
          ∧ (IntoIter.takes k c s).length = (ys.filterMap id ++ taken).length
          ∧ Ledger s (s.leavesOf v) s 0 (IntoIter.takes k c s)) := by
  obtain ⟨c, s', he, rfl, hat, hindex⟩ := returns_iff.mp (BTreeVec.intoIter_spec h hgap)
  exact ⟨c, he, IntoIter.consume_spec h h.leaves_nodup hat (Frame.refl s' _ _)
    (.start hat hindex) k⟩

/-! ## The accounts -/

/-- A slot of the ledger holds the item with its index. -/
theorem VecAt.items_of_ledger (h : VecAt s v l F) (hl : Ledger s (s.leavesOf v) s 0 tr)
    (hn : tr.length ≤ l.length) : tr.map (fun p => s.slot p.1) = (l.take tr.length).map some := by
  refine List.ext_getElem? fun i => ?_
  by_cases hi : i < tr.length
  · have hslot : SlotAt s (s.leavesOf v) tr[i].1 i := by
      have := hl.slots.get (i := i) (by simpa using hi) (by simpa using hi)
      simpa using this
    obtain ⟨x, hx, hget⟩ := hslot.slot h
    simp [hi, hx, hget]
  · rw [List.getElem?_eq_none, List.getElem?_eq_none]
    · simp only [List.length_map, List.length_take]
      omega
    · simp only [List.length_map]
      omega

theorem VecAt.accounted {v : BTreeVec} (h : VecAt s v l F) (hs : s.itemsOf v = l)
    {ys : List (Option T)} {taken left : List T} (hys : ys = (List.range k).map (l[·]?))
    (hl : l = ys.filterMap id ++ taken ++ left) (hd : s'.dropped = s.dropped ++ taken ++ left)
    (hlen : tr.length = (ys.filterMap id ++ taken).length)
    (hledger : Ledger s (s.leavesOf v) s 0 tr) : Accounted v s s' k ys tr where
  given := hs ▸ hys
  items := by
    refine ⟨taken, left, hs ▸ hl.symm, hd, ?_⟩
    rw [h.items_of_ledger hledger, hlen, hl, List.take_left]
    rw [hlen, hl]
    exact (List.prefix_append _ left).length_le
  filled p hp := by
    obtain ⟨i, _, hi⟩ := SlotAt.mem_positions hledger.slots (List.mem_map_of_mem hp)
    exact ⟨i, hi⟩
  once := nodup_of_positions h.leaves_nodup hledger.slots (List.pairwise_lt_range' ..)
  uncovered p hp := by
    rw [hledger.zero p hp]
    exact Nat.zero_le _
  stays := hledger.stays.imp fun {p q} hzero => by
    rw [hzero]
    exact Nat.zero_le _

/--
**Every item is handed out, taken out or dropped just once**, wherever the iteration stops,
if no leaf is empty but a root leaf; and none is if `B` is at least 4. `takeChild` is called
on slots that are filled, each once, and no leaf covers a slot after that.
-/
theorem consume_accounts (h : Reachable v s) : (4 ≤ B → LeavesFilled v s)
    ∧ (LeavesFilled v s → ∀ k, ∃ c ys s', (v.intoIter : Exec T P B IntoIter) s = .ok c s
      ∧ (IntoIter.consume k c : Exec T P B (List (Option T))) s = .ok ys s'
      ∧ Accounted v s s' k ys (IntoIter.takes k c s)) := by
  obtain ⟨l, F, hs⟩ := h.sound
  refine ⟨hs.leavesFilled, fun hfull k => ?_⟩
  obtain ⟨c, hc, hr⟩ := hs.vec.consume (hfull.noGap hs.vec) k
  obtain ⟨ys, s', he, hys, taken, left, hl, hd, _, hlen, hledger⟩ := returns_iff.mp hr
  exact ⟨c, ys, s', hc, he, hs.vec.accounted hs.itemsOf hys hl hd hlen hledger⟩

/-- Three of eight items are handed out, one is taken out with its leaf, four are dropped. -/
theorem consume_accounts_pushed : ∃ (v : BTreeVec) (s : Store Nat PairPtr 4), v.size = 8
    ∧ LeavesFilled v s
    ∧ ∃ c ys s', (v.intoIter : Exec Nat PairPtr 4 IntoIter) s = .ok c s
      ∧ (IntoIter.consume 3 c : Exec Nat PairPtr 4 (List (Option Nat))) s = .ok ys s'
      ∧ Accounted v s s' 3 ys (IntoIter.takes 3 c s) := by
  obtain ⟨v, s, hist, hsize⟩ := pushed_four
  have h := consume_accounts (.history hist)
  have hfull := h.1 (Nat.le_refl 4)
  exact ⟨v, s, hsize, hfull, h.2 hfull 3⟩

end BTreeVec
