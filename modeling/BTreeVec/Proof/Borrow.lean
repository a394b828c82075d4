import BTreeVec.Proof.Copy

/-!
# Borrows of a vector

A cursor stands before an item of its vector, and a reference points to one. Where that is
depends on the leaves and on their lengths only, so it stays when items are overwritten.
-/

set_option linter.dupNamespace false

namespace BTreeVec

open Prog

variable {T P : Type} {B : Nat} [TaggedPtr P] {s t : Store T P B} {v : BTreeVec} {l : List T}
  {F : Set Addr} {a b : Addr} {L R : List Addr} {n pos : Nat} {c : Cursor} {slot : Slot}

/-! ## Where a cursor stands -/

/-- The cursor stands before the item `pos` of the `n` items of `v`, or at the end. -/
structure StandsAt (v : BTreeVec) (s : Store T P B) (n : Nat) (c : Cursor) (pos : Nat) : Prop where
  le : pos ≤ n
  remaining : c.remaining = n - pos
  ended : c.leaf = none → pos = n
  inLeaf : ∀ a, c.leaf = some a → ∃ L R, s.leavesOf v = L ++ a :: R ∧ c.index ≤ s.lengthAt a
    ∧ s.weight L + c.index = pos

/-- The vector has the leaves that it had, and they are as long as they were. -/
structure Steady (v : BTreeVec) (s t : Store T P B) : Prop where
  leaves : t.leavesOf v = s.leavesOf v
  lengthAt : ∀ a ∈ s.leavesOf v, t.lengthAt a = s.lengthAt a

namespace Steady

omit [TaggedPtr P] in
theorem refl (v : BTreeVec) (s : Store T P B) : Steady v s s := ⟨rfl, fun _ _ => rfl⟩

omit [TaggedPtr P] in
theorem weight (h : Steady v s t) (hL : s.leavesOf v = L ++ R) : t.weight L = s.weight L := by
  unfold Store.weight
  refine congrArg List.sum (List.map_congr_left fun a ha => h.lengthAt a ?_)
  rw [hL]
  exact List.mem_append_left _ ha

omit [TaggedPtr P] in
theorem slotAt (h : Steady v s t) (hs : SlotAt s (s.leavesOf v) slot pos) :
    SlotAt t (t.leavesOf v) slot pos := by
  obtain ⟨L, R, hL, hlt, hpos⟩ := hs
  refine ⟨L, R, h.leaves.trans hL, ?_, ?_⟩
  · rw [h.lengthAt slot.1 (by rw [hL]; exact mem_mid.mpr (Or.inl rfl))]
    exact hlt
  · rw [h.weight hL]
    exact hpos

omit [TaggedPtr P] in
theorem standsAt (h : Steady v s t) (hc : StandsAt v s n c pos) : StandsAt v t n c pos where
  le := hc.le
  remaining := hc.remaining
  ended := hc.ended
  inLeaf a ha := by
    obtain ⟨L, R, hL, hi, hpos⟩ := hc.inLeaf a ha
    refine ⟨L, R, h.leaves.trans hL, ?_, ?_⟩
    · rw [h.lengthAt a (by rw [hL]; exact mem_mid.mpr (Or.inl rfl))]
      exact hi
    · rw [h.weight hL]
      exact hpos

/-- Whatever happens to other nodes. -/
theorem of_read (h : VecAt s v l F) (hr : ∀ x ∈ F, t.heap.read x = s.heap.read x) :
    Steady v s t := by
  have hl : t.leavesOf v = s.leavesOf v := by
    cases h with
    | empty => rfl
    | @tree root Ds l ht =>
        have hb : ∀ x ∈ s.nodesUnder Ds.length root, t.body x = s.body x := fun x hx => by
          rw [Store.body, hr x (ht.nodesUnder_perm.mem_iff.mp hx)]
          rfl
        obtain ⟨hc, _, hleaves, _⟩ := ht.counted.1.congr hb
        show t.leaves root = s.leaves root
        rw [hc.leaves, hleaves, ht.leaves]
  refine ⟨hl, fun a ha => ?_⟩
  rw [Store.lengthAt, hr a (h.leaves_mem ha)]
  rfl

end Steady

/-! ## Moving a cursor -/

/-- A leaf that comes after another one has items. -/
theorem LeavesFilled.next_filled (hf : LeavesFilled v s) (h : VecAt s v l F)
    (hl : s.leavesOf v = L ++ a :: b :: R) : s.lengthAt b ≠ 0 := by
  refine hf b (by rw [hl]; simp) fun hroot => ?_
  obtain ⟨root, Ds, xs, hlo⟩ := LeafOf.of_vec h (L := L ++ [a]) (a := b) (R := R) (by rw [hl]; simp)
  obtain rfl : root = b := Option.some.inj (hlo.root_eq.symm.trans hroot)
  -- the root is a leaf, so it is the only one
  have htall := hlo.tree.counted.1.tall
  have hleaves := hlo.leaves
  cases hD : Ds.length with
  | zero =>
      rw [hD] at hleaves
      have hlen := congrArg List.length (show [root] = _ from hleaves)
      simp only [List.length_append, List.length_cons] at hlen
      omega
  | succ k =>
      rw [hD] at htall
      obtain ⟨es, hes, _⟩ := htall
      rw [hlo.body] at hes
      cases hes

namespace Cursor

/-- What `next` and `nth` do to the cursor, before the access to the item. -/
def move : Step → Cursor → Exec T P B (Option Slot × Cursor)
  | .next, self => advance self
  | .nth n, self => skip self n

omit [TaggedPtr P] in
theorem StandsAt.of_slot (hL : s.leavesOf v = L ++ a :: R) {i : Nat} (hi : i < s.lengthAt a)
    (hpos : s.weight L + i = pos) (hn : s.weight (s.leavesOf v) = n) :
    SlotAt s (s.leavesOf v) (a, i) pos ∧ StandsAt v s n ⟨some a, i + 1, n - pos - 1⟩ (pos + 1) := by
  have hlt : pos < n := by
    rw [← hn, hL, weight_append, weight_cons]
    omega
  refine ⟨⟨L, R, hL, hi, hpos⟩, hlt, Nat.sub_sub n pos 1, fun h => (by cases h), fun b hb => ?_⟩
  obtain rfl := Option.some.inj hb
  exact ⟨L, R, hL, hi, by dsimp only; omega⟩

theorem advance_at (h : VecAt s v l F) (hf : LeavesFilled v s) (hc : StandsAt v s l.length c pos) :
    Returns (advance c) s (fun r s' => s' = s
      ∧ StandsAt v s l.length r.2 (min (pos + 1) l.length) ∧ PointsAt v s l.length pos r.1) := by
  obtain ⟨leaf, index, m⟩ := c
  obtain ⟨hle, hm, hended, hin⟩ := hc
  dsimp only at hm hended hin
  subst hm
  cases leaf with
  | none =>
      obtain rfl := hended rfl
      have hmin : min (l.length + 1) l.length = l.length := by omega
      refine ⟨rfl, ?_, Nat.le_refl _⟩
      rw [hmin]
      exact ⟨Nat.le_refl _, rfl, fun _ => rfl, fun a ha => by cases ha⟩
  | some a =>
      obtain ⟨L, R, hL, hi, hpos⟩ := hin a rfl
      obtain ⟨root, Ds, xs, hlo⟩ := LeafOf.of_vec h hL
      have hn : s.weight (s.leavesOf v) = l.length := hlo.leavesOf ▸ hlo.weight
      rw [hlo.length] at hi
      rcases Nat.lt_or_eq_of_le hi with hlt | rfl
      · -- an item is left in the leaf
        rw [advance_stay hlo.body (Nat.ne_of_lt hlt)]
        rw [← hlo.length] at hlt
        obtain ⟨hslot, hstand⟩ := StandsAt.of_slot hL hlt hpos hn
        have hmin : min (pos + 1) l.length = pos + 1 := Nat.min_eq_left hstand.le
        have := hstand.le
        refine ⟨by omega, rfl, ?_, hslot⟩
        rw [hmin]
        exact hstand
      · have hposL : s.weight (L ++ [a]) = pos := by
          rw [weight_append, weight_cons, weight_nil, hlo.length, Nat.add_zero]
          exact hpos
        cases R with
        | nil =>
            -- the last leaf ends here
            rw [hL, hposL] at hn
            subst hn
            have hmin : min (l.length + 1) l.length = l.length := by omega
            rw [advance_end hlo.body]
            refine ⟨rfl, ?_, Nat.le_refl _⟩
            rw [hmin]
            exact ⟨Nat.le_refl _, rfl, fun _ => rfl, fun b hb => by cases hb⟩
        | cons b R =>
            -- the next leaf is not empty
            have hb := Nat.pos_of_ne_zero (hf.next_filled h hL)
            have hL' : s.leavesOf v = (L ++ [a]) ++ b :: R := by rw [hL]; simp
            obtain ⟨hslot, hstand⟩ := StandsAt.of_slot hL' hb hposL hn
            have hmin : min (pos + 1) l.length = pos + 1 := Nat.min_eq_left hstand.le
            have := hstand.le
            rw [advance_move hlo.body]
            refine ⟨by omega, rfl, ?_, hslot⟩
            rw [hmin]
            exact hstand

theorem skip_at (h : VecAt s v l F) (hc : StandsAt v s l.length c pos) (k : Nat) :
    Returns (skip c k) s (fun r s' => s' = s
      ∧ StandsAt v s l.length r.2 (min (pos + k + 1) l.length)
      ∧ PointsAt v s l.length (pos + k) r.1) := by
  have hend : StandsAt v s l.length ⟨none, c.index, 0⟩ l.length :=
    ⟨Nat.le_refl _, (Nat.sub_self _).symm, fun _ => rfl, fun a ha => by cases ha⟩
  have hle := hc.le
  cases hleaf : c.leaf with
  | none =>
      have hpos := hc.ended hleaf
      have hmin : min (pos + k + 1) l.length = l.length := by omega
      unfold skip
      simp only [hleaf, returns_pure]
      rw [hmin]
      exact ⟨trivial, hend, by show l.length ≤ pos + k; omega⟩
  | some a =>
      obtain ⟨L, R, hL, hi, hpos⟩ := hc.inLeaf a hleaf
      have hden : Denotes v s c pos := by
        refine ⟨⟨a, L, R, hleaf, hL, hi, hpos⟩, ?_⟩
        rw [h.itemsOf]
        exact hc.remaining
      refine (skip_spec h hden k).mono ?_
      intro p s' hr
      obtain ⟨o, c'⟩ := p
      obtain ⟨rfl, hor⟩ := hr
      rw [h.itemsOf] at hor
      rcases hor with ⟨hlt, slot, ho, hslot, hc'⟩ | ⟨hge, ho, hc'⟩
      · dsimp only at ho hc'
        subst ho
        have hmin : min (pos + k + 1) l.length = pos + k + 1 := by omega
        have hrem := hc'.remaining
        rw [h.itemsOf] at hrem
        obtain ⟨b, L', R', hb, hrest⟩ := hc'.place
        refine ⟨rfl, ?_, hslot⟩
        rw [hmin]
        refine ⟨hlt, hrem, fun hn => ?_, fun b' hb' => ?_⟩
        · rw [hb] at hn
          cases hn
        · rw [hb] at hb'
          obtain rfl := Option.some.inj hb'
          exact ⟨L', R', hrest⟩
      · dsimp only at ho hc'
        subst ho hc'
        have hmin : min (pos + k + 1) l.length = l.length := by omega
        rw [hmin]
        exact ⟨rfl, hend, hge⟩

theorem move_at (h : VecAt s v l F) (hf : LeavesFilled v s) (hc : StandsAt v s l.length c pos)
    (call : Step) : Returns (move call c) s (fun r s' => s' = s
      ∧ StandsAt v s l.length r.2 (min (pos + call.skips + 1) l.length)
      ∧ PointsAt v s l.length (pos + call.skips) r.1) := by
  cases call with
  | next => exact advance_at h hf hc
  | nth k => exact skip_at h hc k

theorem start_at (h : VecAt s v l F) :
    Returns (start v) s (fun c s' => s' = s ∧ StandsAt v s l.length c 0) := by
  cases h with
  | empty =>
      exact ⟨rfl, Nat.le_refl _, rfl, fun _ => rfl, fun a ha => by cases ha⟩
  | @tree root Ds l ht =>
      unfold start
      simp only [returns_bind, returns_pure]
      have ht' : Tree s root Ds ([] ++ l) := ht
      refine ht'.leafFor_spec.mono ?_
      intro r s' hr
      obtain ⟨a, _⟩ := r
      obtain ⟨rfl, U, V, As, l₁, xs, ys, l₂, hs, -⟩ := hr
      obtain ⟨rfl, rfl⟩ := List.append_eq_nil_iff.mp hs.pre_eq.symm
      refine ⟨rfl, Nat.zero_le _, rfl, fun hn => (by cases hn), fun b hb => ?_⟩
      obtain rfl := Option.some.inj hb
      exact ⟨U, V, ht.leaves.trans hs.leaves, Nat.zero_le _, RowAt.weight hs.row₁⟩

end Cursor

theorem PointsAt.item (h : VecAt s v l F) (hp : PointsAt v s l.length pos (some slot)) :
    ∃ x, s.slot slot = some x ∧ l[pos]? = some x :=
  SlotAt.slot hp h

omit [TaggedPtr P] in
theorem PointsAt.none (hp : PointsAt v s l.length pos none) : l[pos]? = none :=
  List.getElem?_eq_none hp

/-- A call on an `Iter` gives the item that many places on. -/
theorem Iter.step_gives (h : VecAt s v l F) (hf : LeavesFilled v s)
    (hc : StandsAt v s l.length c pos) (call : Step) :
    Returns (Iter.step call c) s (fun r s' => s' = s ∧ r.1 = l[pos + call.skips]?
      ∧ StandsAt v s l.length r.2 (min (pos + call.skips + 1) l.length)) := by
  have he : (Iter.step call c : Exec T P B _) = (do Cursor.item (← Cursor.move call c)) := by
    cases call <;> rfl
  rw [he, returns_bind]
  refine (Cursor.move_at h hf hc call).mono ?_
  intro p s' hr
  obtain ⟨o, c'⟩ := p
  obtain ⟨rfl, hc', ho⟩ := hr
  cases o with
  | none => exact ⟨rfl, ho.none.symm, hc'⟩
  | some slot =>
      obtain ⟨x, hx, hl⟩ := ho.item h
      rw [Cursor.item, returns_bind, LeafNode.child_slot hx]
      exact ⟨rfl, hl.symm, hc'⟩

/-- A call on an `IterMut` gives a reference to that item. -/
theorem IterMut.step_points (h : VecAt s v l F) (hf : LeavesFilled v s)
    (hc : StandsAt v s l.length c pos) (call : Step) :
    Returns (IterMut.step call c) s (fun r s' => s' = s
      ∧ StandsAt v s l.length r.2 (min (pos + call.skips + 1) l.length)
      ∧ PointsAt v s l.length (pos + call.skips) r.1) := by
  have he : (IterMut.step call c : Exec T P B _) = (do Cursor.itemMut (← Cursor.move call c)) := by
    cases call <;> rfl
  rw [he, returns_bind]
  refine (Cursor.move_at h hf hc call).mono ?_
  intro p s' hr
  obtain ⟨o, c'⟩ := p
  obtain ⟨rfl, hc', ho⟩ := hr
  cases o with
  | none => exact ⟨rfl, hc', ho⟩
  | some slot =>
      obtain ⟨x, hx, _⟩ := ho.item h
      rw [Cursor.itemMut, returns_bind, LeafNode.child_slot hx]
      exact ⟨rfl, hc', ho⟩

omit [TaggedPtr P] in
theorem exactLen_at (hc : StandsAt v s n c pos) :
    Returns (exactLen (Cursor.sizeHint c)) s (fun k s' => s' = s ∧ k = n - pos) := by
  unfold exactLen Cursor.sizeHint
  simp only [returns_bind, returns_check, returns_pure]
  exact ⟨trivial, trivial, hc.remaining⟩

/-! ## References to items -/

/-- A method that lends an item gives a reference to the item at its position. -/
theorem Lend.exec_ok (h : VecAt s v l F) {how : Lend} (hp : how.onList l = some pos) :
    Returns (how.exec v) s (fun r s' => s' = s ∧ PointsAt v s l.length pos r) := by
  have hsize := h.size
  cases how with
  | getMut i =>
      obtain rfl := Option.some.inj hp
      exact h.copyAt.getMut i
  | firstMut =>
      obtain rfl := Option.some.inj hp
      exact h.copyAt.getMut 0
  | lastMut =>
      obtain rfl := Option.some.inj hp
      show Returns (BTreeVec.lastMut v) s _
      unfold BTreeVec.lastMut
      by_cases hl : 1 ≤ v.size
      · rw [if_pos hl, hsize]
        exact h.copyAt.getMut (l.length - 1)
      · rw [if_neg hl]
        refine ⟨rfl, ?_⟩
        show l.length ≤ l.length - 1
        omega
  | indexMut i =>
      have hp : (if i < l.length then some i else none) = some pos := hp
      rw [Option.ite_none_right_eq_some, Option.some.injEq] at hp
      obtain ⟨hi, rfl⟩ := hp
      unfold Lend.exec BTreeVec.indexMut
      simp only [returns_bind, returns_orFault, returns_pure]
      refine (h.copyAt.getMut i).mono ?_
      intro o s' hr
      obtain ⟨rfl, ho⟩ := hr
      cases o with
      | none => exact absurd hi (Nat.not_lt_of_le ho)
      | some slot => exact ⟨slot, rfl, rfl, ho⟩

theorem Lend.exec_panics (h : VecAt s v l F) {how : Lend} (hp : how.onList l = none) :
    (how.exec v : Exec T P B _) s = .error .unwrap s := by
  cases how with
  | getMut i => cases hp
  | firstMut => cases hp
  | lastMut => cases hp
  | indexMut i =>
      have hp : (if i < l.length then some i else none) = none := hp
      have hi : ¬ i < l.length := fun hi => by
        rw [if_pos hi] at hp
        cases hp
      obtain ⟨o, s', he, rfl, ho⟩ := returns_iff.mp (h.copyAt.getMut i)
      cases o with
      | none =>
          unfold Lend.exec BTreeVec.indexMut
          simp only [bind, EStateM.bind, he]
          rfl
      | some slot =>
          obtain ⟨x, _, hx⟩ := ho.item h
          exact absurd (List.getElem?_eq_some_iff.mp hx).1 hi

/-! ## Writing through a reference -/

/-- A slot that is filled, as `leaf_for` would find it. -/
theorem SlotAt.leafSplit {root : Addr} {Ds : List (List Addr)} (ht : Tree s root Ds l)
    (hv : v.root = some root) (hs : SlotAt s (s.leavesOf v) slot pos) :
    ∃ L R As l₁ xs x ys l₂, l = l₁ ++ xs ++ x :: (ys ++ l₂) ∧ slot.2 = xs.length
      ∧ pos = (l₁ ++ xs).length
      ∧ LeafSplit s root Ds (l₁ ++ xs) (x :: (ys ++ l₂)) slot.1 L R As l₁ xs (x :: ys) l₂ := by
  obtain ⟨L, R, hL, hlt, hpos⟩ := hs
  have hleaves : s.leavesUnder Ds.length root = L ++ slot.1 :: R := by
    rw [← ht.leaves, ← hL]
    unfold Store.leavesOf
    rw [hv]
  obtain ⟨As, hal, hperm⟩ := ht.atLeaves
  rw [hleaves] at hal hperm
  obtain ⟨l₁, E, l₂, rfl, h₁, hE, h₂⟩ := RowAt.mid.mp hal.row
  have hb : s.body slot.1 = some (.leaf E (R.head?.or none)) := hE
  rw [lengthAt_of_body hb] at hlt
  have hlt : slot.2 < E.length := hlt
  have hsplit : E = E.take slot.2 ++ E[slot.2] :: E.drop (slot.2 + 1) := by
    rw [← List.drop_eq_getElem_cons hlt, List.take_append_drop]
  have hlen : slot.2 = (E.take slot.2).length := by
    rw [List.length_take, Nat.min_eq_left (Nat.le_of_lt hlt)]
  generalize E.take slot.2 = xs at hsplit hlen
  generalize E[slot.2] = x at hsplit
  generalize E.drop (slot.2 + 1) = ys at hsplit
  subst hsplit
  refine ⟨L, R, As, l₁, xs, x, ys, l₂, by simp, hlen, ?_, rfl, by simp, h₁, hE, h₂, hal, hleaves,
    hperm, fun h => by cases h⟩
  rw [← hpos, RowAt.weight h₁, hlen, List.length_append]

/-- Writing through a reference overwrites the item at its position, and moves nothing. -/
theorem BTreeVec.write_at (h : VecAt s v l F) (hs : SlotAt s (s.leavesOf v) slot pos) (y : T) :
    Returns (BTreeVec.write slot y) s (fun _ s' => VecAt s' v (l.set pos y) F ∧ Local s s' F F
      ∧ Steady v s s' ∧ s'.dropped = s.dropped ++ l[pos]?.toList) := by
  have hsize := h.size
  cases h with
  | empty =>
      obtain ⟨L, R, hL, _⟩ := hs
      exact absurd (show [] = L ++ slot.1 :: R from hL) (by simp)
  | @tree root Ds l ht =>
      obtain ⟨L, R, As, l₁, xs, x, ys, l₂, rfl, hi, rfl, hsp⟩ := hs.leafSplit ht rfl
      obtain ⟨a, i⟩ := slot
      dsimp only at hi hsp
      subst hi
      refine (LeafNode.setChild_spec hsp.leaf).mono ?_
      intro _ _ hr
      obtain ⟨t, rfl, hb, f⟩ := hr
      have ht' := ht.rewrite_leaf hsp hb f
      -- the destructor of the old item is noted in the store, and nothing else
      have htree : Tree { t with dropped := s.dropped ++ [x] } root Ds
          (l₁ ++ xs ++ y :: (ys ++ l₂)) :=
        ⟨ht'.below.congr (fun _ _ => rfl) fun _ _ => rfl, ht'.link, ht'.wide, ht'.nodup⟩
      have hset : (l₁ ++ xs ++ x :: (ys ++ l₂)).set (l₁ ++ xs).length y
          = l₁ ++ xs ++ y :: (ys ++ l₂) := by
        rw [List.set_append_right _ _ (Nat.le_refl _), Nat.sub_self, List.set_cons_zero]
      have hv : (l₁ ++ xs ++ x :: (ys ++ l₂)).length = (l₁ ++ xs ++ y :: (ys ++ l₂)).length := by
        simp
      have hself : a ∈ {x | x ∈ rowNodes Ds [root] []} := by
        rw [hsp.nodes]
        exact List.mem_append_right _ (List.mem_append_left _ (mem_mid.mpr (Or.inl rfl)))
      have hloc : Local s t {x | x ∈ rowNodes Ds [root] []} {x | x ∈ rowNodes Ds [root] []} := by
        refine .of_frame f ?_ (Set.empty_subset _) (Set.Subset.refl _) fun _ hx => Or.inl hx
        exact Set.singleton_subset_iff.mpr hself
      refine ⟨?_, ⟨hloc.outside, hloc.live, hloc.owned, hloc.next_le⟩, ⟨?_, fun b hb' => ?_⟩, ?_⟩
      · rw [hset, hv]
        exact .tree htree
      · have hkids : ∀ z, Store.kids { t with dropped := s.dropped ++ [x] } z = s.kids z := by
          intro z
          show t.kids z = s.kids z
          by_cases hz : z = a
          · subst hz
            rw [Store.kids, Store.kids, hb, show s.body z = _ from hsp.leaf]
            rfl
          · exact kids_congr (f.body z hz)
        show Store.leaves { t with dropped := s.dropped ++ [x] } root = s.leaves root
        rw [htree.leaves, ht.leaves]
        exact leavesUnder_congr hkids Ds.length root
      · by_cases hba : b = a
        · subst hba
          have hold : s.body b = some (.leaf (xs ++ x :: ys) (R.head?.or none)) := hsp.leaf
          rw [lengthAt_of_body hold, Store.lengthAt]
          show (Option.map Cell.length (t.heap.read b)).getD 0 = _
          rw [← Store.lengthAt, lengthAt_of_body hb]
          simp [Body.width]
        · show t.lengthAt b = s.lengthAt b
          rw [Store.lengthAt, f.read b hba (Set.notMem_empty b)]
          rfl
      · rw [List.getElem?_append_right (Nat.le_refl _), Nat.sub_self]
        rfl

end BTreeVec
