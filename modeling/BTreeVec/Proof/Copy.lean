import BTreeVec.Proof.Clone
import BTreeVec.Proof.Lists
import BTreeVec.Proof.Owning

/-!
# What a clone is good for

The nodes of a clone do not know their places, and its leaves are followed by leaves of the
original. But its counts are exact, and its nodes are its own. That is enough for the calls
that move nothing, for dropping it, and for cloning it again.
-/

set_option linter.dupNamespace false

namespace BTreeVec

open Prog

variable {T P : Type} {B : Nat} [TaggedPtr P] {s t u : Store T P B} {v : BTreeVec} {l l' : List T}
  {F : Set Addr} {a b root x : Addr} {k pos : Nat} {ls : List Addr} {p : Slot} {cl : T → T}
  {nl nl' : Option Addr} {es₁ : List (Addr × Nat)}

/-! ## Trees with exact counts -/

namespace Counted

/-- Each node of a tree has its own height, and its leaves are leaves of the tree. -/
theorem under (h : Counted s k a) (hx : x ∈ s.nodesUnder k a) :
    ∃ j ≤ k, Counted s j x ∧ s.leavesUnder j x ⊆ s.leavesUnder k a := by
  induction k generalizing a with
  | zero =>
      obtain rfl := List.mem_singleton.mp (show x ∈ [a] from hx)
      exact ⟨0, Nat.le_refl 0, h, List.Subset.refl _⟩
  | succ k ih =>
      have hc := h
      obtain ⟨es, hb, _, he⟩ := h
      rw [nodesUnder_succ hb, List.mem_cons, List.mem_flatMap] at hx
      rcases hx with rfl | ⟨e, hem, hx⟩
      · exact ⟨k + 1, Nat.le_refl _, hc, List.Subset.refl _⟩
      · obtain ⟨j, hj, hcj, hsub⟩ := ih (he e hem).1 hx
        refine ⟨j, Nat.le_succ_of_le hj, hcj, fun y hy => ?_⟩
        rw [leavesUnder_internal hb]
        exact List.mem_flatMap.mpr ⟨e, hem, hsub hy⟩

/-- With no leaf in two places no node is. -/
theorem nodes_nodup (h : Counted s k a) (hnd : (s.leavesUnder k a).Nodup) :
    (s.nodesUnder k a).Nodup := by
  induction k generalizing a with
  | zero => exact List.nodup_singleton a
  | succ k ih =>
      have hc := h
      obtain ⟨es, hb, _, he⟩ := h
      rw [leavesUnder_internal hb, List.nodup_flatMap] at hnd
      rw [nodesUnder_succ hb, List.nodup_cons, List.nodup_flatMap]
      refine ⟨fun ha => ?_, fun e hem => ih (he e hem).1 (hnd.1 e hem), ?_⟩
      · -- below a node there are only lower ones
        obtain ⟨e, hem, ha⟩ := List.mem_flatMap.mp ha
        obtain ⟨j, hj, hcj, _⟩ := (he e hem).1.under ha
        have := hcj.height_unique hc
        omega
      · -- a node in two subtrees would have its leaves in both
        refine hnd.2.imp_of_mem fun {e e'} hem hem' hdis x hx hx' => ?_
        obtain ⟨j, _, hcj, hsub⟩ := (he e hem).1.under hx
        obtain ⟨j', _, hcj', hsub'⟩ := (he e' hem').1.under hx'
        obtain rfl := hcj.height_unique hcj'
        obtain ⟨y, hy⟩ := List.exists_mem_of_ne_nil _ hcj.leavesUnder_ne_nil
        exact hdis (hsub hy) (hsub' hy)

/-- Leaves hold as many items as their lengths say. -/
theorem weight_eq (h : Counted s k a) (hls : ls ⊆ s.leavesUnder k a) :
    s.weight ls = (ls.flatMap s.items).length := by
  rw [Store.weight, List.length_flatMap]
  refine congrArg List.sum (List.map_congr_left fun y hy => ?_)
  obtain ⟨xs, nx, hb⟩ := h.body_leaf (hls hy)
  rw [lengthAt_of_body hb, Store.items, hb]
  rfl

/-- In some leaves as many other items are written. -/
theorem rewrite (h : Counted s k a) (hb : ∀ x ∈ s.nodesUnder k a, t.body x = s.body x
      ∨ ∃ xs ys nx, s.body x = some (.leaf xs nx) ∧ t.body x = some (.leaf ys nx)
        ∧ ys.length = xs.length) :
    Counted t k a ∧ t.nodesUnder k a = s.nodesUnder k a
      ∧ t.leavesUnder k a = s.leavesUnder k a := by
  have hsame := h.tall.congr fun x hx =>
    (hb x hx).imp_right fun ⟨xs, ys, nx, hs, ht, _⟩ => ⟨⟨xs, nx, hs⟩, ys, nx, ht⟩
  refine ⟨?_, hsame.2⟩
  clear hsame
  induction k generalizing a with
  | zero =>
      obtain ⟨xs, nx, hbody⟩ := h
      rcases hb a (s.self_mem_nodesUnder 0 a) with ha | ⟨_, ys, ny, _, ha, _⟩
      · exact ⟨xs, nx, ha.trans hbody⟩
      · exact ⟨ys, ny, ha⟩
  | succ k ih =>
      obtain ⟨es, hbody, hne, he⟩ := h
      have ha : t.body a = some (.internal es) := by
        rcases hb a (s.self_mem_nodesUnder (k + 1) a) with ha | ⟨xs, ys, nx, hleaf, _⟩
        · exact ha.trans hbody
        · rw [hbody] at hleaf; cases hleaf
      rw [nodesUnder_succ hbody] at hb
      refine ⟨es, ha, hne, fun e hem => ?_⟩
      have hsub := fun x hx =>
        hb x (List.mem_cons_of_mem _ (List.mem_flatMap.mpr ⟨e, hem, hx⟩))
      refine ⟨ih (he e hem).1 hsub, (he e hem).2.trans ?_⟩
      -- the count stays right, since each leaf is as long as it was
      have htall := (he e hem).1.tall.congr fun x hx =>
        (hsub x hx).imp_right fun ⟨xs, ys, nx, hs, ht, _⟩ => ⟨⟨xs, nx, hs⟩, ys, nx, ht⟩
      rw [Store.itemsUnder, Store.itemsUnder, htall.2.2, List.length_flatMap, List.length_flatMap]
      refine congrArg List.sum (List.map_congr_left fun y hy => ?_)
      rcases hsub y (s.leavesUnder_subset k e.1 hy) with hy | ⟨xs, ys, nx, hs, ht, hlen⟩
      · rw [Store.items, Store.items, hy]
      · rw [Store.items, Store.items, hs, ht]
        exact hlen.symm

/-- The leaf that a slot is in, with what is before and after the slot. -/
theorem slot_split (h : Counted s k a) (hs : SlotAt s (s.leavesUnder k a) p pos) :
    ∃ L xs y ys nx R, s.leavesUnder k a = L ++ p.1 :: R
      ∧ s.body p.1 = some (.leaf (xs ++ y :: ys) nx) ∧ p.2 = xs.length
      ∧ pos = (L.flatMap s.items ++ xs).length
      ∧ s.itemsUnder k a = L.flatMap s.items ++ xs ++ y :: (ys ++ R.flatMap s.items) := by
  obtain ⟨L, R, hL, hlt, rfl⟩ := hs
  have hmem : p.1 ∈ s.leavesUnder k a := by rw [hL]; simp
  obtain ⟨zs, nx, hb⟩ := h.body_leaf hmem
  rw [lengthAt_of_body hb] at hlt
  obtain ⟨y, hy⟩ : ∃ y, zs[p.2]? = some y := ⟨_, List.getElem?_eq_getElem hlt⟩
  obtain ⟨xs, ys, rfl, hxs⟩ := split_at hy
  refine ⟨L, xs, y, ys, nx, R, hL, hb, hxs, ?_, ?_⟩
  · rw [h.weight_eq (by rw [hL]; exact List.subset_append_left _ _), List.length_append, hxs]
  · have hitems : s.items p.1 = xs ++ y :: ys := by rw [Store.items, hb]; rfl
    rw [Store.itemsUnder, hL, List.flatMap_append, List.flatMap_cons, hitems]
    simp

end Counted
/-! ## What is left of a vector in its clone -/

/-- A tree with the items `l` and the nodes `F`, whatever its links and its chain are. -/
inductive CopyAt (s : Store T P B) : BTreeVec → List T → Set Addr → Prop where
  | empty : CopyAt s ⟨none, 0⟩ [] ∅
  | tree {root : Addr} {k : Nat} {l : List T} (hc : Counted s k root)
      (hi : s.itemsUnder k root = l) (hl : s.link root = some (none, 0))
      (hnd : (s.leavesUnder k root).Nodup) :
      CopyAt s ⟨some root, l.length⟩ l {x | x ∈ s.nodesUnder k root}

/-- A vector is more than that. -/
theorem VecAt.copyAt (h : VecAt s v l F) : CopyAt s v l F := by
  have hnd := h.leaves_nodup
  cases h with
  | empty => exact .empty
  | @tree root Ds l ht =>
      obtain ⟨hc, hi⟩ := ht.counted
      have hF : {x | x ∈ rowNodes Ds [root] []} = {x | x ∈ s.nodesUnder Ds.length root} :=
        Set.ext fun x => ht.nodesUnder_perm.mem_iff.symm
      rw [hF]
      exact .tree hc hi ht.link (hc.leaves ▸ hnd)

namespace CopyAt

theorem size (h : CopyAt s v l F) : v.size = l.length := by
  cases h <;> rfl

theorem itemsOf (h : CopyAt s v l F) : s.itemsOf v = l := by
  cases h with
  | empty => rfl
  | tree hc hi _ _ => exact hc.items.trans hi

theorem live (h : CopyAt s v l F) : ∀ x ∈ F, s.heap.read x ≠ none := by
  cases h with
  | empty => exact fun x hx => absurd hx (Set.notMem_empty x)
  | tree hc _ _ _ => exact hc.tall.live

theorem reach_iff (h : CopyAt s v l F) :
    (∃ r d, v.root = some r ∧ Reach s r d a) ↔ a ∈ F := by
  cases h with
  | empty =>
      constructor
      · intro ht
        obtain ⟨r, d, hr, _⟩ := ht
        cases hr
      · exact fun ha => absurd ha (Set.notMem_empty a)
  | tree hc _ _ _ =>
      constructor
      · intro ht
        obtain ⟨r, d, hr, hd⟩ := ht
        cases hr
        exact hc.tall.reach_iff.mp ⟨d, hd⟩
      · intro ha
        obtain ⟨d, hd⟩ := hc.tall.reach_iff.mpr ha
        exact ⟨_, d, rfl, hd⟩

theorem congr (h : CopyAt s v l F) (hr : ∀ x ∈ F, t.heap.read x = s.heap.read x) :
    CopyAt t v l F := by
  cases h with
  | empty => exact .empty
  | @tree root k l hc hi hl hnd =>
      obtain ⟨hc', hn, hls, hi'⟩ := hc.congr (t := t) fun x hx => by
        rw [Store.body, hr x hx]; rfl
      have hl' : t.link root = s.link root := by
        rw [Store.link, hr root (s.self_mem_nodesUnder k root)]; rfl
      rw [← hn]
      exact .tree hc' (hi'.trans hi) (hl'.trans hl) (hls ▸ hnd)

end CopyAt

/-! ## Calls that move nothing -/

/-- A reference to the item `pos`, if there is one. -/
def PointsAt (v : BTreeVec) (s : Store T P B) (n pos : Nat) : Option Slot → Prop
  | none => n ≤ pos
  | some slot => SlotAt s (s.leavesOf v) slot pos

namespace CopyAt

/-- `leaf_for` ends at the slot of the item, if there is one. -/
theorem leafFor (h : CopyAt s v l F) (hpos : pos < l.length) : ∃ root, v.root = some root
    ∧ Returns (BTreeVec.leafFor root pos) s (fun r s' => s' = s
      ∧ SlotAt s (s.leavesOf v) r pos) := by
  cases h with
  | empty => exact absurd hpos (Nat.not_lt_zero pos)
  | @tree root k l hc hi hl hnd =>
      have hw : s.weight (s.leavesUnder k root) = l.length := by
        rw [hc.weight_eq (List.Subset.refl _), ← hi]
        rfl
      refine ⟨root, rfl, (hc.subtree.leafFor_spec (by omega)).mono ?_⟩
      intro r s' hr
      obtain ⟨rfl, hloc⟩ := hr
      obtain ⟨L, R, hL, hpos', _⟩ := hloc.split
      exact ⟨rfl, L, R, hc.leaves.trans hL, hloc.lt (by omega), hpos'⟩

theorem slot (h : CopyAt s v l F) (hs : SlotAt s (s.leavesOf v) p pos) :
    ∃ x, s.slot p = some x ∧ l[pos]? = some x := by
  cases h with
  | empty =>
      obtain ⟨L, R, hL, _⟩ := hs
      exact absurd (show [] = L ++ p.1 :: R from hL) (by simp)
  | @tree root k l hc hi hl hnd =>
      have hs : SlotAt s (s.leavesUnder k root) p pos := hc.leaves ▸ hs
      obtain ⟨L, xs, y, ys, nx, R, _, hb, hp, rfl, hitems⟩ := hc.slot_split hs
      refine ⟨y, ?_, ?_⟩
      · rw [Store.slot, Store.items, hb, hp]
        simp [Body.items]
      · rw [← hi, hitems]
        simp

theorem get (h : CopyAt s v l F) (i : Nat) :
    Returns (v.get i) s (fun r s' => r = l[i]? ∧ s' = s) := by
  unfold BTreeVec.get
  rw [h.size]
  by_cases hi : i < l.length
  · obtain ⟨root, hroot, hleaf⟩ := h.leafFor hi
    simp only [if_pos hi, returns_bind, hroot, returns_orFault]
    refine ⟨root, rfl, hleaf.mono ?_⟩
    intro r s' hr
    obtain ⟨rfl, hs⟩ := hr
    obtain ⟨x, hx, hl⟩ := h.slot hs
    rw [LeafNode.child_slot hx, hl]
    exact ⟨rfl, rfl⟩
  · rw [if_neg hi, List.getElem?_eq_none (Nat.le_of_not_lt hi)]
    exact ⟨rfl, rfl⟩

theorem getMut (h : CopyAt s v l F) (i : Nat) :
    Returns (v.getMut i) s (fun r s' => s' = s ∧ PointsAt v s l.length i r) := by
  unfold BTreeVec.getMut
  rw [h.size]
  by_cases hi : i < l.length
  · obtain ⟨root, hroot, hleaf⟩ := h.leafFor hi
    simp only [if_pos hi, returns_bind, hroot, returns_orFault]
    refine ⟨root, rfl, hleaf.mono ?_⟩
    intro r s' hr
    obtain ⟨rfl, hs⟩ := hr
    obtain ⟨x, hx, _⟩ := h.slot hs
    rw [LeafNode.child_slot hx]
    exact ⟨rfl, hs⟩
  · rw [if_neg hi]
    exact ⟨rfl, Nat.le_of_not_lt hi⟩

theorem last (h : CopyAt s v l F) :
    Returns v.last s (fun r s' => r = l.getLast? ∧ s' = s) := by
  unfold BTreeVec.last
  rw [h.size, List.getLast?_eq_getElem?]
  by_cases hl : 1 ≤ l.length
  · rw [if_pos hl]
    exact h.get _
  · rw [if_neg hl, List.length_eq_zero_iff.mp (show l.length = 0 by omega)]
    exact ⟨rfl, rfl⟩

/-- Only the leaf of the slot is written to. -/
theorem write (h : CopyAt s v l F) (hs : SlotAt s (s.leavesOf v) p pos) (y : T) :
    Returns (BTreeVec.write p y) s (fun _ s' => CopyAt s' v (l.set pos y) F
      ∧ Heap.Within s.heap s'.heap F F ∧ s'.dropped = s.dropped ++ l[pos]?.toList) := by
  cases h with
  | empty =>
      obtain ⟨L, R, hL, _⟩ := hs
      exact absurd (show [] = L ++ p.1 :: R from hL) (by simp)
  | @tree root k l hc hi hl hnd =>
      obtain ⟨a, i⟩ := p
      have hs : SlotAt s (s.leavesUnder k root) (a, i) pos := hc.leaves ▸ hs
      obtain ⟨L, xs, x, ys, nx, R, hL, hb, rfl, rfl, hitems⟩ := hc.slot_split hs
      dsimp only at hL hb
      refine (LeafNode.setChild_spec hb).mono ?_
      intro _ _ hr
      obtain ⟨t, rfl, hb', f⟩ := hr
      have hother : ∀ z, z ≠ a → t.body z = s.body z := fun z hz => f.body z hz
      obtain ⟨hc', hn, hls⟩ := hc.rewrite (t := { t with dropped := s.dropped ++ [x] })
        fun z _ => by
          by_cases hz : z = a
          · subst hz
            exact Or.inr ⟨_, _, nx, hb, hb', by simp⟩
          · exact Or.inl (hother z hz)
      -- the leaf is nowhere else in the row of leaves
      have hM : ∀ M : List Addr, a ∉ M →
          M.flatMap (Store.items { t with dropped := s.dropped ++ [x] }) = M.flatMap s.items := by
        intro M hM
        refine List.flatMap_congr fun z hz => ?_
        rw [Store.items, Store.items, ← hother z fun he => hM (he ▸ hz)]
        rfl
      have hnd' := hnd
      rw [hL, List.nodup_middle, List.nodup_cons, List.mem_append, not_or] at hnd'
      have hself : Store.items { t with dropped := s.dropped ++ [x] } a = xs ++ y :: ys := by
        show ((t.body a).map Body.items).getD [] = _
        rw [hb']
        rfl
      have hset : l.set (L.flatMap s.items ++ xs).length y
          = L.flatMap s.items ++ xs ++ y :: (ys ++ R.flatMap s.items) := by
        rw [← hi, hitems, List.set_append_right _ _ (Nat.le_refl _), Nat.sub_self,
          List.set_cons_zero]
      have hlen : l.length = (l.set (L.flatMap s.items ++ xs).length y).length :=
        List.length_set.symm
      refine ⟨?_, .write (b := a) ?_ ?_ ?_, ?_⟩
      · rw [hlen, ← hn]
        refine .tree hc' ?_ ?_ (hls ▸ hnd)
        · rw [hset, Store.itemsUnder, hls, hL, List.flatMap_append, List.flatMap_cons,
            hM L hnd'.1.1, hM R hnd'.1.2, hself]
          simp
        · show t.link root = some (none, 0)
          rw [f.link root (Set.notMem_empty root)]
          exact hl
      · refine s.leavesUnder_subset k root ?_
        rw [hL]
        simp
      · rw [← hn]
        exact hc'.tall.live
      · exact fun z hz => f.read z hz (Set.notMem_empty z)
      · rw [← hi, hitems]
        simp

end CopyAt

/-- A call that moves nothing does not panic. -/
theorem Op.onList_inPlace (l : List T) {op : Op T} (h : op.inPlace = true) :
    ∃ l' r, op.onList l = some (l', r) := by
  cases op with
  | get | getMut | first | last | len => exact ⟨_, _, rfl⟩
  | insert | push | remove | pop => cases h

theorem Op.onList_shared {op : Op T} {r : Ret T} (h : op.access = .shared)
    (ho : op.onList l = some (l', r)) : l' = l ∧ op.overwrites l = [] := by
  cases op with
  | get | first | last | len =>
      cases ho
      exact ⟨rfl, rfl⟩
  | insert | push | remove | pop | getMut => cases h

namespace CopyAt

/-- A call by `&self` changes nothing. -/
theorem exec_shared (h : CopyAt s v l F) {op : Op T} {r : Ret T} (hacc : op.access = .shared)
    (ho : op.onList l = some (l', r)) :
    Returns (op.exec v) s (fun e t => e = (v, r) ∧ t = s) := by
  have hread : ∀ {m : Exec T P B (Option T)} {i : Option T},
      Returns m s (fun r t => r = i ∧ t = s) →
      Returns (do return (v, Ret.option (← m))) s (fun e t => e = (v, Ret.option i) ∧ t = s) := by
    intro m i hm
    rw [returns_bind]
    refine hm.mono ?_
    intro _ t hr
    obtain ⟨rfl, rfl⟩ := hr
    exact ⟨rfl, rfl⟩
  cases op with
  | get i =>
      cases ho
      exact hread (h.get i)
  | first =>
      cases ho
      rw [List.head?_eq_getElem?]
      exact hread (h.get 0)
  | last =>
      cases ho
      exact hread h.last
  | len =>
      cases ho
      show Returns (pure (v, Ret.nat v.len)) s _
      rw [BTreeVec.len, h.size]
      exact ⟨rfl, rfl⟩
  | insert | push | remove | pop | getMut => cases hacc

/-- A call that moves nothing does what it does on a list. -/
theorem exec (h : CopyAt s v l F) {op : Op T} {r : Ret T} (hop : op.inPlace = true)
    (ho : op.onList l = some (l', r)) : Returns (op.exec v) s (fun e t => e = (v, r)
      ∧ CopyAt t v l' F ∧ Heap.Within s.heap t.heap F F
      ∧ t.dropped = s.dropped ++ op.overwrites l) := by
  have hsame : CopyAt s v l F ∧ Heap.Within s.heap s.heap F F ∧ s.dropped = s.dropped ++ [] :=
    ⟨h, .refl h.live, (List.append_nil _).symm⟩
  cases op with
  | get | first | last | len =>
      obtain ⟨rfl, hover⟩ := Op.onList_shared rfl ho
      refine (h.exec_shared rfl ho).mono ?_
      intro _ t hr
      obtain ⟨rfl, rfl⟩ := hr
      rw [hover]
      exact ⟨rfl, hsame⟩
  | getMut i y =>
      cases ho
      rw [Op.exec, returns_bind]
      refine (h.getMut i).mono ?_
      intro o t hr
      obtain ⟨rfl, hpt⟩ := hr
      cases o with
      | none =>
          have hle : l.length ≤ i := hpt
          rw [List.set_eq_of_length_le hle, Op.overwrites, List.getElem?_eq_none hle]
          exact ⟨rfl, hsame⟩
      | some p =>
          obtain ⟨x, hx, hl⟩ := h.slot hpt
          simp only [returns_bind]
          rw [LeafNode.child_slot hx, hl]
          refine (h.write hpt y).mono ?_
          intro _ t hr
          obtain ⟨hv, hw, hdrop⟩ := hr
          exact ⟨rfl, hv, hw, hdrop⟩
  | insert | push | remove | pop => cases hop

theorem index_ok (h : CopyAt s v l F) {i : Nat} {x : T} (hx : l[i]? = some x) :
    Returns (v.index i) s (fun r s' => s' = s ∧ r = x) := by
  unfold BTreeVec.index
  rw [returns_bind]
  refine (h.get i).mono ?_
  intro _ s' hr
  obtain ⟨rfl, rfl⟩ := hr
  rw [hx]
  exact ⟨rfl, rfl⟩

theorem index_panics (h : CopyAt s v l F) {i : Nat} (hx : l[i]? = none) :
    (v.index i : Exec T P B T) s = .error .unwrap s := by
  obtain ⟨r, s', he, rfl, rfl⟩ := returns_iff.mp (h.get i)
  unfold BTreeVec.index
  simp only [bind, EStateM.bind, he, hx]
  rfl

/-! ## Dropping and cloning -/

/-- Dropping a copy frees its nodes and no others, and drops its items. -/
theorem drop_within (h : CopyAt s v l F) : Returns v.drop s (fun _ s' =>
    Heap.Within s.heap s'.heap F ∅ ∧ s'.dropped = s.dropped ++ l) := by
  cases h with
  | empty =>
      refine ⟨.refl fun x hx => absurd hx (Set.notMem_empty x), ?_⟩
      exact (List.append_nil _).symm
  | @tree root k l hc hi hl hnd =>
      have hlt := hc.tall.lt_next hc.height_lt_nodes (hc.nodes_nodup hnd)
      refine (BTreeVec.drop_spec hc.tall hlt hl (hc.nodes_nodup hnd)).mono ?_
      intro _ s' hraz
      exact ⟨hraz.within, hi ▸ hraz.dropped⟩

end CopyAt

/-- `f` copies subtrees of height `k`, and allocates nothing but the nodes of the copies. -/
def ClonesOnly (T P : Type) (B : Nat) [TaggedPtr P] (k : Nat)
    (f : Addr → Option Addr → Exec T P B (Addr × Addr)) : Prop :=
  ∀ {t : Store T P B} {a : Addr} {nl : Option Addr}, Counted t k a →
    Returns (f a nl) t (fun r u =>
      ∀ x, t.heap.next ≤ x → u.heap.read x ≠ none → x ∈ u.nodesUnder k r.1)

section
variable {f : Addr → Option Addr → Exec T P B (Addr × Addr)} {es es₂ : List (Addr × Nat)}
  {bs : List Addr}

/-- All nodes but the one that is being filled are in the copies of its children. -/
def Cloning.Only (s t : Store T P B) (k : Nat) (bs : List Addr) : Prop :=
  ∀ x, s.heap.next < x → t.heap.read x ≠ none → x ∈ bs.flatMap (t.nodesUnder k)

theorem InternalNode.cloneChildren_only (hf : ClonesNode cl k f) (ho : ClonesOnly T P B k f) :
    ∀ {es₂ : List (Addr × Nat)} {t : Store T P B} {bs : List Addr} {nl' : Option Addr},
      Cloning cl s t k es₁ es₂ bs nl nl' → Cloning.Only s t k bs →
      (∀ e ∈ es₁, Counted s k e.1) → s.body a = some (.internal (es₁ ++ es₂)) →
      Returns (cloneChildren f s.heap.next a (List.range es₁.length).reverse nl') t (fun r u =>
        ∃ bs', Cloning cl s u k [] (es₁ ++ es₂) bs' nl r ∧ Cloning.Only s u k bs') := by
  induction es₁ using List.reverseRecOn with
  | nil => intro es₂ t bs nl' h hall _ _; exact ⟨bs, h, hall⟩
  | append_singleton es₁ e ih =>
      intro es₂ t bs nl' h hall hc hb
      have hce := hc e (List.mem_append_right _ List.mem_cons_self)
      rw [List.append_assoc, List.singleton_append] at hb ⊢
      rw [List.length_append, List.length_singleton, List.range_succ, List.reverse_concat,
        cloneChildren, returns_bind, InternalNode.child_spec (h.grown.body hb), returns_bind]
      have hce' := (hce.grown h.grown).1
      refine (Returns.and (hf hce') (ho hce')).mono ?_
      intro p t₁ ht
      obtain ⟨b, leaf⟩ := p
      obtain ⟨⟨hcopy, hlink, hg⟩, hnew⟩ := ht
      simp only [returns_bind]
      refine (setParent_spec hlink (some s.heap.next)).mono ?_
      intro _ t₂ ht
      obtain ⟨f₂, hlink'⟩ := ht
      obtain ⟨ch, hr, hch⟩ := h.record
      have hself := Heap.lt_next_of_read hr
      have hfresh : ∀ x ∈ t₁.nodesUnder k b, s.heap.next < x := fun x hx =>
        Nat.lt_of_lt_of_le hself (hcopy.fresh x (by rw [List.flatMap_singleton]; exact hx))
      have hbself := hfresh b (t₁.self_mem_nodesUnder k b)
      have hr₂ : t₂.heap.read s.heap.next
          = some (.internal { InternalNode.new with children := ch }) := by
        rw [f₂.read _ (Set.notMem_empty _) (Nat.ne_of_lt hbself), hg.read _ hself, hr]
      rw [List.length_append, List.length_singleton, List.replicate_succ', List.append_assoc,
        List.singleton_append] at hch
      have hput := InternalNode.putChild_spec b hr₂ hch
      rw [List.length_replicate] at hput
      refine hput.mono ?_
      intro _ t₃ ht
      obtain ⟨ch', hch', w⟩ := ht
      have hstep := h.step hce hcopy hlink hg f₂ hlink' w hch'
      refine ih hstep (fun x hx hl => ?_) (fun e he => hc e (List.mem_append_left _ he)) hb
      -- linking the copy and putting it in place changes no subtree
      have hbody : ∀ y, s.heap.next < y → t₃.body y = t₁.body y := fun y hy => by
        rw [Store.body, w.other y (Nat.ne_of_gt hy)]
        exact f₂.body y (Set.notMem_empty y)
      rw [List.flatMap_cons, List.mem_append]
      by_cases hxb : x = b
      · rw [hxb]
        exact Or.inl (t₃.self_mem_nodesUnder k b)
      rw [w.other x (Nat.ne_of_gt hx), f₂.read x (Set.notMem_empty x) hxb] at hl
      by_cases hxt : x < t.heap.next
      · rw [hg.read x hxt] at hl
        obtain ⟨c, hcb, hxc⟩ := List.mem_flatMap.mp (hall x hx hl)
        refine Or.inr (List.mem_flatMap.mpr ⟨c, hcb, ?_⟩)
        rw [((h.copies.counted c hcb).congr fun y hy => ?_).2.1]
        · exact hxc
        · have hlt := h.copies.fresh y (List.mem_flatMap.mpr ⟨c, hcb, hy⟩)
          obtain ⟨body, hy⟩ := (h.copies.counted c hcb).body_of_mem hy
          rw [hbody y hlt, hy, hg.body hy]
      · left
        rw [((hcopy.counted b List.mem_cons_self).congr fun y hy => hbody y (hfresh y hy)).2.1]
        exact hnew x (Nat.le_of_not_lt hxt) hl

theorem InternalNode.cloneFrom_only {s₁ : Store T P B} (hf : ClonesNode cl k f)
    (ho : ClonesOnly T P B k f) (hc : Counted s (k + 1) a) (hg : Grown s s₁)
    (hr : s₁.heap.read s.heap.next = some (.internal InternalNode.new))
    (hone : ∀ x, s.heap.next < x → s₁.heap.read x = none) (nl : Option Addr) :
    Returns (cloneFrom f s.heap.next a nl) s₁ (fun _ u =>
      ∀ x, s.heap.next ≤ x → u.heap.read x ≠ none → x ∈ u.nodesUnder (k + 1) s.heap.next) := by
  have hspec := cloneFrom_spec hf hc hg hr nl
  obtain ⟨es, hb, hne, he⟩ := hc
  obtain ⟨n, ha, hn⟩ := Store.body_internal.mp hb
  have hstart : Cloning cl s s₁ k es [] [] nl nl := by
    refine ⟨hg, ⟨_, hr, ?_⟩, .nil rfl, fun b hb => absurd hb List.not_mem_nil⟩
    rw [List.map_nil, List.nil_append, List.append_nil, List.replicate_append_replicate,
      Nat.add_sub_cancel' hn.length_le]
    rfl
  have hloop := cloneChildren_only hf ho hstart (fun x hx hl => absurd (hone x hx) hl)
    (fun e hem => (he e hem).1) (by rw [List.append_nil]; exact hb)
  unfold cloneFrom at hspec ⊢
  simp only [returns_bind, returns_derefInternal] at hspec ⊢
  obtain ⟨n', hn', hspec⟩ := hspec
  obtain rfl : n = n' := by
    rw [hg.read a (Heap.lt_next_of_read ha), ha] at hn'
    cases hn'
    rfl
  rw [← hn.length, List.append_nil] at hloop
  refine ⟨n, hn', (Returns.and hspec hloop).mono ?_⟩
  intro r t h
  obtain ⟨hspec, bs, ht, hall⟩ := h
  obtain ⟨ch, hrec, hch⟩ := ht.record
  refine (Returns.and hspec (modifyInternal_spec hrec _)).mono ?_
  intro _ t₁ h
  obtain ⟨⟨m, hm, hspec⟩, w₁⟩ := h
  refine ⟨m, hm, (Returns.and hspec (modifyInternal_spec w₁.self _)).mono ?_⟩
  intro _ t₂ h
  obtain ⟨hspec, w₂⟩ := h
  have w := w₁.trans w₂
  rw [returns_orFault] at hspec ⊢
  obtain ⟨leaf, rfl, hcopy, _⟩ := hspec
  refine ⟨leaf, rfl, fun x hx hl => ?_⟩
  have htall := (hcopy.counted _ List.mem_cons_self).tall
  rcases Nat.eq_or_lt_of_le hx with rfl | hx
  · exact t₂.self_mem_nodesUnder _ _
  have hkids : t₂.childrenAt s.heap.next = bs := by
    have hlen := congrArg List.length ht.copies.widths
    rw [List.length_map, List.length_map, List.length_map] at hlen
    have htake := filterMap_take_map id bs (List.replicate (B - es.length) none)
    rw [List.map_id, hlen, ← hn.length] at htake
    rw [List.length_nil, List.replicate_zero, List.nil_append, List.nil_append, ← hn.length] at hch
    rw [Store.childrenAt, w.self]
    show (ch.toList.take n.length).filterMap id = bs
    rw [hch]
    exact htake
  rw [w.other x (Nat.ne_of_gt hx)] at hl
  obtain ⟨c, hcb, hxc⟩ := List.mem_flatMap.mp (hall x hx hl)
  obtain ⟨hc', hnodes, _⟩ := (ht.copies.counted c hcb).congr (t := t₂) fun y hy => by
    have hlt := ht.copies.fresh y (List.mem_flatMap.mpr ⟨c, hcb, hy⟩)
    rw [Store.body, w.other y (Nat.ne_of_gt hlt)]
    rfl
  obtain ⟨d, hd⟩ := hc'.tall.reach_iff.mpr (hnodes ▸ hxc)
  refine htall.reach_iff.mp ⟨1 + d, ?_⟩
  exact Reach.trans (.child .root (hkids ▸ hcb)) hd

end

/-- `clone_node` allocates nothing but the nodes of the copy. -/
theorem NodeRef.cloneNode_only {fuel : Nat} (hk : k < fuel) :
    ClonesOnly T P B k (cloneNode cl fuel) := by
  induction k generalizing fuel with
  | zero =>
      intro s a nl hc
      obtain ⟨fuel, rfl⟩ := Nat.exists_eq_succ_of_ne_zero (Nat.ne_of_gt hk)
      have htag := hc.tall.tag
      obtain ⟨xs, nx, hb⟩ := hc
      rw [cloneNode, returns_bind, returns_cast htag]
      simp only [if_true, returns_bind]
      refine (LeafNode.alloc_spec s).mono ?_
      intro _ s₁ ht
      obtain ⟨rfl, hr, _, _, f, _⟩ := ht
      have hlt := Store.lt_next_of_body hb
      have hb' := (f.body a (Nat.ne_of_lt hlt)).trans hb
      refine (LeafNode.cloneFrom_spec hb' hr (ParentPtr.kind_new _) nl (Nat.ne_of_lt hlt)).mono ?_
      intro _ t ht x hx hl
      obtain ⟨n, w, _⟩ := ht
      refine List.mem_singleton.mpr (Classical.byContradiction fun hne => hl ?_)
      rw [w.other x hne, f.read x hne hne]
      exact Heap.read_of_next_le hx
  | succ k ih =>
      intro s a nl hc
      obtain ⟨fuel, rfl⟩ := Nat.exists_eq_succ_of_ne_zero (Nat.ne_of_gt (Nat.zero_lt_of_lt hk))
      rw [cloneNode, returns_bind, returns_cast hc.tall.tag, if_neg (Nat.succ_ne_zero k)]
      simp only [returns_bind]
      refine (InternalNode.alloc_spec s).mono ?_
      intro _ s₁ ht
      obtain ⟨rfl, hr, _, _, f, hnext⟩ := ht
      have hg : Grown s s₁ := by
        refine ⟨fun x hx => ?_, by omega, f.destroyed, f.dropped⟩
        exact f.read x (Nat.ne_of_lt hx) (Nat.ne_of_lt hx)
      have hone : ∀ x, s.heap.next < x → s₁.heap.read x = none := fun x hx => by
        rw [f.read x (Nat.ne_of_gt hx) (Nat.ne_of_gt hx)]
        exact Heap.read_of_next_le (Nat.le_of_lt hx)
      exact (InternalNode.cloneFrom_only (NodeRef.cloneNode_spec (by omega)) (ih (by omega)) hc hg
        hr hone nl).mono fun _ _ h => h

/-- A clone is a copy, in nodes of its own. -/
theorem CopyAt.clone (h : CopyAt s v l F) (cl : T → T) : Returns (v.clone cl) s (fun w t =>
    ∃ F', CopyAt t w (l.map cl) F' ∧ Heap.Within s.heap t.heap ∅ F' ∧ t.dropped = s.dropped) := by
  cases h with
  | empty => exact ⟨∅, .empty, .refl fun x hx => absurd hx (Set.notMem_empty x), rfl⟩
  | @tree root k l hc hi hl hnd =>
      have hlt := hc.tall.lt_next hc.height_lt_nodes (hc.nodes_nodup hnd)
      unfold BTreeVec.clone
      simp only [returns_bind, returns_get, returns_pure]
      refine (Returns.and (NodeRef.cloneNode_spec (Nat.lt_succ_of_lt hlt) hc)
        (NodeRef.cloneNode_only (Nat.lt_succ_of_lt hlt) hc)).mono ?_
      intro p t hr
      obtain ⟨r, leaf⟩ := p
      obtain ⟨⟨hcopy, hlink, hg⟩, hall⟩ := hr
      have hcr := hcopy.counted r List.mem_cons_self
      have hitems := hcopy.items
      rw [List.flatMap_singleton, List.flatMap_singleton, hi] at hitems
      have hfresh := hcopy.fresh
      rw [List.flatMap_singleton] at hfresh
      -- the leaves of the copy are different, since what follows them is
      have hnd' : (t.leavesUnder k r).Nodup := by
        have hchain := hcopy.chain
        rw [List.flatMap_singleton, List.flatMap_singleton] at hchain
        have hnext : ((s.leavesUnder k root).map some ++ [none]).Nodup := by
          refine List.nodup_append.mpr ⟨hnd.map fun _ _ => Option.some.inj,
            List.nodup_singleton _, fun x hx y hy => ?_⟩
          obtain ⟨z, _, rfl⟩ := List.mem_map.mp hx
          obtain rfl := List.mem_singleton.mp hy
          exact Option.some_ne_none z
        rw [← hchain, List.nodup_cons] at hnext
        exact hnext.2.of_map
      have hlen : l.length = (l.map cl).length := (List.length_map _).symm
      refine ⟨{x | x ∈ t.nodesUnder k r}, ?_, ⟨fun x _ hx => ?_, fun x hx => ?_, fun x hx => ?_,
        hcr.tall.live⟩, hg.dropped⟩
      · rw [hlen]
        exact .tree hcr hitems hlink hnd'
      · obtain ⟨c, hc⟩ := Option.ne_none_iff_exists'.mp hx
        exact hg.read x (Heap.lt_next_of_read hc)
      · by_cases hlt : x < s.heap.next
        · exact Or.inr ⟨Set.notMem_empty x, hg.read x hlt ▸ hx⟩
        · exact Or.inl (hall x (Nat.le_of_not_lt hlt) hx)
      · exact Or.inr (Heap.read_of_next_le (hfresh x hx))

end BTreeVec
