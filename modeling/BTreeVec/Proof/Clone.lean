import BTreeVec.Proof.CloneOps
import BTreeVec.Proof.Consume

/-!
# A clone and its original

A clone ought to be a vector of its own: nothing that happens to the original shows in
it, and every call on it does what it does on a list. Both hold of the clone of a lone
leaf, and of no other: with two leaves or more, the chain of the clone runs into the
leaves of the original, and the index of the second child of the clone's root is 0.
-/

set_option linter.dupNamespace false

namespace BTreeVec

open Prog

variable {T P : Type} {B : Nat} [TaggedPtr P] {s t t' : Store T P B} {v w : BTreeVec} {l : List T}
  {F : Set Addr} {root r a x : Addr} {Ds : List (List Addr)} {k : Nat} {cl : T → T}

/-! ## What is to be shown -/

omit [TaggedPtr P] in
/-- The node at `a` was allocated on the way from `s` to `t`. -/
def Allocated (s t : Store T P B) (a : Addr) : Prop := s.heap.next ≤ a ∧ a < t.heap.next

/-- The pointers stored in a node: its parent, its children, the next leaf. -/
def Cell.pointers : Cell T P B → List Addr
  | .leaf n => n.nodePrefix.parent.get.toList ++ n.next.toList
  | .internal n => n.nodePrefix.parent.get.toList ++ n.children.toList.filterMap id

/-- The clone `w`, made on the way from `s` to `t`, has nothing to do with `v` any more. -/
structure Separate (cl : T → T) (v : BTreeVec) (s : Store T P B) (w : BTreeVec)
    (t : Store T P B) : Prop where
  pointers : ∀ r d a c, w.root = some r → Reach t r d a → t.heap.read a = some c →
    ∀ p ∈ c.pointers, Allocated s t p
  chain : ∀ r, w.root = some r → Chain t (t.leaves r).head? (t.leaves r)
  /-- Whatever is done to `v`, the clone has the items that `v` had. -/
  iter : ∀ o t', Used v t o t' → ∀ k,
    Returns (do drain Cursor.sizeHint Iter.next k (← w.iter)) t'
      (fun r _ => r = traversal k ((s.itemsOf v).map cl))
  /-- Taking the items out of the clone leaves all nodes as they are but the clone's own. -/
  intoIter : ∀ o t', Used v t o t' → ∀ k,
    Returns (do IntoIter.consume k (← w.intoIter)) t'
      (fun _ t'' => ∀ a, ¬ Allocated s t a → t''.heap.read a = t'.heap.read a)

/-- Every child of an internal node knows its parent and its slot. -/
def Placed (w : BTreeVec) (t : Store T P B) : Prop :=
  ∀ r d p n i c, w.root = some r → Reach t r d p → t.heap.read p = some (.internal n) →
    i < n.length → n.children.get? i = some (some c) → ∃ x, t.heap.read c = some x
      ∧ x.nodePrefix.parent.get = some p ∧ x.nodePrefix.index = i

/-- The clone `w` behaves as a plain list of what `v` had, and its links are right. -/
structure Usable (cl : T → T) (v : BTreeVec) (s : Store T P B) (w : BTreeVec)
    (t : Store T P B) : Prop where
  calls : ∀ ops, observe ops w t = observeList ops ((s.itemsOf v).map cl)
  placed : ∀ w' t', Used w t (some w') t' → Placed w' t'

omit [TaggedPtr P] in
/-- The vector has no node, or one leaf and nothing else. -/
def LoneLeaf (v : BTreeVec) (s : Store T P B) : Prop := ∀ r, v.root = some r → s.IsLeaf r

/-! ## Using a vector next to another one -/

/-- Calls on a vector leave alone the nodes of others, and so does dropping it. -/
theorem Used.outside {o : Option BTreeVec} (hu : Used v t o t') (hB : 3 ≤ B) (h : VecAt t v l F) :
    (∀ x, x ∉ F → x < t.heap.next → t'.heap.read x = t.heap.read x)
      ∧ ∀ v', o = some v' → ∃ l' F', VecAt t' v' l' F' ∧ Local t t' F F' := by
  induction hu with
  | start =>
      refine ⟨fun _ _ _ => rfl, fun v' hv => ?_⟩
      obtain rfl := Option.some.inj hv
      exact ⟨l, F, h, Local.refl t F⟩
  | call op hu he ih =>
      obtain ⟨l₁, F₁, h₁, hloc⟩ := ih.2 _ rfl
      obtain ⟨l₂, F₂, h₂, hloc'⟩ := h₁.exec_ok hB he
      have htrans := hloc.trans hloc'
      refine ⟨htrans.outside, fun v' hv => ?_⟩
      obtain rfl := Option.some.inj hv
      exact ⟨l₂, F₂, h₂, htrans⟩
  | panic op hu he ih =>
      obtain ⟨l₁, F₁, h₁, _⟩ := ih.2 _ rfl
      obtain ⟨_, rfl, _⟩ := h₁.exec_error hB he
      exact ih
  | drop hu he ih =>
      obtain ⟨l₁, F₁, h₁, hloc⟩ := ih.2 _ rfl
      have hr := h₁.drop
      rw [Returns, he] at hr
      obtain ⟨A, _, hA, _, hraz⟩ := hr
      refine ⟨fun x hx hlt => ?_, fun v' hv => by cases hv⟩
      have hxA : x ∉ A := fun hm =>
        (hloc.owned x ((hA x).mp hm)).elim hx (Nat.not_le.mpr hlt)
      rw [hraz.other x hxA, ih.1 x hx hlt]

/-- The vector is still there when the nodes it has are. -/
theorem VecAt.congr (h : VecAt s v l F) (hr : ∀ x ∈ F, t.heap.read x = s.heap.read x) :
    VecAt t v l F := by
  cases h with
  | empty => exact .empty
  | @tree root Ds l h =>
      have hrow : ∀ x ∈ [root] ++ Ds.flatten, t.heap.read x = s.heap.read x := fun x hx =>
        hr x ((rowNodes_root_perm Ds root).mem_iff.mpr hx)
      have hroot := hrow root List.mem_cons_self
      refine .tree ⟨h.below.congr (fun x hx => ?_) (fun x hx => ?_), ?_, fun hD => ?_, h.nodup⟩
      · rw [Store.body, hrow x hx]; rfl
      · rw [Store.link, hrow x (List.mem_append_right _ hx)]; rfl
      · rw [Store.link, hroot]; exact h.link
      · rw [width_congr (s := s) (by rw [Store.body, hroot]; rfl)]
        exact h.wide hD

theorem VecAt.lt_next (h : VecAt s v l F) (hx : x ∈ F) : x < s.heap.next := by
  cases h with
  | empty => exact absurd hx (Set.notMem_empty x)
  | @tree root Ds l h => exact h.below.lt_next x ((rowNodes_root_perm Ds root).mem_iff.mp hx)

theorem VecAt.grown (h : VecAt s v l F) (hg : Grown s t) : VecAt t v l F :=
  h.congr fun x hx => hg.read x (h.lt_next hx)

theorem VecAt.placed (h : VecAt s v l F) : Placed v s := by
  intro r d p n i c hr hp hn hi hc
  cases h with
  | empty => cases hr
  | @tree root Ds l h =>
      cases hr
      obtain ⟨W, Ds', hpW, hW, _⟩ := h.row_of_reach hp
      obtain ⟨D, Ds'', es, rfl, hat, hes⟩ := hW.internal hpW hn
      obtain ⟨x, hx, hlink⟩ := Option.map_eq_some_iff.mp (hat.child_link hes hi hc)
      exact ⟨x, hx, congrArg Prod.fst hlink, congrArg Prod.snd hlink⟩

/-! ## A lone leaf -/

/-- A vector of no node, or of one leaf, with the items `l`. -/
inductive LoneAt (s : Store T P B) : BTreeVec → List T → Prop where
  | empty : LoneAt s ⟨none, 0⟩ []
  | leaf {r : Addr} {l : List T} (hb : s.body r = some (.leaf l none))
      (hl : s.link r = some (none, 0)) : LoneAt s ⟨some r, l.length⟩ l

namespace LoneAt

theorem vecAt (h : LoneAt s v l) : VecAt s v l {x | v.root = some x} := by
  cases h with
  | empty =>
      have he : {x | (none : Option Addr) = some x} = ∅ := Set.ext fun x => by simp
      rw [he]
      exact .empty
  | @leaf r l hb hl =>
      have he : {x | some r = some x} = {x | x ∈ rowNodes [] [r] []} := Set.ext fun x => by
        simp [rowNodes, eq_comm]
      rw [he]
      refine .tree ⟨⟨l, [], (List.append_nil l).symm, hb, rfl⟩, hl, fun hD => absurd rfl hD, ?_⟩
      exact List.nodup_singleton r

theorem congr (h : LoneAt s v l) (hr : ∀ r, v.root = some r → t.heap.read r = s.heap.read r) :
    LoneAt t v l := by
  cases h with
  | empty => exact .empty
  | leaf hb hl =>
      have hr := hr _ rfl
      refine .leaf ?_ ?_
      · rw [Store.body, hr]; exact hb
      · rw [Store.link, hr]; exact hl

theorem counted (h : LoneAt s v l) (hr : v.root = some r) : Counted s 0 r := by
  cases h with
  | empty => cases hr
  | leaf hb hl =>
      cases hr
      exact ⟨_, _, hb⟩

theorem noGap (h : LoneAt s v l) : NoGap v s := by
  intro r hr
  rw [(h.counted hr).leaves]
  exact List.pairwise_singleton _ _

end LoneAt

theorem VecAt.loneAt (h : VecAt s v l F) (hlone : LoneLeaf v s) : LoneAt s v l := by
  cases h with
  | empty => exact .empty
  | @tree root Ds l h =>
      obtain ⟨n, hn⟩ := hlone root rfl
      obtain ⟨rfl, xs, nx, hb, _⟩ := h.below.leaf List.mem_cons_self hn
      obtain ⟨E, C, rfl, hE, rfl⟩ := h.below
      rw [List.append_nil]
      exact .leaf hE h.link

/-! ## Cloning a vector -/

theorem Tree.clone (h : Tree s root Ds l) (cl : T → T) (n : Nat) :
    Returns (BTreeVec.clone cl ⟨some root, n⟩) s (fun w t => ∃ r leaf, w = ⟨some r, n⟩
      ∧ Copies cl s.heap.next s t Ds.length [root] [r] none (some leaf)
      ∧ t.link r = some (none, 0) ∧ Grown s t) := by
  obtain ⟨hc, _⟩ := h.counted
  unfold BTreeVec.clone
  simp only [returns_bind, returns_get, returns_pure]
  refine (NodeRef.cloneNode_spec (Nat.lt_succ_of_lt hc.height_lt) hc).mono ?_
  intro r t hr
  exact ⟨r.1, r.2, rfl, hr⟩

/-- The clone of a lone leaf is a lone leaf of its own. -/
theorem LoneAt.clone (h : LoneAt s v l) (cl : T → T) : Returns (v.clone cl) s (fun w t =>
    LoneAt t w (l.map cl) ∧ Grown s t ∧ ∀ r, w.root = some r → Allocated s t r) := by
  cases h with
  | empty =>
      exact ⟨.empty, ⟨fun _ _ => rfl, Nat.le_refl _, rfl, rfl⟩, fun r hr => by cases hr⟩
  | @leaf root l hb hl =>
      -- a lone leaf is a tree without rows below the root, however few its items
      have ht : Tree s root [] l :=
        ⟨⟨l, [], (List.append_nil l).symm, hb, rfl⟩, hl, fun hD => absurd rfl hD,
          List.nodup_singleton root⟩
      refine (ht.clone cl l.length).mono ?_
      intro w t hw
      obtain ⟨r, leaf, rfl, hcopy, hlink, hg⟩ := hw
      obtain ⟨ys, nx, hr⟩ := hcopy.counted r List.mem_cons_self
      have hys : ys = l.map cl := by
        have hi := hcopy.items
        rw [List.flatMap_singleton, List.flatMap_singleton, Store.itemsUnder,
          Store.itemsUnder] at hi
        simpa [Store.leavesUnder, Store.items, hr, hb, Body.items] using hi
      -- the chain of the copy ends with `none`
      have hnx : nx = none := by
        have hch := hcopy.chain
        rw [List.flatMap_singleton, List.flatMap_singleton] at hch
        have hlast := congrArg List.getLast? hch
        simpa [Store.leavesUnder, Store.next, hr, Body.next] using hlast
      have hlen : l.length = (l.map cl).length := (List.length_map _).symm
      rw [hys, hnx] at hr
      refine ⟨?_, hg, fun r' hr' => ?_⟩
      · rw [hlen]
        exact .leaf hr hlink
      · obtain rfl := Option.some.inj hr'
        refine ⟨hcopy.fresh r ?_, Store.lt_next_of_body hr⟩
        exact List.mem_singleton.mpr rfl

/-! ## The clone of a lone leaf is as it should be -/

namespace LoneAt

theorem reach (h : LoneAt s v l) (hr : v.root = some r) {d : Nat} (ha : Reach s r d a) : a = r := by
  induction ha with
  | root => rfl
  | child hp hc ih =>
      subst ih
      obtain ⟨xs, nx, hb⟩ := h.counted hr
      rw [childrenAt_of_body hb] at hc
      exact absurd hc List.not_mem_nil

theorem record (h : LoneAt s v l) (hr : v.root = some r) : ∃ n, s.heap.read r = some (.leaf n)
    ∧ n.next = none ∧ n.nodePrefix.parent.get = none := by
  cases h with
  | empty => cases hr
  | leaf hb hl =>
      cases hr
      obtain ⟨n, hn, hh⟩ := Store.body_leaf.mp hb
      rw [Store.link, hn, Option.map_some] at hl
      exact ⟨n, hn, hh.next, congrArg Prod.fst (Option.some.inj hl)⟩

/-- A vector in other nodes, whatever is done to it, does not reach the clone. -/
theorem used {o : Option BTreeVec} {l' : List T} (h : LoneAt t w l') (hB : 3 ≤ B)
    (hw : ∀ r, w.root = some r → Allocated s t r) (hv : VecAt s v l F) (hg : Grown s t)
    (hu : Used v t o t') : LoneAt t' w l' := by
  refine h.congr fun r hr => ?_
  obtain ⟨hle, hlt⟩ := hw r hr
  refine (hu.outside hB (hv.grown hg)).1 r (fun hF => ?_) hlt
  exact absurd (hv.lt_next hF) (Nat.not_lt.mpr hle)

end LoneAt

theorem Sound.separate (h : Sound v s l F) (hw : LoneAt t w (l.map cl)) (hg : Grown s t)
    (hr' : ∀ r, w.root = some r → Allocated s t r) : Separate cl v s w t where
  pointers r d a c hroot ha hc p hp := by
    obtain rfl := hw.reach hroot ha
    obtain ⟨n, hn, hnext, hparent⟩ := hw.record hroot
    rw [hc, Option.some.injEq] at hn
    rw [hn, Cell.pointers, hnext, hparent] at hp
    exact absurd hp List.not_mem_nil
  chain r hroot := by
    obtain ⟨n, hn, hnext, _⟩ := hw.record hroot
    rw [(hw.counted hroot).leaves]
    exact .cons hn (hnext ▸ .nil)
  iter o t' hu k := by
    have hw' := hw.used h.branching hr' h.vec hg hu
    rw [h.itemsOf]
    exact (hw'.vecAt.traversed hw'.noGap).iter k
  intoIter o t' hu k := by
    have hw' := hw.used h.branching hr' h.vec hg hu
    obtain ⟨c, hc, hr⟩ := hw'.vecAt.consume hw'.noGap k
    rw [returns_bind]
    refine returns_iff.mpr ⟨c, _, hc, hr.mono ?_⟩
    intro ys t₂ ht a ha
    obtain ⟨_, _, _, _, _, hother, _⟩ := ht
    exact hother a fun hroot => ha (hr' a hroot)

theorem Sound.usable (h : Sound v s l F) (hw : LoneAt t w (l.map cl)) : Usable cl v s w t where
  calls ops := by
    rw [h.itemsOf]
    exact hw.vecAt.observe h.branching ops
  placed w' t' hu := by
    obtain ⟨l', F', hv, _⟩ := (hu.outside h.branching hw.vecAt).2 w' rfl
    exact hv.placed

/-! ## Any other clone is not -/

theorem Counted.reach (h : Counted s k a) {d : Nat} (ha : Reach s r d a)
    (hx : x ∈ s.nodesUnder k a) : ∃ d', Reach s r d' x := by
  induction k generalizing a d with
  | zero => exact ⟨d, List.mem_singleton.mp (show x ∈ [a] from hx) ▸ ha⟩
  | succ k ih =>
      obtain ⟨es, hb, _, he⟩ := h
      rw [nodesUnder_succ hb, List.mem_cons, List.mem_flatMap] at hx
      rcases hx with rfl | ⟨e, hem, hx⟩
      · exact ⟨d, ha⟩
      · refine ih (he e hem).1 (.child ha ?_) hx
        rw [childrenAt_of_body hb]
        exact List.mem_map_of_mem hem

/-- Two children have two leaves. -/
theorem Counted.two_leaves (h : Counted s (k + 1) a) (hw : 2 ≤ s.width a) :
    ∃ x y L, s.leavesUnder (k + 1) a = x :: y :: L := by
  obtain ⟨es, hb, _, he⟩ := h
  have hkids : s.kids a = es.map Prod.fst := by rw [Store.kids, hb]; rfl
  rw [Store.width, hb] at hw
  rw [Store.leavesUnder, hkids, List.flatMap_map]
  cases es with
  | nil => exact absurd hw (by simp [Body.width])
  | cons e₁ es =>
      cases es with
      | nil => exact absurd hw (by simp [Body.width])
      | cons e₂ es =>
          obtain ⟨x, L₁, h₁⟩ :=
            List.exists_cons_of_ne_nil (he e₁ List.mem_cons_self).1.leavesUnder_ne_nil
          obtain ⟨y, L₂, h₂⟩ := List.exists_cons_of_ne_nil
            (he e₂ (List.mem_cons_of_mem _ List.mem_cons_self)).1.leavesUnder_ne_nil
          rw [List.flatMap_cons, List.flatMap_cons, h₁, h₂]
          cases L₁ with
          | nil => exact ⟨x, y, _, rfl⟩
          | cons z L₁ => exact ⟨x, z, _, rfl⟩

/-- The first leaf of the clone is followed by the second leaf of the original. -/
theorem Copies.not_separate {leaf : Addr} {n : Nat} (hc : Counted s (k + 1) root)
    (hw : 2 ≤ s.width root)
    (h : Copies cl s.heap.next s t (k + 1) [root] [r] none (some leaf)) :
    ¬ Separate cl v s ⟨some r, n⟩ t := by
  intro hsep
  obtain ⟨x, y, L, hL⟩ := hc.two_leaves hw
  have hy : y ∈ s.leavesUnder (k + 1) root := by
    rw [hL]
    exact List.mem_cons_of_mem _ List.mem_cons_self
  have hrc := h.counted r List.mem_cons_self
  have hchain := h.chain
  rw [List.flatMap_singleton, List.flatMap_singleton, hL, List.map_cons, List.map_cons,
    List.cons_append, List.cons_append, List.cons.injEq] at hchain
  obtain ⟨b, M, hM, hby, _⟩ := List.map_eq_cons_iff.mp hchain.2
  have hb : b ∈ t.leavesUnder (k + 1) r := by
    rw [hM]
    exact List.mem_cons_self
  obtain ⟨xs, nx, hbody⟩ := hrc.body_leaf hb
  obtain ⟨m, hm, hh⟩ := Store.body_leaf.mp hbody
  rw [Store.next, hbody] at hby
  obtain ⟨d, hd⟩ := hrc.reach .root (t.leavesUnder_subset _ _ hb)
  have hp := (hsep.pointers r d b _ rfl hd hm y ?_).1
  · obtain ⟨xs', nx', hy'⟩ := hc.body_leaf hy
    exact absurd (Store.lt_next_of_body hy') (Nat.not_lt.mpr hp)
  · rw [Cell.pointers, hh.next, show nx = some y from hby]
    exact List.mem_append_right _ List.mem_cons_self

/-- The second child of the clone's root thinks that it is the first. -/
theorem Copies.not_usable {leaf : Addr} {n : Nat} (hw : 2 ≤ s.width root)
    (h : Copies cl s.heap.next s t (k + 1) [root] [r] none (some leaf)) :
    ¬ Usable cl v s ⟨some r, n⟩ t := by
  intro huse
  obtain ⟨es, hb, _, _⟩ := h.counted r List.mem_cons_self
  obtain ⟨m, hm, hh⟩ := Store.body_internal.mp hb
  have hlen : 2 ≤ es.length := by
    have hwidth : t.width r = s.width root := List.cons.inj h.widths |>.1
    rw [← hwidth, Store.width, hb] at hw
    exact hw
  have hget : es[1]? = some es[1] := List.getElem?_eq_getElem hlen
  have hchild : m.children.get? 1 = some (some es[1].1) := by
    refine Slots.get?_append_left hh.children ?_
    rw [List.getElem?_map, hget]
    rfl
  have hlink : t.link es[1].1 = some (some r, 0) := by
    refine h.links r ?_ _ ?_
    · rw [List.flatMap_singleton]
      exact t.self_mem_nodesUnder _ _
    · rw [Store.kids, hb]
      exact List.mem_map_of_mem (List.getElem_mem hlen)
  obtain ⟨c, hc, _, hindex⟩ := huse.placed _ t .start r 0 r m 1 _ rfl .root hm
    (by rw [hh.length]; omega) hchild
  rw [Store.link, hc, Option.map_some, Option.some.injEq] at hlink
  have : c.nodePrefix.index = 0 := congrArg Prod.snd hlink
  omega

/-- A vector that is not a lone leaf has a root with two children. -/
theorem VecAt.wide_root (h : VecAt s v l F) (hlone : ¬ LoneLeaf v s) : ∃ root k D Ds n,
    v = ⟨some root, n⟩ ∧ Tree s root (D :: Ds) l ∧ k = Ds.length ∧ Counted s (k + 1) root
      ∧ 2 ≤ s.width root := by
  cases h with
  | empty => exact absurd (fun r hr => by cases hr) hlone
  | @tree root Ds l h =>
      cases Ds with
      | nil =>
          obtain ⟨E, C, _, hE, _⟩ := h.below
          obtain ⟨n, hn, _⟩ := Store.body_leaf.mp (show s.body root = some (.leaf E _) from hE)
          refine absurd (fun r hr => ?_) hlone
          obtain rfl := Option.some.inj hr
          exact ⟨n, hn⟩
      | cons D Ds =>
          exact ⟨root, Ds.length, D, Ds, _, rfl, h, rfl, h.counted.1, h.wide (List.cons_ne_nil _ _)⟩

theorem pushed_two : ∃ (v : BTreeVec) (s : Store Nat PairPtr 3),
    history ((List.range 2).map .push) Store.empty = .ok v s ∧ v.size = 2 :=
  returns_iff.mp (by decide +kernel)

/--
**A clone is separate from its original just when the original is a lone leaf**, or has no
node at all. `clone_node` looks the first leaf of a subtree up in the original.
-/
theorem clone_separate_iff (h : Reachable v s) (cl : T → T) :
    Returns (v.clone cl) s (fun w t => Separate cl v s w t ↔ LoneLeaf v s) := by
  obtain ⟨l, F, hs⟩ := h.sound
  by_cases hlone : LoneLeaf v s
  · refine ((hs.vec.loneAt hlone).clone cl).mono ?_
    intro w t hw
    exact iff_of_true (hs.separate hw.1 hw.2.1 hw.2.2) hlone
  · obtain ⟨root, k, D, Ds, n, rfl, ht, rfl, hc, hw⟩ := hs.vec.wide_root hlone
    refine (ht.clone cl n).mono ?_
    intro w t hr
    obtain ⟨r, leaf, rfl, hcopy, _⟩ := hr
    exact iff_of_false (Copies.not_separate hc hw hcopy) hlone

theorem clone_separate_iff_two : ∃ (v : BTreeVec) (s : Store Nat PairPtr 3), v.size = 2
    ∧ Returns (v.clone id) s (fun w t => Separate id v s w t ↔ LoneLeaf v s) := by
  obtain ⟨v, s, h, hsize⟩ := pushed_two
  exact ⟨v, s, hsize, clone_separate_iff (.history h) id⟩

theorem pushed_four_dropped : ∃ (v : BTreeVec) (s : Store Nat PairPtr 3),
    history ((List.range 4).map .push) Store.empty = .ok v s
      ∧ Returns (v.clone id) s fun w t => Returns v.drop t fun _ t' =>
        ¬ Returns (do drain Cursor.sizeHint Iter.next 4 (← w.iter)) t' fun _ _ => True :=
  returns_iff.mp (by decide +kernel)

/-- Four items, cloned and dropped: the third call of `next` on the clone reads a freed leaf. -/
theorem clone_not_separate_four : ∃ (v w : BTreeVec) (s t : Store Nat PairPtr 3),
    history ((List.range 4).map .push) Store.empty = .ok v s ∧ v.clone id s = .ok w t
      ∧ ¬ Separate id v s w t := by
  obtain ⟨v, s, h, hr⟩ := pushed_four_dropped
  obtain ⟨w, t, hw, hr⟩ := returns_iff.mp hr
  obtain ⟨_, t', ht, hn⟩ := returns_iff.mp hr
  refine ⟨v, w, s, t, h, hw, fun hsep => hn ?_⟩
  exact (hsep.iter none t' (.drop .start ht) 4).mono fun _ _ _ => trivial

/--
**A clone is usable just when the original is a lone leaf**, or has no node at all.
`clone_from` gives no child its index.
-/
theorem clone_usable_iff (h : Reachable v s) (cl : T → T) :
    Returns (v.clone cl) s (fun w t => Usable cl v s w t ↔ LoneLeaf v s) := by
  obtain ⟨l, F, hs⟩ := h.sound
  by_cases hlone : LoneLeaf v s
  · refine ((hs.vec.loneAt hlone).clone cl).mono ?_
    intro w t hw
    exact iff_of_true (hs.usable hw.1) hlone
  · obtain ⟨root, k, D, Ds, n, rfl, ht, rfl, hc, hw⟩ := hs.vec.wide_root hlone
    refine (ht.clone cl n).mono ?_
    intro w t hr
    obtain ⟨r, leaf, rfl, hcopy, _⟩ := hr
    exact iff_of_false (Copies.not_usable hw hcopy) hlone

theorem clone_usable_iff_two : ∃ (v : BTreeVec) (s : Store Nat PairPtr 3), v.size = 2
    ∧ Returns (v.clone id) s (fun w t => Usable id v s w t ↔ LoneLeaf v s) := by
  obtain ⟨v, s, h, hsize⟩ := pushed_two
  exact ⟨v, s, hsize, clone_usable_iff (.history h) id⟩

theorem pushed_four_called : ∃ (v : BTreeVec) (s : Store Nat PairPtr 3),
    history ((List.range 4).map .push) Store.empty = .ok v s ∧ s.itemsOf v = List.range 4
      ∧ Returns (v.clone id) s fun w t =>
        (observe [.push 4, .get 2] w t)[1]? = some (.error .outOfBounds) :=
  returns_iff.mp (by decide +kernel)

/-- Four items: after a `push` on the clone, `get(2)` looks in the wrong leaf. -/
theorem clone_not_usable_four : ∃ (v w : BTreeVec) (s t : Store Nat PairPtr 3),
    history ((List.range 4).map .push) Store.empty = .ok v s ∧ v.clone id s = .ok w t
      ∧ (observe [.push 4, .get 2] w t)[1]? = some (.error .outOfBounds)
      ∧ ¬ Usable id v s w t := by
  obtain ⟨v, s, h, hitems, hr⟩ := pushed_four_called
  obtain ⟨w, t, hw, hobs⟩ := returns_iff.mp hr
  refine ⟨v, w, s, t, h, hw, hobs, fun huse => ?_⟩
  rw [huse.calls, hitems] at hobs
  revert hobs
  decide

end BTreeVec
