import BTreeVec.Proof.Shape

/-!
# Who owns the nodes

The live nodes are those of the tree: nothing leaks and nothing dangles. Dropping
the vector takes the tree apart, from the root down, and leaves nothing behind.
-/

set_option linter.dupNamespace false

namespace BTreeVec

open Prog

variable {T P : Type} {B : Nat} [TaggedPtr P] {s s' t : Store T P B} {v : BTreeVec} {l : List T}
  {F : Set Addr} {root a x : Addr} {Ds : List (List Addr)} {U : List Addr} {k : Nat}

/-- The nodes of the subtree of height `k` at `a`, each before those below it. -/
def Store.nodesUnder (s : Store T P B) : Nat → Addr → List Addr
  | 0, a => [a]
  | k + 1, a => a :: (s.kids a).flatMap (nodesUnder s k)

theorem Store.self_mem_nodesUnder (s : Store T P B) (k : Nat) (a : Addr) :
    a ∈ s.nodesUnder k a := by
  cases k with
  | zero => exact List.mem_cons_self
  | succ k => exact List.mem_cons_self

theorem nodesUnder_succ {es : List (Addr × Nat)} (hb : s.body a = some (.internal es)) :
    s.nodesUnder (k + 1) a = a :: es.flatMap fun e => s.nodesUnder k e.1 := by
  have hk : s.kids a = es.map Prod.fst := by rw [Store.kids, hb]; rfl
  rw [Store.nodesUnder, hk, List.flatMap_map]

theorem Store.leavesUnder_subset (s : Store T P B) (k : Nat) (a : Addr) :
    s.leavesUnder k a ⊆ s.nodesUnder k a := by
  induction k generalizing a with
  | zero => exact List.Subset.refl _
  | succ k ih =>
      intro x hx
      obtain ⟨c, hc, hx⟩ := List.mem_flatMap.mp hx
      exact List.mem_cons_of_mem _ (List.mem_flatMap.mpr ⟨c, hc, ih c hx⟩)

/-- A subtree of height `k`, whatever its counts say: this is all that destroying it needs. -/
def Tall (s : Store T P B) : Nat → Addr → Prop
  | 0, a => ∃ xs nx, s.body a = some (.leaf xs nx)
  | k + 1, a => ∃ es, s.body a = some (.internal es) ∧ ∀ e ∈ es, Tall s k e.1

namespace Tall

/-- The kind of a node follows from its height. -/
theorem tag (h : Tall s k a) : s.tag a = some (if k = 0 then .leaf else .internal) := by
  cases k with
  | zero =>
      obtain ⟨xs, nx, hb⟩ := h
      exact Store.tag_of_body hb
  | succ k =>
      obtain ⟨es, hb, _⟩ := h
      exact Store.tag_of_body hb

theorem link (h : Tall s k a) : ∃ q i, s.link a = some (q, i) := by
  have ht := h.tag
  obtain ⟨c, hc, _⟩ := Option.map_eq_some_iff.mp ht
  exact ⟨_, _, by rw [Store.link, hc]; rfl⟩

/-- Other items in the leaves make no other subtree. -/
theorem congr (h : Tall s k a) (hb : ∀ x ∈ s.nodesUnder k a, t.body x = s.body x
      ∨ (∃ xs nx, s.body x = some (.leaf xs nx)) ∧ ∃ xs nx, t.body x = some (.leaf xs nx)) :
    Tall t k a ∧ t.nodesUnder k a = s.nodesUnder k a ∧ t.leavesUnder k a = s.leavesUnder k a := by
  induction k generalizing a with
  | zero =>
      refine ⟨?_, rfl, rfl⟩
      rcases hb a (s.self_mem_nodesUnder 0 a) with ha | ⟨_, ha⟩
      · obtain ⟨xs, nx, hbody⟩ := h
        exact ⟨xs, nx, ha.trans hbody⟩
      · exact ha
  | succ k ih =>
      obtain ⟨es, hbody, he⟩ := h
      have ha : t.body a = some (.internal es) := by
        rcases hb a (s.self_mem_nodesUnder (k + 1) a) with ha | ⟨⟨xs, nx, hleaf⟩, _⟩
        · exact ha.trans hbody
        · rw [hbody] at hleaf; cases hleaf
      rw [nodesUnder_succ hbody] at hb
      have hsub := fun e (hem : e ∈ es) => ih (he e hem) fun x hx =>
        hb x (List.mem_cons_of_mem _ (List.mem_flatMap.mpr ⟨e, hem, hx⟩))
      refine ⟨⟨es, ha, fun e hem => (hsub e hem).1⟩, ?_, ?_⟩
      · rw [nodesUnder_succ ha, nodesUnder_succ hbody]
        exact congrArg _ (List.flatMap_congr fun e hem => (hsub e hem).2.1)
      · rw [leavesUnder_internal ha, leavesUnder_internal hbody]
        exact List.flatMap_congr fun e hem => (hsub e hem).2.2

/-- A subtree whose nodes have the bodies they had has the items that it had. -/
theorem itemsUnder (h : Tall s k a) (hb : ∀ x ∈ s.nodesUnder k a, t.body x = s.body x) :
    t.itemsUnder k a = s.itemsUnder k a := by
  rw [Store.itemsUnder, Store.itemsUnder, (h.congr fun x hx => Or.inl (hb x hx)).2.2]
  refine List.flatMap_congr fun x hx => ?_
  rw [Store.items, Store.items, hb x (s.leavesUnder_subset k a hx)]

end Tall

namespace Counted

theorem tall (h : Counted s k a) : Tall s k a := by
  induction k generalizing a with
  | zero => exact h
  | succ k ih =>
      obtain ⟨es, hb, _, he⟩ := h
      exact ⟨es, hb, fun e hem => ih (he e hem).1⟩

/-- A subtree whose nodes have the bodies they had is the same subtree. -/
theorem congr (h : Counted s k a) (hb : ∀ x ∈ s.nodesUnder k a, t.body x = s.body x) :
    Counted t k a ∧ t.nodesUnder k a = s.nodesUnder k a ∧ t.leavesUnder k a = s.leavesUnder k a
      ∧ t.itemsUnder k a = s.itemsUnder k a := by
  have hsame := h.tall.congr fun x hx => Or.inl (hb x hx)
  refine ⟨?_, hsame.2.1, hsame.2.2, h.tall.itemsUnder hb⟩
  clear hsame
  induction k generalizing a with
  | zero =>
      obtain ⟨xs, nx, hbody⟩ := h
      exact ⟨xs, nx, (hb a (s.self_mem_nodesUnder 0 a)).trans hbody⟩
  | succ k ih =>
      obtain ⟨es, hbody, hne, he⟩ := h
      have ha := (hb a (s.self_mem_nodesUnder (k + 1) a)).trans hbody
      rw [nodesUnder_succ hbody] at hb
      refine ⟨es, ha, hne, fun e hem => ?_⟩
      have hsub : ∀ x ∈ s.nodesUnder k e.1, t.body x = s.body x := fun x hx =>
        hb x (List.mem_cons_of_mem _ (List.mem_flatMap.mpr ⟨e, hem, hx⟩))
      refine ⟨ih (he e hem).1 hsub, ?_⟩
      rw [(he e hem).1.tall.itemsUnder hsub]
      exact (he e hem).2

end Counted

/-- The rows hold the nodes of the subtrees they are the rows of. -/
theorem Below.nodesUnder_perm (h : Below s U Ds l) :
    (U.flatMap (s.nodesUnder Ds.length)).Perm (U ++ Ds.flatten) := by
  induction Ds generalizing U with
  | nil =>
      have hU : U.flatMap (s.nodesUnder 0) = U := List.flatMap_pure_eq_map id U ▸ List.map_id U
      rw [List.length_nil, hU, List.flatten_nil, List.append_nil]
  | cons D Ds ih =>
      have hsplit := List.map_append_flatMap_perm U id
        fun a => (s.kids a).flatMap (s.nodesUnder Ds.length)
      rw [List.map_id, ← List.flatMap_assoc, h.1.kids] at hsplit
      exact hsplit.symm.trans (List.Perm.append_left _ (ih h.2.2))

/-! ## Taking a subtree apart -/

/-- The nodes `A` were destroyed in this order, which dropped the items `xs`. -/
structure Razed (s s' : Store T P B) (A : List Addr) (xs : List T) : Prop where
  gone : ∀ x ∈ A, s'.heap.read x = none
  other : ∀ x, x ∉ A → s'.heap.read x = s.heap.read x
  destroyed : ∃ log, s'.destroyed = s.destroyed ++ log ∧ log.map Prod.fst = A
  dropped : s'.dropped = s.dropped ++ xs

/-- The children `es₁` of the node at `a` are destroyed, and `es₂` are to come. -/
structure Razing (s t : Store T P B) (a : Addr) (k : Nat) (es₁ es₂ : List (Addr × Nat)) :
    Prop where
  record : ∃ n xs rest, t.heap.read a = some (.internal n) ∧ xs.length = es₁.length
    ∧ n.children.toList = xs ++ (es₂.map (fun e => some e.1) ++ rest)
  gone : ∀ x ∈ es₁.flatMap fun e => s.nodesUnder k e.1, t.heap.read x = none
  other : ∀ x, x ≠ a → x ∉ (es₁.flatMap fun e => s.nodesUnder k e.1) →
    t.heap.read x = s.heap.read x
  destroyed : ∃ log, t.destroyed = s.destroyed ++ log
    ∧ log.map Prod.fst = a :: es₁.flatMap fun e => s.nodesUnder k e.1
  dropped : t.dropped = s.dropped ++ es₁.flatMap fun e => s.itemsUnder k e.1

namespace NodeRef

theorem destroy_leaf {fuel : Nat} (h : Tall s 0 a) {i : Nat} (hl : s.link a = some (none, i)) :
    Returns (destroy (fuel + 1) .leaf a) s (fun _ s' =>
      Razed s s' (s.nodesUnder 0 a) (s.itemsUnder 0 a)) := by
  obtain ⟨xs, nx, hb⟩ := h
  obtain ⟨n, hr, hn⟩ := Store.body_leaf.mp hb
  obtain ⟨rest, hc⟩ := hn.children
  have hitems : s.itemsUnder 0 a = xs := by
    simp only [Store.itemsUnder, Store.leavesUnder, List.flatMap_cons, List.flatMap_nil,
      List.append_nil, Store.items, hb]
    rfl
  have hsl : n.children.slice? 0 n.length = some (xs.map some) := by
    have := Slots.slice?_prefix hc
    rwa [List.length_map, ← hn.length] at this
  rw [hitems]
  unfold destroy
  simp only [returns_bind, returns_parent hl, returns_check, returns_deref, returns_modify,
    LeafNode.drop, LeafNode.items, deallocate, returns_derefLeaf, returns_orFault]
  refine ⟨trivial, _, hr, n, hr, _, hsl, xs, mapM_id_eq_some.mpr rfl, _, hr, ?_, ?_, ?_, rfl⟩
  · intro x hx
    obtain rfl := List.mem_singleton.mp hx
    simp [Heap.read_free]
  · intro x hx
    have hxa : x ≠ a := fun he => hx (List.mem_singleton.mpr he)
    simp [Heap.read_free, hxa]
  · exact ⟨_, rfl, rfl⟩

/-- One turn of the loop over the children. -/
theorem destroy_child {fuel : Nat} {e : Addr × Nat} {es₁ es₂ : List (Addr × Nat)}
    (h : Razing s t a k es₁ (e :: es₂)) (hc : Tall s k e.1)
    (hnd : (a :: (es₁ ++ e :: es₂).flatMap fun e => s.nodesUnder k e.1).Nodup)
    (ih : ∀ {t : Store T P B} {i : Nat}, Tall t k e.1 → t.link e.1 = some (none, i) →
      (t.nodesUnder k e.1).Nodup →
      Returns (destroy fuel (if k = 0 then .leaf else .internal) e.1) t (fun _ t' =>
        Razed t t' (t.nodesUnder k e.1) (t.itemsUnder k e.1))) :
    Returns (do
      let child ← InternalNode.takeChild a es₁.length
      setParent child none
      destroy fuel (← cast child) child) t (fun _ t' => Razing s t' a k (es₁ ++ [e]) es₂) := by
  obtain ⟨n, xs, rest, hr, hlen, hch⟩ := h.record
  rw [List.flatMap_append, List.flatMap_cons, List.nodup_cons, List.mem_append, List.mem_append,
    not_or, not_or] at hnd
  obtain ⟨⟨ha₁, hae, _⟩, hnd⟩ := hnd
  have hnd' := List.nodup_append.mp hnd
  have hnde := List.nodup_append.mp hnd'.2.1
  have hdisj : ∀ x ∈ s.nodesUnder k e.1, x ∉ es₁.flatMap fun e => s.nodesUnder k e.1 :=
    fun x hx hx₁ => hnd'.2.2 x hx₁ x (List.mem_append_left _ hx) rfl
  have hself := s.self_mem_nodesUnder k e.1
  have hea : e.1 ≠ a := fun he => hae (he ▸ hself)
  rw [← hlen, returns_bind]
  have hch' : n.children.toList = xs ++ some e.1 :: (es₂.map (fun e => some e.1) ++ rest) := hch
  refine (InternalNode.takeChild_spec hr hch').mono ?_
  intro _ t₁ h₁
  obtain ⟨rfl, ch, hch₁, w⟩ := h₁
  -- the subtree is as it was before the loop
  have hread₁ : ∀ x ∈ s.nodesUnder k e.1, t₁.heap.read x = s.heap.read x := fun x hx => by
    have hxa : x ≠ a := fun he => hae (he ▸ hx)
    rw [w.other x hxa, h.other x hxa (hdisj x hx)]
  obtain ⟨q, j, hlink⟩ := hc.link
  have hlink₁ : t₁.link e.1 = some (q, j) := by
    rw [Store.link, hread₁ e.1 hself]; exact hlink
  rw [returns_bind]
  refine (setParent_spec hlink₁ none).mono ?_
  intro _ t₂ h₂
  obtain ⟨f, hlink₂⟩ := h₂
  have hread₂ : ∀ x, x ≠ e.1 → t₂.heap.read x = t₁.heap.read x := fun x hx =>
    f.read x (Set.notMem_empty x) fun he => hx (Set.mem_singleton_iff.mp he)
  have hbody₂ : ∀ x ∈ s.nodesUnder k e.1, t₂.body x = s.body x := fun x hx => by
    rw [f.body x (Set.notMem_empty x), Store.body, hread₁ x hx]; rfl
  obtain ⟨hc₂, hnodes, _⟩ := hc.congr fun x hx => Or.inl (hbody₂ x hx)
  have hitems := hc.itemsUnder hbody₂
  rw [returns_bind, returns_cast hc₂.tag]
  refine (ih hc₂ hlink₂ (hnodes ▸ hnde.1)).mono ?_
  intro _ t₃ hraz
  rw [hnodes, hitems] at hraz
  have hflat : ∀ {α : Type} (g : Addr × Nat → List α),
      (es₁ ++ [e]).flatMap g = es₁.flatMap g ++ g e := by
    intro α g
    rw [List.flatMap_append, List.flatMap_singleton]
  obtain ⟨log, hlog, hmap⟩ := h.destroyed
  obtain ⟨log', hlog', hmap'⟩ := hraz.destroyed
  refine ⟨⟨{ n with children := ch }, xs ++ [none], rest, ?_, ?_, ?_⟩, ?_, ?_,
    ⟨log ++ log', ?_, ?_⟩, ?_⟩
  · rw [hraz.other a hae, hread₂ a hea.symm]
    exact w.self
  · rw [List.length_append, List.length_append, hlen]; rfl
  · rw [List.append_assoc]
    exact hch₁
  · intro x hx
    rw [hflat, List.mem_append] at hx
    by_cases hxe : x ∈ s.nodesUnder k e.1
    · exact hraz.gone x hxe
    · have hx₁ := hx.resolve_right hxe
      have hxa : x ≠ a := fun he => ha₁ (he ▸ hx₁)
      rw [hraz.other x hxe, hread₂ x fun he => hxe (he ▸ hself), w.other x hxa]
      exact h.gone x hx₁
  · intro x hxa hx
    rw [hflat, List.mem_append, not_or] at hx
    rw [hraz.other x hx.2, hread₂ x fun he => hx.2 (he ▸ hself), w.other x hxa]
    exact h.other x hxa hx.1
  · rw [hlog', f.destroyed, w.destroyed, hlog, List.append_assoc]
  · rw [List.map_append, hmap, hmap', hflat]; rfl
  · rw [hraz.dropped, f.dropped, w.dropped, h.dropped, hflat, List.append_assoc]

/-- Destroying a root destroys its whole tree, each node once. -/
theorem destroy_tree {fuel : Nat} (hf : k < fuel) (h : Tall s k a) {i : Nat}
    (hl : s.link a = some (none, i)) (hnd : (s.nodesUnder k a).Nodup) :
    Returns (destroy fuel (if k = 0 then .leaf else .internal) a) s (fun _ s' =>
      Razed s s' (s.nodesUnder k a) (s.itemsUnder k a)) := by
  induction k generalizing s a fuel i with
  | zero =>
      obtain ⟨fuel, rfl⟩ := Nat.exists_eq_succ_of_ne_zero (Nat.ne_of_gt hf)
      exact destroy_leaf h hl
  | succ k ih =>
      obtain ⟨fuel, rfl⟩ := Nat.exists_eq_succ_of_ne_zero (Nat.ne_of_gt (Nat.zero_lt_of_lt hf))
      obtain ⟨es, hb, he⟩ := h
      obtain ⟨n, hr, hn⟩ := Store.body_internal.mp hb
      rw [nodesUnder_succ hb] at hnd ⊢
      rw [itemsUnder_internal hb, if_neg (Nat.succ_ne_zero k)]
      unfold destroy
      simp only [returns_bind, returns_parent hl, returns_check, returns_deref,
        returns_modify, InternalNode.destroyChildren, returns_derefInternal]
      refine ⟨trivial, _, hr, n, hr, (modifyInternal_spec (by exact hr) _).mono ?_⟩
      intro _ s₁ w
      -- the subtrees of two children are disjoint, and neither has the node itself
      have hsub : ∀ e ∈ es, (s.nodesUnder k e.1).Nodup := fun e hem =>
        (List.nodup_flatMap.mp (List.nodup_cons.mp hnd).2).1 e hem
      -- the children destroyed so far are `es₁`, their slots emptied
      refine returns_forEach (fun done t => ∃ es₁ es₂, es = es₁ ++ es₂ ∧ es₁.length = done.length
        ∧ Razing s t a k es₁ es₂) ?_ ?_ ?_
      · refine ⟨[], es, rfl, rfl, ⟨_, [], _, w.self, rfl, hn.children⟩, fun x hx => ?_,
          fun x hx _ => ?_,
          ⟨_, w.destroyed, rfl⟩, ?_⟩
        · exact absurd hx List.not_mem_nil
        · exact w.other x hx
        · exact w.dropped.trans (List.append_nil _).symm
      · intro done i rest t hrange hr
        obtain ⟨es₁, es₂, rfl, hlen, hraz⟩ := hr
        obtain ⟨hi, hlt⟩ : i = done.length ∧ done.length < n.length := by
          have hget := congrArg (·[done.length]?) hrange
          have hle := congrArg List.length hrange
          rw [List.length_range, List.length_append, List.length_cons] at hle
          simp only [List.getElem?_range (show done.length < n.length by omega),
            List.getElem?_append_right (Nat.le_refl _), Nat.sub_self, List.getElem?_cons_zero,
            Option.some.injEq] at hget
          exact ⟨hget.symm, by omega⟩
        rw [hn.length, List.length_append] at hlt
        obtain ⟨e, es₂, rfl⟩ := List.exists_cons_of_ne_nil (l := es₂) fun hnil => by
          rw [hnil, List.length_nil] at hlt
          omega
        rw [hi, ← hlen]
        have hem : e ∈ es₁ ++ e :: es₂ := List.mem_append_right _ List.mem_cons_self
        refine (destroy_child hraz (he e hem) hnd fun hc hlink hnode => ?_).mono ?_
        · exact ih (by omega) hc hlink hnode
        · intro _ t' hraz'
          exact ⟨es₁ ++ [e], es₂, by simp, by simp [hlen], hraz'⟩
      · intro t hr
        obtain ⟨es₁, es₂, rfl, hlen, hraz⟩ := hr
        rw [List.length_range, hn.length, List.length_append] at hlen
        obtain rfl : es₂ = [] := List.length_eq_zero_iff.mp (by omega)
        obtain ⟨n', _, _, hr', _⟩ := hraz.record
        unfold deallocate
        simp only [returns_bind, returns_deref, returns_modify]
        rw [List.append_nil]
        refine ⟨_, hr', ?_, ?_, hraz.destroyed, hraz.dropped⟩
        · intro x hx
          simp only [Heap.read_free]
          split
          · rfl
          · rename_i hxa
            exact hraz.gone x ((List.mem_cons.mp hx).resolve_left hxa)
        · intro x hx
          rw [List.mem_cons, not_or] at hx
          simp only [Heap.read_free, if_neg hx.1]
          exact hraz.other x hx.1 hx.2

end NodeRef

/-! ## Nothing leaks, nothing dangles -/

/-- The items of the vector, leaf by leaf. -/
def Store.itemsOf (s : Store T P B) (v : BTreeVec) : List T :=
  match v.root with
  | none => []
  | some root => (s.leaves root).flatMap s.itemsAt

theorem VecAt.itemsOf (h : VecAt s v l F) : s.itemsOf v = l := by
  cases h with
  | empty => rfl
  | tree ht =>
      obtain ⟨hc, hl⟩ := ht.counted
      exact hc.items.trans hl

theorem Sound.itemsOf (h : Sound v s l F) : s.itemsOf v = l := h.vec.itemsOf

/-- `is_empty` looks at the size alone. -/
theorem Reachable.isEmpty (h : Reachable v s) : v.isEmpty = (s.itemsOf v).isEmpty := by
  obtain ⟨l, F, hs⟩ := h.sound
  rw [hs.itemsOf, BTreeVec.isEmpty, hs.vec.size]
  cases l <;> rfl

/-- The live nodes are those of the tree, and they point at live nodes only. -/
structure Owned (v : BTreeVec) (s : Store T P B) : Prop where
  live : ∀ a, s.heap.read a ≠ none ↔ ∃ r d, v.root = some r ∧ Reach s r d a
  child : ∀ p n c, s.heap.read p = some (.internal n) → some c ∈ n.children.toList →
    s.heap.read c ≠ none
  parent : ∀ a c p, s.heap.read a = some c → c.nodePrefix.parent.get = some p →
    s.heap.read p ≠ none
  next : ∀ a n b, s.heap.read a = some (.leaf n) → n.next = some b → s.heap.read b ≠ none

theorem Below.reach (h : Below s U Ds l) (hU : ∀ x ∈ U, ∃ d, Reach s root d x) :
    ∀ x ∈ U ++ Ds.flatten, ∃ d, Reach s root d x := by
  induction Ds generalizing U with
  | nil =>
      intro x hx
      rw [List.flatten_nil, List.append_nil] at hx
      exact hU x hx
  | cons D Ds ih =>
      have hD : ∀ x ∈ D, ∃ d, Reach s root d x := by
        intro x hx
        rw [← h.1.kids] at hx
        obtain ⟨p, hp, hx⟩ := List.mem_flatMap.mp hx
        obtain ⟨d, hd⟩ := hU p hp
        exact ⟨d + 1, .child hd (by rw [childrenAt_eq_kids h hp]; exact hx)⟩
      intro x hx
      rcases List.mem_append.mp hx with hx | hx
      · exact hU x hx
      · exact ih h.2.2 hD x hx

theorem Below.live (h : Below s U Ds l) (hx : x ∈ U) : s.heap.read x ≠ none := by
  obtain ⟨E, nx, hE⟩ := h.nodeAt hx
  obtain ⟨b, hb, _⟩ := hE.body
  obtain ⟨c, hc, _⟩ := Option.bind_eq_some_iff.mp hb
  rw [hc]
  exact Option.some_ne_none c

theorem Sound.owned (h : Sound v s l F) : Owned v s where
  live a := by
    constructor
    · intro ha
      have hF := h.live a ha
      cases h.vec with
      | empty => exact absurd hF (Set.notMem_empty a)
      | @tree root Ds l ht =>
          have hmem := (rowNodes_root_perm Ds root).mem_iff.mp hF
          have hroot : ∀ x ∈ [root], ∃ d, Reach s root d x := fun x hx =>
            ⟨0, by rw [List.mem_singleton.mp hx]; exact .root⟩
          obtain ⟨d, hd⟩ := ht.below.reach hroot a hmem
          exact ⟨root, d, rfl, hd⟩
    · intro h
      obtain ⟨r, d, hr, hd⟩ := h
      cases h.vec with
      | empty => cases hr
      | @tree root Ds l ht =>
          cases hr
          obtain ⟨W, Ds', haW, hW, _⟩ := ht.row_of_reach hd
          exact hW.live haW
  child p n c hn hc := by
    obtain ⟨root, Ds, W, Ds', hrow, hp⟩ := h.row (by rw [hn]; exact Option.some_ne_none _)
    obtain ⟨D, Ds', es, rfl, hat, hes⟩ := hrow.below.internal hp hn
    rw [hes.children, List.mem_append] at hc
    rcases hc with hc | hc
    · refine hrow.below.2.2.live (x := c) ?_
      rw [← hrow.below.1.kids]
      refine List.mem_flatMap.mpr ⟨p, hp, ?_⟩
      rw [hat.kids]
      obtain ⟨e, he, hec⟩ := List.mem_map.mp hc
      exact List.mem_map.mpr ⟨e, he, Option.some.inj hec⟩
    · exact absurd (List.eq_of_mem_replicate hc) (Option.some_ne_none c)
  parent a c p hc hp := by
    by_cases ha : v.root = some a
    · obtain ⟨c', hc', hpar, _⟩ := h.prefixesCorrect.root a ha
      rw [hc, Option.some.injEq] at hc'
      rw [← hc', hp] at hpar
      cases hpar
    · obtain ⟨q, n, hq, hn, _⟩ := h.prefixesCorrect.parent a c hc ha
      rw [hp, Option.some.injEq] at hq
      rw [hq, hn]
      exact Option.some_ne_none _
  next a n b hn hb := by
    obtain ⟨root, Ds, W, Ds', hrow, ha⟩ := h.row (by rw [hn]; exact Option.some_ne_none _)
    obtain ⟨rfl, xs, nx, hbody, hxs⟩ := hrow.below.leaf ha hn
    obtain ⟨L, R, rfl⟩ := List.append_of_mem ha
    obtain ⟨_, E, _, _, _, hE, _⟩ := RowAt.mid.mp (show RowAt s .leaf _ l none from hrow.below)
    have hnext : nx = R.head?.or none := by
      have := hbody.symm.trans (show s.body a = some (.leaf E _) from hE)
      injection this with this
      injection this
    rw [hxs.next, hnext, Option.or_none] at hb
    refine hrow.below.live (x := b) (List.mem_append_right _ (List.mem_cons_of_mem _ ?_))
    exact List.mem_of_mem_head? hb

/-- Dropping a vector takes the tree at its root apart. -/
theorem BTreeVec.drop_spec {i m : Nat} (h : Tall s k root) (hk : k < s.heap.next)
    (hl : s.link root = some (none, i)) (hnd : (s.nodesUnder k root).Nodup) :
    Returns (BTreeVec.drop ⟨some root, m⟩) s (fun _ s' =>
      Razed s s' (s.nodesUnder k root) (s.itemsUnder k root)) := by
  unfold BTreeVec.drop
  simp only [returns_bind, returns_get, NodeRef.destroyPrefix, returns_cast h.tag]
  exact NodeRef.destroy_tree (Nat.lt_succ_of_lt hk) h hl hnd

/-- Each node of a tree is in the subtree at its root once. -/
theorem Tree.nodesUnder_perm (h : Tree s root Ds l) :
    (s.nodesUnder Ds.length root).Perm (rowNodes Ds [root] []) := by
  have hperm := h.below.nodesUnder_perm
  rw [List.flatMap_singleton] at hperm
  exact hperm.trans (rowNodes_root_perm Ds root).symm

/-- Dropping the vector destroys its nodes. -/
theorem VecAt.drop (h : VecAt s v l F) : Returns v.drop s (fun _ s' => ∃ A : List Addr, A.Nodup
    ∧ (∀ a, a ∈ A ↔ a ∈ F) ∧ (∀ a ∈ A, s.heap.read a ≠ none) ∧ Razed s s' A l) := by
  cases h with
  | empty =>
      unfold BTreeVec.drop
      simp only [returns_pure]
      refine ⟨[], List.nodup_nil, fun a => ?_, fun a ha => ?_, fun a ha => ?_, fun a _ => rfl,
        ⟨[], (List.append_nil _).symm, rfl⟩, (List.append_nil _).symm⟩
      · rw [Set.mem_empty_iff_false, iff_false]
        exact List.not_mem_nil
      · exact absurd ha List.not_mem_nil
      · exact absurd ha List.not_mem_nil
  | @tree root Ds l ht =>
      obtain ⟨hc, hl⟩ := ht.counted
      have hperm := ht.nodesUnder_perm
      have hnd := hperm.nodup_iff.mpr ht.nodup
      refine (BTreeVec.drop_spec hc.tall hc.height_lt ht.link hnd).mono ?_
      intro _ s' hraz
      refine ⟨_, hnd, fun a => hperm.mem_iff, fun a ha => ?_, hl ▸ hraz⟩
      obtain ⟨W, Ds', haW, hW, _⟩ := ht.below.find_row
        ((rowNodes_root_perm Ds root).mem_iff.mp (hperm.mem_iff.mp ha))
      exact hW.live haW

/-- With no other node in the store, dropping the vector leaves nothing behind. -/
theorem Sound.drop (h : Sound v s l F) :
    Returns v.drop s (fun _ s' => (∀ a, s'.heap.read a = none)
      ∧ ∃ log, s'.destroyed = s.destroyed ++ log ∧ (log.map Prod.fst).Nodup
        ∧ (∀ a, a ∈ log.map Prod.fst ↔ s.heap.read a ≠ none) ∧ s'.dropped = s.dropped ++ l) := by
  refine h.vec.drop.mono ?_
  intro _ s' hdrop
  obtain ⟨A, hnd, hA, hlive, hraz⟩ := hdrop
  have hmem : ∀ a, a ∈ A ↔ s.heap.read a ≠ none :=
    fun a => ⟨hlive a, fun ha => (hA a).mpr (h.live a ha)⟩
  obtain ⟨log, hlog, hmap⟩ := hraz.destroyed
  refine ⟨fun a => ?_, log, hlog, hmap ▸ hnd, fun a => hmap ▸ hmem a, hraz.dropped⟩
  by_cases ha : a ∈ A
  · exact hraz.gone a ha
  · rw [hraz.other a ha]
    by_contra hr
    exact ha ((hmem a).mpr hr)

/-- What `remove` destroys is empty and sits in no node. -/
theorem Sound.remove_destroyed (h : Sound v s l F) {i : Nat} (hi : i < v.size) :
    Returns (v.remove i) s (fun _ s' => ∃ log, s'.destroyed = s.destroyed ++ log
      ∧ ∀ d ∈ log, d.2.length = 0 ∧ d.2.nodePrefix.parent.get = none) := by
  rw [h.vec.size] at hi
  obtain ⟨x, hx⟩ : ∃ x, l[i]? = some x := ⟨_, List.getElem?_eq_getElem hi⟩
  obtain ⟨pre, post, rfl, rfl⟩ := split_at hx
  refine (BTreeVec.remove_spec h.vec h.branching).mono ?_
  intro _ s' hr
  obtain ⟨_, F', _, heff⟩ := hr
  exact heff.destroyed

theorem BTreeVec.remove_panics {i : Nat} (hi : v.size ≤ i) :
    (v.remove i : Exec T P B _) s = .error .assertion s :=
  bind_error (check_of_not (Nat.not_lt.mpr hi))

/--
**The vector owns its nodes.** The live nodes are those reached from the root, no pointer
of a live node dangles, `remove` destroys only nodes that everything has let go of, and
dropping the vector destroys each live node and drops each item exactly once.
-/
theorem nodes_owned (h : Reachable v s) : Owned v s
    ∧ (∀ i, v.size ≤ i → v.remove i s = .error .assertion s)
    ∧ (∀ i, i < v.size → Returns (v.remove i) s (fun _ s' => ∃ log,
      s'.destroyed = s.destroyed ++ log
        ∧ ∀ d ∈ log, d.2.length = 0 ∧ d.2.nodePrefix.parent.get = none))
    ∧ Returns v.drop s (fun _ s' => (∀ a, s'.heap.read a = none)
      ∧ ∃ log, s'.destroyed = s.destroyed ++ log ∧ (log.map Prod.fst).Nodup
        ∧ (∀ a, a ∈ log.map Prod.fst ↔ s.heap.read a ≠ none)
        ∧ s'.dropped = s.dropped ++ s.itemsOf v) := by
  obtain ⟨l, F, hs⟩ := h.sound
  refine ⟨hs.owned, fun i hi => BTreeVec.remove_panics hi, fun i hi => hs.remove_destroyed hi, ?_⟩
  rw [hs.itemsOf]
  exact hs.drop

theorem nodes_owned_grownAndShrunk : ∃ s : Store Nat PairPtr 3, Owned ⟨some 6, 3⟩ s
    ∧ (∀ i, 3 ≤ i → BTreeVec.remove ⟨some 6, 3⟩ i s = .error .assertion s)
    ∧ (∀ i, i < 3 → Returns (BTreeVec.remove ⟨some 6, 3⟩ i) s (fun _ s' => ∃ log,
      s'.destroyed = s.destroyed ++ log
        ∧ ∀ d ∈ log, d.2.length = 0 ∧ d.2.nodePrefix.parent.get = none))
    ∧ Returns (BTreeVec.drop ⟨some 6, 3⟩) s (fun _ s' => (∀ a, s'.heap.read a = none)
      ∧ ∃ log, s'.destroyed = s.destroyed ++ log ∧ (log.map Prod.fst).Nodup
        ∧ (∀ a, a ∈ log.map Prod.fst ↔ s.heap.read a ≠ none)
        ∧ s'.dropped = s.dropped ++ s.itemsOf ⟨some 6, 3⟩) := by
  obtain ⟨s, h, _⟩ := grownAndShrunk_reachable
  exact ⟨s, nodes_owned h⟩

end BTreeVec
