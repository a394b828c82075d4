import Mathlib.Data.List.Induction
import BTreeVec.Proof.Ownership

/-!
# What cloning does

`clone_node` copies a subtree node by node, the last child first. The copy has the
items and the counts of the original. Its links are another matter: every child has
the index 0 it was allocated with, and a copied leaf is followed by what follows the
original, since the first leaf of a part already copied is looked up in the original.
`Copies` says so for a list of subtrees, so that the loop over the children keeps it.
-/

namespace BTreeVec

open Prog

variable {T P : Type} {B : Nat} [TaggedPtr P] {s t u : Store T P B} {a b m x : Addr} {k : Nat}
  {cl : T → T} {nl nl' : Option Addr} {as bs cs : List Addr} {es : List (Addr × Nat)}

/-! ## Growing -/

omit [TaggedPtr P] in
/-- Nodes may have been allocated, and nothing else happened to those there were. -/
structure Grown (s t : Store T P B) : Prop where
  read : ∀ x, x < s.heap.next → t.heap.read x = s.heap.read x
  next_le : s.heap.next ≤ t.heap.next
  destroyed : t.destroyed = s.destroyed
  dropped : t.dropped = s.dropped

namespace Grown

omit [TaggedPtr P] in
theorem trans (h : Grown s t) (h' : Grown t u) : Grown s u where
  read x hx := by rw [h'.read x (Nat.lt_of_lt_of_le hx h.next_le), h.read x hx]
  next_le := Nat.le_trans h.next_le h'.next_le
  destroyed := h'.destroyed.trans h.destroyed
  dropped := h'.dropped.trans h.dropped

omit [TaggedPtr P] in
/-- A new node may be written to. -/
theorem wrote {c : Cell T P B} (h : Grown s t) (ha : s.heap.next ≤ a)
    (w : Store.Wrote t u a c) : Grown s u where
  read x hx := by rw [w.other x (Nat.ne_of_lt (Nat.lt_of_lt_of_le hx ha)), h.read x hx]
  next_le := Nat.le_trans h.next_le (Nat.le_of_eq w.next.symm)
  destroyed := w.destroyed.trans h.destroyed
  dropped := w.dropped.trans h.dropped

theorem of_frame {bs ls : Set Addr} (h : Grown s t) (f : Frame t u bs ls)
    (hb : ∀ x ∈ bs ∪ ls, s.heap.next ≤ x) : Grown s u where
  read x hx := by
    have hx' : x ∉ bs ∪ ls := fun hm => absurd (hb x hm) (Nat.not_le.mpr hx)
    rw [f.read x (fun hm => hx' (.inl hm)) (fun hm => hx' (.inr hm)), h.read x hx]
  next_le := Nat.le_trans h.next_le f.next_le
  destroyed := f.destroyed.trans h.destroyed
  dropped := f.dropped.trans h.dropped

theorem body {c : Body T} (h : Grown s t) (hb : s.body a = some c) : t.body a = some c := by
  rw [Store.body, h.read a (Store.lt_next_of_body hb)]
  exact hb

theorem link {l : Option Addr × Nat} (h : Grown s t) (hl : s.link a = some l) :
    t.link a = some l := by
  rw [Store.link, h.read a (Store.lt_next_of_link hl)]
  exact hl

end Grown

namespace Counted

theorem body_of_mem (h : Counted s k a) (hx : x ∈ s.nodesUnder k a) : ∃ c, s.body x = some c := by
  induction k generalizing a with
  | zero =>
      obtain ⟨xs, nx, hb⟩ := h
      obtain rfl := List.mem_singleton.mp (show x ∈ [a] from hx)
      exact ⟨_, hb⟩
  | succ k ih =>
      obtain ⟨es, hb, _, he⟩ := h
      rw [nodesUnder_succ hb, List.mem_cons, List.mem_flatMap] at hx
      rcases hx with rfl | ⟨e, hem, hx⟩
      · exact ⟨_, hb⟩
      · exact ih (he e hem).1 hx

theorem grown (h : Counted s k a) (hg : Grown s t) : Counted t k a
    ∧ t.nodesUnder k a = s.nodesUnder k a ∧ t.leavesUnder k a = s.leavesUnder k a
    ∧ t.itemsUnder k a = s.itemsUnder k a := by
  refine h.congr fun x hx => ?_
  obtain ⟨c, hc⟩ := h.body_of_mem hx
  rw [hg.body hc, hc]

/-- There is a leaf below every node. -/
theorem leavesUnder_ne_nil (h : Counted s k a) : s.leavesUnder k a ≠ [] := by
  induction k generalizing a with
  | zero => exact List.cons_ne_nil _ _
  | succ k ih =>
      obtain ⟨es, hb, hne, he⟩ := h
      have hk : s.kids a = es.map Prod.fst := by rw [Store.kids, hb]; rfl
      obtain ⟨e, es, rfl⟩ := List.exists_cons_of_ne_nil hne
      rw [Store.leavesUnder, hk, List.map_cons, List.flatMap_cons]
      intro hnil
      exact ih (he e List.mem_cons_self).1 (List.append_eq_nil_iff.mp hnil).1

end Counted

/-! ## Copies -/

/--
`bs` are the roots of the copies in `t` of the subtrees of `s` at `as`. A leaf of a copy is
followed by the leaf after the original, the last one by `nl`; and `nl'` is the first
original leaf. The nodes of the copies have addresses from `m` on.
-/
structure Copies (cl : T → T) (m : Addr) (s t : Store T P B) (k : Nat) (as bs : List Addr)
    (nl nl' : Option Addr) : Prop where
  counted : ∀ b ∈ bs, Counted t k b
  counts : bs.map (fun b => (t.itemsUnder k b).length)
    = as.map fun a => (s.itemsUnder k a).length
  widths : bs.map t.width = as.map s.width
  items : bs.flatMap (t.itemsUnder k) = (as.flatMap (s.itemsUnder k)).map cl
  fresh : ∀ x ∈ bs.flatMap (t.nodesUnder k), m ≤ x
  chain : nl' :: (bs.flatMap (t.leavesUnder k)).map t.next
    = (as.flatMap (s.leavesUnder k)).map some ++ [nl]
  /-- Each child knows its parent but not its slot. -/
  links : ∀ p ∈ bs.flatMap (t.nodesUnder k), ∀ x ∈ t.kids p, t.link x = some (some p, 0)

namespace Copies

theorem nil (h : nl' = nl) : Copies cl m s t k [] [] nl nl' where
  counted b hb := absurd hb List.not_mem_nil
  counts := rfl
  widths := rfl
  items := rfl
  fresh x hx := absurd hx List.not_mem_nil
  chain := by rw [h]; rfl
  links p hp := absurd hp List.not_mem_nil

theorem append {as' bs' : List Addr} {nl'' : Option Addr} (h : Copies cl m s t k as bs nl' nl'')
    (h' : Copies cl m s t k as' bs' nl nl') :
    Copies cl m s t k (as ++ as') (bs ++ bs') nl nl'' where
  counted b hb := (List.mem_append.mp hb).elim (h.counted b) (h'.counted b)
  counts := by rw [List.map_append, List.map_append, h.counts, h'.counts]
  widths := by rw [List.map_append, List.map_append, h.widths, h'.widths]
  items := by rw [List.flatMap_append, List.flatMap_append, h.items, h'.items, List.map_append]
  fresh x hx := by
    rw [List.flatMap_append] at hx
    exact (List.mem_append.mp hx).elim (h.fresh x) (h'.fresh x)
  chain := by
    rw [List.flatMap_append, List.flatMap_append, List.map_append, List.map_append,
      ← List.cons_append,
      h.chain, List.append_assoc, List.append_assoc, List.singleton_append, h'.chain]
  links p hp := by
    rw [List.flatMap_append] at hp
    exact (List.mem_append.mp hp).elim (h.links p) (h'.links p)

/-- The copies were not touched since. -/
theorem congr (h : Copies cl m s t k as bs nl nl')
    (hb : ∀ x ∈ bs.flatMap (t.nodesUnder k), u.body x = t.body x)
    (hl : ∀ p ∈ bs.flatMap (t.nodesUnder k), ∀ x ∈ t.kids p, u.link x = t.link x) :
    Copies cl m s u k as bs nl nl' := by
  have hsub := fun b (hbm : b ∈ bs) => (h.counted b hbm).congr fun x hx =>
    hb x (List.mem_flatMap.mpr ⟨b, hbm, hx⟩)
  have hnodes : bs.flatMap (u.nodesUnder k) = bs.flatMap (t.nodesUnder k) :=
    List.flatMap_congr fun b hbm => (hsub b hbm).2.1
  have hleaves : bs.flatMap (u.leavesUnder k) = bs.flatMap (t.leavesUnder k) :=
    List.flatMap_congr fun b hbm => (hsub b hbm).2.2.1
  refine ⟨fun b hbm => (hsub b hbm).1, ?_, ?_, ?_, ?_, ?_, ?_⟩
  · rw [← h.counts]
    exact List.map_congr_left fun b hbm => by rw [(hsub b hbm).2.2.2]
  · rw [← h.widths]
    exact List.map_congr_left fun b hbm =>
      width_congr (hb b (List.mem_flatMap.mpr ⟨b, hbm, t.self_mem_nodesUnder k b⟩))
  · rw [← h.items]
    exact List.flatMap_congr fun b hbm => (hsub b hbm).2.2.2
  · rw [hnodes]
    exact h.fresh
  · rw [hleaves, ← h.chain]
    refine congrArg _ (List.map_congr_left fun x hx => ?_)
    obtain ⟨b, hbm, hx⟩ := List.mem_flatMap.mp hx
    rw [Store.next, hb x (List.mem_flatMap.mpr ⟨b, hbm, t.leavesUnder_subset k b hx⟩)]
    rfl
  · rw [hnodes]
    intro p hp x hx
    rw [kids_congr (hb p hp)] at hx
    rw [hl p hp x hx, h.links p hp x hx]

/-- The originals were there before. -/
theorem rebase {m' : Addr} (h : Copies cl m' t u k as bs nl nl') (hg : Grown s t)
    (hc : ∀ a ∈ as, Counted s k a) (hm : m ≤ m') : Copies cl m s u k as bs nl nl' where
  counted := h.counted
  counts := by
    rw [h.counts]
    exact List.map_congr_left fun a ha => by rw [((hc a ha).grown hg).2.2.2]
  widths := by
    rw [h.widths]
    refine List.map_congr_left fun a ha => ?_
    obtain ⟨c, hca⟩ := (hc a ha).body_of_mem (s.self_mem_nodesUnder k a)
    rw [Store.width, Store.width, hg.body hca, hca]
  items := by
    rw [h.items]
    exact congrArg _ (List.flatMap_congr fun a ha => ((hc a ha).grown hg).2.2.2)
  fresh x hx := Nat.le_trans hm (h.fresh x hx)
  chain := by
    rw [h.chain]
    exact congrArg (fun L => L.map some ++ [nl])
      (List.flatMap_congr fun a ha => ((hc a ha).grown hg).2.2.1)
  links := h.links

end Copies

/-! ## One leaf -/

/-- The copy of a leaf, made in a leaf that was just allocated. -/
theorem LeafNode.cloneFrom_spec {n : LeafNode T P B} {xs : List T} {nx : Option Addr}
    (ha : s.body a = some (.leaf xs nx)) (hb : s.heap.read b = some (.leaf n))
    (hk : n.nodePrefix.parent.kind = .leaf) (nl : Option Addr) (hab : a ≠ b) :
    Returns (cloneFrom cl b a nl) s (fun _ t => ∃ n', Store.Wrote s t b (.leaf n')
      ∧ n'.nodePrefix = n.nodePrefix ∧ n'.Holds (xs.map cl) nl) := by
  obtain ⟨m, hm, hxs⟩ := Store.body_leaf.mp ha
  obtain ⟨rest, hc⟩ := hxs.children
  have hle := Slots.length_add_of_eq hc
  have hlen := n.children.length_toList
  rw [List.length_map] at hle
  have hsl : m.children.slice? 0 m.length = some (xs.map some) := by
    have := Slots.slice?_prefix hc
    rwa [List.length_map, ← hxs.length] at this
  have hsplit : n.children.toList
      = [] ++ n.children.toList.take xs.length ++ n.children.toList.drop xs.length := by
    rw [List.nil_append, List.take_append_drop]
  obtain ⟨c, hcopy, hcs⟩ := Slots.copyFrom?_append (xs.map (some ∘ cl)) hsplit (by
    rw [List.length_map, List.length_take, hlen]; omega)
  unfold cloneFrom
  simp only [LeafNode.items, returns_bind, returns_derefLeaf, returns_orFault]
  refine ⟨m, hm, _, hsl, xs, mapM_id_eq_some.mpr rfl, n, hb, c, hcopy,
    (modifyLeaf_spec hb _).mono ?_⟩
  intro _ s₁ w₁
  -- the length and the link to the next leaf are written after the items
  refine ⟨m, (w₁.other a hab).trans hm, (modifyLeaf_spec w₁.self _).mono ?_⟩
  intro _ s₂ w₂
  refine (modifyLeaf_spec w₂.self _).mono ?_
  intro _ s₃ w₃
  refine ⟨_, (w₁.trans w₂).trans w₃, rfl, hk, ?_, ⟨n.children.toList.drop xs.length, ?_⟩, rfl⟩
  · rw [List.length_map]
    exact hxs.length
  · rw [List.map_map]
    exact hcs

/-! ## The children of a node -/

/--
The copy of an internal node is being made in the node allocated last: the children `es₂`
of the original have their copies `bs` in place, and `es₁` are to come.
-/
structure Cloning (cl : T → T) (s t : Store T P B) (k : Nat) (es₁ es₂ : List (Addr × Nat))
    (bs : List Addr) (nl nl' : Option Addr) : Prop where
  grown : Grown s t
  record : ∃ ch : Slots (Option Addr) B,
    t.heap.read s.heap.next = some (.internal { InternalNode.new with children := ch })
      ∧ ch.toList = List.replicate es₁.length none
        ++ (bs.map some ++ List.replicate (B - (es₁ ++ es₂).length) none)
  copies : Copies cl (s.heap.next + 1) s t k (es₂.map Prod.fst) bs nl nl'
  links : ∀ b ∈ bs, t.link b = some (some s.heap.next, 0)

theorem link_new {n : InternalNode P B} (h : s.heap.read a = some (.internal n))
    (hn : n.nodePrefix = .new .internal) : s.link a = some (none, 0) := by
  rw [Store.link, h, Option.map_some, Cell.link, Cell.nodePrefix, hn]
  simp [Prefix.new]

/-- One more child was copied, linked and put in place. -/
theorem Cloning.step {es₁ es₂ : List (Addr × Nat)} {e : Addr × Nat} {leaf : Addr}
    {t₁ t₂ t₃ : Store T P B} {ch : Slots (Option Addr) B}
    (h : Cloning cl s t k (es₁ ++ [e]) es₂ bs nl nl') (hc : Counted s k e.1)
    (hcopy : Copies cl t.heap.next t t₁ k [e.1] [b] nl' (some leaf))
    (hlink : t₁.link b = some (none, 0)) (hg : Grown t t₁) (f : Frame t₁ t₂ ∅ {b})
    (hlink' : t₂.link b = some (some s.heap.next, 0))
    (w : Store.Wrote t₂ t₃ s.heap.next (.internal { InternalNode.new with children := ch }))
    (hch : ch.toList = List.replicate es₁.length none ++ some b
      :: (bs.map some ++ List.replicate (B - (es₁ ++ [e] ++ es₂).length) none)) :
    Cloning cl s t₃ k es₁ (e :: es₂) (b :: bs) nl (some leaf) := by
  obtain ⟨ch₀, hr, _⟩ := h.record
  have hself := Heap.lt_next_of_read hr
  have hselflink := link_new hr rfl
  have hb : t.heap.next ≤ b := by
    refine hcopy.fresh b ?_
    rw [List.flatMap_singleton]
    exact t₁.self_mem_nodesUnder k b
  have hbself : b ≠ s.heap.next := Nat.ne_of_gt (Nat.lt_of_lt_of_le hself hb)
  -- what was there before this turn, but for the copy itself, is as it was
  have hread : ∀ x, x < t.heap.next → x ≠ s.heap.next → t₃.heap.read x = t.heap.read x := by
    intro x hx hxs
    have hxb : x ≠ b := Nat.ne_of_lt (Nat.lt_of_lt_of_le hx hb)
    rw [w.other x hxs, f.read x (Set.notMem_empty x) hxb, hg.read x hx]
  have hlinks : ∀ {y q : Addr}, t.link y = some (some q, 0) → t₃.link y = t.link y := by
    intro y q hy
    have hys : y ≠ s.heap.next := by
      intro he
      subst he
      rw [hselflink] at hy
      cases hy
    rw [Store.link, hread y (Store.lt_next_of_link hy) hys]
    rfl
  have hold : Copies cl (s.heap.next + 1) s t₃ k (es₂.map Prod.fst) bs nl nl' := by
    refine h.copies.congr (fun x hx => ?_) fun p hp y hy => hlinks (h.copies.links p hp y hy)
    obtain ⟨c, hcb, hxc⟩ := List.mem_flatMap.mp hx
    obtain ⟨body, hbody⟩ := (h.copies.counted c hcb).body_of_mem hxc
    have hxs : x ≠ s.heap.next := Nat.ne_of_gt (h.copies.fresh x hx)
    rw [Store.body, hread x (Store.lt_next_of_body hbody) hxs]
    rfl
  have hnew : Copies cl (s.heap.next + 1) s t₃ k [e.1] [b] nl' (some leaf) := by
    have hbase := hcopy.rebase h.grown (fun a ha => List.mem_singleton.mp ha ▸ hc) hself
    refine hbase.congr (fun x hx => ?_) fun p hp y hy => ?_
    · have hxs : x ≠ s.heap.next := Nat.ne_of_gt (hbase.fresh x hx)
      rw [Store.body, w.other x hxs]
      exact f.body x (Set.notMem_empty x)
    · have hy := hbase.links p hp y hy
      have hys : y ≠ s.heap.next := by
        intro he
        subst he
        rw [hg.link hselflink] at hy
        cases hy
      have hyb : y ≠ b := by
        intro he
        subst he
        rw [hlink] at hy
        cases hy
      rw [Store.link, w.other y hys]
      exact f.link y hyb
  refine ⟨?_, ⟨ch, w.self, ?_⟩, hnew.append hold, fun c hcb => ?_⟩
  · refine Grown.wrote (Grown.of_frame (h.grown.trans hg) f fun x hx => ?_) (Nat.le_refl _) w
    rw [Set.empty_union] at hx
    rw [Set.mem_singleton_iff.mp hx]
    exact Nat.le_of_lt (Nat.lt_of_lt_of_le hself hb)
  · rw [hch, List.append_assoc, List.singleton_append, List.map_cons, List.cons_append]
  · rcases List.mem_cons.mp hcb with rfl | hcb
    · rw [Store.link, w.other c hbself]
      exact hlink'
    · have hl := h.links c hcb
      rw [hlinks hl, hl]

section Children

variable {f : Addr → Option Addr → Exec T P B (Addr × Addr)}

/-- `f` copies subtrees of height `k`. -/
def ClonesNode (cl : T → T) (k : Nat) (f : Addr → Option Addr → Exec T P B (Addr × Addr)) : Prop :=
  ∀ {t : Store T P B} {a : Addr} {nl : Option Addr}, Counted t k a →
    Returns (f a nl) t (fun r u => Copies cl t.heap.next t u k [a] [r.1] nl (some r.2)
      ∧ u.link r.1 = some (none, 0) ∧ Grown t u)

theorem InternalNode.cloneChildren_spec (hf : ClonesNode cl k f) {es₁ : List (Addr × Nat)} :
    ∀ {es₂ : List (Addr × Nat)} {t : Store T P B} {bs : List Addr} {nl' : Option Addr},
      Cloning cl s t k es₁ es₂ bs nl nl' → (∀ e ∈ es₁, Counted s k e.1) →
      s.body a = some (.internal (es₁ ++ es₂)) →
      Returns (cloneChildren f s.heap.next a (List.range es₁.length).reverse nl') t (fun r u =>
        ∃ bs', Cloning cl s u k [] (es₁ ++ es₂) bs' nl r) := by
  -- the last child that is to come is next
  induction es₁ using List.reverseRecOn with
  | nil => intro es₂ t bs nl' h _ _; exact ⟨bs, h⟩
  | append_singleton es₁ e ih =>
      intro es₂ t bs nl' h hc hb
      have hce := hc e (List.mem_append_right _ List.mem_cons_self)
      rw [List.append_assoc, List.singleton_append] at hb ⊢
      rw [List.length_append, List.length_singleton, List.range_succ, List.reverse_concat,
        cloneChildren, returns_bind, InternalNode.child_spec (h.grown.body hb), returns_bind]
      refine (hf (hce.grown h.grown).1).mono ?_
      intro r t₁ hr
      obtain ⟨b, leaf⟩ := r
      obtain ⟨hcopy, hlink, hg⟩ := hr
      simp only [returns_bind]
      refine (setParent_spec hlink (some s.heap.next)).mono ?_
      intro _ t₂ h₂
      obtain ⟨f₂, hlink'⟩ := h₂
      obtain ⟨ch, hr, hch⟩ := h.record
      have hself := Heap.lt_next_of_read hr
      have hbself : s.heap.next ≠ b := by
        refine Nat.ne_of_lt (Nat.lt_of_lt_of_le hself (hcopy.fresh b ?_))
        rw [List.flatMap_singleton]
        exact t₁.self_mem_nodesUnder k b
      have hr₂ : t₂.heap.read s.heap.next
          = some (.internal { InternalNode.new with children := ch }) := by
        rw [f₂.read _ (Set.notMem_empty _) hbself, hg.read _ hself, hr]
      rw [List.length_append, List.length_singleton, List.replicate_succ', List.append_assoc,
        List.singleton_append] at hch
      have hput := InternalNode.putChild_spec b hr₂ hch
      rw [List.length_replicate] at hput
      refine hput.mono ?_
      intro _ t₃ h₃
      obtain ⟨ch', hch', w⟩ := h₃
      have hstep := h.step hce hcopy hlink hg f₂ hlink' w hch'
      refine ih hstep (fun e he => hc e (List.mem_append_left _ he)) ?_
      exact hb

/-- All children are in place, and the length and the counts are taken from the original. -/
theorem Cloning.done {t' : Store T P B} {n : InternalNode P B} {p : Prefix P}
    (h : Cloning cl s t k [] es bs nl nl') (ha : s.heap.read a = some (.internal n))
    (hn : n.Holds es) (hne : es ≠ []) (hp : p = .new .internal) {ch : Slots (Option Addr) B}
    (hch : ch.toList = bs.map some ++ List.replicate (B - es.length) none)
    (hes : ∀ e ∈ es, e.2 = (s.itemsUnder k e.1).length)
    (w : Store.Wrote t t' s.heap.next (.internal ⟨p, n.length, ch, n.sizes⟩)) :
    Copies cl s.heap.next s t' (k + 1) [a] [s.heap.next] nl nl' := by
  have hbody : s.body a = some (.internal es) := Store.body_internal.mpr ⟨n, ha, hn⟩
  have hkids : s.kids a = es.map Prod.fst := by rw [Store.kids, hbody]; rfl
  have hselflink : t.link s.heap.next = some (none, 0) := by
    obtain ⟨ch₀, hr, _⟩ := h.record
    exact link_new hr rfl
  have hcopies : Copies cl (s.heap.next + 1) s t' k (es.map Prod.fst) bs nl nl' := by
    refine h.copies.congr (fun x hx => ?_) fun q hq y hy => ?_
    · rw [Store.body, w.other x (Nat.ne_of_gt (h.copies.fresh x hx))]
      rfl
    · have hys : y ≠ s.heap.next := by
        intro he
        subst he
        have := h.copies.links q hq _ hy
        rw [hselflink] at this
        cases this
      rw [Store.link, w.other y hys]
      rfl
  -- the entries of the copy
  have hcounts : bs.map (fun b => (t'.itemsUnder k b).length) = es.map Prod.snd := by
    rw [hcopies.counts, List.map_map]
    exact List.map_congr_left fun e he => (hes e he).symm
  have hlen : bs.length = es.length := by
    have := congrArg List.length hcounts
    rwa [List.length_map, List.length_map] at this
  have hself : t'.body s.heap.next
      = some (.internal (BTreeVec.counted (fun b => (t'.itemsUnder k b).length) bs)) := by
    obtain ⟨rest, hsizes⟩ := hn.sizes
    refine Store.body_internal.mpr ⟨_, w.self, hp ▸ ParentPtr.kind_new _, ?_, ?_, rest, ?_⟩
    · rw [hn.length, BTreeVec.counted, List.length_map, hlen]
    · rw [hch, BTreeVec.counted, List.map_map, List.length_map, hlen]
      rfl
    · rw [hsizes, ← hcounts, BTreeVec.counted, List.map_map]
      rfl
  have hkids' : t'.kids s.heap.next = bs := by
    rw [Store.kids, hself]
    show (BTreeVec.counted _ bs).map Prod.fst = bs
    rw [BTreeVec.counted, List.map_map]
    exact List.map_id bs
  have hitems : t'.itemsUnder (k + 1) s.heap.next = (s.itemsUnder (k + 1) a).map cl := by
    have hi := hcopies.items
    rw [List.flatMap_map] at hi
    rw [itemsUnder_internal hself, itemsUnder_internal hbody, BTreeVec.counted, List.flatMap_map]
    exact hi
  have hlinks : ∀ b ∈ bs, t'.link b = some (some s.heap.next, 0) := by
    intro b hb
    have hbs : b ≠ s.heap.next := by
      refine Nat.ne_of_gt (hcopies.fresh b (List.mem_flatMap.mpr ⟨b, hb, ?_⟩))
      exact t'.self_mem_nodesUnder k b
    rw [Store.link, w.other b hbs]
    exact h.links b hb
  refine ⟨fun b hb => ?_, ?_, ?_, ?_, fun x hx => ?_, ?_, fun q hq y hy => ?_⟩
  · obtain rfl := List.mem_singleton.mp hb
    refine ⟨_, hself, fun hnil => ?_, fun e he => ?_⟩
    · have := congrArg List.length hnil
      rw [BTreeVec.counted, List.length_map, hlen, List.length_nil] at this
      exact hne (List.length_eq_zero_iff.mp this)
    · obtain ⟨b, hb, rfl⟩ := List.mem_map.mp he
      exact ⟨hcopies.counted b hb, rfl⟩
  · rw [List.map_singleton, List.map_singleton, hitems, List.length_map]
  · rw [List.map_singleton, List.map_singleton, Store.width, Store.width, hself, hbody]
    show [(BTreeVec.counted _ bs).length] = [es.length]
    rw [BTreeVec.counted, List.length_map, hlen]
  · rw [List.flatMap_singleton, List.flatMap_singleton, hitems]
  · rw [List.flatMap_singleton, Store.nodesUnder, hkids', List.mem_cons] at hx
    rcases hx with rfl | hx
    · exact Nat.le_refl _
    · exact Nat.le_of_lt (hcopies.fresh x hx)
  · rw [List.flatMap_singleton, List.flatMap_singleton, Store.leavesUnder, Store.leavesUnder, hkids,
      hkids']
    exact hcopies.chain
  · rw [List.flatMap_singleton, Store.nodesUnder, hkids', List.mem_cons] at hq
    rcases hq with rfl | hq
    · rw [hkids'] at hy
      exact hlinks y hy
    · exact hcopies.links q hq y hy

end Children

/-! ## A subtree -/

theorem InternalNode.cloneFrom_spec {f : Addr → Option Addr → Exec T P B (Addr × Addr)}
    {s₁ : Store T P B} (hf : ClonesNode cl k f) (hc : Counted s (k + 1) a) (hg : Grown s s₁)
    (hr : s₁.heap.read s.heap.next = some (.internal InternalNode.new)) (nl : Option Addr) :
    Returns (cloneFrom f s.heap.next a nl) s₁ (fun r u =>
      Copies cl s.heap.next s u (k + 1) [a] [s.heap.next] nl (some r)
        ∧ u.link s.heap.next = some (none, 0) ∧ Grown s u) := by
  obtain ⟨es, hb, hne, he⟩ := hc
  obtain ⟨n, ha, hn⟩ := Store.body_internal.mp hb
  have hread : ∀ {t : Store T P B}, Grown s t → t.heap.read a = some (.internal n) := fun h =>
    (h.read a (Heap.lt_next_of_read ha)).trans ha
  have hsub : ∀ e ∈ es, Counted s k e.1 := fun e hem => (he e hem).1
  have hstart : Cloning cl s s₁ k es [] [] nl nl := by
    refine ⟨hg, ⟨_, hr, ?_⟩, .nil rfl, fun b hb => absurd hb List.not_mem_nil⟩
    rw [List.map_nil, List.nil_append, List.append_nil, List.replicate_append_replicate,
      Nat.add_sub_cancel' hn.length_le]
    rfl
  have hloop := cloneChildren_spec hf hstart hsub (by rw [List.append_nil]; exact hb)
  rw [← hn.length] at hloop
  unfold cloneFrom
  simp only [returns_bind, returns_derefInternal]
  refine ⟨n, hread hg, hloop.mono ?_⟩
  intro r t ht
  obtain ⟨bs, ht⟩ := ht
  rw [List.append_nil] at ht
  obtain ⟨ch, hr, hch⟩ := ht.record
  have hne' : s.heap.next ≠ a := Nat.ne_of_gt (Heap.lt_next_of_read ha)
  refine (modifyInternal_spec hr _).mono ?_
  intro _ t₁ w₁
  refine ⟨n, (w₁.other a hne'.symm).trans (hread ht.grown), (modifyInternal_spec w₁.self _).mono ?_⟩
  intro _ t₂ w₂
  have w := w₁.trans w₂
  have hdone := ht.done ha hn hne rfl hch (fun e hem => (he e hem).2) w
  -- the original has a child, so there is a first leaf
  have hleaf : ∃ leaf, r = some leaf := by
    have hchain := congrArg List.head? hdone.chain
    have hcount : Counted s (k + 1) a := ⟨es, hb, hne, he⟩
    obtain ⟨x, L, hL⟩ := List.exists_cons_of_ne_nil hcount.leavesUnder_ne_nil
    rw [List.flatMap_singleton, List.flatMap_singleton, hL] at hchain
    exact ⟨x, Option.some.inj hchain⟩
  obtain ⟨leaf, rfl⟩ := hleaf
  rw [returns_orFault]
  exact ⟨leaf, rfl, hdone, link_new w.self rfl, ht.grown.wrote (Nat.le_refl _) w⟩

theorem NodeRef.cloneNode_leaf {fuel : Nat} (hc : Counted s 0 a) (nl : Option Addr) :
    Returns (cloneNode cl (fuel + 1) a nl) s (fun r u =>
      Copies cl s.heap.next s u 0 [a] [r.1] nl (some r.2)
        ∧ u.link r.1 = some (none, 0) ∧ Grown s u) := by
  have htag := hc.tall.tag
  obtain ⟨xs, nx, hb⟩ := hc
  rw [cloneNode, returns_bind, returns_cast htag]
  simp only [if_true, returns_bind]
  refine (LeafNode.alloc_spec s).mono ?_
  intro new s₁ h₁
  obtain ⟨rfl, hr, _, hlink, f, hnext⟩ := h₁
  -- nothing that was there is touched: the copy is a new cell
  have hg : Grown s s₁ := by
    refine ⟨fun x hx => ?_, by omega, f.destroyed, f.dropped⟩
    exact f.read x (Nat.ne_of_lt hx) (Nat.ne_of_lt hx)
  have hlt := Store.lt_next_of_body hb
  refine (LeafNode.cloneFrom_spec (hg.body hb) hr (ParentPtr.kind_new _) nl
    (Nat.ne_of_lt hlt)).mono ?_
  intro _ t ht
  obtain ⟨n, w, hp, hn⟩ := ht
  rw [returns_pure]
  have hbody : t.body s.heap.next = some (.leaf (xs.map cl) nl) :=
    Store.body_leaf.mpr ⟨n, w.self, hn⟩
  have hitems : s.items a = xs := by rw [Store.items, hb]; rfl
  have hitems' : t.items s.heap.next = xs.map cl := by rw [Store.items, hbody]; rfl
  refine ⟨⟨fun b hbm => ?_, ?_, ?_, ?_, fun x hx => ?_, ?_, fun p hp x hx => ?_⟩, ?_,
    hg.wrote (Nat.le_refl _) w⟩
  · exact List.mem_singleton.mp hbm ▸ ⟨_, _, hbody⟩
  · simp [Store.itemsUnder, Store.leavesUnder, hitems, hitems']
  · simp [Store.width, hb, hbody, Body.width]
  · simp [Store.itemsUnder, Store.leavesUnder, hitems, hitems']
  · exact Nat.le_of_eq (List.mem_singleton.mp (show x ∈ [s.heap.next] from hx)).symm
  · have hnl : t.next s.heap.next = nl := by rw [Store.next, hbody]; rfl
    simp [Store.leavesUnder, hnl]
  · obtain rfl := List.mem_singleton.mp (show p ∈ [s.heap.next] from hp)
    rw [Store.kids, hbody] at hx
    exact absurd hx List.not_mem_nil
  · rw [Store.link, w.self, Option.map_some, Cell.link, Cell.nodePrefix, hp]
    simp [LeafNode.new, Prefix.new]

/-- **What `clone_node` does** with any subtree whose counts are exact. -/
theorem NodeRef.cloneNode_spec {fuel : Nat} (hk : k < fuel) :
    ClonesNode cl k (cloneNode cl fuel : Addr → Option Addr → Exec T P B (Addr × Addr)) := by
  induction k generalizing fuel with
  | zero =>
      intro s a nl hc
      obtain ⟨fuel, rfl⟩ := Nat.exists_eq_succ_of_ne_zero (Nat.ne_of_gt hk)
      exact cloneNode_leaf hc nl
  | succ k ih =>
      intro s a nl hc
      obtain ⟨fuel, rfl⟩ := Nat.exists_eq_succ_of_ne_zero (Nat.ne_of_gt (Nat.zero_lt_of_lt hk))
      rw [cloneNode, returns_bind, returns_cast hc.tall.tag, if_neg (Nat.succ_ne_zero k)]
      simp only [returns_bind]
      refine (InternalNode.alloc_spec s).mono ?_
      intro new s₁ h₁
      obtain ⟨rfl, hr, _, _, f, hnext⟩ := h₁
      have hg : Grown s s₁ := by
        refine ⟨fun x hx => ?_, by omega, f.destroyed, f.dropped⟩
        exact f.read x (Nat.ne_of_lt hx) (Nat.ne_of_lt hx)
      refine (InternalNode.cloneFrom_spec (ih (by omega)) hc hg hr nl).mono ?_
      intro leaf t ht
      exact ht

end BTreeVec
