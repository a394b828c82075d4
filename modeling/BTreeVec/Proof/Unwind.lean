import BTreeVec.Model.Unwind
import BTreeVec.Proof.Copy

/-!
# Cloning items whose `Clone` may panic

Such a clone does what `clone` does as long as no item panics. With the first that does it
stops, and then only nodes that it allocated itself were written to: what was there before is
as it was, and nothing was dropped. So a panic costs memory, and nothing else.
-/

set_option linter.dupNamespace false

namespace BTreeVec

open Prog

variable {T P : Type} {B : Nat} {s t : Store T P B} {v : BTreeVec} {l xs ys : List T}
  {F : Set Addr} {a b : Addr} {k : Nat} {cl : T → Option T} {panic : Fault} {nl : Option Addr}

/-! ## The items -/

/-- The clone of an item, where there is one. -/
def cloned (cl : T → Option T) (item : T) : T := (cl item).getD item

/-- The panic, if the `Clone` of one of the items does. -/
def panics (cl : T → Option T) (panic : Fault) (items : List T) : Option Fault :=
  if items.all fun item => (cl item).isSome then none else some panic

theorem panics_append (cl : T → Option T) (panic : Fault) (xs ys : List T) :
    panics cl panic (xs ++ ys) = (panics cl panic xs).or (panics cl panic ys) := by
  unfold panics
  rw [List.all_append]
  cases xs.all fun item => (cl item).isSome <;> simp

/-- It is the same panic, whichever item it is. -/
theorem panics_comm (cl : T → Option T) (panic : Fault) (xs ys : List T) :
    panics cl panic (xs ++ ys) = panics cl panic (ys ++ xs) := by
  unfold panics
  rw [List.all_append, List.all_append, Bool.and_comm]

theorem panics_cons_none {item : T} (h : cl item = none) :
    panics cl panic (item :: xs) = some panic := by
  simp [panics, h]

theorem panics_cons_some {item c : T} (h : cl item = some c) :
    panics cl panic (item :: xs) = panics cl panic xs := by
  simp [panics, h]

/-- Either there is a clone of each item, or one of them panics. -/
theorem mapM_or_panics (cl : T → Option T) (panic : Fault) (xs : List T) :
    xs.mapM cl = some (xs.map (cloned cl)) ∧ panics cl panic xs = none
      ∨ xs.mapM cl = none ∧ panics cl panic xs = some panic := by
  induction xs with
  | nil => exact Or.inl ⟨rfl, rfl⟩
  | cons item xs ih =>
      rw [List.mapM_cons]
      cases h : cl item with
      | none => exact Or.inr ⟨rfl, panics_cons_none h⟩
      | some c =>
          rw [panics_cons_some h]
          refine ih.imp (fun hxs => ⟨?_, hxs.2⟩) fun hxs => ⟨?_, hxs.2⟩
          · rw [hxs.1]
            simp [cloned, h]
          · rw [hxs.1]
            rfl

/-! ## One leaf -/

theorem Store.Wrote.refl {c : Cell T P B} (h : s.heap.read a = some c) : Store.Wrote s s a c :=
  ⟨h, fun _ _ => rfl, rfl, rfl, rfl⟩

theorem derefLeaf_eq {n : LeafNode T P B} (h : s.heap.read a = some (.leaf n)) :
    derefLeaf a s = .ok n s := by
  have hr : Returns (derefLeaf a) s fun m t => m = n ∧ t = s := by
    rw [returns_derefLeaf]
    exact ⟨n, h, rfl, rfl⟩
  obtain ⟨_, _, he, rfl, rfl⟩ := returns_iff.mp hr
  exact he

theorem modifyLeaf_eq {n : LeafNode T P B} (h : s.heap.read a = some (.leaf n))
    (f : LeafNode T P B → LeafNode T P B) :
    modifyLeaf a f s = .ok () { s with heap := s.heap.update a fun _ => .leaf (f n) } := by
  simp only [modifyLeaf, bind, EStateM.bind, derefLeaf_eq h]
  rfl

namespace LeafNode

/-- The loop of `clone_from`, when no item panics. -/
def cloneItems (cl : T → T) (self : Addr) (i : Nat) (items : List T) : Exec T P B Unit := do
  let children ← orFault .outOfBounds
    ((← derefLeaf self).children.copyFrom? i (items.map (some ∘ cl)))
  modifyLeaf self fun n => { n with children := children }

theorem cloneItems_eq {n : LeafNode T P B} {pre rest : List (Option T)} (f : T → T)
    (hb : s.heap.read b = some (.leaf n)) (hc : n.children.toList = pre ++ rest)
    (hle : xs.length ≤ rest.length) : ∃ ch : Slots (Option T) B,
      ch.toList = pre ++ xs.map (some ∘ f) ++ rest.drop xs.length
        ∧ cloneItems f b pre.length xs s
          = .ok () { s with heap := s.heap.update b fun _ => .leaf { n with children := ch } } := by
  have hsplit : n.children.toList = pre ++ rest.take xs.length ++ rest.drop xs.length := by
    rw [List.append_assoc, List.take_append_drop, hc]
  obtain ⟨ch, hcopy, hch⟩ := Slots.copyFrom?_append (xs.map (some ∘ f)) hsplit (by
    rw [List.length_map, List.length_take, Nat.min_eq_left hle])
  refine ⟨ch, hch, ?_⟩
  simp only [cloneItems, bind, EStateM.bind, derefLeaf_eq hb, hcopy]
  exact modifyLeaf_eq hb _

/-- Until one of them panics the items are written one by one, as if all at once. -/
theorem tryCloneItems_follows {n : LeafNode T P B} {pre rest : List (Option T)}
    (hb : s.heap.read b = some (.leaf n)) (hc : n.children.toList = pre ++ rest)
    (hle : xs.length ≤ rest.length) :
    Follows (tryCloneItems cl panic b pre.length xs) (cloneItems (cloned cl) b pre.length xs) s
      (fun t => ∃ c, Store.Wrote s t b c) (panics cl panic xs) := by
  induction xs generalizing s n pre rest with
  | nil =>
      obtain ⟨ch, hch, he⟩ := cloneItems_eq (cloned cl) hb hc hle
      obtain rfl : ch = n.children := Slots.ext (by rw [hch, hc]; simp)
      show (pure () : Exec T P B Unit) s = cloneItems (cloned cl) b pre.length [] s
      rw [he, Heap.update_eq_self hb]
      rfl
  | cons item xs ih =>
      cases hcl : cl item with
      | none =>
          rw [panics_cons_none hcl]
          refine ⟨s, ?_, _, .refl hb⟩
          rw [tryCloneItems, hcl]
          rfl
      | some c =>
          rw [panics_cons_some hcl]
          obtain ⟨r, rest, rfl⟩ := List.exists_cons_of_length_pos (Nat.lt_of_lt_of_le
            (Nat.zero_lt_succ xs.length) hle)
          obtain ⟨ch, hset, hch⟩ := Slots.set?_append (some c) hc
          have w := Store.wrote_update hb fun _ => .leaf { n with children := ch }
          have hch' : ch.toList = (pre ++ [some c]) ++ rest := by rw [hch]; simp
          have hle' : xs.length ≤ rest.length := Nat.le_of_succ_le_succ hle
          refine ((ih w.self hch' hle').mono fun t ht => ?_).after ?_ ?_
          · obtain ⟨c', w'⟩ := ht
            exact ⟨c', w.trans w'⟩
          · rw [List.length_append, tryCloneItems, hcl]
            simp only [bind, EStateM.bind, orFault, pure, EStateM.pure, derefLeaf_eq hb, hset,
              modifyLeaf_eq hb]
            rfl
          · obtain ⟨ch₁, hch₁, he₁⟩ := cloneItems_eq (cloned cl) hb hc hle
            obtain ⟨ch₂, hch₂, he₂⟩ := cloneItems_eq (cloned cl) w.self hch' hle'
            have hsame : ch₁ = ch₂ := Slots.ext (by rw [hch₁, hch₂]; simp [cloned, hcl])
            rw [he₁, he₂, hsame, Heap.update_update]

/-- The copy of a leaf is cut short by the first item that panics. -/
theorem tryCloneFrom_follows [TaggedPtr P] {n : LeafNode T P B} {nx : Option Addr}
    (ha : s.body a = some (.leaf xs nx)) (hb : s.heap.read b = some (.leaf n)) :
    Follows (tryCloneFrom cl panic b a nl) (cloneFrom (cloned cl) b a nl) s
      (fun t => ∃ c, Store.Wrote s t b c) (panics cl panic xs) := by
  obtain ⟨m, hm, hxs⟩ := Store.body_leaf.mp ha
  obtain ⟨rest, hc⟩ := hxs.children
  have hsl : m.children.slice? 0 m.length = some (xs.map some) := by
    have := Slots.slice?_prefix hc
    rwa [List.length_map, ← hxs.length] at this
  have hle : xs.length ≤ n.children.toList.length := by
    have := Slots.length_add_of_eq hc
    rw [List.length_map] at this
    rw [n.children.length_toList]
    omega
  have hitems : ∀ {Q : List T → Store T P B → Prop}, Q xs s → Returns (LeafNode.items a) s Q := by
    intro Q hq
    simp only [LeafNode.items, returns_bind, returns_derefLeaf, returns_orFault]
    exact ⟨m, hm, _, hsl, xs, mapM_id_eq_some.mpr rfl, hq⟩
  have hassoc : (cloneFrom (cloned cl) b a nl : Exec T P B Unit) = (do
      let items ← items a
      cloneItems (cloned cl) b 0 items
      let length := (← derefLeaf a).length
      modifyLeaf b fun n => { n with length := length }
      modifyLeaf b fun n => { n with next := nl }) := by
    simp only [cloneFrom, cloneItems, bind_assoc]
  rw [hassoc]
  exact .seq (hitems (tryCloneItems_follows hb (List.nil_append _).symm hle).ended)

end LeafNode

/-! ## A subtree -/

section
variable [TaggedPtr P] {g g' : Addr → Option Addr → Exec T P B (Addr × Addr)}
  {es₁ es₂ : List (Addr × Nat)}

/-- `g` does what `g'` does, which clones subtrees of height `k`, until an item panics. -/
def FollowsClone (cl : T → Option T) (panic : Fault) (k : Nat)
    (g g' : Addr → Option Addr → Exec T P B (Addr × Addr)) : Prop :=
  ∀ {t : Store T P B} {a : Addr} {nl : Option Addr}, Counted t k a →
    Follows (g a nl) (g' a nl) t (Grown t) (panics cl panic (t.itemsUnder k a))

omit [TaggedPtr P] in
theorem InternalNode.putChild_wrote {i : Nat} {Q : Unit → Store T P B → Prop}
    (h : Returns (putChild a i b) s Q) :
    Returns (putChild a i b) s fun u t => (∃ c, Store.Wrote s t a c) ∧ Q u t := by
  unfold putChild at h ⊢
  simp only [returns_bind, returns_derefInternal, returns_orFault] at h ⊢
  obtain ⟨n, hr, ch, hset, h⟩ := h
  exact ⟨n, hr, ch, hset, ((modifyInternal_spec hr _).mono fun _ _ w => ⟨_, w⟩).and h⟩

/-- The children are cloned until an item below one of them panics. -/
theorem InternalNode.cloneChildren_follows {f : T → T} (hspec : ClonesNode f k g')
    (hf : FollowsClone cl panic k g g') {Q : Option Addr → Store T P B → Prop} :
    ∀ {es₂ : List (Addr × Nat)} {t : Store T P B} {nl : Option Addr}, Grown s t →
      (∀ e ∈ es₁, Counted s k e.1) → s.body a = some (.internal (es₁ ++ es₂)) →
      Returns (cloneChildren g' s.heap.next a (List.range es₁.length).reverse nl) t Q →
      Follows (cloneChildren g s.heap.next a (List.range es₁.length).reverse nl)
        (cloneChildren g' s.heap.next a (List.range es₁.length).reverse nl) t (Grown s)
        (panics cl panic (es₁.flatMap fun e => s.itemsUnder k e.1)) := by
  induction es₁ using List.reverseRecOn with
  | nil => exact fun _ _ _ _ => rfl
  | append_singleton es₁ e ih =>
      intro es₂ t nl hg hc hb hret
      have hce := hc e (List.mem_append_right _ List.mem_cons_self)
      obtain ⟨hce', _, _, hi⟩ := hce.grown hg
      rw [List.append_assoc, List.singleton_append] at hb
      have hchild : ∀ {R : Addr → Store T P B → Prop}, Returns (child a es₁.length) t R ↔ R e.1 t :=
        InternalNode.child_spec (hg.body hb)
      rw [List.length_append, List.length_singleton, List.range_succ, List.reverse_concat,
        cloneChildren, returns_bind, hchild, returns_bind] at hret
      rw [List.length_append, List.length_singleton, List.range_succ, List.reverse_concat,
        cloneChildren, cloneChildren, List.flatMap_append, List.flatMap_singleton, panics_comm,
        panics_append, ← hi]
      refine .seq (hchild.mpr (.bind ((hf hce').mono fun u hu => hg.trans hu) ?_))
      refine (hret.and (hspec hce')).mono ?_
      intro r t₁ hr
      obtain ⟨b, leaf⟩ := r
      obtain ⟨hret, hcopy, hlink, hg₁⟩ := hr
      have hb' : s.heap.next ≤ b := by
        refine Nat.le_trans hg.next_le (hcopy.fresh b ?_)
        rw [List.flatMap_singleton]
        exact t₁.self_mem_nodesUnder k b
      simp only [returns_bind] at hret
      refine .seq ((hret.and (setParent_spec hlink (some s.heap.next))).mono ?_)
      intro _ t₂ hr
      obtain ⟨hret, f₂, _⟩ := hr
      refine .seq ((putChild_wrote hret).mono ?_)
      intro _ t₃ hr
      obtain ⟨⟨c, w⟩, hret⟩ := hr
      -- only the copy of the child and the new node were written to
      have hg₂ : Grown s t₂ := (hg.trans hg₁).of_frame f₂ fun x hx => by
        rw [Set.empty_union] at hx
        exact Set.mem_singleton_iff.mp hx ▸ hb'
      exact ih (hg₂.wrote (Nat.le_refl _) w) (fun e he => hc e (List.mem_append_left _ he)) hb hret

theorem InternalNode.cloneFrom_follows {f : T → T} {s₁ : Store T P B} (hspec : ClonesNode f k g')
    (hf : FollowsClone cl panic k g g') (hc : Counted s (k + 1) a) (hg : Grown s s₁)
    (hr : s₁.heap.read s.heap.next = some (.internal InternalNode.new)) (nl : Option Addr) :
    Follows (cloneFrom g s.heap.next a nl) (cloneFrom g' s.heap.next a nl) s₁ (Grown s)
      (panics cl panic (s.itemsUnder (k + 1) a)) := by
  have hret := cloneFrom_spec hspec hc hg hr nl
  obtain ⟨es, hb, _, he⟩ := hc
  obtain ⟨n, ha, hn⟩ := Store.body_internal.mp hb
  have ha' : s₁.heap.read a = some (.internal n) := (hg.read a (Heap.lt_next_of_read ha)).trans ha
  unfold cloneFrom at hret ⊢
  simp only [returns_bind, returns_derefInternal] at hret
  obtain ⟨m, hm, hret⟩ := hret
  obtain rfl : n = m := by
    rw [ha'] at hm
    cases hm
    rfl
  rw [hn.length] at hret
  have hloop := cloneChildren_follows hspec hf hg (fun e hem => (he e hem).1)
    (by rw [List.append_nil]; exact hb) hret
  rw [← hn.length] at hloop
  rw [itemsUnder_internal hb]
  refine .seq ?_
  rw [returns_derefInternal]
  exact ⟨n, ha', hloop.ended⟩

/-- A node was allocated, and nothing else happened. -/
theorem Grown.of_alloc (f : Frame s t {s.heap.next} {s.heap.next}) : Grown s t := by
  refine Grown.of_frame ⟨fun _ _ => rfl, Nat.le_refl _, rfl, rfl⟩ f fun x hx => ?_
  rw [Set.union_self] at hx
  exact Nat.le_of_eq (Set.mem_singleton_iff.mp hx).symm

/-- **A clone of a subtree** is cut short by the first item that panics. -/
theorem NodeRef.tryCloneNode_follows {fuel : Nat} (hk : k < fuel) :
    FollowsClone cl panic k (tryCloneNode cl panic fuel : Addr → _ → Exec T P B _)
      (cloneNode (cloned cl) fuel) := by
  induction k generalizing fuel with
  | zero =>
      intro s a nl hc
      obtain ⟨fuel, rfl⟩ := Nat.exists_eq_succ_of_ne_zero (Nat.ne_of_gt hk)
      have htag := hc.tall.tag
      obtain ⟨xs, nx, hb⟩ := hc
      have hitems : s.itemsUnder 0 a = xs := by
        simp [Store.itemsUnder, Store.leavesUnder, Store.items, hb, Body.items]
      rw [tryCloneNode, cloneNode, hitems]
      refine .seq ((returns_cast htag).mpr (.seq ((LeafNode.alloc_spec s).mono ?_)))
      intro new s₁ h₁
      obtain ⟨rfl, hr, _, _, f, hnext⟩ := h₁
      have hg : Grown s s₁ := .of_alloc f
      refine .ended ((LeafNode.tryCloneFrom_follows (hg.body hb) hr).mono fun t ht => ?_)
      obtain ⟨c, w⟩ := ht
      exact hg.wrote (Nat.le_refl _) w
  | succ k ih =>
      intro s a nl hc
      obtain ⟨fuel, rfl⟩ := Nat.exists_eq_succ_of_ne_zero (Nat.ne_of_gt (Nat.zero_lt_of_lt hk))
      have hk : k < fuel := by omega
      rw [tryCloneNode, cloneNode]
      have htag := hc.tall.tag
      rw [if_neg (Nat.succ_ne_zero k)] at htag
      refine .seq ((returns_cast htag).mpr (.seq ((InternalNode.alloc_spec s).mono ?_)))
      intro new s₁ h₁
      obtain ⟨rfl, hr, _, _, f, hnext⟩ := h₁
      have hg : Grown s s₁ := .of_alloc f
      exact .ended (InternalNode.cloneFrom_follows (cloneNode_spec hk) (ih hk) hc hg hr nl)

end

/-! ## A vector -/

variable [TaggedPtr P]

/-- A clone of a vector, or of a clone, is cut short by the first item that panics. -/
theorem CopyAt.tryClone_follows (h : CopyAt s v l F) (cl : T → Option T) (panic : Fault) :
    Follows (v.tryClone cl panic) (v.clone (cloned cl)) s (Grown s) (panics cl panic l) := by
  cases h with
  | empty => rfl
  | @tree root k l hc hi hl hnd =>
      have hlt := hc.tall.lt_next hc.height_lt_nodes (hc.nodes_nodup hnd)
      unfold BTreeVec.tryClone BTreeVec.clone
      rw [← hi]
      exact .seq (NodeRef.tryCloneNode_follows (Nat.lt_succ_of_lt hlt) hc).ended

/-- If no item panics, the clone has the clones of the items. -/
theorem CopyAt.tryClone_ok (h : CopyAt s v l F) (panic : Fault) {l' : List T}
    (hl : l.mapM cl = some l') : Returns (v.tryClone cl panic) s fun w t => ∃ F', CopyAt t w l' F'
      ∧ Heap.Within s.heap t.heap ∅ F' ∧ t.dropped = s.dropped := by
  have hfollows := h.tryClone_follows cl panic
  rcases mapM_or_panics cl panic l with ⟨hsome, hp⟩ | ⟨hnone, hp⟩
  · rw [hsome] at hl
    cases hl
    rw [hp] at hfollows
    obtain ⟨w, t, he, ht⟩ := returns_iff.mp (h.clone (cloned cl))
    exact .of_ok (Eq.trans hfollows he) ht
  · rw [hnone] at hl
    cases hl

/-- If one does, no node that was there is touched. -/
theorem CopyAt.tryClone_panics (h : CopyAt s v l F) (panic : Fault) (hl : l.mapM cl = none) :
    ∃ t, v.tryClone cl panic s = .error panic t ∧ Grown s t := by
  have hfollows := h.tryClone_follows cl panic
  rcases mapM_or_panics cl panic l with ⟨hsome, hp⟩ | ⟨hnone, hp⟩
  · rw [hsome] at hl
    cases hl
  · rwa [hp] at hfollows

end BTreeVec
