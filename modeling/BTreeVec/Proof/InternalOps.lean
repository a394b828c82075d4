import BTreeVec.Proof.View

/-!
# What the internal methods do

One specification for each method of `InternalNode`. As for leaves, the entries
are written as a concatenation with the position of interest at a joint. What a
method owes its children is `Adopted`: each records the node as its parent and its
own slot as its index.
-/

namespace BTreeVec

open Prog

variable {T P : Type} {B : Nat} [TaggedPtr P] {s s' : Store T P B} {a b : Addr}

/-- The nodes of `es` record `a` as their parent, and the slots from `k` on as their index. -/
def Adopted (s : Store T P B) (a : Addr) : Nat → List (Addr × Nat) → Prop
  | _, [] => True
  | k, e :: es => s.link e.1 = some (some a, k) ∧ Adopted s a (k + 1) es

namespace Adopted

theorem append {k : Nat} {xs ys : List (Addr × Nat)} :
    Adopted s a k (xs ++ ys) ↔ Adopted s a k xs ∧ Adopted s a (k + xs.length) ys := by
  induction xs generalizing k with
  | nil => simp [Adopted]
  | cons x xs ih =>
      simp only [List.cons_append, Adopted, ih, List.length_cons, and_assoc]
      rw [show k + (xs.length + 1) = k + 1 + xs.length by omega]

theorem congr {k : Nat} {es : List (Addr × Nat)} (h : Adopted s a k es)
    (hl : ∀ e ∈ es, s'.link e.1 = s.link e.1) : Adopted s' a k es := by
  induction es generalizing k with
  | nil => trivial
  | cons e es ih =>
      refine ⟨?_, ih h.2 fun e' he' => hl e' (List.mem_cons_of_mem _ he')⟩
      rw [hl e List.mem_cons_self]; exact h.1

theorem link_of_mem {k : Nat} {es : List (Addr × Nat)} (h : Adopted s a k es) {x : Addr}
    (hx : x ∈ es.map Prod.fst) : ∃ i, k ≤ i ∧ s.link x = some (some a, i) := by
  induction es generalizing k with
  | nil => simp at hx
  | cons e es ih =>
      rw [List.map_cons, List.mem_cons] at hx
      rcases hx with rfl | hx
      · exact ⟨k, Nat.le_refl _, h.1⟩
      · obtain ⟨i, hi, hl⟩ := ih h.2 hx
        exact ⟨i, by omega, hl⟩

/-- No node sits in two slots. -/
theorem nodup {k : Nat} {es : List (Addr × Nat)} (h : Adopted s a k es) :
    (es.map Prod.fst).Nodup := by
  induction es generalizing k with
  | nil => exact List.nodup_nil
  | cons e es ih =>
      refine List.nodup_cons.mpr ⟨fun hmem => ?_, ih h.2⟩
      obtain ⟨i, hi, hl⟩ := link_of_mem h.2 hmem
      have := h.1.symm.trans hl
      simp only [Option.some.injEq, Prod.mk.injEq, true_and] at this
      omega

theorem link_get {k : Nat} {es : List (Addr × Nat)} (h : Adopted s a k es) {i : Nat}
    {e : Addr × Nat} (hi : es[i]? = some e) : s.link e.1 = some (some a, k + i) := by
  induction es generalizing k i with
  | nil => simp at hi
  | cons e' es ih =>
      cases i with
      | zero =>
          rw [List.getElem?_cons_zero, Option.some.injEq] at hi
          subst hi; exact h.1
      | succ i =>
          rw [List.getElem?_cons_succ] at hi
          rw [ih h.2 hi]
          congr 2; omega

theorem of_get {k : Nat} {es : List (Addr × Nat)}
    (h : ∀ i x, (es.map Prod.fst)[i]? = some x → s.link x = some (some a, k + i)) :
    Adopted s a k es := by
  induction es generalizing k with
  | nil => trivial
  | cons e es ih =>
      refine ⟨h 0 e.1 rfl, ih fun i x hx => ?_⟩
      rw [h (i + 1) x (by simpa using hx)]
      congr 2; omega

end Adopted

namespace InternalNode

/-- An internal record was written: the body is what the new record holds. -/
theorem wrote_spec {n n' : InternalNode P B} {es : List (Addr × Nat)}
    (hr : s.heap.read a = some (.internal n)) (w : Store.Wrote s s' a (.internal n'))
    (hp : n'.nodePrefix = n.nodePrefix) (hn : n'.Holds es) :
    s'.body a = some (.internal es) ∧ Frame s s' {a} ∅ :=
  ⟨Store.body_internal.mpr ⟨n', w.self, hn⟩, Frame.of_body hr w hp⟩

/-- A record that is there holds what the body says. -/
theorem holds_of_body {n : InternalNode P B} {es : List (Addr × Nat)}
    (hr : s.heap.read a = some (.internal n)) (hb : s.body a = some (.internal es)) :
    n.Holds es := by
  obtain ⟨m, hm, hn⟩ := Store.body_internal.mp hb
  rw [hr, Option.some.injEq, Cell.internal.injEq] at hm
  exact hm ▸ hn

/-! ## Reading and writing single slots -/

theorem childPtr_spec {es : List (Addr × Nat)} (hb : s.body a = some (.internal es)) (i : Nat)
    {Q : Option Addr → Store T P B → Prop} :
    Returns (childPtr a i) s Q ↔ Q (es[i]?.map Prod.fst) s := by
  obtain ⟨n, hr, hn⟩ := Store.body_internal.mp hb
  have hsl : n.children.slice? 0 n.length = some (es.map fun e => some e.1) := by
    have := Slots.slice?_prefix hn.children
    rwa [List.length_map, ← hn.length] at this
  unfold childPtr
  simp only [returns_bind, returns_derefInternal, returns_orFault, returns_pure, hr, hsl,
    Option.some.injEq, exists_eq_left', Cell.internal.injEq, List.getElem?_map]
  cases es[i]? <;> rfl

theorem child_spec {xs ys : List (Addr × Nat)} {e : Addr × Nat}
    (hb : s.body a = some (.internal (xs ++ e :: ys))) {Q : Addr → Store T P B → Prop} :
    Returns (child a xs.length) s Q ↔ Q e.1 s := by
  simp [child, childPtr_spec hb]

omit [TaggedPtr P] in
theorem takeChild_spec {n : InternalNode P B} {xs zs : List (Option Addr)} {c : Addr}
    (hr : s.heap.read a = some (.internal n)) (hc : n.children.toList = xs ++ some c :: zs) :
    Returns (takeChild a xs.length) s (fun r s' => r = c ∧
      ∃ ch : Slots (Option Addr) B, ch.toList = xs ++ none :: zs
        ∧ Store.Wrote s s' a (.internal { n with children := ch })) := by
  obtain ⟨ch, hset, hch⟩ := Slots.set?_append none hc
  unfold takeChild
  simp only [returns_bind, returns_derefInternal, returns_orFault]
  refine ⟨n, hr, some c, Slots.get?_append hc, ch, hset, (modifyInternal_spec hr _).mono ?_⟩
  intro _ s' w
  exact ⟨c, rfl, rfl, ch, hch, w⟩

omit [TaggedPtr P] in
theorem putChild_spec {n : InternalNode P B} {xs zs : List (Option Addr)} {o : Option Addr}
    (c : Addr) (hr : s.heap.read a = some (.internal n)) (hc : n.children.toList = xs ++ o :: zs) :
    Returns (putChild a xs.length c) s (fun _ s' =>
      ∃ ch : Slots (Option Addr) B, ch.toList = xs ++ some c :: zs
        ∧ Store.Wrote s s' a (.internal { n with children := ch })) := by
  obtain ⟨ch, hset, hch⟩ := Slots.set?_append (some c) hc
  unfold putChild
  simp only [returns_bind, returns_derefInternal, returns_orFault]
  refine ⟨n, hr, ch, hset, (modifyInternal_spec hr _).mono ?_⟩
  intro _ s' w
  exact ⟨ch, hch, w⟩

/-- The size at a slot, and the record with that size replaced. -/
theorem sizes_at {n : InternalNode P B} {xs ys : List (Addr × Nat)} {c : Addr} {m : Nat}
    (hn : n.Holds (xs ++ (c, m) :: ys)) (k : Nat) :
    n.sizes.get? xs.length = some m ∧ ∃ v, n.sizes.set? xs.length k = some v
      ∧ ({ n with sizes := v } : InternalNode P B).Holds (xs ++ (c, k) :: ys) := by
  obtain ⟨rest, hs⟩ := hn.sizes
  have hs' : n.sizes.toList = xs.map Prod.snd ++ m :: (ys.map Prod.snd ++ rest) := by
    rw [hs]; simp
  obtain ⟨v, hset, hv⟩ := Slots.set?_append k hs'
  have hget := Slots.get?_append hs'
  rw [List.length_map] at hset hget
  refine ⟨hget, v, hset, hn.kind, ?_, ?_, ⟨rest, by simp [hv]⟩⟩
  · rw [hn.length]; simp
  · simpa using hn.children

theorem addSize_spec {xs ys : List (Addr × Nat)} {c : Addr} {m : Nat} (k : Nat)
    (hb : s.body a = some (.internal (xs ++ (c, m) :: ys))) :
    Returns (addSize a xs.length k) s (fun _ s' =>
      s'.body a = some (.internal (xs ++ (c, m + k) :: ys)) ∧ Frame s s' {a} ∅) := by
  obtain ⟨n, hr, hn⟩ := Store.body_internal.mp hb
  obtain ⟨hget, v, hset, hv⟩ := sizes_at hn (m + k)
  unfold addSize
  simp only [returns_bind, returns_derefInternal, returns_orFault]
  refine ⟨n, hr, m, hget, v, hset, (modifyInternal_spec hr _).mono ?_⟩
  intro _ s' w
  exact wrote_spec hr w rfl hv

theorem subSize_spec {xs ys : List (Addr × Nat)} {c : Addr} {m k : Nat}
    (hb : s.body a = some (.internal (xs ++ (c, m) :: ys))) (hk : k ≤ m) :
    Returns (subSize a xs.length k) s (fun _ s' =>
      s'.body a = some (.internal (xs ++ (c, m - k) :: ys)) ∧ Frame s s' {a} ∅) := by
  obtain ⟨n, hr, hn⟩ := Store.body_internal.mp hb
  obtain ⟨hget, v, hset, hv⟩ := sizes_at hn (m - k)
  unfold subSize
  simp only [returns_bind, returns_derefInternal, returns_orFault, returns_sub]
  refine ⟨n, hr, m, hget, hk, v, hset, (modifyInternal_spec hr _).mono ?_⟩
  intro _ s' w
  exact wrote_spec hr w rfl hv

theorem replaceSize_spec {xs ys : List (Addr × Nat)} {c : Addr} {m : Nat} (k : Nat)
    (hb : s.body a = some (.internal (xs ++ (c, m) :: ys))) :
    Returns (replaceSize a xs.length k) s (fun r s' => r = m
      ∧ s'.body a = some (.internal (xs ++ (c, k) :: ys)) ∧ Frame s s' {a} ∅) := by
  obtain ⟨n, hr, hn⟩ := Store.body_internal.mp hb
  obtain ⟨hget, v, hset, hv⟩ := sizes_at hn k
  unfold replaceSize
  simp only [returns_bind, returns_derefInternal, returns_orFault, returns_pure]
  refine ⟨n, hr, m, hget, v, hset, (modifyInternal_spec hr _).mono ?_⟩
  intro _ s' w
  exact ⟨rfl, wrote_spec hr w rfl hv⟩

theorem addSize_at {es xs ys : List (Addr × Nat)} {c : Addr} {m i : Nat} (k : Nat)
    (hb : s.body a = some (.internal es)) (he : es = xs ++ (c, m) :: ys) (hi : xs.length = i) :
    Returns (addSize a i k) s (fun _ s' =>
      s'.body a = some (.internal (xs ++ (c, m + k) :: ys)) ∧ Frame s s' {a} ∅) := by
  subst he hi
  exact addSize_spec k hb

theorem subSize_at {es xs ys : List (Addr × Nat)} {c : Addr} {m i k : Nat}
    (hb : s.body a = some (.internal es)) (he : es = xs ++ (c, m) :: ys) (hi : xs.length = i)
    (hk : k ≤ m) : Returns (subSize a i k) s (fun _ s' =>
      s'.body a = some (.internal (xs ++ (c, m - k) :: ys)) ∧ Frame s s' {a} ∅) := by
  subst he hi
  exact subSize_spec hb hk

theorem replaceSize_at {es xs ys : List (Addr × Nat)} {c : Addr} {m i : Nat} (k : Nat)
    (hb : s.body a = some (.internal es)) (he : es = xs ++ (c, m) :: ys) (hi : xs.length = i) :
    Returns (replaceSize a i k) s (fun r s' => r = m
      ∧ s'.body a = some (.internal (xs ++ (c, k) :: ys)) ∧ Frame s s' {a} ∅) := by
  subst he hi
  exact replaceSize_spec k hb

/-! ## The loops over children -/

/-- The loop at the end of `simple_insert`, also in `simple_remove`: set the indices of `ys`. -/
theorem reindex_spec : ∀ (ys xs zs : List (Addr × Nat)) {s : Store T P B},
    s.body a = some (.internal (xs ++ ys ++ zs)) →
    (∀ x ∈ ys.map Prod.fst, ∃ i, s.link x = some (some a, i)) → (ys.map Prod.fst).Nodup →
    Returns (forEach (List.range' xs.length ys.length) fun i => do setIndex (← child a i) i) s
      (fun _ s' => Adopted s' a xs.length ys ∧ Frame s s' ∅ {x | x ∈ ys.map Prod.fst}) := by
  intro ys
  induction ys with
  | nil => intro xs zs s _ _ _; exact ⟨trivial, Frame.refl s _ _⟩
  | cons e ys ih =>
      intro xs zs s hb hl hnd
      -- the child in the next slot; the ones before it are right already
      obtain ⟨i, hi⟩ := hl e.1 (by simp)
      have hb' : s.body a = some (.internal (xs ++ e :: (ys ++ zs))) := by rw [hb]; simp
      rw [List.map_cons, List.nodup_cons] at hnd
      rw [List.length_cons, List.range'_succ, forEach, returns_bind, returns_bind, child_spec hb']
      refine (setIndex_spec hi xs.length).mono ?_
      intro _ s₁ h₁
      obtain ⟨f₁, hl₁⟩ := h₁
      have hb₁ : s₁.body a = some (.internal (xs ++ [e] ++ ys ++ zs)) := by
        rw [f₁.body a (Set.notMem_empty a), hb]; simp
      have hkeep : ∀ x ∈ ys.map Prod.fst, s₁.link x = s.link x := fun x hx =>
        f₁.link x fun hxe => hnd.1 (Set.mem_singleton_iff.mp hxe ▸ hx)
      have ih' := ih (xs ++ [e]) zs hb₁
        (fun x hx => by rw [hkeep x hx]; exact hl x (by simp [hx])) hnd.2
      rw [List.length_append, List.length_singleton] at ih'
      refine ih'.mono ?_
      intro _ s₂ h₂
      obtain ⟨had, f₂⟩ := h₂
      refine ⟨⟨?_, had⟩, (f₁.trans f₂).mono (by simp) ?_⟩
      · rw [f₂.link e.1 hnd.1, hl₁]
      · intro x hx
        rcases hx with rfl | hx
        · simp
        · simp only [Set.mem_ofPred_eq] at hx ⊢
          exact List.mem_cons_of_mem _ hx

/--
One child moves from its slot in `a` to one in `b`: it gets the parent `p` and the index of
its new slot.
-/
theorem moveChild_spec {p : Option Addr} {newParent : ParentPtr P → ParentPtr P} (hab : a ≠ b)
    {n m : InternalNode P B} {xs zs us ws : List (Option Addr)} {y : Addr} {v : Option Addr}
    {k : NodeKind} (hn : s.heap.read a = some (.internal n))
    (hm : s.heap.read b = some (.internal m)) (hnc : n.children.toList = xs ++ some y :: zs)
    (hmc : m.children.toList = us ++ v :: ws) (hk : s.tag y = some k)
    (hq : ∀ q : ParentPtr P, q.kind = k → (newParent q).kind = k ∧ (newParent q).get = p) :
    Returns (do
        let child ← takeChild a xs.length
        modifyPrefix child fun q => { q with parent := newParent q.parent }
        setIndex child us.length
        putChild b us.length child) s (fun _ s' =>
      (∃ q ch, s'.heap.read a = some (.internal { n with nodePrefix := q, children := ch })
        ∧ ch.toList = xs ++ none :: zs)
      ∧ (∃ q ch, s'.heap.read b = some (.internal { m with nodePrefix := q, children := ch })
        ∧ ch.toList = us ++ some y :: ws)
      ∧ s'.link y = some (p, us.length) ∧ Frame s s' {a, b} {y}) := by
  obtain ⟨c, hc, hck⟩ := Option.map_eq_some_iff.mp hk
  simp only [returns_bind]
  -- take the child out of its slot
  refine (takeChild_spec hn hnc).mono ?_
  intro y s₁ h₁
  obtain ⟨rfl, ch₁, hch₁, w₁⟩ := h₁
  have f₁ := Frame.of_body hn w₁ rfl
  obtain ⟨c₁, hc₁, hk₁⟩ := Option.map_eq_some_iff.mp (f₁.tag_eq hk)
  -- give it its new parent
  have hq₁ := hq _ hk₁
  refine (modifyPrefix_spec hc₁ _).mono ?_
  intro _ s₂ w₂
  have f₂ := Frame.of_link hc₁ w₂ (hq₁.1.trans hk₁.symm)
  have hl₂ : s₂.link y = some (p, c₁.nodePrefix.index) := by
    rw [Store.link, w₂.self, Option.map_some, Cell.link, Cell.nodePrefix_mapPrefix, hq₁.2]
  -- and its new index
  refine (setIndex_spec hl₂ us.length).mono ?_
  intro _ s₃ h₃
  obtain ⟨f₃, hl₃⟩ := h₃
  have f₁₃ := (f₁.trans f₂).trans f₃
  obtain ⟨q₂, ha₂⟩ := f₂.read_internal w₁.self (Set.notMem_empty a)
  obtain ⟨q₃, ha₃⟩ := f₃.read_internal ha₂ (Set.notMem_empty a)
  obtain ⟨r₃, hb₃⟩ := f₁₃.read_internal hm (by simpa using hab.symm)
  -- and put it into its new slot
  refine (putChild_spec (n := { m with nodePrefix := r₃ }) y hb₃ hmc).mono ?_
  intro _ s₄ h₄
  obtain ⟨ch₄, hch₄, w₄⟩ := h₄
  have f₄ := Frame.of_body hb₃ w₄ rfl
  refine ⟨⟨q₃, ch₁, (w₄.other a hab).trans ha₃, hch₁⟩, ⟨r₃, ch₄, w₄.self, hch₄⟩, ?_,
    (f₁₃.trans f₄).mono ?_ (by simp)⟩
  · rw [f₄.link y (Set.notMem_empty y), hl₃]
  · intro x hx
    simp only [Set.mem_union, Set.mem_singleton_iff, Set.mem_insert_iff,
      Set.mem_empty_iff_false] at hx ⊢
    tauto

/--
The children `ys` of `a` move to `b`: their slots in `a` are emptied, the slots
`vs` of `b` filled, and each gets the parent `p` and its new slot.
-/
theorem moveChildren_spec {i j : Nat} {p : Option Addr} (newParent : ParentPtr P → ParentPtr P)
    (hab : a ≠ b) : ∀ (ys : List Addr) (d : Nat) (xs us vs zs ws : List (Option Addr))
    {n m : InternalNode P B} {s : Store T P B},
    s.heap.read a = some (.internal n) → s.heap.read b = some (.internal m) →
    n.children.toList = xs ++ ys.map some ++ zs → m.children.toList = us ++ vs ++ ws →
    i + d = xs.length → j + d = us.length → vs.length = ys.length → ys.Nodup →
    (∀ y ∈ ys, ∃ k, s.tag y = some k
      ∧ ∀ q : ParentPtr P, q.kind = k → (newParent q).kind = k ∧ (newParent q).get = p) →
    Returns (forEach (List.range' d ys.length) fun l => do
        let child ← takeChild a (i + l)
        modifyPrefix child fun q => { q with parent := newParent q.parent }
        setIndex child (j + l)
        putChild b (j + l) child) s (fun _ s' =>
      (∃ q ch, s'.heap.read a = some (.internal { n with nodePrefix := q, children := ch })
        ∧ ch.toList = xs ++ List.replicate ys.length none ++ zs)
      ∧ (∃ q ch, s'.heap.read b = some (.internal { m with nodePrefix := q, children := ch })
        ∧ ch.toList = us ++ ys.map some ++ ws)
      ∧ (∀ l y, ys[l]? = some y → s'.link y = some (p, us.length + l))
      ∧ Frame s s' {a, b} {x | x ∈ ys}) := by
  intro ys
  induction ys with
  | nil =>
      intro d xs us vs zs ws n m s hn hm hnc hmc _ _ hv _ _
      rw [List.length_nil, List.length_eq_zero_iff] at hv
      subst hv
      exact ⟨⟨_, _, hn, hnc⟩, ⟨_, _, hm, hmc⟩, fun l y hl => by simp at hl, Frame.refl s _ _⟩
  | cons y ys ih =>
      intro d xs us vs zs ws n m s hn hm hnc hmc hi hj hv hnd ht
      obtain ⟨v, vs, rfl⟩ : ∃ v vs', vs = v :: vs' := by
        cases vs with
        | nil => simp at hv
        | cons v vs => exact ⟨v, vs, rfl⟩
      rw [List.nodup_cons] at hnd
      obtain ⟨k, hk, hq⟩ := ht y List.mem_cons_self
      have hnc' : n.children.toList = xs ++ some y :: (ys.map some ++ zs) := by rw [hnc]; simp
      have hmc' : m.children.toList = us ++ v :: (vs ++ ws) := by rw [hmc]; simp
      have hfirst := moveChild_spec hab hn hm hnc' hmc' hk hq
      rw [List.length_cons, List.range'_succ, forEach, returns_bind, hi, hj]
      refine hfirst.mono ?_
      intro _ s₁ h₁
      obtain ⟨⟨q, ch, ha₁, hch⟩, ⟨r, ch', hb₁, hch'⟩, hl₁, f₁⟩ := h₁
      have htags : ∀ z ∈ ys, ∃ k, s₁.tag z = some k
          ∧ ∀ q : ParentPtr P, q.kind = k → (newParent q).kind = k ∧ (newParent q).get = p := by
        intro z hz
        obtain ⟨k', hk', hq'⟩ := ht z (List.mem_cons_of_mem _ hz)
        exact ⟨k', f₁.tag_eq hk', hq'⟩
      -- the slot emptied in `a` joins `xs`, and the one filled in `b` joins `us`
      have hrest := ih (d + 1) (xs ++ [none]) (us ++ [some y]) vs zs ws ha₁ hb₁
        (by rw [hch]; simp) (by rw [hch']; simp) (by simp; omega) (by simp; omega)
        (by simpa using hv) hnd.2 htags
      refine hrest.mono ?_
      intro _ s₂ h₂
      obtain ⟨⟨qa, cha, hra, hcha⟩, ⟨qb, chb, hrb, hchb⟩, hl₂, f₂⟩ := h₂
      refine ⟨⟨qa, cha, hra, ?_⟩, ⟨qb, chb, hrb, ?_⟩, ?_, (f₁.trans f₂).mono (by simp) ?_⟩
      · rw [hcha, List.replicate_succ]; simp
      · rw [hchb]; simp
      · intro l z hz
        cases l with
        | zero =>
            rw [List.getElem?_cons_zero, Option.some.injEq] at hz
            subst hz
            rw [f₂.link y hnd.1, hl₁]
            rfl
        | succ l =>
            rw [List.getElem?_cons_succ] at hz
            rw [hl₂ l z hz, List.length_append, List.length_singleton]
            congr 2; omega
      · intro x hx
        simp only [Set.mem_union, Set.mem_singleton_iff, Set.mem_ofPred_eq, List.mem_cons] at hx ⊢
        exact hx

/-! ## Inserting, removing, splitting, merging -/

/-- The unused slots of `sizes` are zero, so the sum over all slots is the total. -/
def Clean (s : Store T P B) (a : Addr) : Prop :=
  ∃ n es, s.heap.read a = some (.internal n) ∧ n.Holds es
    ∧ n.sizes.toList = es.map Prod.snd ++ List.replicate (B - es.length) 0

theorem Clean.sizes_eq {n : InternalNode P B} {es : List (Addr × Nat)} (hc : Clean s a)
    (hr : s.heap.read a = some (.internal n)) (hb : s.body a = some (.internal es)) :
    n.sizes.toList = es.map Prod.snd ++ List.replicate (B - es.length) 0 := by
  obtain ⟨m, es', hm, hn, hs⟩ := hc
  rw [hr, Option.some.injEq, Cell.internal.injEq] at hm
  subst hm
  have hes := (Store.body_internal.mpr ⟨n, hr, hn⟩).symm.trans hb
  rw [Option.some.injEq, Body.internal.injEq] at hes
  exact hes ▸ hs

theorem size_spec {es : List (Addr × Nat)} (hb : s.body a = some (.internal es))
    (hc : Clean s a) {Q : Nat → Store T P B → Prop} :
    Returns (size a) s Q ↔ Q (es.map Prod.snd).sum s := by
  obtain ⟨n, hr, _⟩ := Store.body_internal.mp hb
  simp [size, hr, hc.sizes_eq hr hb]

theorem alloc_spec (s : Store T P B) : Returns alloc s (fun new s' => new = s.heap.next
    ∧ s'.heap.read new = some (.internal InternalNode.new)
    ∧ s'.body new = some (.internal []) ∧ s'.link new = some (none, 0)
    ∧ Frame s s' {new} {new} ∧ s'.heap.next = s.heap.next + 1) := by
  refine (allocate_spec s _).mono ?_
  intro new s' h'
  obtain ⟨rfl, hn, ho, hm, hd, hp⟩ := h'
  have hholds : (InternalNode.new : InternalNode P B).Holds [] :=
    ⟨ParentPtr.kind_new _, rfl, rfl, List.replicate B 0, rfl⟩
  refine ⟨rfl, hn, Store.body_internal.mpr ⟨_, hn, hholds⟩, ?_, ?_, hm⟩
  · rw [Store.link, hn, Option.map_some]
    simp [Cell.link, Cell.nodePrefix, InternalNode.new, Prefix.new]
  · refine Frame.of_prefix (fun x hx => ho x hx) (fun x hx => ?_)
      (fun x hx => Nat.le_of_eq hx.symm) (by omega) hd hp
    rw [ho x hx]

/-- `length` is within the array. -/
theorem Holds.length_le {n : InternalNode P B} {es : List (Addr × Nat)} (hn : n.Holds es) :
    es.length ≤ B := by
  obtain ⟨rest, hs⟩ := hn.sizes
  have := Slots.length_add_of_eq hs
  rw [List.length_map] at this
  omega

/-- The array part of `simple_insert`: both arrays are shifted and the gap is filled. -/
theorem Holds.insert {n : InternalNode P B} {xs ys : List (Addr × Nat)} (hn : n.Holds (xs ++ ys))
    (hlt : (xs ++ ys).length < B) (c : Addr) (m : Nat) :
    ∃ ch₁ sz₁ ch₂ sz₂, n.children.rotateRight? xs.length (n.length + 1) = some ch₁
      ∧ n.sizes.rotateRight? xs.length (n.length + 1) = some sz₁
      ∧ ch₁.set? xs.length (some c) = some ch₂ ∧ sz₁.set? xs.length m = some sz₂
      ∧ (∀ p : Prefix P, p.parent.kind = .internal →
        (InternalNode.mk p (n.length + 1) ch₂ sz₂).Holds (xs ++ (c, m) :: ys))
      ∧ (n.sizes.toList = (xs ++ ys).map Prod.snd ++ List.replicate (B - (xs ++ ys).length) 0 →
        sz₂.toList = (xs ++ (c, m) :: ys).map Prod.snd
          ++ List.replicate (B - (xs ++ (c, m) :: ys).length) 0) := by
  have hnl := hn.length
  obtain ⟨k, hk⟩ : ∃ k, B - (xs ++ ys).length = k + 1 := ⟨B - (xs ++ ys).length - 1, by omega⟩
  have hk' : B - (xs ++ (c, m) :: ys).length = k := by
    simp only [List.length_append, List.length_cons] at hk ⊢; omega
  rw [List.length_append] at hnl
  have hn1 : n.length + 1 = xs.length + ys.length + 1 := by omega
  have hch := hn.children
  rw [hk, List.replicate_succ, List.map_append] at hch
  obtain ⟨ch₁, hrot, hch₁⟩ := Slots.rotateRight?_append hch
  -- the free slot at the end comes to lie at the gap
  have hch₁' : ch₁.toList = xs.map (fun e => some e.1)
      ++ none :: (ys.map (fun e => some e.1) ++ List.replicate k none) := by rw [hch₁]; simp
  obtain ⟨ch₂, hset, hch₂⟩ := Slots.set?_append (some c) hch₁'
  obtain ⟨rest, hsz⟩ := hn.sizes
  have hlen := Slots.length_add_of_eq hsz
  rw [List.length_map] at hlen
  -- in `sizes` it may hold anything, being unused
  obtain ⟨r, rest, rfl⟩ : ∃ r rest', rest = r :: rest' := by
    cases rest with
    | nil => rw [List.length_nil] at hlen; omega
    | cons r rest => exact ⟨r, rest, rfl⟩
  rw [List.map_append] at hsz
  obtain ⟨sz₁, hrots, hsz₁⟩ := Slots.rotateRight?_append hsz
  have hsz₁' : sz₁.toList = xs.map Prod.snd ++ r :: (ys.map Prod.snd ++ rest) := by
    rw [hsz₁]; simp
  obtain ⟨sz₂, hsets, hsz₂⟩ := Slots.set?_append m hsz₁'
  rw [List.length_map, List.length_map, ← hn1] at hrot hrots
  rw [List.length_map] at hset hsets
  refine ⟨ch₁, sz₁, ch₂, sz₂, hrot, hrots, hset, hsets, fun p hp => ⟨hp, ?_, ?_, ⟨rest, ?_⟩⟩, ?_⟩
  · simp [hnl]; omega
  · rw [hch₂, hk']; simp
  · rw [hsz₂]; simp
  · intro hclean
    rw [hclean, hk, List.replicate_succ, List.map_append, List.append_assoc, List.append_assoc]
      at hsz
    have hrest := List.append_cancel_left (List.append_cancel_left hsz)
    rw [List.cons.injEq] at hrest
    rw [hsz₂, hk', hrest.2]; simp

theorem simpleInsert_spec {xs ys : List (Addr × Nat)} {c : Addr} {q : Option Addr} {m i : Nat}
    (hb : s.body a = some (.internal (xs ++ ys))) (hlt : (xs ++ ys).length < B)
    (had : Adopted s a 0 (xs ++ ys)) (hl : s.link c = some (q, i))
    (hcn : c ∉ (xs ++ ys).map Prod.fst) :
    Returns (simpleInsert a xs.length (c, m)) s (fun _ s' =>
      s'.body a = some (.internal (xs ++ (c, m) :: ys)) ∧ Adopted s' a 0 (xs ++ (c, m) :: ys)
      ∧ (Clean s a → Clean s' a)
      ∧ Frame s s' {a} {x | x ∈ ((c, m) :: ys).map Prod.fst}) := by
  have hnd := had.nodup
  rw [List.map_append, List.mem_append, not_or] at hcn
  rw [List.map_append, List.nodup_append] at hnd
  obtain ⟨n, hr, hn⟩ := Store.body_internal.mp hb
  have hnl := hn.length
  rw [List.length_append] at hnl
  obtain ⟨ch₁, sz₁, ch₂, sz₂, hrot, hrots, hset, hsets, hholds, hclean⟩ := hn.insert hlt c m
  unfold simpleInsert
  simp only [returns_bind, returns_derefInternal, returns_check, returns_orFault]
  refine ⟨n, hr, by rw [hn.length]; exact hlt, (setIndex_spec hl xs.length).mono ?_⟩
  intro _ s₁ h₁
  obtain ⟨f₁, hl₁⟩ := h₁
  refine (setParent_spec hl₁ (some a)).mono ?_
  intro _ s₂ h₂
  obtain ⟨f₂, hl₂⟩ := h₂
  have f₁₂ := f₁.trans f₂
  obtain ⟨p, hr₂⟩ := f₁₂.read_internal hr (by simp)
  have hp : p.parent.kind = .internal := (f₁₂.kind_eq hr hr₂).trans hn.kind
  refine ⟨_, hr₂, ch₁, hrot, sz₁, hrots, ch₂, hset, sz₂, hsets, (modifyInternal_spec hr₂ _).mono ?_⟩
  intro _ s₃ w₃
  obtain ⟨hb₃, f₃⟩ := wrote_spec hr₂ w₃ rfl (hholds p hp)
  have f₁₃ := f₁₂.trans f₃
  -- the children to the right have moved up a slot
  have hloop := reindex_spec (a := a) ys (xs ++ [(c, m)]) [] (s := s₃) (by rw [hb₃]; simp)
    (fun x hx => by
      have hxc : x ≠ c := fun he => hcn.2 (he ▸ hx)
      obtain ⟨j, _, hj⟩ := had.link_of_mem (x := x) (by simp [hx])
      refine ⟨j, ?_⟩
      rw [f₁₃.link x (by simp [hxc]), hj]) hnd.2.1
  rw [List.length_append, List.length_singleton] at hloop
  rw [show n.length - xs.length = ys.length by omega]
  refine hloop.mono ?_
  intro _ s₄ h₄
  obtain ⟨had₄, f₄⟩ := h₄
  have f₁₄ := f₁₃.trans f₄
  have hb₄ : s₄.body a = some (.internal (xs ++ (c, m) :: ys)) := by
    rw [f₄.body a (Set.notMem_empty a), hb₃]
  refine ⟨hb₄, ?_, ?_, f₁₄.mono (by simp) ?_⟩
  · rw [Adopted.append]
    refine ⟨(Adopted.append.mp had).1.congr fun e he => ?_, ?_, by simpa using had₄⟩
    · have hemem : e.1 ∈ xs.map Prod.fst := List.mem_map_of_mem he
      have hec : e.1 ≠ c := fun h => hcn.1 (h ▸ hemem)
      have hey : e.1 ∉ ys.map Prod.fst := fun h => hnd.2.2 _ hemem _ h rfl
      rw [f₁₄.link]
      simp only [Set.mem_union, Set.mem_singleton_iff, Set.mem_empty_iff_false,
        Set.mem_ofPred_eq, or_false, or_self, not_or]
      exact ⟨hec, hey⟩
    · rw [f₄.link c hcn.2, f₃.link c (Set.notMem_empty c), hl₂, Nat.zero_add]
  · intro h
    obtain ⟨p₄, hr₄⟩ := f₄.read_internal w₃.self (Set.notMem_empty a)
    exact ⟨_, _, hr₄, holds_of_body hr₄ hb₄, hclean (h.sizes_eq hr hb)⟩
  · intro x hx
    simp only [Set.mem_union, Set.mem_singleton_iff, Set.mem_empty_iff_false, or_false, or_self,
      Set.mem_ofPred_eq, List.map_cons, List.mem_cons] at hx ⊢
    exact hx

/-- The array part of `simple_remove`: both arrays are shifted, the child ending up last. -/
theorem Holds.rotate {n : InternalNode P B} {xs ys : List (Addr × Nat)} {e : Addr × Nat}
    (hn : n.Holds (xs ++ e :: ys)) :
    ∃ ch sz, n.children.rotateLeft? xs.length n.length = some ch
      ∧ n.sizes.rotateLeft? xs.length n.length = some sz
      ∧ ({ n with children := ch, sizes := sz } : InternalNode P B).Holds (xs ++ ys ++ [e]) := by
  have hn1 : n.length = xs.length + ys.length + 1 := by
    rw [hn.length, List.length_append, List.length_cons]; omega
  have hlen : (xs ++ ys ++ [e]).length = (xs ++ e :: ys).length := by
    simp only [List.length_append, List.length_cons, List.length_nil]; omega
  have hch := hn.children
  have hch' : n.children.toList
      = xs.map (fun e => some e.1) ++ some e.1 :: ys.map (fun e => some e.1)
      ++ List.replicate (B - (xs ++ e :: ys).length) none := by rw [hch]; simp
  obtain ⟨ch, hrot, hch₁⟩ := Slots.rotateLeft?_append hch'
  obtain ⟨rest, hsz⟩ := hn.sizes
  have hsz' : n.sizes.toList = xs.map Prod.snd ++ e.2 :: ys.map Prod.snd ++ rest := by
    rw [hsz]; simp
  obtain ⟨sz, hrots, hsz₁⟩ := Slots.rotateLeft?_append hsz'
  rw [List.length_map, List.length_map, ← hn1] at hrot hrots
  refine ⟨ch, sz, hrot, hrots, hn.kind, ?_, ?_, ⟨rest, ?_⟩⟩
  · rw [hlen]; exact hn.length
  · rw [hlen, hch₁]; simp
  · rw [hsz₁]; simp

/-- Dropping the last child, once its slots have been emptied. -/
theorem Holds.dropLast {p : Prefix P} {ch : Slots (Option Addr) B} {sz : Slots Nat B}
    {es : List (Addr × Nat)} {e : Addr × Nat} {l : Nat}
    (hn : (InternalNode.mk p (l + 1) ch sz).Holds (es ++ [e])) {ch' : Slots (Option Addr) B}
    {sz' : Slots Nat B} {rest : List Nat}
    (hch : ch'.toList = es.map (fun e => some e.1) ++ none :: List.replicate (B - (l + 1)) none)
    (hsz : sz'.toList = es.map Prod.snd ++ rest) :
    (InternalNode.mk p l ch' sz').Holds es := by
  have hl : l + 1 = es.length + 1 := by
    have := hn.length
    rwa [List.length_append, List.length_singleton] at this
  have hle := hn.length_le
  rw [List.length_append, List.length_singleton] at hle
  refine ⟨hn.kind, by show l = es.length; omega, ?_, ⟨rest, hsz⟩⟩
  show ch'.toList = _
  rw [hch, hl, ← List.replicate_succ]
  congr 2; omega

/-- The end of `simple_remove`: the last child is taken out and loses its parent. -/
theorem takeLast_spec {es : List (Addr × Nat)} {c : Addr} {m l i : Nat} {q : Option Addr}
    (hb : s.body a = some (.internal (es ++ [(c, m)]))) (hl : s.link c = some (q, i))
    (hlen : l = es.length) :
    Returns (do
        let child ← takeChild a l
        let size ← replaceSize a l 0
        setParent child none
        setIndex child 0
        modifyInternal a fun n => { n with length := n.length - 1 }
        return (child, size)) s (fun r s' => r = (c, m) ∧ s'.body a = some (.internal es)
      ∧ s'.link c = some (none, 0) ∧ Frame s s' {a} {c}) := by
  subst hlen
  obtain ⟨n, hr, hn⟩ := Store.body_internal.mp hb
  have hnl : n.length = es.length + 1 := by
    rw [hn.length, List.length_append, List.length_singleton]
  obtain ⟨rest, hsz⟩ := hn.sizes
  have hch₀ : n.children.toList = es.map (fun e => some e.1)
      ++ some c :: List.replicate (B - (es.length + 1)) none := by
    rw [hn.children]; simp
  have hsz₀ : n.sizes.toList = es.map Prod.snd ++ m :: rest := by rw [hsz]; simp
  -- empty the slot in both arrays
  have htake := takeChild_spec hr hch₀
  obtain ⟨sz, hset, hsz₁⟩ := Slots.set?_append 0 hsz₀
  have hget := Slots.get?_append hsz₀
  rw [List.length_map] at htake hset hget
  unfold replaceSize
  simp only [returns_bind, returns_derefInternal, returns_orFault, returns_pure]
  refine htake.mono ?_
  intro c s₁ h₁
  obtain ⟨rfl, ch, hch, w₁⟩ := h₁
  refine ⟨_, w₁.self, m, hget, sz, hset, (modifyInternal_spec w₁.self _).mono ?_⟩
  intro _ s₂ w₂
  have f₁₂ := (Frame.of_body hr w₁ rfl).trans (Frame.of_body w₁.self w₂ rfl)
  -- detach the child
  have hl₂ : s₂.link c = some (q, i) := by rw [f₁₂.link c (by simp), hl]
  refine (setParent_spec hl₂ none).mono ?_
  intro _ s₃ h₃
  obtain ⟨f₃, hl₃⟩ := h₃
  refine (setIndex_spec hl₃ 0).mono ?_
  intro _ s₄ h₄
  obtain ⟨f₄, hl₄⟩ := h₄
  obtain ⟨p, hr₄⟩ := (f₃.trans f₄).read_internal w₂.self (by simp)
  have f₁₄ := (f₁₂.trans f₃).trans f₄
  have hp : p.parent.kind = .internal := (f₁₄.kind_eq hr hr₄).trans hn.kind
  have hlast : (InternalNode.mk p (es.length + 1) n.children n.sizes).Holds (es ++ [(c, m)]) :=
    ⟨hp, by simp, hn.children, hn.sizes⟩
  refine (modifyInternal_spec hr₄ _).mono ?_
  intro _ s₅ w₅
  rw [show n.length - 1 = es.length by omega] at w₅
  obtain ⟨hb₅, f₅⟩ := wrote_spec hr₄ w₅ rfl (hlast.dropLast hch hsz₁)
  refine ⟨rfl, hb₅, ?_, (f₁₄.trans f₅).mono (by simp) (by simp)⟩
  rw [f₅.link c (Set.notMem_empty c), hl₄]

theorem simpleRemove_spec {xs ys : List (Addr × Nat)} {c : Addr} {m : Nat}
    (hb : s.body a = some (.internal (xs ++ (c, m) :: ys)))
    (had : Adopted s a 0 (xs ++ (c, m) :: ys)) :
    Returns (simpleRemove a xs.length) s (fun r s' => r = (c, m)
      ∧ s'.body a = some (.internal (xs ++ ys)) ∧ Adopted s' a 0 (xs ++ ys)
      ∧ s'.link c = some (none, 0)
      ∧ Frame s s' {a} {x | x ∈ ((c, m) :: ys).map Prod.fst}) := by
  have hnd := had.nodup
  rw [List.map_append, List.map_cons, List.nodup_append, List.nodup_cons] at hnd
  obtain ⟨_, ⟨hcy, hndy⟩, hdisj⟩ := hnd
  obtain ⟨n, hr, hn⟩ := Store.body_internal.mp hb
  have hnl : n.length = xs.length + ys.length + 1 := by
    rw [hn.length, List.length_append, List.length_cons, Nat.add_assoc]
  obtain ⟨ch, sz, hrot, hrots, hholds⟩ := hn.rotate
  unfold simpleRemove
  rw [returns_bind, returns_derefInternal]
  refine ⟨n, hr, ?_⟩
  rw [returns_bind, returns_check]
  refine ⟨by omega, ?_⟩
  rw [returns_bind, returns_orFault]
  refine ⟨ch, hrot, ?_⟩
  rw [returns_bind, returns_orFault]
  refine ⟨sz, hrots, ?_⟩
  rw [returns_bind]
  refine (modifyInternal_spec hr _).mono ?_
  intro _ s₁ w₁
  obtain ⟨hb₁, f₁⟩ := wrote_spec hr w₁ rfl hholds
  -- the children to the right have moved down a slot
  have hloop := reindex_spec (a := a) ys xs [(c, m)] (s := s₁) (by rw [hb₁])
    (fun x hx => by
      obtain ⟨j, _, hj⟩ := had.link_of_mem (x := x) (by simp at hx ⊢; tauto)
      exact ⟨j, by rw [f₁.link x (Set.notMem_empty x), hj]⟩) hndy
  rw [show n.length - 1 - xs.length = ys.length by omega, returns_bind]
  refine hloop.mono ?_
  intro _ s₂ h₂
  obtain ⟨had₂, f₂⟩ := h₂
  have f₁₂ := f₁.trans f₂
  have hb₂ : s₂.body a = some (.internal (xs ++ ys ++ [(c, m)])) := by
    rw [f₂.body a (Set.notMem_empty a), hb₁]
  have hl₂ : s₂.link c = some (some a, 0 + xs.length) := by
    rw [f₁₂.link c (by simpa using hcy), (Adopted.append.mp had).2.1]
  refine (takeLast_spec hb₂ hl₂ (by rw [List.length_append]; omega)).mono ?_
  intro r s₃ h₃
  obtain ⟨rfl, hb₃, hl₃, f₃⟩ := h₃
  have f := f₁₂.trans f₃
  refine ⟨rfl, hb₃, ?_, hl₃, f.mono (by simp) ?_⟩
  · rw [Adopted.append, Nat.zero_add]
    refine ⟨(Adopted.append.mp had).1.congr fun e he => ?_, had₂.congr fun e he => ?_⟩
    · have hemem : e.1 ∈ xs.map Prod.fst := List.mem_map_of_mem he
      have hec : e.1 ≠ c := hdisj _ hemem _ List.mem_cons_self
      have hey : e.1 ∉ ys.map Prod.fst := fun hy =>
        hdisj _ hemem _ (List.mem_cons_of_mem _ hy) rfl
      refine f.link e.1 ?_
      simp only [Set.mem_union, Set.mem_empty_iff_false, Set.mem_singleton_iff, Set.mem_ofPred_eq,
        false_or, not_or]
      exact ⟨hey, hec⟩
    · have hemem : e.1 ∈ ys.map Prod.fst := List.mem_map_of_mem he
      exact f₃.link e.1 fun hec => hcy (Set.mem_singleton_iff.mp hec ▸ hemem)
  · intro x hx
    simp only [Set.mem_union, Set.mem_singleton_iff, Set.mem_empty_iff_false, false_or,
      Set.mem_ofPred_eq, List.map_cons, List.mem_cons] at hx ⊢
    exact hx.symm

omit [TaggedPtr P] in
/-- The window `ys` of the sizes of `a` lands on the window `vs` of the sizes of `b`. -/
theorem copySizes_spec {n m : InternalNode P B} {xs ys zs us vs ws : List Nat}
    (ha : s.heap.read a = some (.internal n)) (hb : s.heap.read b = some (.internal m))
    (hn : n.sizes.toList = xs ++ ys ++ zs) (hm : m.sizes.toList = us ++ vs ++ ws)
    (hl : ys.length = vs.length) :
    Returns (copySizes a xs.length b us.length ys.length : Exec T P B Unit) s (fun _ s' =>
      ∃ v : Slots Nat B, v.toList = us ++ ys ++ ws
        ∧ Store.Wrote s s' b (.internal { m with sizes := v })) := by
  obtain ⟨v, hcopy, hv⟩ := Slots.copyFrom?_append ys hm hl
  unfold copySizes
  simp only [returns_bind, returns_derefInternal, returns_orFault]
  refine ⟨n, ha, ys, Slots.slice?_append hn, m, hb, v, hcopy, (modifyInternal_spec hb _).mono ?_⟩
  intro _ s' w
  exact ⟨v, hv, w⟩

/--
The children `es` at the end of `a` move to the end of `b`, with their sizes. What is left
to do is to set the lengths of the two.
-/
theorem handOver_spec (newParent : ParentPtr P → ParentPtr P) (hab : a ≠ b)
    {n m : InternalNode P B} (xs us es : List (Addr × Nat))
    (hra : s.heap.read a = some (.internal n)) (hrb : s.heap.read b = some (.internal m))
    (hn : n.Holds (xs ++ es)) (hm : m.Holds us) (hroom : us.length + es.length ≤ B)
    (hnd : (es.map Prod.fst).Nodup)
    (ht : ∀ y ∈ es.map Prod.fst, ∃ k, s.tag y = some k
      ∧ ∀ q : ParentPtr P, q.kind = k → (newParent q).kind = k ∧ (newParent q).get = some b) :
    Returns (do
        copySizes a xs.length b us.length es.length
        moveChildren a xs.length b us.length es.length newParent) s (fun _ s' =>
      ∃ n' m', s'.heap.read a = some (.internal n') ∧ s'.heap.read b = some (.internal m')
        ∧ ({ n' with length := xs.length } : InternalNode P B).Holds xs
        ∧ m'.length = us.length
        ∧ ({ m' with length := us.length + es.length } : InternalNode P B).Holds (us ++ es)
        ∧ (m.sizes.toList = us.map Prod.snd ++ List.replicate (B - us.length) 0 →
          m'.sizes.toList
            = (us ++ es).map Prod.snd ++ List.replicate (B - (us ++ es).length) 0)
        ∧ Adopted s' b us.length es ∧ Frame s s' {a, b} {x | x ∈ es.map Prod.fst}) := by
  have hroom' : B - us.length = es.length + (B - (us ++ es).length) := by
    rw [List.length_append]; omega
  -- the arrays of the two records
  have hnc : n.children.toList = xs.map (fun e => some e.1) ++ (es.map Prod.fst).map some
      ++ List.replicate (B - (xs ++ es).length) none := by
    rw [hn.children]; simp
  have hmc : m.children.toList = us.map (fun e => some e.1) ++ List.replicate es.length none
      ++ List.replicate (B - (us ++ es).length) none := by
    rw [hm.children, hroom', ← List.replicate_append_replicate, List.append_assoc]
  obtain ⟨restn, hszn⟩ := hn.sizes
  rw [List.map_append] at hszn
  obtain ⟨restm, hszm⟩ := hm.sizes
  have hlenm := Slots.length_add_of_eq hszm
  rw [List.length_map] at hlenm
  have hszm' : m.sizes.toList
      = us.map Prod.snd ++ restm.take es.length ++ restm.drop es.length := by
    rw [hszm, List.append_assoc, List.take_append_drop]
  have hcopy := copySizes_spec hra hrb hszn hszm' (by simp; omega)
  rw [List.length_map, List.length_map, List.length_map] at hcopy
  rw [returns_bind]
  refine hcopy.mono ?_
  intro _ s₁ h₁
  obtain ⟨v, hv, w₁⟩ := h₁
  have f₁ := Frame.of_body hrb w₁ rfl
  have htags : ∀ y ∈ es.map Prod.fst, ∃ k, s₁.tag y = some k
      ∧ ∀ q : ParentPtr P, q.kind = k → (newParent q).kind = k ∧ (newParent q).get = some b := by
    intro y hy
    obtain ⟨k, hk, hq⟩ := ht y hy
    exact ⟨k, f₁.tag_eq hk, hq⟩
  have hmove := moveChildren_spec (i := xs.length) (j := us.length) newParent hab
    (es.map Prod.fst) 0 _ _ _ _ _ ((w₁.other a hab).trans hra) w₁.self hnc hmc (by simp) (by simp)
    (by simp) hnd htags
  rw [List.length_map] at hmove
  rw [moveChildren, List.range_eq_range']
  refine hmove.mono ?_
  intro _ s₂ h₂
  obtain ⟨⟨qa, ca, hra₂, hca⟩, ⟨qb, cb, hrb₂, hcb⟩, hl₂, f₂⟩ := h₂
  have f := f₁.trans f₂
  have hka : qa.parent.kind = .internal := (f.kind_eq hra hra₂).trans hn.kind
  have hkb : qb.parent.kind = .internal := (f.kind_eq hrb hrb₂).trans hm.kind
  refine ⟨_, _, hra₂, hrb₂, ⟨hka, rfl, ?_, _, hszn.trans (List.append_assoc _ _ _)⟩, hm.length,
    ⟨hkb, List.length_append.symm, ?_, restm.drop es.length, ?_⟩, ?_, ?_, f.mono ?_ (by simp)⟩
  · have hle := hn.length_le
    rw [List.length_append] at hle
    rw [hca, List.append_assoc, List.replicate_append_replicate, List.length_append]
    congr 2; omega
  · rw [hcb, List.map_map, List.map_append]; rfl
  · rw [hv, List.map_append]
  · intro hclean
    rw [hclean] at hszm
    have hrest := List.append_cancel_left hszm
    rw [hv, ← hrest, List.map_append, List.drop_replicate, hroom', Nat.add_sub_cancel_left]
  · refine Adopted.of_get fun i x hx => ?_
    rw [hl₂ i x hx, List.length_map]
  · intro x hx
    simp only [Set.mem_union, Set.mem_singleton_iff, Set.mem_insert_iff] at hx ⊢
    tauto

theorem split_spec {strategy : SplitStrategy} {xs ys : List (Addr × Nat)}
    (hb : s.body a = some (.internal (xs ++ ys))) (had : Adopted s a 0 (xs ++ ys))
    (hx : xs.length = (strategy.sizes B).1) (hy : ys.length = (strategy.sizes B).2)
    (hlen : (xs ++ ys).length = B) :
    Returns (split a strategy) s (fun new s' => new = s.heap.next
      ∧ s'.body a = some (.internal xs) ∧ Adopted s' a 0 xs
      ∧ s'.body new = some (.internal ys) ∧ Adopted s' new 0 ys ∧ Clean s' new
      ∧ s'.link new = some (none, 0)
      ∧ Frame s s' {a, s.heap.next} ({s.heap.next} ∪ {x | x ∈ ys.map Prod.fst})) := by
  obtain ⟨n, hr, hn⟩ := Store.body_internal.mp hb
  have hne : a ≠ s.heap.next := Nat.ne_of_lt (Heap.lt_next_of_read hr)
  have hnd := had.nodup
  rw [List.map_append, List.nodup_append] at hnd
  -- nodes that are linked were there before
  have hold : ∀ x ∈ (xs ++ ys).map Prod.fst, x ≠ s.heap.next := fun x hx => by
    obtain ⟨i, _, hi⟩ := had.link_of_mem hx
    exact Nat.ne_of_lt (Store.lt_next_of_link hi)
  rw [List.map_append] at hold
  unfold split
  simp only [← hx, ← hy, returns_bind, returns_derefInternal, returns_check]
  refine ⟨n, hr, hn.length.trans hlen, (alloc_spec s).mono ?_⟩
  intro _ s₁ h₁
  obtain ⟨rfl, hn₁, hb₁, hl₁, f₁, _⟩ := h₁
  have htags : ∀ y ∈ ys.map Prod.fst, ∃ k, s₁.tag y = some k ∧ ∀ q : ParentPtr P, q.kind = k →
      (q.set (some s.heap.next)).kind = k ∧ (q.set (some s.heap.next)).get = some s.heap.next := by
    intro y hmem
    obtain ⟨i, _, hi⟩ := (Adopted.append.mp had).2.link_of_mem hmem
    obtain ⟨c, hc, _⟩ := Option.map_eq_some_iff.mp hi
    refine ⟨c.nodePrefix.parent.kind, f₁.tag_eq ?_, fun q hq => ⟨by rw [ParentPtr.kind_set, hq],
      ParentPtr.get_set q _⟩⟩
    rw [Store.tag, hc]; rfl
  rw [List.length_append] at hlen
  have hover := handOver_spec _ hne xs [] ys ((f₁.read a hne hne).trans hr) hn₁ hn
    (holds_of_body hn₁ hb₁) (by rw [List.length_nil]; omega) hnd.2.1 htags
  rw [returns_bind] at hover
  refine hover.mono ?_
  intro _ s₂ h₂
  refine Returns.mono h₂ ?_
  intro _ s₃ h₃
  obtain ⟨n₃, m₃, hra₃, hrb₃, hn₃, _, hm₃, hclean, had₃, f₃⟩ := h₃
  rw [List.length_nil, Nat.zero_add, List.nil_append] at hm₃
  refine (modifyInternal_spec hra₃ _).mono ?_
  intro _ s₄ w₄
  obtain ⟨hb₄, f₄⟩ := wrote_spec hra₃ w₄ rfl hn₃
  have hrb₄ := (w₄.other _ hne.symm).trans hrb₃
  refine (modifyInternal_spec hrb₄ _).mono ?_
  intro _ s₅ w₅
  obtain ⟨hb₅, f₅⟩ := wrote_spec hrb₄ w₅ rfl hm₃
  have f₃₅ := (f₃.trans f₄).trans f₅
  have f := f₁.trans f₃₅
  rw [returns_pure]
  refine ⟨rfl, ?_, ?_, hb₅, ?_, ⟨_, ys, w₅.self, hm₃, ?_⟩, ?_, f.mono ?_ ?_⟩
  · rw [f₅.body a hne, hb₄]
  · refine (Adopted.append.mp had).1.congr fun e he => f.link _ ?_
    have hemem : e.1 ∈ xs.map Prod.fst := List.mem_map_of_mem he
    simp only [Set.mem_union, Set.mem_singleton_iff, Set.mem_ofPred_eq, Set.mem_empty_iff_false,
      or_false, not_or]
    exact ⟨hold _ (List.mem_append_left _ hemem), fun h => hnd.2.2 _ hemem _ h rfl⟩
  · refine had₃.congr fun e _ => ?_
    rw [f₅.link _ (Set.notMem_empty _), f₄.link _ (Set.notMem_empty _)]
  · exact hclean rfl
  · rw [f₃₅.link, hl₁]
    have hfresh : s.heap.next ∉ ys.map Prod.fst := fun h =>
      hold _ (List.mem_append_right _ h) rfl
    simpa using hfresh
  · intro x hx
    simp only [Set.mem_union, Set.mem_insert_iff, Set.mem_singleton_iff] at hx ⊢
    tauto
  · intro x hx
    simp only [Set.mem_union, Set.mem_singleton_iff, Set.mem_empty_iff_false, Set.mem_ofPred_eq,
      or_false] at hx ⊢
    exact hx

/--
The children of `b` are appended to those of `a`. The parent they get is copied from
the first child of `a`, tag included, so all of them must be of the kind of that one.
-/
theorem merge_spec {x : Addr × Nat} {xs ys : List (Addr × Nat)} {k : NodeKind} (hab : a ≠ b)
    (ha : s.body a = some (.internal (x :: xs))) (hb : s.body b = some (.internal ys))
    (hada : Adopted s a 0 (x :: xs)) (hadb : Adopted s b 0 ys)
    (hx : (x :: xs).length ≤ B / 2) (hy : ys.length ≤ B / 2)
    (hk : ∀ y ∈ (x :: ys).map Prod.fst, s.tag y = some k) :
    Returns (merge a b) s (fun _ s' => s'.body a = some (.internal (x :: xs ++ ys))
      ∧ Adopted s' a 0 (x :: xs ++ ys) ∧ s'.body b = some (.internal [])
      ∧ Frame s s' {a, b} {y | y ∈ ys.map Prod.fst}) := by
  obtain ⟨n, hra, hn⟩ := Store.body_internal.mp ha
  obtain ⟨m, hrb, hm⟩ := Store.body_internal.mp hb
  -- the parent pointer that is handed on
  obtain ⟨c, hrc, hlc⟩ := Option.map_eq_some_iff.mp hada.1
  have hck : c.nodePrefix.parent.kind = k := by
    have := hk x.1 (by simp)
    rw [Store.tag, hrc] at this
    exact Option.some.inj this
  have hcp : c.nodePrefix.parent.get = some a := congrArg Prod.fst hlc
  have hover := handOver_spec (fun _ => c.nodePrefix.parent) hab.symm [] (x :: xs) ys
    hrb hra hm hn (by omega) hadb.nodup
    fun y hmem => ⟨k, hk y (List.mem_cons_of_mem _ hmem), fun _ _ => ⟨hck, hcp⟩⟩
  rw [returns_bind] at hover
  unfold merge
  simp only [returns_bind, returns_derefInternal, returns_check, returns_derefPrefix]
  refine ⟨n, hra, by rw [hn.length]; exact hx, m, hrb, by rw [hm.length]; exact hy, ?_⟩
  refine (child_spec (show s.body a = some (.internal ([] ++ x :: xs)) from ha)).mpr
    ⟨c, hrc, m, hrb, ?_⟩
  rw [hn.length, hm.length]
  refine hover.mono ?_
  intro _ s₁ h₁
  refine Returns.mono h₁ ?_
  intro _ s₂ h₂
  obtain ⟨m₂, n₂, hrb₂, hra₂, hm₂, hlen₂, hn₂, _, had₂, f₂⟩ := h₂
  rw [← hlen₂] at hn₂
  refine (modifyInternal_spec hra₂ _).mono ?_
  intro _ s₃ w₃
  obtain ⟨hb₃, f₃⟩ := wrote_spec hra₂ w₃ rfl hn₂
  have hrb₃ := (w₃.other b hab.symm).trans hrb₂
  refine (modifyInternal_spec hrb₃ _).mono ?_
  intro _ s₄ w₄
  obtain ⟨hb₄, f₄⟩ := wrote_spec hrb₃ w₄ rfl hm₂
  have f := (f₂.trans f₃).trans f₄
  refine ⟨?_, ?_, hb₄, f.mono ?_ (by simp)⟩
  · rw [f₄.body a hab, hb₃]
  · rw [Adopted.append, Nat.zero_add]
    refine ⟨hada.congr fun e he => ?_, had₂.congr fun e _ => ?_⟩
    · -- a node in a slot of `a` is not in one of `b`
      have hey : e.1 ∉ ys.map Prod.fst := fun hmem => by
        obtain ⟨i, _, hi⟩ := hada.link_of_mem (x := e.1) (List.mem_map_of_mem he)
        obtain ⟨j, _, hj⟩ := hadb.link_of_mem hmem
        rw [hi, Option.some.injEq, Prod.mk.injEq, Option.some.injEq] at hj
        exact hab hj.1
      exact f.link e.1 (by simpa using hey)
    · rw [f₄.link _ (Set.notMem_empty _), f₃.link _ (Set.notMem_empty _)]
  · intro y hy'
    simp only [Set.mem_union, Set.mem_insert_iff, Set.mem_singleton_iff] at hy' ⊢
    tauto

end InternalNode

end BTreeVec
