import BTreeVec.Proof.View

/-!
# What the leaf methods do

One specification for each method of `LeafNode`, in terms of bodies and links. A
leaf's contents are written as `xs ++ ys`, with the position of interest between
the two, so that the result of a method is again a concatenation.
-/

namespace BTreeVec.LeafNode

open Prog

variable {T P : Type} {B : Nat} [TaggedPtr P] {s s' : Store T P B} {a b : Addr}

/-- A leaf record was written: the body is what the new record holds. -/
theorem wrote_spec {n n' : LeafNode T P B} {xs : List T} {nx : Option Addr}
    (hr : s.heap.read a = some (.leaf n)) (w : Store.Wrote s s' a (.leaf n'))
    (hp : n'.nodePrefix = n.nodePrefix) (hn : n'.Holds xs nx) :
    s'.body a = some (.leaf xs nx) ∧ Frame s s' {a} ∅ :=
  ⟨Store.body_leaf.mpr ⟨n', w.self, hn⟩, Frame.of_body hr w hp⟩

theorem alloc_spec (s : Store T P B) : Returns alloc s (fun new s' => new = s.heap.next
    ∧ s'.heap.read new = some (.leaf LeafNode.new)
    ∧ s'.body new = some (.leaf [] none) ∧ s'.link new = some (none, 0)
    ∧ Frame s s' {new} {new} ∧ s'.heap.next = s.heap.next + 1) := by
  refine (allocate_spec s _).mono ?_
  intro new s' h'
  obtain ⟨rfl, hn, ho, hm, hd, hp⟩ := h'
  have hholds : (LeafNode.new : LeafNode T P B).Holds [] none :=
    ⟨ParentPtr.kind_new _, rfl, ⟨List.replicate B none, rfl⟩, rfl⟩
  refine ⟨rfl, hn, Store.body_leaf.mpr ⟨_, hn, hholds⟩, ?_, ?_, hm⟩
  · rw [Store.link, hn, Option.map_some]
    simp [Cell.link, Cell.nodePrefix, LeafNode.new, Prefix.new]
  · refine Frame.of_prefix (fun x hx => ho x hx) (fun x hx => ?_)
      (fun x hx => Nat.le_of_eq hx.symm) (by omega) hd hp
    rw [ho x hx]

theorem simpleInsert_spec {xs ys : List T} {nx : Option Addr} (x : T)
    (hb : s.body a = some (.leaf (xs ++ ys) nx)) (hlt : (xs ++ ys).length < B) :
    Returns (simpleInsert a xs.length x) s (fun _ s' =>
      s'.body a = some (.leaf (xs ++ x :: ys) nx) ∧ Frame s s' {a} ∅) := by
  obtain ⟨n, hr, hn⟩ := Store.body_leaf.mp hb
  obtain ⟨rest, hc⟩ := hn.children
  have hlen := Slots.length_add_of_eq hc
  rw [List.length_map] at hlen
  -- the slot past the length that is rotated to the front
  obtain ⟨r, rest, rfl⟩ : ∃ r rest', rest = r :: rest' := by
    cases rest with
    | nil => rw [List.length_nil] at hlen; omega
    | cons r rest => exact ⟨r, rest, rfl⟩
  rw [List.map_append] at hc
  obtain ⟨c₁, hrot, hc₁⟩ := Slots.rotateRight?_append hc
  have hc₁' : c₁.toList = xs.map some ++ r :: (ys.map some ++ rest) := by rw [hc₁]; simp
  obtain ⟨c₂, hset, hc₂⟩ := Slots.set?_append (some x) hc₁'
  have hn1 : n.length + 1 = (xs.map some).length + (ys.map some).length + 1 := by
    rw [hn.length]; simp
  rw [List.length_map] at hset
  rw [← hn1, List.length_map] at hrot
  unfold simpleInsert
  simp only [returns_bind, returns_derefLeaf, returns_orFault]
  refine ⟨n, hr, c₁, hrot, c₂, hset, (modifyLeaf_spec hr _).mono ?_⟩
  intro _ s' w
  refine wrote_spec hr w rfl ⟨hn.kind, ?_, ⟨rest, ?_⟩, hn.next⟩
  · simp [hn.length]; omega
  · simp [hc₂]

theorem simpleRemove_spec {xs ys : List T} {x : T} {nx : Option Addr}
    (hb : s.body a = some (.leaf (xs ++ x :: ys) nx)) :
    Returns (simpleRemove a xs.length) s (fun r s' =>
      r = x ∧ s'.body a = some (.leaf (xs ++ ys) nx) ∧ Frame s s' {a} ∅) := by
  obtain ⟨n, hr, hn⟩ := Store.body_leaf.mp hb
  obtain ⟨rest, hc⟩ := hn.children
  have hc' : n.children.toList = xs.map some ++ some x :: ys.map some ++ rest := by
    rw [hc]; simp
  obtain ⟨c₁, hrot, hc₁⟩ := Slots.rotateLeft?_append hc'
  have hn1 : n.length = (xs.map some).length + (ys.map some).length + 1 := by
    rw [hn.length]; simp; omega
  have hn2 : n.length - 1 = (xs.map some ++ ys.map some).length := by
    rw [hn1]; simp
  have hget := Slots.get?_append hc₁
  obtain ⟨c₂, hset, hc₂⟩ := Slots.set?_append none hc₁
  rw [← hn1, List.length_map] at hrot
  rw [← hn2] at hget hset
  unfold simpleRemove
  simp only [returns_bind, returns_derefLeaf, returns_check, returns_orFault]
  refine ⟨n, hr, by omega, c₁, hrot, some x, hget, c₂, hset, (modifyLeaf_spec hr _).mono ?_⟩
  intro _ s' w
  refine ⟨x, rfl, rfl, wrote_spec hr w rfl ⟨hn.kind, ?_, ⟨none :: rest, ?_⟩, hn.next⟩⟩
  · simp [hn2]
  · simp [hc₂]

theorem child_spec {xs : List T} {nx : Option Addr} {i : Nat} {x : T}
    (hb : s.body a = some (.leaf xs nx)) (hi : xs[i]? = some x) {Q : T → Store T P B → Prop} :
    Returns (child a i) s Q ↔ Q x s := by
  obtain ⟨n, hr, hn⟩ := Store.body_leaf.mp hb
  obtain ⟨rest, hc⟩ := hn.children
  have hsl : n.children.slice? 0 n.length = some (xs.map some) := by
    have := Slots.slice?_prefix hc
    rwa [List.length_map, ← hn.length] at this
  simp [child, hr, hsl, hi]

/-- The item that is overwritten is dropped. -/
theorem setChild_spec {xs ys : List T} {x y : T} {nx : Option Addr}
    (hb : s.body a = some (.leaf (xs ++ x :: ys) nx)) :
    Returns (setChild a xs.length y) s (fun _ s' => ∃ t, s' = { t with dropped := s.dropped ++ [x] }
      ∧ t.body a = some (.leaf (xs ++ y :: ys) nx) ∧ Frame s t {a} ∅) := by
  obtain ⟨n, hr, hn⟩ := Store.body_leaf.mp hb
  obtain ⟨rest, hc⟩ := hn.children
  have hc' : n.children.toList = xs.map some ++ some x :: (ys.map some ++ rest) := by
    rw [hc]; simp
  obtain ⟨c, hset, hcs⟩ := Slots.set?_append (some y) hc'
  rw [List.length_map] at hset
  rw [setChild, returns_bind, child_spec hb (x := x) (by simp)]
  simp only [returns_bind, returns_derefLeaf, returns_orFault]
  refine ⟨n, hr, c, hset, (modifyLeaf_spec hr _).mono ?_⟩
  intro _ t w
  have hholds : LeafNode.Holds { n with children := c } (xs ++ y :: ys) nx := by
    refine ⟨hn.kind, ?_, ⟨rest, ?_⟩, hn.next⟩
    · rw [hn.length]; simp
    · rw [hcs]; simp
  obtain ⟨hbody, hf⟩ := wrote_spec hr w rfl hholds
  rw [returns_modify]
  exact ⟨t, by rw [hf.dropped], hbody, hf⟩

omit [TaggedPtr P] in
/-- The length is lowered first, so it never covers the slot that is emptied. -/
theorem takeChild_spec {n : LeafNode T P B} {xs zs : List (Option T)} {x : T}
    (hr : s.heap.read a = some (.leaf n)) (hc : n.children.toList = xs ++ some x :: zs) :
    Returns (takeChild a xs.length) s (fun r s' => r = x ∧ ∃ c : Slots (Option T) B,
      c.toList = xs ++ none :: zs ∧ Store.Wrote s s' a
        (.leaf { n with length := min n.length xs.length, children := c })) := by
  rw [takeChild, returns_bind]
  refine (modifyLeaf_spec hr _).mono ?_
  intro _ s₁ w₁
  obtain ⟨c, hset, hcs⟩ := Slots.set?_append none hc
  simp only [returns_bind, returns_derefLeaf, returns_orFault]
  refine ⟨_, w₁.self, some x, Slots.get?_append hc, c, hset, (modifyLeaf_spec w₁.self _).mono ?_⟩
  intro _ s₂ w₂
  exact ⟨x, rfl, rfl, c, hcs, w₁.trans w₂⟩

omit [TaggedPtr P] in
/-- The window `ys` of `a` lands on the window `vs` of `b`. -/
theorem copyItems_spec {n m : LeafNode T P B} {xs ys zs us vs ws : List (Option T)}
    (ha : s.heap.read a = some (.leaf n)) (hb : s.heap.read b = some (.leaf m))
    (hn : n.children.toList = xs ++ ys ++ zs) (hm : m.children.toList = us ++ vs ++ ws)
    (hl : ys.length = vs.length) :
    Returns (copyItems a xs.length b us.length ys.length : Exec T P B Unit) s (fun _ s' =>
      ∃ c : Slots (Option T) B, c.toList = us ++ ys ++ ws
        ∧ Store.Wrote s s' b (.leaf { m with children := c })) := by
  obtain ⟨c, hcopy, hc⟩ := Slots.copyFrom?_append ys hm hl
  unfold copyItems
  simp only [returns_bind, returns_derefLeaf, returns_orFault]
  refine ⟨n, ha, ys, Slots.slice?_append hn, m, hb, c, hcopy, (modifyLeaf_spec hb _).mono ?_⟩
  intro _ s' w
  exact ⟨c, hc, w⟩

theorem split_spec {strategy : SplitStrategy} {xs ys : List T} {nx : Option Addr}
    (hb : s.body a = some (.leaf (xs ++ ys) nx))
    (hx : xs.length = (strategy.sizes B).1) (hy : ys.length = (strategy.sizes B).2)
    (hlen : (xs ++ ys).length = B) :
    Returns (split a strategy) s (fun new s' => new = s.heap.next
      ∧ s'.body a = some (.leaf xs (some new)) ∧ s'.body new = some (.leaf ys nx)
      ∧ s'.link new = some (none, 0) ∧ Frame s s' {a, s.heap.next} {s.heap.next}) := by
  obtain ⟨n, hr, hn⟩ := Store.body_leaf.mp hb
  obtain ⟨rest, hc⟩ := hn.children
  have hne : a ≠ s.heap.next := Nat.ne_of_lt (Heap.lt_next_of_read hr)
  rw [List.length_append] at hlen
  have hc' : n.children.toList = xs.map some ++ ys.map some ++ rest := by rw [hc]; simp
  unfold split
  simp only [← hx, ← hy, returns_bind, returns_derefLeaf, returns_check, alloc]
  refine ⟨n, hr, by rw [hn.length, List.length_append, hlen], (allocate_spec s _).mono ?_⟩
  intro _ s₁ h₁
  obtain ⟨rfl, hn₁, ho₁, hm₁, hd₁, hp₁⟩ := h₁
  have ha₁ : s₁.heap.read a = some (.leaf n) := by rw [ho₁ a hne, hr]
  have hnew : (new : LeafNode T P B).children.toList
      = [] ++ List.replicate ys.length none ++ List.replicate xs.length none := by
    rw [List.nil_append, List.replicate_append_replicate, Nat.add_comm, hlen]
    rfl
  have hcopy := copyItems_spec ha₁ hn₁ hc' hnew (by simp)
  rw [List.length_map, List.length_map, List.length_nil] at hcopy
  refine hcopy.mono ?_
  intro _ s₂ h₂
  obtain ⟨c, hcl, w₂⟩ := h₂
  -- the links are set after the copy, the lengths last
  refine ⟨n, by rw [w₂.other a hne, ha₁], (modifyLeaf_spec w₂.self _).mono ?_⟩
  intro _ s₃ w₃
  have ha₃ : s₃.heap.read a = some (.leaf n) := by rw [w₃.other a hne, w₂.other a hne, ha₁]
  refine (modifyLeaf_spec ha₃ _).mono ?_
  intro _ s₄ w₄
  refine (modifyLeaf_spec w₄.self _).mono ?_
  intro _ s₅ w₅
  have hn₅ := (w₅.other _ hne.symm).trans ((w₄.other _ hne.symm).trans w₃.self)
  refine (modifyLeaf_spec hn₅ _).mono ?_
  intro _ s₆ w₆
  have ha₆ := (w₆.other a hne).trans w₅.self
  rw [returns_pure]
  refine ⟨rfl, ?_, ?_, ?_, ?_⟩
  · exact Store.body_leaf.mpr ⟨_, ha₆, hn.kind, rfl, ⟨ys.map some ++ rest, by simp [hc]⟩, rfl⟩
  · exact Store.body_leaf.mpr
      ⟨_, w₆.self, ParentPtr.kind_new _, rfl, ⟨_, by rw [hcl]; rfl⟩, hn.next⟩
  · rw [Store.link, w₆.self, Option.map_some]
    simp [Cell.link, Cell.nodePrefix, new, Prefix.new]
  · have hother : ∀ x, x ≠ a → x ≠ s.heap.next → s₆.heap.read x = s.heap.read x := by
      intro x h1 h2
      rw [w₆.other x h2, w₅.other x h1, w₄.other x h1, w₃.other x h2, w₂.other x h2, ho₁ x h2]
    have hnext : s₆.heap.next = s.heap.next + 1 := by
      rw [w₆.next, w₅.next, w₄.next, w₃.next, w₂.next, hm₁]
    refine Frame.of_prefix ?_ ?_ ?_ (by omega) ?_ ?_
    · intro x hx
      rw [Set.mem_insert_iff, Set.mem_singleton_iff, not_or] at hx
      exact hother x hx.1 hx.2
    · intro x hx
      rw [Set.mem_singleton_iff] at hx
      by_cases hxa : x = a
      · subst hxa; rw [ha₆, hr]; rfl
      · rw [hother x hxa hx]
    · intro x hx; exact Nat.le_of_eq hx.symm
    · rw [w₆.destroyed, w₅.destroyed, w₄.destroyed, w₃.destroyed, w₂.destroyed, hd₁]
    · rw [w₆.dropped, w₅.dropped, w₄.dropped, w₃.dropped, w₂.dropped, hp₁]

theorem merge_spec {xs ys : List T} {nx : Option Addr} (hab : a ≠ b)
    (ha : s.body a = some (.leaf xs (some b))) (hb : s.body b = some (.leaf ys nx))
    (hx : xs.length ≤ B / 2) (hy : ys.length ≤ B / 2) :
    Returns (merge a b) s (fun _ s' => s'.body a = some (.leaf (xs ++ ys) nx)
      ∧ s'.body b = some (.leaf [] none) ∧ Frame s s' {a, b} ∅) := by
  obtain ⟨n, hr, hn⟩ := Store.body_leaf.mp ha
  obtain ⟨m, hrm, hm⟩ := Store.body_leaf.mp hb
  obtain ⟨rest, hc⟩ := hn.children
  obtain ⟨restm, hcm⟩ := hm.children
  have hlen := Slots.length_add_of_eq hc
  rw [List.length_map] at hlen
  -- the free slots of `a` take the items of `b`
  have hc' : n.children.toList
      = xs.map some ++ rest.take ys.length ++ rest.drop ys.length := by
    rw [hc, List.append_assoc, List.take_append_drop]
  have hcopy := copyItems_spec hrm hr (show m.children.toList = [] ++ ys.map some ++ restm from hcm)
    hc' (by simp; omega)
  rw [List.length_map, List.length_map, List.length_nil] at hcopy
  unfold merge
  simp only [returns_bind, returns_derefLeaf, returns_check]
  refine ⟨n, hr, by rw [hn.length]; exact hx, m, hrm, by rw [hm.length]; exact hy, m, hrm, ?_⟩
  rw [hn.length, hm.length]
  refine hcopy.mono ?_
  intro _ s₁ h₁
  obtain ⟨c, hcl, w₁⟩ := h₁
  have hb₁ : s₁.heap.read b = some (.leaf m) := by rw [w₁.other b hab.symm, hrm]
  refine ⟨_, w₁.self, hn.next, m, hb₁, (modifyLeaf_spec w₁.self _).mono ?_⟩
  intro _ s₂ w₂
  have hb₂ : s₂.heap.read b = some (.leaf m) := by rw [w₂.other b hab.symm, hb₁]
  refine (modifyLeaf_spec hb₂ _).mono ?_
  intro _ s₃ w₃
  have ha₃ := (w₃.other a hab).trans w₂.self
  refine ⟨_, w₃.self, (modifyLeaf_spec ha₃ _).mono ?_⟩
  intro _ s₄ w₄
  have hb₄ := (w₄.other b hab.symm).trans w₃.self
  refine (modifyLeaf_spec hb₄ _).mono ?_
  intro _ s₅ w₅
  have ha₅ := (w₅.other a hab).trans w₄.self
  refine ⟨?_, ?_, ?_⟩
  · refine Store.body_leaf.mpr ⟨_, ha₅, hn.kind, ?_, ⟨rest.drop ys.length, ?_⟩, hm.next⟩
    · simp [hn.length, hm.length]
    · rw [List.map_append]; exact hcl
  · exact Store.body_leaf.mpr ⟨_, w₅.self, hm.kind, rfl, ⟨m.children.toList, rfl⟩, rfl⟩
  · have hother : ∀ x, x ≠ a → x ≠ b → s₅.heap.read x = s.heap.read x := by
      intro x h1 h2
      rw [w₅.other x h2, w₄.other x h1, w₃.other x h2, w₂.other x h1, w₁.other x h1]
    have hnext : s₅.heap.next = s.heap.next := by
      rw [w₅.next, w₄.next, w₃.next, w₂.next, w₁.next]
    refine Frame.of_prefix ?_ ?_ (fun x hx => hx.elim) (by omega) ?_ ?_
    · intro x hx
      rw [Set.mem_insert_iff, Set.mem_singleton_iff, not_or] at hx
      exact hother x hx.1 hx.2
    · intro x _
      by_cases hxa : x = a
      · subst hxa; rw [ha₅, hr]; rfl
      · by_cases hxb : x = b
        · subst hxb; rw [w₅.self, hrm]; rfl
        · rw [hother x hxa hxb]
    · rw [w₅.destroyed, w₄.destroyed, w₃.destroyed, w₂.destroyed, w₁.destroyed]
    · rw [w₅.dropped, w₄.dropped, w₃.dropped, w₂.dropped, w₁.dropped]

end BTreeVec.LeafNode
