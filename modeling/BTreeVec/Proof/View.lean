import Mathlib.Data.Set.Insert
import Mathlib.Tactic.Common
import BTreeVec.Model.NodeRef

/-!
# What a node says

A node record has slots past its length that hold leftovers, and a prefix that
belongs to its place in the tree rather than to its contents. The proofs look at
a node through two views instead: its *body*, the contents without leftovers, and
its *link*, the parent and index. The body of a record that contradicts itself, by
a tag for the wrong type or a hole below its length, is `none`, so having a body
is being well formed.

A store operation then has a short description: the new bodies and links of the
nodes it touches, and a `Frame` for all others.
-/

namespace BTreeVec

open Prog

variable {T P : Type} {B : Nat}

/-- The contents of a node, without leftovers. -/
inductive Body (T : Type) where
  | leaf (items : List T) (next : Option Addr)
  | internal (entries : List (Addr × Nat))
deriving DecidableEq

namespace Body

def kind : Body T → NodeKind
  | leaf _ _ => .leaf
  | internal _ => .internal

/-- The number of items or children. -/
def width : Body T → Nat
  | leaf xs _ => xs.length
  | internal es => es.length

/-- The number of items at or below, going by the stored sizes. -/
def total : Body T → Nat
  | leaf xs _ => xs.length
  | internal es => (es.map Prod.snd).sum

def items : Body T → List T
  | leaf xs _ => xs
  | internal _ => []

def kids : Body T → List Addr
  | leaf _ _ => []
  | internal es => es.map Prod.fst

def next : Body T → Option Addr
  | leaf _ nx => nx
  | internal _ => none

end Body

section
variable [TaggedPtr P]

/-- The record `n` holds the items `xs` and is followed by `nx`. -/
structure LeafNode.Holds (n : LeafNode T P B) (xs : List T) (nx : Option Addr) : Prop where
  kind : n.nodePrefix.parent.kind = .leaf
  length : n.length = xs.length
  children : ∃ rest, n.children.toList = xs.map some ++ rest
  next : n.next = nx

/-- The record `n` holds the children and sizes `es`, and no child past its length. -/
structure InternalNode.Holds (n : InternalNode P B) (es : List (Addr × Nat)) : Prop where
  kind : n.nodePrefix.parent.kind = .internal
  length : n.length = es.length
  children : n.children.toList
    = es.map (fun e => some e.1) ++ List.replicate (B - es.length) none
  sizes : ∃ rest, n.sizes.toList = es.map Prod.snd ++ rest

namespace Cell

def body : Cell T P B → Option (Body T)
  | leaf n =>
      if n.nodePrefix.parent.kind = .leaf ∧ n.length ≤ B then
        ((n.children.toList.take n.length).mapM id).map fun xs => .leaf xs n.next
      else none
  | internal n =>
      if n.nodePrefix.parent.kind = .internal ∧ n.length ≤ B
          ∧ n.children.toList.drop n.length = List.replicate (B - n.length) none then
        ((n.children.toList.take n.length).mapM id).map fun cs =>
          .internal (cs.zip (n.sizes.toList.take n.length))
      else none

def link (c : Cell T P B) : Option Addr × Nat := (c.nodePrefix.parent.get, c.nodePrefix.index)

def length : Cell T P B → Nat
  | leaf n => n.length
  | internal n => n.length

end Cell

theorem mapM_id_eq_some {α : Type} :
    ∀ {l : List (Option α)} {xs : List α}, l.mapM id = some xs ↔ l = xs.map some
  | [], xs => by
      cases xs <;> simp
  | none :: l, xs => by
      cases xs <;> simp
  | some a :: l, xs => by
      cases xs with
      | nil => cases h : l.mapM id <;> simp [h]
      | cons x xs =>
          have ih : l.mapM id = some xs ↔ l = xs.map some := mapM_id_eq_some
          simp only [List.mapM_cons, id, Option.pure_def, Option.bind_eq_bind, Option.bind_some,
            Option.bind_eq_some_iff, Option.some.injEq, List.cons.injEq, List.map_cons]
          constructor
          · intro h
            obtain ⟨ys, hys, rfl, rfl⟩ := h
            exact ⟨rfl, ih.mp hys⟩
          · intro h
            obtain ⟨rfl, hl⟩ := h
            exact ⟨xs, ih.mpr hl, rfl, rfl⟩

theorem Cell.body_eq_leaf {c : Cell T P B} {xs : List T} {nx : Option Addr} :
    c.body = some (.leaf xs nx) ↔ ∃ n, c = .leaf n ∧ n.Holds xs nx := by
  cases c with
  | internal n =>
      constructor
      · intro h
        simp only [body] at h
        split at h <;> simp at h
      · rintro ⟨m, hm, _⟩; cases hm
  | leaf n =>
      constructor
      · intro h
        refine ⟨n, rfl, ?_⟩
        simp only [body] at h
        split at h
        · rename_i hk
          simp only [Option.map_eq_some_iff, Body.leaf.injEq] at h
          obtain ⟨ys, hys, rfl, hnx⟩ := h
          have htake := mapM_id_eq_some.mp hys
          have hlen := congrArg List.length htake
          simp only [List.length_take, Slots.length_toList, List.length_map] at hlen
          refine ⟨hk.1, by omega, ⟨n.children.toList.drop n.length, ?_⟩, hnx⟩
          rw [← htake, List.take_append_drop]
        · simp at h
      · intro h
        obtain ⟨m, hm, h⟩ := h
        cases hm
        obtain ⟨rest, hc⟩ := h.children
        have hlen := Slots.length_add_of_eq hc
        rw [List.length_map, ← h.length] at hlen
        simp only [body]
        rw [if_pos ⟨h.kind, by omega⟩, hc, h.length, ← List.length_map (f := some),
          List.take_left, mapM_id_eq_some.mpr rfl, h.next]
        rfl

theorem Cell.body_eq_internal {c : Cell T P B} {es : List (Addr × Nat)} :
    c.body = some (.internal es) ↔ ∃ n, c = .internal n ∧ n.Holds es := by
  cases c with
  | leaf n =>
      constructor
      · intro h
        simp only [body] at h
        split at h <;> simp at h
      · rintro ⟨m, hm, _⟩; cases hm
  | internal n =>
      constructor
      · intro h
        refine ⟨n, rfl, ?_⟩
        simp only [body] at h
        split at h
        · rename_i hk
          simp only [Option.map_eq_some_iff, Body.internal.injEq] at h
          obtain ⟨cs, hcs, rfl⟩ := h
          have htake := mapM_id_eq_some.mp hcs
          have hlen := congrArg List.length htake
          simp only [List.length_take, Slots.length_toList, List.length_map] at hlen
          -- the entries are paired up again from the two arrays
          have hzip : (cs.zip (n.sizes.toList.take n.length)).length = n.length := by
            simp; omega
          have hfst : (cs.zip (n.sizes.toList.take n.length)).map Prod.fst = cs :=
            List.map_fst_zip (by simp; omega)
          have hsnd : (cs.zip (n.sizes.toList.take n.length)).map Prod.snd
              = n.sizes.toList.take n.length :=
            List.map_snd_zip (by simp; omega)
          refine ⟨hk.1, hzip.symm, ?_, n.sizes.toList.drop n.length, ?_⟩
          · have hmap : (cs.zip (n.sizes.toList.take n.length)).map (fun e => some e.1)
                = n.children.toList.take n.length := by
              rw [htake, ← hfst, List.map_map, hfst]; rfl
            rw [hzip, ← hk.2.2, hmap, List.take_append_drop]
          · rw [hsnd, List.take_append_drop]
        · simp at h
      · intro h
        obtain ⟨m, hm, h⟩ := h
        cases hm
        obtain ⟨rest, hs⟩ := h.sizes
        have hlen := Slots.length_add_of_eq hs
        rw [List.length_map, ← h.length] at hlen
        have hc := h.children
        rw [← h.length] at hc
        have hl : n.length = (es.map (fun e => some e.1)).length := by simp [h.length]
        have hdrop : n.children.toList.drop n.length = List.replicate (B - n.length) none := by
          rw [hc]; nth_rewrite 1 [hl]; rw [List.drop_left]
        have htake : n.children.toList.take n.length = (es.map Prod.fst).map some := by
          rw [hc]; nth_rewrite 1 [hl]; rw [List.take_left, List.map_map]; rfl
        have hsz : n.sizes.toList.take n.length = es.map Prod.snd := by
          rw [hs, h.length, ← List.length_map (f := Prod.snd), List.take_left]
        simp only [body]
        rw [if_pos ⟨h.kind, by omega, hdrop⟩, htake, hsz, mapM_id_eq_some.mpr rfl]
        simp [List.zip_map']

theorem LeafNode.Holds.body_eq {n : LeafNode T P B} {xs : List T} {nx : Option Addr}
    (h : n.Holds xs nx) : (Cell.leaf n).body = some (.leaf xs nx) :=
  Cell.body_eq_leaf.mpr ⟨n, rfl, h⟩

theorem InternalNode.Holds.body_eq {n : InternalNode P B} {es : List (Addr × Nat)}
    (h : n.Holds es) : (Cell.internal n : Cell T P B).body = some (.internal es) :=
  Cell.body_eq_internal.mpr ⟨n, rfl, h⟩

/-- A body carries the kind its tag says. -/
theorem Cell.kind_of_body {c : Cell T P B} {b : Body T} (h : c.body = some b) :
    c.nodePrefix.parent.kind = b.kind := by
  cases b with
  | leaf xs nx =>
      obtain ⟨n, rfl, hn⟩ := Cell.body_eq_leaf.mp h
      exact hn.kind
  | internal es =>
      obtain ⟨n, rfl, hn⟩ := Cell.body_eq_internal.mp h
      exact hn.kind

/-- A body has no more than `B` items or children. -/
theorem Cell.width_le {c : Cell T P B} {b : Body T} (h : c.body = some b) : b.width ≤ B := by
  cases b with
  | leaf xs nx =>
      obtain ⟨n, rfl, hn⟩ := Cell.body_eq_leaf.mp h
      obtain ⟨rest, hc⟩ := hn.children
      have := Slots.length_add_of_eq hc
      rw [List.length_map] at this
      show xs.length ≤ B
      omega
  | internal es =>
      obtain ⟨n, rfl, hn⟩ := Cell.body_eq_internal.mp h
      obtain ⟨rest, hc⟩ := hn.sizes
      have := Slots.length_add_of_eq hc
      rw [List.length_map] at this
      show es.length ≤ B
      omega

/-- Only the prefix changes, and not the tag in it: the body stays. -/
theorem Cell.body_mapPrefix {c : Cell T P B} {f : Prefix P → Prefix P}
    (hf : (f c.nodePrefix).parent.kind = c.nodePrefix.parent.kind) :
    (c.mapPrefix f).body = c.body := by
  cases c with
  | leaf n =>
      simp only [nodePrefix] at hf
      simp only [mapPrefix, body, hf]
  | internal n =>
      simp only [nodePrefix] at hf
      simp only [mapPrefix, body, hf]

end

/-- The node with its prefix blanked out: every other field of the record. -/
def Cell.strip [TaggedPtr P] (c : Cell T P B) : Cell T P B := c.mapPrefix fun _ => .new .leaf

@[simp] theorem Cell.strip_mapPrefix [TaggedPtr P] (c : Cell T P B) (f : Prefix P → Prefix P) :
    (c.mapPrefix f).strip = c.strip := by
  cases c <;> rfl

theorem Cell.eq_internal_of_strip [TaggedPtr P] {c : Cell T P B} {n : InternalNode P B}
    (h : c.strip = (Cell.internal n : Cell T P B).strip) :
    ∃ p, c = .internal { n with nodePrefix := p } := by
  cases c with
  | leaf m => simp [strip, mapPrefix] at h
  | internal m =>
      refine ⟨m.nodePrefix, ?_⟩
      simp only [strip, mapPrefix, Cell.internal.injEq, InternalNode.mk.injEq, true_and] at h
      obtain ⟨h1, h2, h3⟩ := h
      rw [← h1, ← h2, ← h3]

@[simp] theorem Cell.nodePrefix_mapPrefix (c : Cell T P B) (f : Prefix P → Prefix P) :
    (c.mapPrefix f).nodePrefix = f c.nodePrefix := by
  cases c <;> rfl

/-! ## The views of a store -/

namespace Store

/-- `s'` is `s` with `c` written to the live node at `a`. -/
structure Wrote (s s' : Store T P B) (a : Addr) (c : Cell T P B) : Prop where
  self : s'.heap.read a = some c
  other : ∀ x, x ≠ a → s'.heap.read x = s.heap.read x
  next : s'.heap.next = s.heap.next
  destroyed : s'.destroyed = s.destroyed
  dropped : s'.dropped = s.dropped

theorem Wrote.trans {s s' s'' : Store T P B} {a : Addr} {c c' : Cell T P B}
    (w : Wrote s s' a c) (w' : Wrote s' s'' a c') : Wrote s s'' a c' where
  self := w'.self
  other x hx := (w'.other x hx).trans (w.other x hx)
  next := w'.next.trans w.next
  destroyed := w'.destroyed.trans w.destroyed
  dropped := w'.dropped.trans w.dropped

theorem wrote_update {s : Store T P B} {a : Addr} {c₀ : Cell T P B}
    (h : s.heap.read a = some c₀) (f : Cell T P B → Cell T P B) :
    Wrote s { s with heap := s.heap.update a f } a (f c₀) where
  self := by simp [Heap.read_update, h]
  other x hx := by simp [Heap.read_update, hx]
  next := Heap.next_update ..
  destroyed := rfl
  dropped := rfl

section
variable [TaggedPtr P]

def body (s : Store T P B) (a : Addr) : Option (Body T) := (s.heap.read a).bind Cell.body

/-- The parent and index in the prefix of the node at `a`. -/
def link (s : Store T P B) (a : Addr) : Option (Option Addr × Nat) := (s.heap.read a).map Cell.link

/-- The tag in the prefix of the node at `a`. -/
def tag (s : Store T P B) (a : Addr) : Option NodeKind :=
  (s.heap.read a).map fun c => c.nodePrefix.parent.kind

def width (s : Store T P B) (a : Addr) : Nat := ((s.body a).map Body.width).getD 0

def total (s : Store T P B) (a : Addr) : Nat := ((s.body a).map Body.total).getD 0

def items (s : Store T P B) (a : Addr) : List T := ((s.body a).map Body.items).getD []

def kids (s : Store T P B) (a : Addr) : List Addr := ((s.body a).map Body.kids).getD []

def next (s : Store T P B) (a : Addr) : Option Addr := (s.body a).bind Body.next

variable {s s' : Store T P B} {a : Addr}

theorem tag_of_body {b : Body T} (h : s.body a = some b) : s.tag a = some b.kind := by
  obtain ⟨c, hc, hb⟩ := Option.bind_eq_some_iff.mp h
  rw [tag, hc, Option.map_some, Cell.kind_of_body hb]

theorem lt_next_of_body {b : Body T} (h : s.body a = some b) : a < s.heap.next := by
  obtain ⟨c, hc, _⟩ := Option.bind_eq_some_iff.mp h
  exact Heap.lt_next_of_read hc

theorem lt_next_of_link {l : Option Addr × Nat} (h : s.link a = some l) : a < s.heap.next := by
  obtain ⟨c, hc, _⟩ := Option.map_eq_some_iff.mp h
  exact Heap.lt_next_of_read hc

theorem width_le {b : Body T} (h : s.body a = some b) : b.width ≤ B := by
  obtain ⟨c, _, hb⟩ := Option.bind_eq_some_iff.mp h
  exact Cell.width_le hb

theorem body_leaf {xs : List T} {nx : Option Addr} :
    s.body a = some (.leaf xs nx) ↔ ∃ n, s.heap.read a = some (.leaf n) ∧ n.Holds xs nx := by
  rw [body, Option.bind_eq_some_iff]
  constructor
  · intro h
    obtain ⟨c, hc, hb⟩ := h
    obtain ⟨n, rfl, hn⟩ := Cell.body_eq_leaf.mp hb
    exact ⟨n, hc, hn⟩
  · intro h
    obtain ⟨n, hc, hn⟩ := h
    exact ⟨_, hc, hn.body_eq⟩

theorem body_internal {es : List (Addr × Nat)} :
    s.body a = some (.internal es) ↔ ∃ n, s.heap.read a = some (.internal n) ∧ n.Holds es := by
  rw [body, Option.bind_eq_some_iff]
  constructor
  · intro h
    obtain ⟨c, hc, hb⟩ := h
    obtain ⟨n, rfl, hn⟩ := Cell.body_eq_internal.mp hb
    exact ⟨n, hc, hn⟩
  · intro h
    obtain ⟨n, hc, hn⟩ := h
    exact ⟨_, hc, hn.body_eq⟩

end

end Store

section
variable [TaggedPtr P]

/--
`s'` is `s` but for the bodies of the nodes in `bs` and the links of the nodes in
`ls`. Nodes may have been allocated, but none destroyed and no item dropped.
-/
structure Frame (s s' : Store T P B) (bs ls : Set Addr) : Prop where
  read : ∀ x, x ∉ bs → x ∉ ls → s'.heap.read x = s.heap.read x
  body : ∀ x, x ∉ bs → s'.body x = s.body x
  /-- Leftovers in unused slots are not touched either. -/
  strip : ∀ x, x ∉ bs → (s'.heap.read x).map Cell.strip = (s.heap.read x).map Cell.strip
  link : ∀ x, x ∉ ls → s'.link x = s.link x
  /-- Tags are never rewritten, and a tag tells a live node from a dead one. -/
  tag : ∀ x, x < s.heap.next → s'.tag x = s.tag x
  next_le : s.heap.next ≤ s'.heap.next
  destroyed : s'.destroyed = s.destroyed
  dropped : s'.dropped = s.dropped

namespace Frame

variable {s s' s'' : Store T P B} {bs bs' ls ls' : Set Addr}

theorem refl (s : Store T P B) (bs ls : Set Addr) : Frame s s bs ls :=
  ⟨fun _ _ _ => rfl, fun _ _ => rfl, fun _ _ => rfl, fun _ _ => rfl, fun _ _ => rfl,
    Nat.le_refl _, rfl, rfl⟩

theorem mono (h : Frame s s' bs ls) (hb : bs ⊆ bs') (hl : ls ⊆ ls') : Frame s s' bs' ls' where
  read x h1 h2 := h.read x (fun hx => h1 (hb hx)) (fun hx => h2 (hl hx))
  body x h1 := h.body x (fun hx => h1 (hb hx))
  strip x h1 := h.strip x (fun hx => h1 (hb hx))
  link x h1 := h.link x (fun hx => h1 (hl hx))
  tag := h.tag
  next_le := h.next_le
  destroyed := h.destroyed
  dropped := h.dropped

theorem trans (h : Frame s s' bs ls) (h' : Frame s' s'' bs' ls') :
    Frame s s'' (bs ∪ bs') (ls ∪ ls') where
  read x h1 h2 := by
    rw [h'.read x (fun hx => h1 (.inr hx)) (fun hx => h2 (.inr hx)),
      h.read x (fun hx => h1 (.inl hx)) (fun hx => h2 (.inl hx))]
  body x h1 := by rw [h'.body x (fun hx => h1 (.inr hx)), h.body x (fun hx => h1 (.inl hx))]
  strip x h1 := by rw [h'.strip x (fun hx => h1 (.inr hx)), h.strip x (fun hx => h1 (.inl hx))]
  link x h1 := by rw [h'.link x (fun hx => h1 (.inr hx)), h.link x (fun hx => h1 (.inl hx))]
  tag x hx := by rw [h'.tag x (Nat.lt_of_lt_of_le hx h.next_le), h.tag x hx]
  next_le := Nat.le_trans h.next_le h'.next_le
  destroyed := h'.destroyed.trans h.destroyed
  dropped := h'.dropped.trans h.dropped

/-- Only the records in `bs` differ, and of those only the new ones in their prefix. -/
theorem of_prefix (hread : ∀ x, x ∉ bs → s'.heap.read x = s.heap.read x)
    (hpre : ∀ x, x ∉ ls →
      (s'.heap.read x).map Cell.nodePrefix = (s.heap.read x).map Cell.nodePrefix)
    (hnew : ∀ x ∈ ls, s.heap.next ≤ x) (hnext : s.heap.next ≤ s'.heap.next)
    (hdes : s'.destroyed = s.destroyed) (hdrop : s'.dropped = s.dropped) :
    Frame s s' bs ls where
  read x h1 _ := hread x h1
  body x h1 := by rw [Store.body, hread x h1]; rfl
  strip x h1 := by rw [hread x h1]
  link x h2 := by
    have := congrArg (Option.map fun p : Prefix P => (p.parent.get, p.index)) (hpre x h2)
    rwa [Option.map_map, Option.map_map] at this
  tag x hx := by
    have := congrArg (Option.map fun p : Prefix P => p.parent.kind)
      (hpre x fun hl => absurd (hnew x hl) (Nat.not_le.mpr hx))
    rwa [Option.map_map, Option.map_map] at this
  next_le := hnext
  destroyed := hdes
  dropped := hdrop

/-- Writing to a node without touching its prefix. -/
theorem of_body {a : Addr} {c₀ c : Cell T P B} (h : s.heap.read a = some c₀)
    (w : Store.Wrote s s' a c) (hp : c.nodePrefix = c₀.nodePrefix) : Frame s s' {a} ∅ := by
  refine of_prefix (fun x hx => w.other x hx) ?_ (fun x hx => hx.elim) (Nat.le_of_eq w.next.symm)
    w.destroyed w.dropped
  intro x _
  by_cases hx : x = a
  · subst hx; rw [w.self, h, Option.map_some, Option.map_some, hp]
  · rw [w.other x hx]

/-- Rewriting the prefix of a node without touching its tag. -/
theorem of_link {a : Addr} {c : Cell T P B} {f : Prefix P → Prefix P}
    (h : s.heap.read a = some c) (w : Store.Wrote s s' a (c.mapPrefix f))
    (hf : (f c.nodePrefix).parent.kind = c.nodePrefix.parent.kind) : Frame s s' ∅ {a} where
  read x _ h2 := w.other x h2
  body x _ := by
    by_cases hx : x = a
    · subst hx
      rw [Store.body, Store.body, w.self, h, Option.bind_some, Option.bind_some,
        Cell.body_mapPrefix hf]
    · rw [Store.body, w.other x hx]; rfl
  strip x _ := by
    by_cases hx : x = a
    · subst hx; rw [w.self, h, Option.map_some, Option.map_some, Cell.strip_mapPrefix]
    · rw [w.other x hx]
  link x h1 := by rw [Store.link, w.other x h1]; rfl
  tag x _ := by
    by_cases hx : x = a
    · subst hx
      rw [Store.tag, Store.tag, w.self, h, Option.map_some, Option.map_some,
        Cell.nodePrefix_mapPrefix, hf]
    · rw [Store.tag, w.other x hx]; rfl
  next_le := Nat.le_of_eq w.next.symm
  destroyed := w.destroyed
  dropped := w.dropped

/-- An internal node outside `bs` keeps its record, up to the prefix. -/
theorem read_internal (h : Frame s s' bs ls) {a : Addr} {n : InternalNode P B}
    (hr : s.heap.read a = some (.internal n)) (ha : a ∉ bs) :
    ∃ p, s'.heap.read a = some (.internal { n with nodePrefix := p }) := by
  have hs := h.strip a ha
  rw [hr, Option.map_some] at hs
  obtain ⟨c, hc, he⟩ := Option.map_eq_some_iff.mp hs
  obtain ⟨p, rfl⟩ := Cell.eq_internal_of_strip he
  exact ⟨p, hc⟩

theorem tag_eq (h : Frame s s' bs ls) {a : Addr} {k : NodeKind} (ht : s.tag a = some k) :
    s'.tag a = some k := by
  obtain ⟨c, hc, _⟩ := Option.map_eq_some_iff.mp ht
  rw [h.tag a (Heap.lt_next_of_read hc), ht]

/-- A record that was rewritten has the tag of the old one. -/
theorem kind_eq (h : Frame s s' bs ls) {a : Addr} {c c' : Cell T P B}
    (hr : s.heap.read a = some c) (hr' : s'.heap.read a = some c') :
    c'.nodePrefix.parent.kind = c.nodePrefix.parent.kind := by
  have := h.tag a (Heap.lt_next_of_read hr)
  rw [Store.tag, Store.tag, hr', hr] at this
  exact Option.some.inj this

end Frame

/-- The node at `x` is as it was, but for its prefix. -/
structure Same (s s' : Store T P B) (x : Addr) : Prop where
  body : s'.body x = s.body x
  strip : (s'.heap.read x).map Cell.strip = (s.heap.read x).map Cell.strip

namespace Same

variable {s s' s'' : Store T P B} {x : Addr}

theorem refl (s : Store T P B) (x : Addr) : Same s s x := ⟨rfl, rfl⟩

theorem trans (h : Same s s' x) (h' : Same s' s'' x) : Same s s'' x :=
  ⟨h'.body.trans h.body, h'.strip.trans h.strip⟩

theorem of_frame {bs ls : Set Addr} (f : Frame s s' bs ls) (hx : x ∉ bs) : Same s s' x :=
  ⟨f.body x hx, f.strip x hx⟩

theorem of_read (h : s'.heap.read x = s.heap.read x) : Same s s' x := by
  refine ⟨?_, by rw [h]⟩
  rw [Store.body, h]
  rfl

end Same

/--
A run from `s` to `s'` that owned the nodes `F` and then owns `F'`. It touches no
other node, and what it no longer owns it has destroyed.
-/
structure Local (s s' : Store T P B) (F F' : Set Addr) : Prop where
  outside : ∀ x, x ∉ F → x < s.heap.next → s'.heap.read x = s.heap.read x
  live : ∀ x, s'.heap.read x ≠ none → x ∈ F' ∨ x ∉ F ∧ x < s.heap.next
  owned : ∀ x ∈ F', x ∈ F ∨ s.heap.next ≤ x
  next_le : s.heap.next ≤ s'.heap.next

namespace Local

variable {s s' s'' : Store T P B} {bs ls F F' F'' : Set Addr}

omit [TaggedPtr P] in
theorem trans (h : Local s s' F F') (h' : Local s' s'' F' F'') : Local s s'' F F'' where
  outside x hx hn := by
    have hx' : x ∉ F' := fun hF' => (h.owned x hF').elim hx (Nat.not_le.mpr hn)
    rw [h'.outside x hx' (Nat.lt_of_lt_of_le hn h.next_le), h.outside x hx hn]
  live x hx := by
    rcases h'.live x hx with hF'' | ⟨hF', hn⟩
    · exact Or.inl hF''
    · rw [h'.outside x hF' hn] at hx
      exact Or.inr ((h.live x hx).resolve_left hF')
  owned x hx := by
    rcases h'.owned x hx with hF' | hn
    · exact h.owned x hF'
    · exact Or.inr (Nat.le_trans h.next_le hn)
  next_le := Nat.le_trans h.next_le h'.next_le

/-- A run that destroys nothing. -/
theorem of_frame (f : Frame s s' bs ls) (hb : bs ⊆ F') (hl : ls ⊆ F') (hF : F ⊆ F')
    (ho : ∀ x ∈ F', x ∈ F ∨ s.heap.next ≤ x) : Local s s' F F' where
  outside x hx hn := by
    have hx' : x ∉ F' := fun hF' => (ho x hF').elim hx (Nat.not_le.mpr hn)
    exact f.read x (fun h => hx' (hb h)) (fun h => hx' (hl h))
  live x hx := by
    by_cases hx' : x ∈ F'
    · exact Or.inl hx'
    · rw [f.read x (fun h => hx' (hb h)) (fun h => hx' (hl h))] at hx
      obtain ⟨c, hc⟩ := Option.ne_none_iff_exists'.mp hx
      exact Or.inr ⟨fun h => hx' (hF h), Heap.lt_next_of_read hc⟩
  owned := ho
  next_le := f.next_le

end Local

/--
What an operation on the nodes `F` did, which then leaves the nodes `F'`. It dropped no
item, and a node it destroyed was empty and had no parent.
-/
structure Effect (s s' : Store T P B) (F F' : Set Addr) : Prop where
  locality : Local s s' F F'
  destroyed : ∃ log, s'.destroyed = s.destroyed ++ log
    ∧ ∀ d ∈ log, d.2.length = 0 ∧ d.2.link.1 = none
  dropped : s'.dropped = s.dropped

namespace Effect

variable {s s' s'' : Store T P B} {bs ls F F' F'' : Set Addr}

theorem of_local (h : Local s s' F F') (hd : s'.destroyed = s.destroyed)
    (hp : s'.dropped = s.dropped) : Effect s s' F F' :=
  ⟨h, ⟨[], by rw [hd, List.append_nil], fun _ hd => absurd hd List.not_mem_nil⟩, hp⟩

theorem trans (h : Effect s s' F F') (h' : Effect s' s'' F' F'') : Effect s s'' F F'' := by
  obtain ⟨log, he, hlog⟩ := h.destroyed
  obtain ⟨log', he', hlog'⟩ := h'.destroyed
  refine ⟨h.locality.trans h'.locality, ⟨log ++ log', ?_, fun d hd => ?_⟩,
    h'.dropped.trans h.dropped⟩
  · rw [he', he, List.append_assoc]
  · exact (List.mem_append.mp hd).elim (hlog d) (hlog' d)

theorem of_frame (f : Frame s s' bs ls) (hb : bs ⊆ F) (hl : ls ⊆ F) : Effect s s' F F :=
  .of_local (.of_frame f hb hl (Set.Subset.refl _) fun _ hx => Or.inl hx) f.destroyed f.dropped

end Effect

end

/-! ## Running the primitives -/

section
variable {s : Store T P B} {a : Addr}

@[simp] theorem returns_deref {Q : Cell T P B → Store T P B → Prop} :
    Returns (deref a) s Q ↔ ∃ c, s.heap.read a = some c ∧ Q c s := by
  simp [deref]

@[simp] theorem returns_derefPrefix {Q : Prefix P → Store T P B → Prop} :
    Returns (derefPrefix a) s Q ↔ ∃ c, s.heap.read a = some c ∧ Q c.nodePrefix s := by
  simp [derefPrefix]

@[simp] theorem returns_derefLeaf {Q : LeafNode T P B → Store T P B → Prop} :
    Returns (derefLeaf a) s Q ↔ ∃ n, s.heap.read a = some (.leaf n) ∧ Q n s := by
  unfold derefLeaf
  simp only [returns_bind, returns_deref]
  constructor
  · intro h
    obtain ⟨c, hc, h⟩ := h
    cases c with
    | leaf n => exact ⟨n, hc, h⟩
    | internal n => exact h.elim
  · rintro ⟨n, hn, h⟩; exact ⟨_, hn, h⟩

@[simp] theorem returns_derefInternal {Q : InternalNode P B → Store T P B → Prop} :
    Returns (derefInternal a) s Q ↔ ∃ n, s.heap.read a = some (.internal n) ∧ Q n s := by
  unfold derefInternal
  simp only [returns_bind, returns_deref]
  constructor
  · intro h
    obtain ⟨c, hc, h⟩ := h
    cases c with
    | internal n => exact ⟨n, hc, h⟩
    | leaf n => exact h.elim
  · rintro ⟨n, hn, h⟩; exact ⟨_, hn, h⟩

theorem modifyLeaf_spec {n : LeafNode T P B} (h : s.heap.read a = some (.leaf n))
    (f : LeafNode T P B → LeafNode T P B) :
    Returns (modifyLeaf a f) s (fun _ s' => Store.Wrote s s' a (.leaf (f n))) := by
  unfold modifyLeaf
  simp only [returns_bind, returns_derefLeaf, returns_modify]
  exact ⟨n, h, Store.wrote_update h _⟩

theorem modifyInternal_spec {n : InternalNode P B} (h : s.heap.read a = some (.internal n))
    (f : InternalNode P B → InternalNode P B) :
    Returns (modifyInternal a f) s (fun _ s' => Store.Wrote s s' a (.internal (f n))) := by
  unfold modifyInternal
  simp only [returns_bind, returns_derefInternal, returns_modify]
  exact ⟨n, h, Store.wrote_update h _⟩

theorem modifyPrefix_spec {c : Cell T P B} (h : s.heap.read a = some c)
    (f : Prefix P → Prefix P) :
    Returns (modifyPrefix a f) s (fun _ s' => Store.Wrote s s' a (c.mapPrefix f)) := by
  unfold modifyPrefix
  simp only [returns_bind, returns_deref, returns_modify]
  exact ⟨c, h, Store.wrote_update h _⟩

/-- An allocation returns the mark, and nothing else changes. -/
theorem allocate_spec (s : Store T P B) (c : Cell T P B) :
    Returns (allocate c) s (fun new s' => new = s.heap.next
      ∧ s'.heap.read new = some c ∧ (∀ x, x ≠ new → s'.heap.read x = s.heap.read x)
      ∧ s'.heap.next = s.heap.next + 1
      ∧ s'.destroyed = s.destroyed ∧ s'.dropped = s.dropped) := by
  unfold allocate
  simp only [returns_modifyGet]
  refine ⟨trivial, ?_, fun x hx => ?_, Heap.next_alloc .., trivial, trivial⟩
  · simp [Heap.read_alloc]
  · simp [Heap.read_alloc, hx]

variable [TaggedPtr P]

theorem returns_cast {Q : NodeKind → Store T P B → Prop} {k : NodeKind} (h : s.tag a = some k) :
    Returns (cast a) s Q ↔ Q k s := by
  obtain ⟨c, hc, rfl⟩ := Option.map_eq_some_iff.mp h
  simp [cast, hc]

theorem returns_parent {Q : Option Addr → Store T P B → Prop} {l : Option Addr × Nat}
    (h : s.link a = some l) : Returns (NodeRef.parent a) s Q ↔ Q l.1 s := by
  obtain ⟨c, hc, rfl⟩ := Option.map_eq_some_iff.mp h
  simp [NodeRef.parent, hc, Cell.link]

theorem modifyPrefix_link_spec {l : Option Addr × Nat} (h : s.link a = some l)
    {f : Prefix P → Prefix P} {g : Option Addr × Nat → Option Addr × Nat}
    (hk : ∀ q, (f q).parent.kind = q.parent.kind)
    (hg : ∀ q, ((f q).parent.get, (f q).index) = g (q.parent.get, q.index)) :
    Returns (modifyPrefix a f) s (fun _ s' => Frame s s' ∅ {a} ∧ s'.link a = some (g l)) := by
  obtain ⟨c, hc, rfl⟩ := Option.map_eq_some_iff.mp h
  refine (modifyPrefix_spec hc f).mono ?_
  intro _ s' w
  refine ⟨Frame.of_link hc w (hk _), ?_⟩
  rw [Store.link, w.self, Option.map_some, Cell.link, Cell.nodePrefix_mapPrefix, hg]
  rfl

theorem setIndex_spec {p : Option Addr} {j : Nat} (h : s.link a = some (p, j)) (i : Nat) :
    Returns (setIndex a i) s (fun _ s' => Frame s s' ∅ {a} ∧ s'.link a = some (p, i)) :=
  modifyPrefix_link_spec h (g := fun l => (l.1, i)) (fun _ => rfl) (fun _ => rfl)

theorem setParent_spec {p : Option Addr} {j : Nat} (h : s.link a = some (p, j)) (q : Option Addr) :
    Returns (setParent a q) s (fun _ s' => Frame s s' ∅ {a} ∧ s'.link a = some (q, j)) :=
  modifyPrefix_link_spec h (g := fun l => (q, l.2)) (fun _ => ParentPtr.kind_set _ _)
    (fun _ => by simp)

end

end BTreeVec
