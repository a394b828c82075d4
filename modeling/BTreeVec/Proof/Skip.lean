import BTreeVec.Proof.Lookup
import BTreeVec.Proof.Ownership
import BTreeVec.Proof.Iterate

/-!
# Skipping ahead

`nth` leaves a leaf upwards, over the parent pointers and the counts to the right of the
child it came from, and comes down again with `leaf_for`. Its specification is about
positions: `Spot` is a node with the leaves before it and after it, so climbing from a
node is going back one constructor, and the position that is looked for does not change.
-/

set_option linter.dupNamespace false

namespace BTreeVec

open Prog

variable {T P : Type} {B : Nat} [TaggedPtr P] {s s' : Store T P B} {v : BTreeVec} {l : List T}
  {F : Set Addr} {root a p x : Addr} {Ds : List (List Addr)} {L R : List Addr} {h k n : Nat}

/-- A list of lists, seen around one of the elements of one of them. -/
theorem flatMap_eq_mid {α β : Type} {f : α → List β} {es : List α} {A C : List β} {y : β}
    (h : es.flatMap f = A ++ y :: C) : ∃ xs e ys A' C', es = xs ++ e :: ys
      ∧ f e = A' ++ y :: C' ∧ A = xs.flatMap f ++ A' ∧ C = C' ++ ys.flatMap f := by
  induction es generalizing A with
  | nil => exact absurd h.symm (by simp)
  | cons e es ih =>
      rw [List.flatMap_cons] at h
      rcases List.append_eq_append_iff.mp h with ⟨A', rfl, hes⟩ | ⟨C', he, hC⟩
      · obtain ⟨xs, e', ys, A'', C', rfl, hf, rfl, rfl⟩ := ih hes
        exact ⟨e :: xs, e', ys, A'', C', rfl, hf, by simp, rfl⟩
      · cases C' with
        | nil =>
            rw [List.nil_append] at hC
            rw [List.append_nil] at he
            obtain ⟨xs, e', ys, A'', C', rfl, hf, hA, rfl⟩ := ih (A := []) hC.symm
            refine ⟨e :: xs, e', ys, A'', C', rfl, hf, ?_, rfl⟩
            rw [List.flatMap_cons, he, List.append_assoc, ← hA, List.append_nil]
        | cons c C' =>
            rw [List.cons_append, List.cons.injEq] at hC
            obtain ⟨rfl, rfl⟩ := hC
            exact ⟨[], e, es, A, C', rfl, he, rfl, rfl⟩

/-- An element of a list without duplicates is in one place. -/
theorem mid_unique {α : Type} {L R L' R' : List α} {a : α} (hnd : (L ++ a :: R).Nodup)
    (he : L ++ a :: R = L' ++ a :: R') : L = L' ∧ R = R' := by
  rw [List.nodup_middle, List.nodup_cons, List.mem_append, not_or] at hnd
  obtain ⟨hL, _, hR⟩ := (List.append_cons_inj_of_notMem hnd.1.1 hnd.1.2).mp he
  exact ⟨hL, hR⟩

/-! ## A node and the leaves around it -/

/-- The node at `a`, `k` levels above the leaves, has the leaves `L` before it and `R` after it. -/
inductive Spot (s : Store T P B) (root : Addr) (h : Nat) :
    Nat → Addr → List Addr → List Addr → Prop where
  | root : Spot s root h h root [] []
  | child {k : Nat} {p : Addr} {L R : List Addr} {xs ys : List (Addr × Nat)} {e : Addr × Nat}
      (hp : Spot s root h (k + 1) p L R) (hat : NodeAt s .internal p (xs ++ e :: ys) none) :
      Spot s root h k e.1 (L ++ xs.flatMap fun e => s.leavesUnder k e.1)
        ((ys.flatMap fun e => s.leavesUnder k e.1) ++ R)

theorem Counted.entries {es : List (Addr × Nat)} (hc : Counted s (k + 1) a)
    (hb : s.body a = some (.internal es)) :
    ∀ e ∈ es, Counted s k e.1 ∧ e.2 = s.weight (s.leavesUnder k e.1) := by
  obtain ⟨es', hb', _, he⟩ := hc
  rw [hb, Option.some.injEq, Body.internal.injEq] at hb'
  subst hb'
  intro e hmem
  obtain ⟨hce, hsize⟩ := he e hmem
  refine ⟨hce, ?_⟩
  rw [hsize, ← hce.countBelow, Store.countBelow, hce.leaves]
  rfl

namespace Spot

theorem counted (hx : Spot s root h k x L R) (hc : Counted s h root) : Counted s k x := by
  induction hx with
  | root => exact hc
  | child hp hat ih => exact (ih.entries hat.1 _ (List.mem_append_right _ List.mem_cons_self)).1

theorem le (hx : Spot s root h k x L R) : k ≤ h := by
  induction hx with
  | root => exact Nat.le_refl h
  | child hp hat ih => omega

theorem leaves (hx : Spot s root h k x L R) :
    s.leavesUnder h root = L ++ s.leavesUnder k x ++ R := by
  induction hx with
  | root => simp
  | child hp hat ih =>
      rw [ih, leavesUnder_internal hat.1]
      simp

end Spot

/-- Every leaf of a tree is in such a place. -/
theorem Below.spot {U : List Addr} (hb : Below s U Ds l) (ha : a ∈ U)
    (hs : Spot s root h Ds.length a L R) {A C : List Addr}
    (hx : s.leavesUnder Ds.length a = A ++ x :: C) : Spot s root h 0 x (L ++ A) (C ++ R) := by
  induction Ds generalizing U a L R A C with
  | nil =>
      obtain ⟨rfl, rfl, rfl⟩ : A = [] ∧ x = a ∧ C = [] := by
        rw [List.length_nil, Store.leavesUnder] at hx
        cases A with
        | nil => simpa [eq_comm] using hx
        | cons y A => simp at hx
      rw [List.append_nil, List.nil_append]
      exact hs
  | cons D Ds ih =>
      obtain ⟨es, nx, hat⟩ := hb.nodeAt ha
      have hat : NodeAt s .internal a es none := hat
      rw [List.length_cons, leavesUnder_internal hat.1] at hx
      obtain ⟨xs, e, ys, A', C', rfl, hx', rfl, rfl⟩ := flatMap_eq_mid hx
      have he : e.1 ∈ D := by
        rw [← hb.1.kids]
        refine List.mem_flatMap.mpr ⟨a, ha, ?_⟩
        rw [hat.kids]
        exact List.mem_map_of_mem (List.mem_append_right _ List.mem_cons_self)
      have := ih hb.2.2 he (.child hs hat) hx'
      simpa using this

/-! ## Climbing -/

/-- The slot is that of the item with the index `pos` in the leaves `ls`. -/
def SlotAt (s : Store T P B) (ls : List Addr) (slot : Slot) (pos : Nat) : Prop :=
  ∃ L R, ls = L ++ slot.1 :: R ∧ slot.2 < s.lengthAt slot.1 ∧ s.weight L + slot.2 = pos

/-- The slot of the item with the index `pos` in the leaves `ls`, if there is one. -/
def Target (s : Store T P B) (ls : List Addr) (pos : Nat) : Option Slot → Prop
  | none => s.weight ls ≤ pos
  | some slot => SlotAt s ls slot pos

theorem weight_entries {es : List (Addr × Nat)}
    (he : ∀ e ∈ es, e.2 = s.weight (s.leavesUnder k e.1)) :
    s.weight (es.flatMap fun e => s.leavesUnder k e.1) = (es.map Prod.snd).sum := by
  induction es with
  | nil => rfl
  | cons e es ih =>
      rw [List.flatMap_cons, weight_append, ih fun e' h => he e' (List.mem_cons_of_mem _ h),
        List.map_cons, List.sum_cons, ← he e List.mem_cons_self]

/-- One turn of the loop: the item is below a sibling to the right, or it is further up. -/
theorem nthStep_spec {xs ys : List (Addr × Nat)} {e : Addr × Nat} {l : Option Addr × Nat}
    (hat : NodeAt s .internal p (xs ++ e :: ys) none) (hl : s.link p = some l)
    (hys : ∀ e ∈ ys, Counted s k e.1 ∧ e.2 = s.weight (s.leavesUnder k e.1)) :
    Returns (nthStep p xs.length n) s (fun r s' => s' = s ∧ match r with
      | .inr none => l.1 = none ∧ s.weight (ys.flatMap fun e => s.leavesUnder k e.1) ≤ n
      | .inr (some slot) => Target s (ys.flatMap fun e => s.leavesUnder k e.1) n (some slot)
      | .inl (q, i, m) => l = (some q, i)
          ∧ n = s.weight (ys.flatMap fun e => s.leavesUnder k e.1) + m) := by
  obtain ⟨m, hr, hm⟩ := Store.body_internal.mp hat.1
  obtain ⟨rest, hsz⟩ := hm.sizes
  have hslice := Slots.slice?_prefix hsz
  rw [List.length_map, ← hm.length] at hslice
  have hdrop : ((xs ++ e :: ys).map Prod.snd).drop (xs.length + 1) = ys.map Prod.snd := by
    rw [List.append_cons, List.map_append]
    exact List.drop_left' (by simp)
  unfold nthStep
  simp only [returns_bind, returns_derefInternal, returns_orFault]
  refine ⟨m, hr, _, hslice, ?_⟩
  rw [hdrop]
  rcases position_spec (ys.map Prod.snd) n with ⟨S₁, w, S₂, i, hS, hp, rfl, hlt⟩ | ⟨i, hp, rfl⟩
  · -- the item is below one of the children further right
    obtain ⟨zs, ws, rfl, rfl, hws⟩ := List.map_eq_append_iff.mp hS
    obtain ⟨e', ws, rfl, rfl, rfl⟩ := List.map_eq_cons_iff.mp hws
    obtain ⟨hce, hw⟩ := hys e' (List.mem_append_right _ List.mem_cons_self)
    have hb : s.body p = some (.internal ((xs ++ e :: zs) ++ e' :: ws)) := by
      rw [hat.1]
      simp
    have hlen : xs.length + 1 + (zs.map Prod.snd).length = (xs ++ e :: zs).length := by
      simp only [List.length_append, List.length_cons, List.length_map]
      omega
    simp only [hp, returns_bind, hlen, InternalNode.child_spec hb, returns_pure]
    refine (hce.subtree.leafFor_spec (hw ▸ Nat.le_of_lt hlt)).mono ?_
    intro r s' hr
    obtain ⟨rfl, hloc⟩ := hr
    have hk := hloc.lt (hw ▸ hlt)
    obtain ⟨L, R, hL, rfl, _⟩ := hloc.split
    refine ⟨rfl, (zs.flatMap fun e => s'.leavesUnder k e.1) ++ L,
      R ++ ws.flatMap fun e => s'.leavesUnder k e.1, ?_, hk, ?_⟩
    · rw [List.flatMap_append, List.flatMap_cons, hL]
      simp
    · rw [weight_append, weight_entries fun e he => (hys e (List.mem_append_left _ he)).2]
      omega
  · -- it is not below this node
    have hw := weight_entries fun e he => (hys e he).2
    simp only [hp, returns_bind, Node.index_spec hat hl, returns_parent hl]
    obtain ⟨q, j⟩ := l
    cases q with
    | none => exact ⟨rfl, rfl, by rw [hw]; omega⟩
    | some q => exact ⟨rfl, rfl, by rw [hw]⟩

namespace Spot

theorem link_child {xs ys : List (Addr × Nat)} {e : Addr × Nat}
    (hat : NodeAt s .internal p (xs ++ e :: ys) none) : s.link e.1 = some (some p, xs.length) := by
  have hget : (xs ++ e :: ys)[xs.length]? = some e := by simp
  rw [hat.2.link_get hget, Nat.zero_add]

theorem link (hx : Spot s root h k x L R) (hl : s.link root = some (none, 0)) :
    ∃ l, s.link x = some l ∧ (l.1 = none → L = [] ∧ R = []) := by
  cases hx with
  | root => exact ⟨(none, 0), hl, fun _ => ⟨rfl, rfl⟩⟩
  | child hp hat => exact ⟨_, link_child hat, fun h => nomatch h⟩

/-- The loop, on its way from the node `x` up: what is looked for is `n` items further right. -/
theorem climb (hx : Spot s root h k x L R) (hc : Counted s h root)
    (hl : s.link root = some (none, 0)) {i : Nat} (hlx : s.link x = some (some p, i)) :
    ∀ fuel n, h - k < fuel →
    Returns (loop .outOfFuel (fun (parent, childIndex, n) => nthStep parent childIndex n) fuel
      (p, i, n) : Exec T P B (Option (Addr × Nat))) s (fun r s' => s' = s
      ∧ Target s (s.leavesUnder h root) (s.weight (L ++ s.leavesUnder k x) + n) r) := by
  induction hx generalizing p i with
  | root =>
      rw [hl] at hlx
      cases hlx
  | @child k q L R xs ys e hp hat ih =>
      intro fuel n hf
      have hle := hp.le
      obtain ⟨fuel, rfl⟩ := Nat.exists_eq_succ_of_ne_zero (n := fuel) (by omega)
      rw [link_child hat, Option.some.injEq, Prod.mk.injEq, Option.some.injEq] at hlx
      obtain ⟨rfl, rfl⟩ := hlx
      obtain ⟨l, hlq, htop⟩ := hp.link hl
      have hent := (hp.counted hc).entries hat.1
      have hleaves := hp.leaves
      rw [leavesUnder_internal hat.1, List.flatMap_append, List.flatMap_cons] at hleaves
      rw [loop, returns_bind]
      refine (nthStep_spec hat hlq fun e he =>
        hent e (List.mem_append_right _ (List.mem_cons_of_mem _ he))).mono ?_
      intro r s' hr
      obtain ⟨rfl, hr⟩ := hr
      cases r with
      | inr o =>
          rw [returns_pure]
          refine ⟨rfl, ?_⟩
          cases o with
          | none =>
              -- there is no parent, so nothing is further right
              obtain ⟨rfl, rfl⟩ := htop hr.1
              rw [hleaves]
              simp only [Target, List.nil_append, List.append_nil, weight_append] at hr ⊢
              omega
          | some slot =>
              obtain ⟨A, C, hA, hlt, rfl⟩ := hr
              refine ⟨L ++ (xs.flatMap fun e => s'.leavesUnder k e.1) ++ s'.leavesUnder k e.1 ++ A,
                C ++ R, ?_, hlt, ?_⟩
              · rw [hleaves, hA]
                simp
              · simp only [weight_append]
                omega
      | inl st =>
          obtain ⟨q', j, m⟩ := st
          obtain ⟨rfl, rfl⟩ := hr
          refine (ih hlq fuel m (by omega)).mono ?_
          intro r s hr
          obtain ⟨rfl, htar⟩ := hr
          refine ⟨rfl, ?_⟩
          -- the node passed and what is left to skip add up as before
          have hpos : s.weight (L ++ s.leavesUnder (k + 1) q) + m
              = s.weight (L ++ (xs.flatMap fun e => s.leavesUnder k e.1) ++ s.leavesUnder k e.1)
                + (s.weight (ys.flatMap fun e => s.leavesUnder k e.1) + m) := by
            rw [leavesUnder_internal hat.1, List.flatMap_append, List.flatMap_cons]
            simp only [weight_append]
            omega
          rw [hpos] at htar
          exact htar

end Spot

theorem nth_spec {xs : List T} {nx : Option Addr} {index : Nat} (hx : Spot s root h 0 a L R)
    (hc : Counted s h root) (hl : s.link root = some (none, 0))
    (hb : s.body a = some (.leaf xs nx)) (hi : index ≤ xs.length) :
    Returns (nth a index n) s (fun r s' => s' = s
      ∧ Target s (s.leavesUnder h root) (s.weight L + index + n) r) := by
  have hat : NodeAt s .leaf a xs nx := hb
  have hlen : s.lengthAt a = xs.length := lengthAt_of_body hb
  have hleaves : s.leavesUnder h root = L ++ a :: R := by
    rw [hx.leaves, Store.leavesUnder, List.append_assoc, List.singleton_append]
  obtain ⟨l, hla, htop⟩ := hx.link hl
  unfold nth
  simp only [returns_bind, Node.length_spec hat, returns_sub, returns_ite]
  refine ⟨hi, fun hn => ?_, fun hn => ?_⟩
  · simp only [Node.index_spec hat hla, returns_parent hla]
    obtain ⟨q, j⟩ := l
    cases q with
    | none =>
        obtain ⟨rfl, rfl⟩ := htop rfl
        rw [returns_pure, hleaves]
        refine ⟨rfl, ?_⟩
        simp only [Target, List.nil_append, weight_cons, weight_nil, hlen]
        omega
    | some q =>
        simp only [returns_bind, returns_get]
        -- past the end of the leaf: from its parent on
        refine (hx.climb hc hl hla _ _ (Nat.lt_succ_of_lt ?_)).mono ?_
        · rw [Nat.sub_zero]
          exact hc.height_lt
        · intro r s' hr
          obtain ⟨rfl, htar⟩ := hr
          have hpos : s'.weight (L ++ s'.leavesUnder 0 a) + (n - (xs.length - index))
              = s'.weight L + index + n := by
            rw [Store.leavesUnder, weight_append, weight_cons, weight_nil, hlen]
            omega
          rw [hpos] at htar
          exact ⟨rfl, htar⟩
  · rw [returns_pure]
    -- in the same leaf
    refine ⟨rfl, L, R, hleaves, ?_, ?_⟩
    · show index + n < s.lengthAt a
      omega
    · show s.weight L + (index + n) = _
      omega

/-! ## Positions -/

/--
The cursor is in a leaf of the vector, `pos` items lie before it, and it knows how many
are still to come.
-/
structure Denotes (v : BTreeVec) (s : Store T P B) (c : Cursor) (pos : Nat) : Prop where
  place : ∃ a L R, c.leaf = some a ∧ s.leavesOf v = L ++ a :: R ∧ c.index ≤ s.lengthAt a
    ∧ s.weight L + c.index = pos
  remaining : c.remaining = (s.itemsOf v).length - pos

theorem RowAt.weight {U : List Addr} {nx : Option Addr} (hU : RowAt s .leaf U l nx) :
    s.weight U = l.length := by
  induction U generalizing l with
  | nil => rw [show l = [] from hU]; rfl
  | cons a U ih =>
      obtain ⟨E, l', rfl, hE, hU⟩ := hU
      have hlen : s.lengthAt a = E.length := lengthAt_of_body hE
      rw [weight_cons, ih hU, hlen, List.length_append]

/-- A leaf of a vector, with the items before it, in it and after it. -/
structure LeafOf (v : BTreeVec) (s : Store T P B) (l : List T) (a : Addr) (L R : List Addr)
    (root : Addr) (Ds : List (List Addr)) (xs : List T) : Prop where
  root_eq : v.root = some root
  tree : Tree s root Ds l
  leaves : s.leavesUnder Ds.length root = L ++ a :: R
  body : s.body a = some (.leaf xs R.head?)
  items : ∃ l₁ l₂, l = l₁ ++ (xs ++ l₂) ∧ s.weight L = l₁.length ∧ s.weight R = l₂.length

namespace LeafOf

variable {xs : List T}

theorem of_vec (hv : VecAt s v l F) (hl : s.leavesOf v = L ++ a :: R) :
    ∃ root Ds xs, LeafOf v s l a L R root Ds xs := by
  cases hv with
  | empty => exact absurd (show [] = L ++ a :: R from hl) (by simp)
  | @tree root Ds l ht =>
      have hleaves : s.leavesUnder Ds.length root = L ++ a :: R := ht.leaves ▸ hl
      obtain ⟨As, hat, _⟩ := ht.atLeaves
      have hrow := hat.row
      rw [hleaves] at hrow
      obtain ⟨l₁, xs, l₂, rfl, h₁, hE, h₂⟩ := RowAt.mid.mp hrow
      have hb : s.body a = some (.leaf xs (R.head?.or none)) := hE
      rw [Option.or_none] at hb
      exact ⟨root, Ds, xs, rfl, ht, hleaves, hb, l₁, l₂, rfl, RowAt.weight h₁, RowAt.weight h₂⟩

theorem spot (hl : LeafOf v s l a L R root Ds xs) : Spot s root Ds.length 0 a L R := by
  have := hl.tree.below.spot (List.mem_singleton.mpr rfl) .root hl.leaves
  rwa [List.nil_append, List.append_nil] at this

theorem length (hl : LeafOf v s l a L R root Ds xs) : s.lengthAt a = xs.length :=
  lengthAt_of_body hl.body

theorem leavesOf (hl : LeafOf v s l a L R root Ds xs) :
    s.leavesOf v = s.leavesUnder Ds.length root := by
  unfold Store.leavesOf
  rw [hl.root_eq]
  exact hl.tree.leaves

theorem weight (hl : LeafOf v s l a L R root Ds xs) :
    s.weight (s.leavesUnder Ds.length root) = l.length := by
  obtain ⟨l₁, l₂, rfl, h₁, h₂⟩ := hl.items
  rw [hl.leaves, weight_append, weight_cons, hl.length, h₁, h₂, List.length_append,
    List.length_append]

end LeafOf

/-- The item in the slot is the item with that index. -/
theorem SlotAt.slot {slot : Slot} {pos : Nat} (hs : SlotAt s (s.leavesOf v) slot pos)
    (hv : VecAt s v l F) : ∃ x, s.slot slot = some x ∧ l[pos]? = some x := by
  obtain ⟨L, R, hl, hlt, rfl⟩ := hs
  obtain ⟨root, Ds, xs, hleaf⟩ := LeafOf.of_vec hv hl
  obtain ⟨l₁, l₂, rfl, h₁, _⟩ := hleaf.items
  rw [hleaf.length] at hlt
  refine ⟨xs.get ⟨slot.2, hlt⟩, ?_, ?_⟩
  · rw [Store.slot, Store.items, hleaf.body]
    exact List.getElem?_eq_getElem hlt
  · rw [h₁, List.getElem?_append_right (Nat.le_add_right _ _), Nat.add_sub_cancel_left,
      List.getElem?_append_left hlt]
    exact List.getElem?_eq_getElem hlt

omit [TaggedPtr P] in
/-- A slot is at one position. -/
theorem SlotAt.unique {ls : List Addr} (hnd : ls.Nodup) {slot : Slot} {p q : Nat}
    (hp : SlotAt s ls slot p) (hq : SlotAt s ls slot q) : p = q := by
  obtain ⟨L, R, rfl, _, rfl⟩ := hp
  obtain ⟨L', R', he, _, rfl⟩ := hq
  rw [(mid_unique hnd he).1]

namespace Cursor

variable {c : Cursor} {pos : Nat}

/-- `skip` ends where its count says, or past the end. -/
theorem skip_spec (h : VecAt s v l F) (hc : Denotes v s c pos) (n : Nat) :
    Returns (skip c n) s (fun r s' => s' = s ∧
      ((pos + n < (s.itemsOf v).length ∧ ∃ slot, r.1 = some slot
        ∧ SlotAt s (s.leavesOf v) slot (pos + n) ∧ Denotes v s r.2 (pos + n + 1))
      ∨ ((s.itemsOf v).length ≤ pos + n ∧ r.1 = none ∧ r.2 = ⟨none, c.index, 0⟩))) := by
  obtain ⟨a, L, R, hleaf, hL, hi, rfl⟩ := hc.place
  obtain ⟨root, Ds, xs, hlo⟩ := LeafOf.of_vec h hL
  have hrem := hc.remaining
  have hw := hlo.weight
  rw [hlo.length] at hi
  rw [← hlo.leavesOf] at hw
  have hitems := h.itemsOf
  rw [hitems] at hrem ⊢
  unfold skip
  rw [hleaf]
  simp only [returns_bind]
  refine (nth_spec hlo.spot hlo.tree.counted.1 hlo.tree.link hlo.body hi).mono ?_
  intro r s' hr
  obtain ⟨rfl, htar⟩ := hr
  rw [← hlo.leavesOf] at htar
  cases r with
  | none =>
      have hle : s'.weight (s'.leavesOf v) ≤ _ := htar
      exact ⟨rfl, Or.inr ⟨by omega, rfl, rfl⟩⟩
  | some slot =>
      obtain ⟨L', R', hL', hlt, hpos⟩ := htar
      -- the slot found is in a leaf, so the position is within the vector
      have hin : s'.weight L + c.index + n < l.length := by
        rw [← hw, hL', weight_append, weight_cons]
        omega
      simp only [returns_bind, returns_sub, returns_pure]
      refine ⟨by omega, by omega, trivial, Or.inl ⟨hin, slot, rfl, ⟨L', R', hL', hlt, hpos⟩, ?_⟩⟩
      refine ⟨⟨slot.1, L', R', rfl, hL', hlt, ?_⟩, ?_⟩
      · show s'.weight L' + (slot.2 + 1) = _
        omega
      · show c.remaining - n - 1 = _
        rw [hitems]
        omega

end Cursor

/-! ## One call -/

variable {c : Cursor} {pos : Nat}

/-- What `nth(n)` does at `pos`: it gives the item `n` places on, or nothing. -/
theorem VecAt.nth_at (h : VecAt s v l F) (hc : Denotes v s c pos) (n : Nat) :
    (pos + n < l.length ∧ ∃ x slot c', l[pos + n]? = some x ∧ s.slot slot = some x
      ∧ SlotAt s (s.leavesOf v) slot (pos + n) ∧ Denotes v s c' (pos + n + 1)
      ∧ (Iter.nth c n : Exec T P B _) s = .ok (some x, c') s
      ∧ (IterMut.nth c n : Exec T P B _) s = .ok (some slot, c') s)
    ∨ (l.length ≤ pos + n
      ∧ (Iter.nth c n : Exec T P B _) s = .ok (none, ⟨none, c.index, 0⟩) s
      ∧ (IterMut.nth c n : Exec T P B _) s = .ok (none, ⟨none, c.index, 0⟩) s) := by
  obtain ⟨⟨o, c'⟩, s', he, rfl, hor⟩ := returns_iff.mp (Cursor.skip_spec h hc n)
  rw [h.itemsOf] at hor
  rcases hor with ⟨hlt, slot, rfl, hslot, hc'⟩ | ⟨hle, rfl, rfl⟩
  · obtain ⟨x, hx, hl⟩ := hslot.slot h
    have hchild := (LeafNode.child_slot (Q := fun y t => y = x ∧ t = s') hx).mpr ⟨rfl, rfl⟩
    obtain ⟨y, t, hy, rfl, rfl⟩ := returns_iff.mp hchild
    refine Or.inl ⟨hlt, y, slot, c', hl, hx, hslot, hc', ?_, ?_⟩
    · simp only [Iter.nth, bind, EStateM.bind, he, Cursor.item, hy]
      rfl
    · simp only [IterMut.nth, bind, EStateM.bind, he, Cursor.itemMut, hy]
      rfl
  · refine Or.inr ⟨hle, ?_, ?_⟩
    · simp only [Iter.nth, bind, EStateM.bind, he, Cursor.item]
      rfl
    · simp only [IterMut.nth, bind, EStateM.bind, he, Cursor.itemMut]
      rfl

theorem nth_at (h : Sound v s l F) (hc : Denotes v s c pos) (n : Nat) :
    (pos + n < l.length ∧ ∃ x slot c', l[pos + n]? = some x ∧ s.slot slot = some x
      ∧ SlotAt s (s.leavesOf v) slot (pos + n) ∧ Denotes v s c' (pos + n + 1)
      ∧ (Iter.nth c n : Exec T P B _) s = .ok (some x, c') s
      ∧ (IterMut.nth c n : Exec T P B _) s = .ok (some slot, c') s)
    ∨ (l.length ≤ pos + n
      ∧ (Iter.nth c n : Exec T P B _) s = .ok (none, ⟨none, c.index, 0⟩) s
      ∧ (IterMut.nth c n : Exec T P B _) s = .ok (none, ⟨none, c.index, 0⟩) s) :=
  h.vec.nth_at hc n

/-- A cursor that has left its leaf gives nothing more. -/
theorem steps_done (s : Store T P B) (calls : List Step) (i m : Nat) :
    steps Iter.step calls ⟨none, i, m⟩ s = .ok (List.replicate calls.length none) s
    ∧ steps IterMut.step calls ⟨none, i, m⟩ s = .ok (List.replicate calls.length none) s := by
  induction calls generalizing m with
  | nil => exact ⟨rfl, rfl⟩
  | cons call calls ih =>
      -- neither call looks at the store
      cases call with
      | next =>
          obtain ⟨h₁, h₂⟩ := ih m
          constructor
          · simp only [steps, bind, EStateM.bind]
            rw [show Iter.step .next ⟨none, i, m⟩ s = .ok (none, ⟨none, i, m⟩) s from rfl]
            simp only [h₁]
            rfl
          · simp only [steps, bind, EStateM.bind]
            rw [show IterMut.step .next ⟨none, i, m⟩ s = .ok (none, ⟨none, i, m⟩) s from rfl]
            simp only [h₂]
            rfl
      | nth n =>
          obtain ⟨h₁, h₂⟩ := ih 0
          constructor
          · simp only [steps, bind, EStateM.bind]
            rw [show Iter.step (.nth n) ⟨none, i, m⟩ s = .ok (none, ⟨none, i, 0⟩) s from rfl]
            simp only [h₁]
            rfl
          · simp only [steps, bind, EStateM.bind]
            rw [show IterMut.step (.nth n) ⟨none, i, m⟩ s = .ok (none, ⟨none, i, 0⟩) s from rfl]
            simp only [h₂]
            rfl

theorem Cursor.start_denotes (h : Sound v s l F) : Returns (start v) s (fun c s' => s' = s
    ∧ if v.root = none then c.leaf = none else Denotes v s c 0) := by
  have hsound := h
  have hitems := h.itemsOf
  cases h.vec with
  | empty => exact ⟨rfl, rfl⟩
  | @tree root Ds l ht =>
      have hroot : BTreeVec.root ⟨some root, l.length⟩ = some root := rfl
      obtain ⟨hsub, hw⟩ := hsound.subtree hroot
      unfold start
      simp only [returns_bind, returns_pure]
      refine (hsub.leafFor_spec (Nat.zero_le _)).mono ?_
      intro r s' hr
      obtain ⟨rfl, hloc⟩ := hr
      obtain ⟨L, R, hL, hzero, _⟩ := hloc.split
      refine ⟨rfl, ⟨r.1, L, R, rfl, hL, Nat.zero_le _, ?_⟩, ?_⟩
      · show s'.weight L + 0 = 0
        omega
      · rw [hitems, Nat.sub_zero]
        rfl

/--
**`nth(n)` skips `n` items**, from a cursor at any position. Past the end it gives nothing,
and so does every call after it.
-/
theorem nth_skips (h : Reachable v s) (hc : Denotes v s c pos) (n : Nat) :
    (pos + n < (s.itemsOf v).length ∧ ∃ x slot c', (s.itemsOf v)[pos + n]? = some x
      ∧ s.slot slot = some x ∧ SlotAt s (s.leavesOf v) slot (pos + n)
      ∧ Denotes v s c' (pos + n + 1)
      ∧ (Iter.nth c n : Exec T P B _) s = .ok (some x, c') s
      ∧ (IterMut.nth c n : Exec T P B _) s = .ok (some slot, c') s)
    ∨ ((s.itemsOf v).length ≤ pos + n ∧ ∃ c', c'.remaining = 0
      ∧ (Iter.nth c n : Exec T P B _) s = .ok (none, c') s
      ∧ (IterMut.nth c n : Exec T P B _) s = .ok (none, c') s
      ∧ ∀ calls, steps Iter.step calls c' s = .ok (List.replicate calls.length none) s
        ∧ steps IterMut.step calls c' s = .ok (List.replicate calls.length none) s) := by
  obtain ⟨l, F, hs⟩ := h.sound
  rw [hs.itemsOf]
  rcases nth_at hs hc n with hin | ⟨hle, hiter, hmut⟩
  · exact Or.inl hin
  · exact Or.inr ⟨hle, _, rfl, hiter, hmut, fun calls => steps_done s calls _ _⟩

/-- Skipping a subtree of six items, from the first of eight. -/
theorem nth_skips_pushed : ∃ (v : BTreeVec) (s : Store Nat PairPtr 4) (c : Cursor),
    Denotes v s c 0
    ∧ ((0 + 6 < (s.itemsOf v).length ∧ ∃ x slot c', (s.itemsOf v)[0 + 6]? = some x
      ∧ s.slot slot = some x ∧ SlotAt s (s.leavesOf v) slot (0 + 6)
      ∧ Denotes v s c' (0 + 6 + 1)
      ∧ (Iter.nth c 6 : Exec Nat PairPtr 4 _) s = .ok (some x, c') s
      ∧ (IterMut.nth c 6 : Exec Nat PairPtr 4 _) s = .ok (some slot, c') s)
    ∨ ((s.itemsOf v).length ≤ 0 + 6 ∧ ∃ c', c'.remaining = 0
      ∧ (Iter.nth c 6 : Exec Nat PairPtr 4 _) s = .ok (none, c') s
      ∧ (IterMut.nth c 6 : Exec Nat PairPtr 4 _) s = .ok (none, c') s
      ∧ ∀ calls, steps Iter.step calls c' s = .ok (List.replicate calls.length none) s
        ∧ steps IterMut.step calls c' s = .ok (List.replicate calls.length none) s)) := by
  obtain ⟨v, s, hist, hsize⟩ := pushed_four
  have h := Reachable.history hist
  obtain ⟨l, F, hs⟩ := h.sound
  obtain ⟨c, s', _, rfl, hc⟩ := returns_iff.mp (Cursor.start_denotes hs)
  have hroot : v.root ≠ none := by
    cases hs.vec with
    | empty => exact absurd hsize (by decide)
    | tree _ => exact Option.some_ne_none _
  rw [if_neg hroot] at hc
  exact ⟨v, s', c, hc, nth_skips h hc 6⟩

/-! ## Many calls -/

/-- A call gave the slot at the position `q`, or it was the last to give anything. -/
def Handed (v : BTreeVec) (s : Store T P B) (q : Nat) (c : Cursor) : Option Slot → Prop
  | none => c.leaf = none
  | some slot => SlotAt s (s.leavesOf v) slot q ∧ Denotes v s c (q + 1)

namespace IterMut

/-- A call of `next` gives the item at the position, or the last leaf was used up. -/
theorem next_at (h : Sound v s l F) (hc : Denotes v s c pos) {o : Option Slot} {c' : Cursor}
    (he : (IterMut.next c : Exec T P B _) s = .ok (o, c') s') :
    s' = s ∧ Handed v s pos c' o := by
  have hrun := Returns.of_ok (Q := fun r t => r = (o, c') ∧ t = s') he ⟨rfl, rfl⟩
  have hrem := hc.remaining
  obtain ⟨a, L, R, hleaf, hL, hi, rfl⟩ := hc.place
  obtain ⟨root, Ds, xs, hlo⟩ := LeafOf.of_vec h.vec hL
  obtain ⟨leaf, index, m⟩ := c
  obtain rfl : leaf = some a := hleaf
  rw [hlo.length] at hi
  dsimp only at hi hrem hrun
  rw [IterMut.next, returns_bind] at hrun
  by_cases hstay : index = xs.length
  · -- the leaf is used up
    subst hstay
    cases R with
    | nil =>
        rw [Cursor.advance_end hlo.body, Cursor.itemMut, returns_pure] at hrun
        obtain ⟨hr, rfl⟩ := hrun
        rw [Prod.mk.injEq] at hr
        obtain ⟨rfl, rfl⟩ := hr
        exact ⟨rfl, rfl⟩
    | cons b R =>
        have hL' : s.leavesOf v = (L ++ [a]) ++ b :: R := by rw [hL]; simp
        obtain ⟨_, _, ys, hlo'⟩ := LeafOf.of_vec h.vec hL'
        rw [Cursor.advance_move hlo.body, Cursor.itemMut, returns_bind] at hrun
        obtain ⟨_, hrun⟩ := hrun
        -- an empty leaf makes the access to the item panic
        obtain ⟨x, hx, hrun⟩ := LeafNode.child_returns hlo'.body hrun
        rw [returns_pure] at hrun
        obtain ⟨hr, rfl⟩ := hrun
        rw [Prod.mk.injEq] at hr
        obtain ⟨rfl, rfl⟩ := hr
        have hlt := (List.getElem?_eq_some_iff.mp hx).1
        rw [← hlo'.length] at hlt
        have hpos : s.weight (L ++ [a]) = s.weight L + xs.length := by
          rw [weight_append, weight_cons, weight_nil, hlo.length, Nat.add_zero]
        refine ⟨rfl, ⟨L ++ [a], R, hL', hlt, hpos⟩, ⟨b, L ++ [a], R, rfl, hL', hlt, ?_⟩, ?_⟩
        · rw [hpos]
        · show m - 1 = (s.itemsOf v).length - (s.weight L + xs.length + 1)
          omega
  · rw [Cursor.advance_stay hlo.body hstay, Cursor.itemMut, returns_bind] at hrun
    obtain ⟨_, hrun⟩ := hrun
    obtain ⟨x, hx, hrun⟩ := LeafNode.child_returns hlo.body hrun
    rw [returns_pure] at hrun
    obtain ⟨hr, rfl⟩ := hrun
    rw [Prod.mk.injEq] at hr
    obtain ⟨rfl, rfl⟩ := hr
    have hlt : index < s.lengthAt a := by rw [hlo.length]; omega
    refine ⟨rfl, ⟨L, R, hL, hlt, rfl⟩, ⟨a, L, R, rfl, hL, hlt, rfl⟩, ?_⟩
    show m - 1 = (s.itemsOf v).length - (s.weight L + index + 1)
    omega

/-- One call, if it returns, gives a slot at the position of the cursor or after it. -/
theorem step_at (h : Sound v s l F) (hc : Denotes v s c pos) {call : Step} {o : Option Slot}
    {c' : Cursor} (he : (IterMut.step call c : Exec T P B _) s = .ok (o, c') s') :
    s' = s ∧ ∃ q, pos ≤ q ∧ Handed v s q c' o := by
  cases call with
  | next =>
      obtain ⟨rfl, ho⟩ := next_at h hc he
      exact ⟨rfl, pos, Nat.le_refl pos, ho⟩
  | nth n =>
      have he : (IterMut.nth c n : Exec T P B _) s = .ok (o, c') s' := he
      rcases nth_at h hc n with ⟨_, x, slot, c'', _, _, hslot, hc', _, hmut⟩ | ⟨_, _, hmut⟩
      · rw [hmut] at he
        injection he with hr hs
        rw [Prod.mk.injEq] at hr
        obtain ⟨rfl, rfl⟩ := hr
        exact ⟨hs.symm, pos + n, Nat.le_add_right _ _, hslot, hc'⟩
      · rw [hmut] at he
        injection he with hr hs
        rw [Prod.mk.injEq] at hr
        obtain ⟨rfl, rfl⟩ := hr
        exact ⟨hs.symm, pos, Nat.le_refl pos, rfl⟩

theorem slots_done (calls : List Step) (i m : Nat) : slots calls ⟨none, i, m⟩ s = [] := by
  induction calls generalizing m with
  | nil => rfl
  | cons call calls ih =>
      cases call with
      | next => exact ih m
      | nth n => exact ih 0

/-- A run of calls goes through the positions upwards. -/
theorem slots_at (h : Sound v s l F) (calls : List Step) (hc : Denotes v s c pos) :
    ∃ ps : List Nat, List.Forall₂ (SlotAt s (s.leavesOf v)) (slots calls c s) ps
      ∧ (∀ q ∈ ps, pos ≤ q) ∧ ps.Pairwise (· < ·) := by
  induction calls generalizing c pos with
  | nil => exact ⟨[], .nil, fun q hq => absurd hq List.not_mem_nil, List.Pairwise.nil⟩
  | cons call calls ih =>
      rw [slots]
      cases he : (IterMut.step call c : Exec T P B _) s with
      | error e s' => exact ⟨[], .nil, fun q hq => absurd hq List.not_mem_nil, List.Pairwise.nil⟩
      | ok r s' =>
          obtain ⟨o, c'⟩ := r
          obtain ⟨rfl, q, hq, ho⟩ := step_at h hc he
          cases o with
          | none =>
              obtain ⟨leaf, i, m⟩ := c'
              obtain rfl : leaf = none := ho
              simp only [Option.toList_none, List.nil_append, slots_done]
              exact ⟨[], .nil, fun q hq => absurd hq List.not_mem_nil, List.Pairwise.nil⟩
          | some slot =>
              obtain ⟨hslot, hc'⟩ := ho
              obtain ⟨ps, hps, hle, hsorted⟩ := ih hc'
              refine ⟨q :: ps, .cons hslot hps, ?_, List.pairwise_cons.mpr ⟨hle, hsorted⟩⟩
              intro q' hq'
              rcases List.mem_cons.mp hq' with rfl | hq'
              · exact hq
              · have := hle q' hq'
                omega

end IterMut

omit [TaggedPtr P] in
theorem SlotAt.mem_positions {slots : List Slot} {ps : List Nat} {ls : List Addr}
    (hps : List.Forall₂ (SlotAt s ls) slots ps) {slot : Slot} (hslot : slot ∈ slots) :
    ∃ q ∈ ps, SlotAt s ls slot q := by
  induction hps with
  | nil => exact absurd hslot List.not_mem_nil
  | @cons slot' q slots ps h _ ih =>
      rcases List.mem_cons.mp hslot with rfl | hslot
      · exact ⟨q, List.mem_cons_self, h⟩
      · obtain ⟨q', hq', h'⟩ := ih hslot
        exact ⟨q', List.mem_cons_of_mem _ hq', h'⟩

omit [TaggedPtr P] in
/-- Slots at different positions are different slots. -/
theorem nodup_of_positions {slots : List Slot} {ps : List Nat} {ls : List Addr} (hnd : ls.Nodup)
    (hps : List.Forall₂ (SlotAt s ls) slots ps) (hsorted : ps.Pairwise (· < ·)) :
    slots.Nodup := by
  induction hps with
  | nil => exact List.nodup_nil
  | @cons slot q slots ps hslot hps ih =>
      rw [List.pairwise_cons] at hsorted
      refine List.nodup_cons.mpr ⟨fun hmem => ?_, ih hsorted.2⟩
      obtain ⟨q', hq', hslot'⟩ := SlotAt.mem_positions hps hmem
      have := hsorted.1 q' hq'
      have := hslot.unique hnd hslot'
      omega

/--
**An `IterMut` hands out no slot twice**: whatever calls of `next` and `nth` are made on it,
the slots are at increasing positions of the vector.
-/
theorem iter_mut_slots_increase (h : Reachable v s) :
    ∃ c, (v.iterMut : Exec T P B IterMut) s = .ok c s ∧ ∀ calls : List Step,
      (∃ ps, List.Forall₂ (SlotAt s (s.leavesOf v)) (IterMut.slots calls c s) ps
        ∧ ps.Pairwise (· < ·)) ∧ (IterMut.slots calls c s).Nodup := by
  obtain ⟨l, F, hs⟩ := h.sound
  obtain ⟨c, s', he, rfl, hc⟩ := returns_iff.mp (Cursor.start_denotes hs)
  refine ⟨c, he, fun calls => ?_⟩
  have hnd := hs.vec.leaves_nodup
  split at hc
  · obtain ⟨leaf, i, m⟩ := c
    obtain rfl : leaf = none := hc
    rw [IterMut.slots_done]
    exact ⟨⟨[], .nil, List.Pairwise.nil⟩, List.nodup_nil⟩
  · obtain ⟨ps, hps, _, hsorted⟩ := IterMut.slots_at hs calls hc
    exact ⟨⟨ps, hps, hsorted⟩, nodup_of_positions hnd hps hsorted⟩

theorem iter_mut_slots_increase_grownAndShrunk : ∃ (s : Store Nat PairPtr 3) (c : IterMut),
    (BTreeVec.iterMut ⟨some 6, 3⟩ : Exec Nat PairPtr 3 IterMut) s = .ok c s
    ∧ ∀ calls : List Step, (∃ ps, List.Forall₂ (SlotAt s (s.leavesOf ⟨some 6, 3⟩))
        (IterMut.slots calls c s) ps ∧ ps.Pairwise (· < ·)) ∧ (IterMut.slots calls c s).Nodup := by
  obtain ⟨s, h, _⟩ := grownAndShrunk_reachable
  exact ⟨s, iter_mut_slots_increase h⟩

end BTreeVec
