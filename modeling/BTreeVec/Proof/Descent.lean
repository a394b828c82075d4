import BTreeVec.Proof.Rows
import BTreeVec.Model.Vec

/-!
# Finding the leaf for an index

`leaf_for` relies on the counts alone, so its specification is about any subtree
whose counts are exact, whatever the state of its links, its leaf chain or its
occupancy. `Counted` is that subtree, given by its height.
-/

namespace BTreeVec

open Prog

variable {T P : Type} {B : Nat} [TaggedPtr P] {s s' : Store T P B} {a : Addr}

/-- The items in the leaves `k` levels below a node. -/
def Store.itemsUnder (s : Store T P B) (k : Nat) (a : Addr) : List T :=
  (s.leavesUnder k a).flatMap s.items

/-- The counts in the subtree of height `k` are exact, and no internal node in it is empty. -/
def Counted (s : Store T P B) : Nat → Addr → Prop
  | 0, a => ∃ xs nx, s.body a = some (.leaf xs nx)
  | k + 1, a => ∃ es, s.body a = some (.internal es) ∧ es ≠ []
      ∧ ∀ e ∈ es, Counted s k e.1 ∧ e.2 = (s.itemsUnder k e.1).length

theorem leavesUnder_internal {k : Nat} {es : List (Addr × Nat)}
    (h : s.body a = some (.internal es)) :
    s.leavesUnder (k + 1) a = es.flatMap fun e => s.leavesUnder k e.1 := by
  have hkids : s.kids a = es.map Prod.fst := by rw [Store.kids, h]; rfl
  rw [Store.leavesUnder, hkids, List.flatMap_map]

theorem itemsUnder_internal {k : Nat} {es : List (Addr × Nat)}
    (h : s.body a = some (.internal es)) :
    s.itemsUnder (k + 1) a = es.flatMap fun e => s.itemsUnder k e.1 := by
  rw [Store.itemsUnder, leavesUnder_internal h, List.flatMap_assoc]
  rfl

namespace Counted

/-- A node is at one height only. -/
theorem height_unique {j k : Nat} (hj : Counted s j a) (hk : Counted s k a) : j = k := by
  induction j generalizing k a with
  | zero =>
      obtain ⟨xs, nx, hb⟩ := hj
      cases k with
      | zero => rfl
      | succ k =>
          obtain ⟨es, hb', _⟩ := hk
          rw [hb] at hb'; cases hb'
  | succ j ih =>
      obtain ⟨es, hb, hne, he⟩ := hj
      cases k with
      | zero =>
          obtain ⟨xs, nx, hb'⟩ := hk
          rw [hb] at hb'; cases hb'
      | succ k =>
          obtain ⟨es', hb', _, he'⟩ := hk
          rw [hb, Option.some.injEq, Body.internal.injEq] at hb'
          subst hb'
          obtain ⟨e, es, rfl⟩ := List.exists_cons_of_ne_nil hne
          rw [ih (he e List.mem_cons_self).1 (he' e List.mem_cons_self).1]

/-- A path down the subtree visits different nodes, so it is not longer than the store. -/
theorem height_lt {k : Nat} (h : Counted s k a) : k < s.heap.next := by
  -- the nodes of one path down are distinct, their heights being so
  have path : ∀ (k : Nat) (a : Addr), Counted s k a → ∃ l : List Addr, l.length = k + 1 ∧ l.Nodup
      ∧ ∀ x ∈ l, x < s.heap.next ∧ ∃ j ≤ k, Counted s j x := by
    intro k
    induction k with
    | zero =>
        intro a hc
        refine ⟨[a], rfl, List.nodup_singleton a, fun x hx => ?_⟩
        obtain rfl := List.mem_singleton.mp hx
        obtain ⟨xs, nx, hb⟩ := hc
        exact ⟨Store.lt_next_of_body hb, 0, Nat.le_refl 0, xs, nx, hb⟩
    | succ k ih =>
        intro a hc
        have hc' := hc
        obtain ⟨es, hb, hne, he⟩ := hc'
        obtain ⟨e, es, rfl⟩ := List.exists_cons_of_ne_nil hne
        obtain ⟨l, hlen, hnd, hl⟩ := ih e.1 (he e List.mem_cons_self).1
        refine ⟨a :: l, by rw [List.length_cons, hlen],
          List.nodup_cons.mpr ⟨fun hmem => ?_, hnd⟩, ?_⟩
        · obtain ⟨_, j, hj, hcj⟩ := hl a hmem
          have := height_unique hcj hc
          omega
        · intro x hx
          rcases List.mem_cons.mp hx with rfl | hx
          · exact ⟨Store.lt_next_of_body hb, k + 1, Nat.le_refl _, hc⟩
          · obtain ⟨hlt, j, hj, hcj⟩ := hl x hx
            exact ⟨hlt, j, by omega, hcj⟩
  obtain ⟨l, hlen, hnd, hl⟩ := path k a h
  have := length_le_of_nodup hnd fun x hx => (hl x hx).1
  omega

end Counted

/-- The entry that `position` finds, and what is left of the index. -/
theorem position_spec (sizes : List Nat) (index : Nat) :
    (∃ S₁ m S₂ r, sizes = S₁ ++ m :: S₂ ∧ position sizes index = (some S₁.length, r)
      ∧ index = S₁.sum + r ∧ r < m)
    ∨ ∃ r, position sizes index = (none, r) ∧ index = sizes.sum + r := by
  induction sizes generalizing index with
  | nil => exact Or.inr ⟨index, rfl, (Nat.zero_add index).symm⟩
  | cons m sizes ih =>
      by_cases hm : m ≤ index
      · rcases ih (index - m) with ⟨S₁, k, S₂, r, rfl, hp, hi, hr⟩ | ⟨r, hp, hi⟩
        · left
          refine ⟨m :: S₁, k, S₂, r, rfl, ?_, ?_, hr⟩
          · rw [position, if_pos hm, hp]; rfl
          · rw [List.sum_cons]; omega
        · right
          refine ⟨r, ?_, ?_⟩
          · rw [position, if_pos hm, hp]; rfl
          · rw [List.sum_cons]; omega
      · left
        refine ⟨[], m, sizes, index, rfl, ?_, ?_, by omega⟩
        · rw [position, if_neg hm]; rfl
        · rw [List.sum_nil, Nat.zero_add]

/-- One turn of the loop goes to a child that has the index, the last child if no other does. -/
theorem leafForStep_spec {es : List (Addr × Nat)} {index : Nat}
    (hb : s.body a = some (.internal es)) (hne : es ≠ [])
    (hi : index ≤ (es.map Prod.snd).sum) :
    Returns (leafForStep a index) s (fun r s' => s' = s ∧ ∃ xs e ys i,
      es = xs ++ e :: ys ∧ r = .inl (e.1, i) ∧ index = (xs.map Prod.snd).sum + i
      ∧ i ≤ e.2 ∧ (i = e.2 → ys = [])) := by
  obtain ⟨n, hr, hn⟩ := Store.body_internal.mp hb
  obtain ⟨es, e, rfl⟩ : ∃ es' e, es = es' ++ [e] :=
    ⟨es.dropLast, es.getLast hne, (List.dropLast_append_getLast hne).symm⟩
  obtain ⟨rest, hs⟩ := hn.sizes
  have hlen : n.length = es.length + 1 := by rw [hn.length]; simp
  have htake : n.sizes.toList.take (n.length - 1) = es.map Prod.snd := by
    rw [hs, hlen, List.map_append, List.append_assoc, Nat.add_sub_cancel]
    exact List.take_left' (List.length_map _)
  unfold leafForStep
  simp only [returns_bind, returns_cast (Store.tag_of_body hb), Body.kind,
    returns_derefInternal, returns_sub, returns_pure]
  refine ⟨n, hr, by omega, ?_⟩
  rw [htake]
  rw [List.map_append, List.sum_append] at hi
  rcases position_spec (es.map Prod.snd) index with ⟨S₁, m, S₂, i, hS, hp, rfl, hlt⟩ | ⟨i, hp, rfl⟩
  · -- one of the children before the last
    obtain ⟨xs, zs, rfl, rfl, hzs⟩ := List.map_eq_append_iff.mp hS
    obtain ⟨e', ys, rfl, rfl, rfl⟩ := List.map_eq_cons_iff.mp hzs
    rw [hp, Option.getD_some, List.length_map]
    have hb' : s.body a = some (.internal (xs ++ e' :: (ys ++ [e]))) := by rw [hb]; simp
    refine (InternalNode.child_spec hb').mpr ⟨rfl, xs, e', ys ++ [e], i, by simp, rfl, rfl, ?_, ?_⟩
    · omega
    · intro h; omega
  · -- the last child
    rw [hp, Option.getD_none, hlen, Nat.add_sub_cancel]
    refine (InternalNode.child_spec hb).mpr ⟨rfl, es, e, [], i, rfl, rfl, rfl, ?_, fun _ => rfl⟩
    rw [List.map_singleton, List.sum_singleton] at hi
    omega

/-- Where `leaf_for` arrives: at an offset in a leaf that has the index, or in the last one. -/
structure Found (s : Store T P B) (k : Nat) (root : Addr) (index : Nat) (leaf : Addr) (i : Nat) :
    Prop where
  split : ∃ L R, s.leavesUnder k root = L ++ leaf :: R
    ∧ index = (L.flatMap s.items).length + i ∧ (i = (s.items leaf).length → R = [])
  le : i ≤ (s.items leaf).length

/-- An index of an item is never past the end of its leaf. -/
theorem Found.lt {k : Nat} {root leaf : Addr} {index i : Nat} (h : Found s k root index leaf i)
    (hi : index < (s.itemsUnder k root).length) : i < (s.items leaf).length := by
  obtain ⟨L, R, hU, rfl, hlast⟩ := h.split
  refine Nat.lt_of_le_of_ne h.le fun he => ?_
  obtain rfl := hlast he
  rw [Store.itemsUnder, hU, List.flatMap_append, List.length_append] at hi
  simp only [List.flatMap_cons, List.flatMap_nil, List.append_nil] at hi
  omega

/-- The loop, going down a subtree of height `k`. -/
theorem leafForLoop_spec {k fuel index : Nat} (hf : k < fuel) (h : Counted s k a)
    (hi : index ≤ (s.itemsUnder k a).length) :
    Returns (loop .outOfFuel (fun (root, index) => leafForStep root index) fuel (a, index)
      : Exec T P B (Addr × Nat)) s (fun r s' => s' = s ∧ Found s k a index r.1 r.2) := by
  induction k generalizing fuel a index with
  | zero =>
      obtain ⟨fuel, rfl⟩ := Nat.exists_eq_succ_of_ne_zero (Nat.ne_of_gt hf)
      obtain ⟨xs, nx, hb⟩ := h
      -- at a leaf the loop breaks
      simp only [Store.itemsUnder, Store.leavesUnder, List.flatMap_cons, List.flatMap_nil,
        List.append_nil] at hi
      rw [loop, returns_bind]
      unfold leafForStep
      simp only [returns_bind, returns_cast (Store.tag_of_body hb), Body.kind,
        returns_pure]
      exact ⟨trivial, ⟨[], [], rfl, (Nat.zero_add _).symm, fun _ => rfl⟩, hi⟩
  | succ k ih =>
      obtain ⟨fuel, rfl⟩ := Nat.exists_eq_succ_of_ne_zero
        (Nat.ne_of_gt (Nat.lt_of_le_of_lt (Nat.zero_le _) hf))
      obtain ⟨es, hb, hne, he⟩ := h
      -- the counts of some children are the items below them
      have hlen : ∀ F ⊆ es, (F.flatMap fun e => s.itemsUnder k e.1).length
          = (F.map Prod.snd).sum := by
        intro F hF
        rw [List.length_flatMap]
        congr 1
        exact List.map_congr_left fun e hmem => ((he e (hF hmem)).2).symm
      rw [itemsUnder_internal hb, hlen es (List.Subset.refl _)] at hi
      rw [loop, returns_bind]
      refine (leafForStep_spec hb hne hi).mono ?_
      intro _ s hr
      obtain ⟨rfl, xs, e, ys, i, rfl, rfl, rfl, hle, hlast⟩ := hr
      obtain ⟨hce, hse⟩ := he e (List.mem_append_right _ List.mem_cons_self)
      rw [hse] at hle hlast
      refine (ih (by omega) hce hle).mono ?_
      intro r s hr
      obtain ⟨leaf, j⟩ := r
      obtain ⟨rfl, hfound⟩ := hr
      obtain ⟨L, R, hU, rfl, hR⟩ := hfound.split
      have hkids : s.kids a = xs.map Prod.fst ++ e.1 :: ys.map Prod.fst := by
        rw [Store.kids, hb]; simp [Body.kids]
      refine ⟨rfl, ⟨(xs.map Prod.fst).flatMap (s.leavesUnder k) ++ L,
        R ++ (ys.map Prod.fst).flatMap (s.leavesUnder k), ?_, ?_, ?_⟩, hfound.le⟩
      · rw [Store.leavesUnder, hkids, List.flatMap_append, List.flatMap_cons, hU]
        simp
      · rw [← hlen xs (List.subset_append_left _ _), List.flatMap_append, List.length_append,
          List.flatMap_assoc, List.flatMap_map]
        simp only [Store.itemsUnder]
        omega
      · -- at the end of the leaf, the leaf is the last one
        intro hj
        obtain rfl := hR hj
        rw [hlast, List.map_nil, List.flatMap_nil, List.append_nil]
        rw [Store.itemsUnder, hU, List.flatMap_append, List.length_append]
        simp only [List.flatMap_cons, List.flatMap_nil, List.append_nil]
        show (L.flatMap s.items).length + j = _
        rw [show j = (s.items leaf).length from hj]

theorem leafFor_spec {k index : Nat} (h : Counted s k a)
    (hi : index ≤ (s.itemsUnder k a).length) :
    Returns (leafFor a index) s (fun r s' => s' = s ∧ Found s k a index r.1 r.2) := by
  rw [leafFor, returns_bind, returns_get]
  exact leafForLoop_spec (Nat.lt_succ_of_lt h.height_lt) h hi

/-! ## In a tree -/

theorem RowAt.items {U : List Addr} {l : List T} {nx : Option Addr} (h : RowAt s .leaf U l nx) :
    U.flatMap s.items = l := by
  induction U generalizing l with
  | nil => exact (show l = [] from h).symm
  | cons a U ih =>
      obtain ⟨E, C, rfl, hE, h⟩ := h
      have ha : s.items a = E := by rw [Store.items, show s.body a = _ from hE]; rfl
      rw [List.flatMap_cons, ha, ih h]

/-- Every node of the row is the root of a subtree with exact counts. -/
theorem Below.counted {U : List Addr} {Ds : List (List Addr)} {l : List T} (h : Below s U Ds l) :
    (∀ a ∈ U, Counted s Ds.length a ∧ s.total a = (s.itemsUnder Ds.length a).length)
    ∧ U.flatMap (s.itemsUnder Ds.length) = l := by
  induction Ds generalizing U with
  | nil =>
      constructor
      · intro a ha
        obtain ⟨E, nx, hE, _⟩ := RowAt.nodeAt h ha
        have hb : s.body a = some (.leaf E nx) := hE
        refine ⟨⟨E, nx, hb⟩, ?_⟩
        simp [Store.itemsUnder, Store.leavesUnder, Store.total, Store.items, hb, Body.total,
          Body.items]
      · have hone : ∀ a, s.itemsUnder 0 a = s.items a := fun a => by
          simp [Store.itemsUnder, Store.leavesUnder]
        rw [← RowAt.items h]
        exact congrArg (List.flatMap · U) (funext hone)
  | cons D Ds ih =>
      obtain ⟨he, _, h⟩ := h
      obtain ⟨hD, hl⟩ := ih h
      constructor
      · intro a ha
        obtain ⟨E, nx, hE, hsub⟩ := he.row.nodeAt ha
        -- the entries of `a` are in the row below it, which the induction is about
        have hent : ∀ e ∈ E, Counted s Ds.length e.1
            ∧ e.2 = (s.itemsUnder Ds.length e.1).length := by
          intro e hmem
          obtain ⟨d, hd, rfl⟩ := List.mem_map.mp (hsub hmem)
          exact hD d hd
        refine ⟨⟨E, hE.1, ?_, hent⟩, ?_⟩
        · intro hnil
          refine he.inner a ha ?_
          rw [hE.kids, hnil, kidsOf_nil]
        · rw [hE.total, List.length_cons, itemsUnder_internal hE.1, List.length_flatMap]
          exact congrArg List.sum (List.map_congr_left fun e hmem => (hent e hmem).2)
      · rw [← hl, ← he.kids, List.flatMap_assoc, List.length_cons]
        refine List.flatMap_congr fun a _ => ?_
        rw [Store.itemsUnder, Store.leavesUnder, List.flatMap_assoc]
        rfl

theorem Tree.counted {root : Addr} {Ds : List (List Addr)} {l : List T} (h : Tree s root Ds l) :
    Counted s Ds.length root ∧ s.itemsUnder Ds.length root = l := by
  obtain ⟨hc, hl⟩ := h.below.counted
  rw [List.flatMap_singleton] at hl
  exact ⟨(hc root List.mem_cons_self).1, hl⟩

end BTreeVec
