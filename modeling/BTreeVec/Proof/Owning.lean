import BTreeVec.Lib.Regions
import BTreeVec.Model.Program
import BTreeVec.Proof.Consume

/-!
# Owning iterators

`IntoIter` has the nodes of the vector it came from, and the items that it has not given
yet. Neither is touched by what happens to other nodes in the store, so its calls are about
the nodes that it has and about no others.
-/

set_option linter.dupNamespace false

namespace BTreeVec

open Prog

variable {T P : Type} {B : Nat} [TaggedPtr P] {s s' t : Store T P B} {v : BTreeVec} {l : List T}
  {F F' : Set Addr} {a root : Addr} {k : Nat} {A : List Addr} {c : IntoIter}

/-! ## The nodes of a vector are its region -/

namespace Tall

theorem live (h : Tall s k a) : ∀ x ∈ s.nodesUnder k a, s.heap.read x ≠ none := by
  induction k generalizing a with
  | zero =>
      obtain ⟨xs, nx, hb⟩ := h
      obtain ⟨n, hn, _⟩ := Store.body_leaf.mp hb
      intro x hx
      obtain rfl := List.mem_singleton.mp hx
      rw [hn]
      exact Option.some_ne_none _
  | succ k ih =>
      obtain ⟨es, hb, he⟩ := h
      obtain ⟨n, hn, _⟩ := Store.body_internal.mp hb
      rw [nodesUnder_succ hb]
      intro x hx
      rcases List.mem_cons.mp hx with rfl | hx
      · rw [hn]
        exact Option.some_ne_none _
      · obtain ⟨e, hem, hx⟩ := List.mem_flatMap.mp hx
        exact ih (he e hem) x hx

theorem lt_next (h : Tall s k a) (hk : k < (s.nodesUnder k a).length)
    (hnd : (s.nodesUnder k a).Nodup) : k < s.heap.next := by
  refine Nat.lt_of_lt_of_le hk (length_le_of_nodup hnd fun x hx => ?_)
  obtain ⟨c, hc⟩ := Option.ne_none_iff_exists'.mp (h.live x hx)
  exact Heap.lt_next_of_read hc

theorem leavesIn {fuel : Nat} (h : Tall s k a) (hk : k < fuel) :
    s.leavesIn fuel a = s.leavesUnder k a := by
  induction fuel generalizing k a with
  | zero => exact absurd hk (Nat.not_lt_zero k)
  | succ fuel ih =>
      cases k with
      | zero =>
          obtain ⟨xs, nx, hb⟩ := h
          obtain ⟨n, hr, _⟩ := Store.body_leaf.mp hb
          rw [Store.leavesIn, hr]
          rfl
      | succ k =>
          obtain ⟨es, hb, he⟩ := h
          obtain ⟨n, hr, _⟩ := Store.body_internal.mp hb
          rw [leavesUnder_internal hb, Store.leavesIn, hr]
          show (s.childrenAt a).flatMap _ = _
          rw [childrenAt_of_body hb, Body.kids, List.flatMap_map]
          exact List.flatMap_congr fun e hem => ih (he e hem) (by omega)

/-- The nodes of a tree are those that its root reaches. -/
theorem reach_iff {x : Addr} (h : Tall s k a) : (∃ d, Reach s a d x) ↔ x ∈ s.nodesUnder k a := by
  constructor
  · intro hr
    obtain ⟨d, hd⟩ := hr
    suffices ∃ j, Tall s j x ∧ s.nodesUnder j x ⊆ s.nodesUnder k a by
      obtain ⟨j, _, hsub⟩ := this
      exact hsub (s.self_mem_nodesUnder j x)
    induction hd with
    | root => exact ⟨k, h, List.Subset.refl _⟩
    | @child d p y hp hy ih =>
        obtain ⟨j, hj, hsub⟩ := ih
        cases j with
        | zero =>
            obtain ⟨xs, nx, hb⟩ := hj
            rw [childrenAt_of_body hb] at hy
            cases hy
        | succ j =>
            obtain ⟨es, hb, he⟩ := hj
            rw [childrenAt_of_body hb] at hy
            obtain ⟨e, hem, rfl⟩ := List.mem_map.mp hy
            rw [nodesUnder_succ hb] at hsub
            refine ⟨j, he e hem, fun z hz => hsub ?_⟩
            exact List.mem_cons_of_mem _ (List.mem_flatMap.mpr ⟨e, hem, hz⟩)
  · have hdown : ∀ {j y d}, Tall s j y → Reach s a d y → ∀ z ∈ s.nodesUnder j y,
        ∃ d, Reach s a d z := by
      intro j
      induction j with
      | zero =>
          intro y d _ hy z hz
          obtain rfl := List.mem_singleton.mp (show z ∈ [y] from hz)
          exact ⟨d, hy⟩
      | succ j ih =>
          intro y d hj hy z hz
          obtain ⟨es, hb, he⟩ := hj
          rw [nodesUnder_succ hb, List.mem_cons, List.mem_flatMap] at hz
          rcases hz with rfl | ⟨e, hem, hz⟩
          · exact ⟨d, hy⟩
          · refine ih (he e hem) (.child hy ?_) z hz
            rw [childrenAt_of_body hb]
            exact List.mem_map_of_mem hem
    exact hdown h .root x

end Tall

/-- There is a node on every level. -/
theorem Counted.height_lt_nodes (h : Counted s k a) : k < (s.nodesUnder k a).length := by
  induction k generalizing a with
  | zero => exact Nat.one_pos
  | succ k ih =>
      obtain ⟨es, hb, hne, he⟩ := h
      obtain ⟨e, hem⟩ := List.exists_mem_of_ne_nil es hne
      have hsub := List.sublist_flatten_of_mem
        (List.mem_map_of_mem (f := fun e => s.nodesUnder k e.1) hem)
      have hle := hsub.length_le
      have hlt := ih (he e hem).1
      rw [nodesUnder_succ hb, List.length_cons, List.flatMap_def]
      omega

theorem VecAt.live (h : VecAt s v l F) : ∀ x ∈ F, s.heap.read x ≠ none := by
  cases h with
  | empty => exact fun x hx => absurd hx (Set.notMem_empty x)
  | @tree root Ds l h =>
      intro x hx
      exact h.counted.1.tall.live x (h.nodesUnder_perm.mem_iff.mpr hx)

omit [TaggedPtr P] in
theorem Local.within (h : Local s s' F F') (hv : ∀ x ∈ F', s'.heap.read x ≠ none) :
    Heap.Within s.heap s'.heap F F' where
  outside x hx hl := by
    obtain ⟨c, hc⟩ := Option.ne_none_iff_exists'.mp hl
    exact h.outside x hx (Heap.lt_next_of_read hc)
  live x hx := by
    rcases h.live x hx with hF | ⟨hF, hlt⟩
    · exact Or.inl hF
    · exact Or.inr ⟨hF, h.outside x hF hlt ▸ hx⟩
  owned x hx := by
    rcases h.owned x hx with hF | hle
    · exact Or.inl hF
    · refine Or.inr (Classical.byContradiction fun hl => ?_)
      obtain ⟨c, hc⟩ := Option.ne_none_iff_exists'.mp hl
      exact absurd (Heap.lt_next_of_read hc) (Nat.not_lt_of_le hle)
  held := hv

omit [TaggedPtr P] in
theorem Razed.within {xs : List T} (h : Razed s s' A xs) :
    Heap.Within s.heap s'.heap {x | x ∈ A} ∅ :=
  .free h.gone h.other

theorem VecAt.drop_within (h : VecAt s v l F) : Returns v.drop s (fun _ s' =>
    Heap.Within s.heap s'.heap F ∅ ∧ s'.dropped = s.dropped ++ l) := by
  refine h.drop.mono ?_
  intro _ s' hr
  obtain ⟨A, _, hA, _, hraz⟩ := hr
  have hF : F = {x | x ∈ A} := Set.ext fun x => (hA x).symm
  rw [hF]
  exact ⟨hraz.within, hraz.dropped⟩

/-! ## What an owning iterator has -/

/-- The iterator has the items `l` to give, and the nodes `F`. -/
inductive Holding (s : Store T P B) : IntoIter → List T → Set Addr → Prop where
  | empty {n i m : Nat} : Holding s ⟨none, n, i, 0, ⟨none, m⟩⟩ [] ∅
  | tree {root : Addr} {k m : Nat} {c : IntoIter} {l : List T} (htall : Tall s k root)
      (hk : k < (s.nodesUnder k root).length) (hlink : s.link root = some (none, 0))
      (hnd : (s.nodesUnder k root).Nodup)
      (hat : IntoAt s ⟨some root, m⟩ (s.leavesUnder k root) l c) :
      Holding s c l {x | x ∈ s.nodesUnder k root}

/-- The items in the slots of the leaf from `i` to `n`, whatever its length is. -/
def Store.between (s : Store T P B) (a : Addr) (i n : Nat) : List T :=
  match s.heap.read a with
  | some (.leaf leaf) => ((leaf.children.toList.take n).drop i).filterMap id
  | _ => []

/-- The items that the iterator has not given: in the leaf it has begun, and in the others. -/
def IntoIter.items (s : Store T P B) (self : IntoIter) : List T :=
  match self.leaf with
  | some a => (if self.index = 0 then [] else s.between a self.index self.length)
      ++ s.itemsOf self.tree
  | none => []

theorem Emptied.congr (h : Emptied s a) (hr : t.heap.read a = s.heap.read a) : Emptied t a := by
  obtain ⟨nx, hb⟩ := h
  refine ⟨nx, ?_⟩
  rw [Store.body, hr]
  exact hb

theorem IntoAt.congr (h : IntoAt s v A l c) (hr : ∀ x ∈ A, t.heap.read x = s.heap.read x) :
    IntoAt t v A l c := by
  cases h with
  | done hA => exact .done fun b hb => (hA b hb).congr (hr b hb)
  | @leaf L R a n zs rest ys l hA nodup hL ha hk hc hlen hn hR =>
      have hmem : ∀ b, b = a ∨ b ∈ L ∨ b ∈ R → b ∈ A := fun b hb => by
        rw [hA]
        exact mem_mid.mpr hb
      refine .leaf hA nodup (fun b hb => ?_) ?_ hk hc hlen hn (hR.congr fun b hb => ?_)
      · exact (hL b hb).congr (hr b (hmem b (Or.inr (Or.inl hb))))
      · rw [hr a (hmem a (Or.inl rfl))]
        exact ha
      · rw [Store.body, hr b (hmem b (Or.inr (Or.inr hb)))]
        rfl

/-- The leaf that the iterator is in counts as one without items, once it gave the first. -/
theorem IntoAt.body_leaf (h : IntoAt s v A l c) :
    ∀ b ∈ A, ∃ xs nx, s.body b = some (.leaf xs nx) := by
  cases h with
  | done hA =>
      intro b hb
      obtain ⟨nx, hnx⟩ := hA b hb
      exact ⟨[], nx, hnx⟩
  | @leaf L R a n zs rest ys l hA nodup hL ha hk hc hlen hn hR =>
      intro b hb
      rw [hA, mem_mid] at hb
      rcases hb with rfl | hb | hb
      · cases zs with
        | nil => exact ⟨ys, R.head?, Store.body_leaf.mpr ⟨n, ha, hk, hlen, ⟨rest, hc⟩, hn⟩⟩
        | cons z zs =>
            refine ⟨[], R.head?, Store.body_leaf.mpr ⟨n, ha, hk, ?_, ⟨_, rfl⟩, hn⟩⟩
            rw [hlen, if_neg (List.cons_ne_nil z zs)]
            rfl
      · obtain ⟨nx, hnx⟩ := hL b hb
        exact ⟨[], nx, hnx⟩
      · exact hR.row.body_leaf hb

namespace Holding

theorem live (h : Holding s c l F) : ∀ x ∈ F, s.heap.read x ≠ none := by
  cases h with
  | empty => exact fun x hx => absurd hx (Set.notMem_empty x)
  | tree htall hk hlink hnd hat => exact htall.live

theorem sizeHint (h : Holding s c l F) : c.sizeHint = (l.length, some l.length) := by
  cases h with
  | empty => rfl
  | tree htall hk hlink hnd hat => exact IntoIter.sizeHint_spec hat

theorem items (h : Holding s c l F) : c.items s = l := by
  cases h with
  | empty => rfl
  | @tree root k m c l htall hk hlink hnd hat =>
      cases hat with
      | done hA => rfl
      | @leaf L R a n zs rest ys l hA nodup hL ha hkind hc hlen hn hR =>
          have hleaves : s.leaves root = L ++ a :: R := by
            rw [← hA]
            exact htall.leavesIn (htall.lt_next hk hnd)
          have hempty : L.flatMap s.itemsAt = [] := List.flatMap_eq_nil_iff.mpr fun b hb => by
            obtain ⟨nx, hb⟩ := hL b hb
            exact itemsAt_of_body hb
          have hR : R.flatMap s.itemsAt = l := by
            refine Eq.trans (List.flatMap_congr fun b hb => ?_) hR.row.items
            obtain ⟨xs, nx, hb⟩ := hR.row.body_leaf hb
            rw [itemsAt_of_body hb, Store.items, hb]
            rfl
          have hitems : s.itemsOf ⟨some root, m⟩ = s.itemsAt a ++ l := by
            show (s.leaves root).flatMap s.itemsAt = _
            rw [hleaves, List.flatMap_append, List.flatMap_cons, hempty, hR]
            rfl
          have hat : s.itemsAt a = if zs = [] then ys else [] := by
            rw [Store.itemsAt, ha]
            show (n.children.toList.take n.length).filterMap id = _
            rw [hc, hlen]
            split
            · rename_i hz
              subst hz
              have hf := filterMap_take_map (fun y : T => y) ys rest
              rw [List.map_id'] at hf
              exact hf
            · rfl
          show (if zs.length = 0 then [] else s.between a zs.length (zs.length + ys.length))
            ++ s.itemsOf ⟨some root, m⟩ = ys ++ l
          rw [hitems, hat]
          by_cases hz : zs = []
          · rw [if_pos hz, if_pos (List.length_eq_zero_iff.mpr hz)]
            rfl
          · have hbetween : s.between a zs.length (zs.length + ys.length) = ys := by
              rw [Store.between, ha]
              show ((n.children.toList.take (zs.length + ys.length)).drop zs.length).filterMap id
                = ys
              have hys : (ys.map some).length = ys.length := List.length_map some
              rw [hc, ← List.append_assoc, ← hys, ← List.length_append, List.take_left,
                List.drop_left, List.filterMap_map]
              exact List.filterMap_some
            rw [if_neg hz, if_neg (fun h0 => hz (List.length_eq_zero_iff.mp h0)), hbetween]
            rfl

/-- Whatever happens to other nodes. -/
theorem congr (h : Holding s c l F) (hr : ∀ x ∈ F, t.heap.read x = s.heap.read x) :
    Holding t c l F := by
  cases h with
  | empty => exact .empty
  | @tree root k m c l htall hk hlink hnd hat =>
      have hb : ∀ x ∈ s.nodesUnder k root, t.body x = s.body x := fun x hx => by
        rw [Store.body, hr x hx]
        rfl
      obtain ⟨htall', hnodes, hleaves⟩ := htall.congr fun x hx => Or.inl (hb x hx)
      have hlink' : t.link root = some (none, 0) := by
        rw [Store.link, hr root (s.self_mem_nodesUnder k root)]
        exact hlink
      have hat' := hat.congr fun x hx => hr x (s.leavesUnder_subset k root hx)
      rw [← hnodes] at hk hnd ⊢
      rw [← hleaves] at hat'
      exact .tree htall' hk hlink' hnd hat'

end Holding

/-! ## Calls on it -/

namespace BTreeVec

theorem intoIter_holding (h : VecAt s v l F) (hgap : NoGap v s) :
    Returns v.intoIter s (fun c s' => s' = s ∧ Holding s c l F) := by
  cases h with
  | empty => exact ⟨rfl, .empty⟩
  | @tree root Ds l ht =>
      refine (intoIter_spec (.tree ht) hgap).mono ?_
      intro c s' hr
      obtain ⟨rfl, hat, _⟩ := hr
      have hperm := ht.nodesUnder_perm
      have hF : {x | x ∈ rowNodes Ds [root] []} = {x | x ∈ s'.nodesUnder Ds.length root} :=
        Set.ext fun x => hperm.mem_iff.symm
      have hleaves : s'.leavesOf ⟨some root, l.length⟩ = s'.leavesUnder Ds.length root := ht.leaves
      obtain ⟨hc, _⟩ := ht.counted
      rw [hleaves] at hat
      rw [hF]
      exact ⟨rfl, .tree hc.tall hc.height_lt_nodes ht.link (hperm.nodup_iff.mpr ht.nodup) hat⟩

end BTreeVec

/-- A run that only takes items out of the leaves. -/
theorem Holding.of_frame {c' : IntoIter} {l' : List T} {m : Nat} (htall : Tall s k root)
    (hk : k < (s.nodesUnder k root).length) (hlink : s.link root = some (none, 0))
    (hnd : (s.nodesUnder k root).Nodup) (f : Frame s s' {x | x ∈ s.leavesUnder k root} ∅)
    (hleaf : ∀ b ∈ s.leavesUnder k root, ∃ xs nx, s.body b = some (.leaf xs nx))
    (hat : IntoAt s' ⟨some root, m⟩ (s.leavesUnder k root) l' c') :
    Holding s' c' l' {x | x ∈ s.nodesUnder k root}
      ∧ Heap.Within s.heap s'.heap {x | x ∈ s.nodesUnder k root} {x | x ∈ s.nodesUnder k root} := by
  obtain ⟨htall', hnodes, hleaves⟩ := htall.congr (t := s') fun x _ => by
    by_cases hx : x ∈ s.leavesUnder k root
    · exact Or.inr ⟨hleaf x hx, hat.body_leaf x hx⟩
    · exact Or.inl (f.body x hx)
  have hlink' := (f.link root (Set.notMem_empty root)).trans hlink
  have hold : Holding s' c' l' {x | x ∈ s'.nodesUnder k root} :=
    .tree htall' (by rw [hnodes]; exact hk) hlink' (by rw [hnodes]; exact hnd)
      (by rw [hleaves]; exact hat)
  rw [hnodes] at hold
  refine ⟨hold, Local.within ?_ hold.live⟩
  exact .of_frame f (s.leavesUnder_subset k root) (Set.empty_subset _) (Set.Subset.refl _)
    fun x hx => Or.inl hx

namespace IntoIter

theorem next_holding (h : Holding s c l F) : Returns (next c) s (fun r s' => r.1 = l.head?
    ∧ Holding s' r.2 l.tail F ∧ Heap.Within s.heap s'.heap F F ∧ s'.dropped = s.dropped) := by
  cases h with
  | empty =>
      exact ⟨rfl, .empty, .refl fun a ha => absurd ha (Set.notMem_empty a), rfl⟩
  | @tree root k m c l htall hk hlink hnd hat =>
      have hleaf := hat.body_leaf
      refine (next_spec hat).mono ?_
      intro p s' hr
      obtain ⟨o, c'⟩ := p
      obtain ⟨ho, hat', f, _⟩ := hr
      obtain ⟨hold, hw⟩ := Holding.of_frame htall hk hlink hnd f hleaf hat'
      exact ⟨ho, hold, hw, f.dropped⟩

/-- The items that `nth` skips are dropped, in their order. -/
theorem nth_holding (h : Holding s c l F) (n : Nat) : Returns (nth c n) s (fun r s' =>
    r.1 = l[n]? ∧ Holding s' r.2 (l.drop (n + 1)) F ∧ Heap.Within s.heap s'.heap F F
      ∧ s'.dropped = s.dropped ++ l.take n) := by
  have hstart : l = [] ++ l ∧ Holding s c l F ∧ Heap.Within s.heap s.heap F F
      ∧ s.dropped = s.dropped ++ [] := ⟨rfl, h, .refl h.live, (List.append_nil _).symm⟩
  unfold nth
  refine Returns.mono (returns_skipNext
    (fun done l' c t => l = done ++ l' ∧ Holding t c l' F ∧ Heap.Within s.heap t.heap F F
      ∧ t.dropped = s.dropped ++ done)
    (Q := fun done r t => ∃ l', l = done ++ l' ∧ Holding t r.2 l'.tail F
      ∧ Heap.Within s.heap t.heap F F ∧ t.dropped = s.dropped ++ done) ?_ ?_ hstart) ?_
  · intro done c t hr
    obtain ⟨hl, hold, hw, hd⟩ := hr
    refine (next_holding hold).mono ?_
    intro p t' hr
    obtain ⟨o, c'⟩ := p
    obtain ⟨ho, hold', hw', hd'⟩ := hr
    exact ⟨ho, [], hl, hold', hw.trans hw', hd'.trans hd⟩
  · intro done x l' c t hr
    obtain ⟨hl, hold, hw, hd⟩ := hr
    refine (next_holding hold).mono ?_
    intro p t' hr
    obtain ⟨o, c'⟩ := p
    obtain ⟨ho, hold', hw', hd'⟩ := hr
    refine ⟨ho, ⟨x :: l', hl, hold', hw.trans hw', hd'.trans hd⟩, ?_⟩
    rw [returns_modify]
    refine ⟨by rw [hl, List.append_assoc, List.singleton_append], ?_, hw.trans hw', ?_⟩
    · exact hold'.congr fun _ _ => rfl
    · show t'.dropped ++ [x] = s.dropped ++ (done ++ [x])
      rw [hd', hd, List.append_assoc]
  · intro p t hr
    obtain ⟨o, c'⟩ := p
    obtain ⟨ho, l', hl, hold, hw, hd⟩ := hr
    rw [List.nil_append] at hl hd
    -- what is left is the list without the items that were skipped
    obtain rfl : l' = l.drop n := by
      have hsplit := (List.take_append_drop n l).trans hl
      exact (List.append_cancel_left hsplit).symm
    rw [List.tail_drop] at hold
    exact ⟨ho, hold, hw, hd⟩

theorem step_holding (h : Holding s c l F) (call : Step) :
    Returns (step call c) s (fun r s' => r.1 = l[call.skips]?
      ∧ Holding s' r.2 (l.drop (call.skips + 1)) F ∧ Heap.Within s.heap s'.heap F F
      ∧ s'.dropped = s.dropped ++ l.take call.skips) := by
  cases call with
  | next =>
      refine (next_holding h).mono ?_
      intro r t hr
      obtain ⟨ho, hold, hw, hd⟩ := hr
      rw [List.head?_eq_getElem?] at ho
      rw [← List.drop_one] at hold
      exact ⟨ho, hold, hw, hd.trans (List.append_nil _).symm⟩
  | nth n => exact nth_holding h n

theorem len_holding (h : Holding s c l F) :
    Returns (len c) s (fun k s' => s' = s ∧ k = l.length) := by
  unfold len exactLen
  rw [h.sizeHint]
  simp only [returns_bind, returns_check, returns_pure]
  exact ⟨trivial, trivial, trivial⟩

/-- The iterator gives up its nodes, and drops the items that it has left in their order. -/
theorem drop_holding (h : Holding s c l F) : Returns c.drop s (fun _ s' =>
    Heap.Within s.heap s'.heap F ∅ ∧ s'.dropped = s.dropped ++ l) := by
  cases h with
  | empty => exact ⟨.free (fun a ha => absurd ha (Set.notMem_empty a)) fun _ _ => rfl,
      (List.append_nil _).symm⟩
  | @tree root k m c l htall hk hlink hnd hat =>
      have hleaf := hat.body_leaf
      cases hat with
      | @done n i hA =>
          -- no leaf has an item left
          have hitems : s.itemsUnder k root = [] :=
            List.flatMap_eq_nil_iff.mpr fun b hb => (hA b hb).items
          refine (BTreeVec.drop_spec (m := m) htall (htall.lt_next hk hnd) hlink hnd).mono ?_
          intro _ t hraz
          refine ⟨hraz.within, ?_⟩
          rw [hraz.dropped, hitems]
      | @leaf L R a n zs rest ys l hA nodup hL ha hkind hc hlen hn hR =>
          unfold IntoIter.drop
          simp only [returns_bind, Nat.add_sub_cancel_left]
          -- the rest of the leaf the iterator is in goes first
          refine (LeafNode.takeRest_spec ha hc hlen).mono ?_
          intro _ s₁ ht
          obtain ⟨m', hr, hlen', hpre, hnx, ho, hnext, hdrop⟩ := ht
          have hbody : ∀ x, x ≠ a → s₁.body x = s.body x := fun x hx => by
            rw [Store.body, ho x hx]
            rfl
          have ha₁ : Emptied s₁ a :=
            ⟨R.head?, Store.body_leaf.mpr ⟨m', hr, by rw [hpre]; exact hkind, hlen', ⟨_, rfl⟩,
              hnx.trans hn⟩⟩
          have haA : a ∈ s.leavesUnder k root := hA ▸ mem_mid.mpr (Or.inl rfl)
          have hnot : a ∉ L ++ R := by
            rw [hA, List.nodup_middle, List.nodup_cons] at nodup
            exact nodup.1
          have hL₁ : ∀ b ∈ L, Emptied s₁ b := fun b hb =>
            (hL b hb).congr (ho b fun he => hnot (he ▸ List.mem_append_left _ hb))
          have hR₁ : Tail s₁ R l := hR.congr fun b hb =>
            hbody b fun he => hnot (he ▸ List.mem_append_right _ hb)
          -- what the tree has left is the leaves to the right
          obtain ⟨htall₁, hnodes, hleaves⟩ := htall.congr (t := s₁) fun x _ => by
            by_cases hx : x = a
            · subst hx
              obtain ⟨nx, hnx⟩ := ha₁
              exact Or.inr ⟨hleaf x haA, [], nx, hnx⟩
            · exact Or.inl (hbody x hx)
          have hlink₁ : s₁.link root = some (none, 0) := by
            rw [← hlink]
            by_cases hx : root = a
            · rw [hx, Store.link, Store.link, hr, ha, Option.map_some, Option.map_some, Cell.link,
                Cell.link, Cell.nodePrefix, Cell.nodePrefix, hpre]
            · rw [Store.link, ho root hx]
              rfl
          have hnd₁ := hnd
          rw [← hnodes] at hk hnd₁
          have hw₁ : Heap.Within s.heap s₁.heap {x | x ∈ s.nodesUnder k root}
              {x | x ∈ s.nodesUnder k root} := by
            refine .write (s.leavesUnder_subset k root haA) ?_ ho
            rw [← hnodes]
            exact htall₁.live
          have hitems : s₁.itemsUnder k root = l := by
            rw [Store.itemsUnder, hleaves, hA, List.flatMap_append, List.flatMap_cons, ha₁.items,
              List.flatMap_eq_nil_iff.mpr fun b hb => (hL₁ b hb).items, hR₁.row.items]
            rfl
          refine (BTreeVec.drop_spec (m := m) htall₁ (htall₁.lt_next hk hnd₁) hlink₁ hnd₁).mono ?_
          intro _ t hraz
          have hw := hraz.within
          rw [hnodes] at hw
          refine ⟨hw₁.trans hw, ?_⟩
          rw [hraz.dropped, hitems, hdrop, List.append_assoc]

end IntoIter

end BTreeVec
