import BTreeVec.Proof.RemoveOnce
import BTreeVec.Proof.Skip

/-!
# An edit is local

An edit climbs from a leaf to the root, and on each level it writes the node it is at and,
for a removal, at most one of the siblings. `Trail` records the way so far, in terms of the
tree as it was: what is above has not been written yet, so one more turn finds the parent
and the siblings of the old tree there.
-/

set_option linter.dupNamespace false

namespace BTreeVec

open Prog

variable {T P : Type} {B : Nat} [TaggedPtr P] {s s' s₀ : Store T P B} {v v' : BTreeVec}
  {l l₀ : List T} {F : Set Addr} {root leaf n p m x : Addr} {Ds Ds₀ As : List (List Addr)}
  {L R : List Addr} {h k i index : Nat}

/-! ## What an edit may touch -/

/--
The record of the node at `x` is not what it was, its prefix apart: its length, its items or
children, its counts or `next` changed, or the node was created or destroyed.
-/
def Touched (s s' : Store T P B) (x : Addr) : Prop :=
  (s'.heap.read x).map Cell.strip ≠ (s.heap.read x).map Cell.strip

/-- The nodes on the way down from a node to the leaf, one a level. -/
inductive Path (s : Store T P B) (leaf : Addr) : Addr → List Addr → Prop where
  | leaf (h : s.IsLeaf leaf) : Path s leaf leaf [leaf]
  | child {p c : Addr} {path : List Addr} (hc : c ∈ s.childrenAt p) (h : Path s leaf c path) :
      Path s leaf p (p :: path)

/-- The way from the root to the leaf that an edit at the index goes to, if there is a root. -/
def EditPath (v : BTreeVec) (s : Store T P B) (index : Nat) (path : List Addr) : Prop :=
  match v.root with
  | none => path = []
  | some root => ∃ leaf i, leafFor root index s = .ok (leaf, i) s ∧ Path s leaf root path

/-- Only children of a touched node have another parent or another index. -/
def LinksLocal (s s' : Store T P B) : Prop :=
  ∀ x, s.heap.read x ≠ none → s'.heap.read x ≠ none → s'.link x ≠ s.link x →
    ∃ p, Touched s s' p ∧ (x ∈ s.childrenAt p ∨ x ∈ s'.childrenAt p)

/-- What `insert` leaves alone, and what it adds. -/
structure InsertLocal (v : BTreeVec) (s : Store T P B) (index : Nat) (v' : BTreeVec)
    (s' : Store T P B) : Prop where
  /-- Old nodes are touched on the path only, and there is one level more at most. -/
  path : ∃ path, EditPath v s index path
    ∧ (∀ x, s.heap.read x ≠ none → Touched s s' x → x ∈ path)
    ∧ ∀ root' d x, v'.root = some root' → Reach s' root' d x → d ≤ path.length
  /-- A new node is in the tree, and it is the only one on its level. -/
  created : ∀ x, s.heap.read x = none → s'.heap.read x ≠ none → ∃ root' d, v'.root = some root'
    ∧ Reach s' root' d x ∧ ∀ y, Reach s' root' d y → s.heap.read y = none → y = x
  links : LinksLocal s s'

/-- What `remove` leaves alone. -/
structure RemoveLocal (v : BTreeVec) (s : Store T P B) (index : Nat) (s' : Store T P B) :
    Prop where
  /-- On each level the node on the path and one of its siblings may be touched. -/
  levels : ∃ levels : List (Addr × Addr), EditPath v s index (levels.map Prod.fst)
    ∧ (∀ e ∈ levels, e.2 = e.1 ∨ some e.2 = (s.siblings e.1).1 ∨ some e.2 = (s.siblings e.1).2)
    ∧ ∀ x, Touched s s' x → ∃ e ∈ levels, x = e.1 ∨ x = e.2
  created : ∀ x, s.heap.read x = none → s'.heap.read x = none
  links : LinksLocal s s'

/-! ## Levels of the old tree -/

namespace Counted

theorem live (hc : Counted s k x) : s.heap.read x ≠ none := by
  obtain ⟨c, hread, _⟩ := Option.map_eq_some_iff.mp hc.tall.tag
  rw [hread]
  exact Option.some_ne_none c

theorem childrenAt (hc : Counted s k p) : s.childrenAt p = s.kids p := by
  cases k with
  | zero =>
      obtain ⟨xs, nx, hb⟩ := hc
      rw [childrenAt_of_body hb, Store.kids, hb]
      rfl
  | succ k =>
      obtain ⟨es, hb, _⟩ := hc
      rw [childrenAt_of_body hb, Store.kids, hb]
      rfl

theorem kid (hc : Counted s (k + 1) p) (hx : x ∈ s.kids p) : Counted s k x := by
  obtain ⟨es, hb, _, he⟩ := hc
  rw [Store.kids, hb] at hx
  obtain ⟨e, hem, rfl⟩ := List.mem_map.mp (show x ∈ es.map Prod.fst from hx)
  exact (he e hem).1

theorem path_length {path : List Addr} (hc : Counted s k p) (hp : Path s leaf p path) :
    path.length = k + 1 := by
  induction hp generalizing k with
  | leaf hl =>
      obtain ⟨node, hn⟩ := hl
      cases k with
      | zero => rfl
      | succ k =>
          obtain ⟨es, hb, _⟩ := hc
          obtain ⟨m, hm, _⟩ := Store.body_internal.mp hb
          rw [hn] at hm
          cases hm
  | child hx _ ih =>
      rw [hc.childrenAt] at hx
      cases k with
      | zero =>
          obtain ⟨xs, nx, hb⟩ := hc
          rw [Store.kids, hb] at hx
          exact absurd hx List.not_mem_nil
      | succ k => rw [List.length_cons, ih (hc.kid hx)]

end Counted

namespace Spot

theorem reach (hx : Spot s root h k x L R) : ∃ d, d + k = h ∧ Reach s root d x := by
  induction hx with
  | root => exact ⟨0, Nat.zero_add h, .root⟩
  | @child k p L R xs ys e hp hat ih =>
      obtain ⟨d, hd, hr⟩ := ih
      refine ⟨d + 1, by omega, .child hr ?_⟩
      rw [childrenAt_of_body hat.1]
      exact List.mem_map_of_mem (List.mem_append_right _ List.mem_cons_self)

/-- The node whose child this one says it is has it as a child. -/
theorem parent (hx : Spot s root h k x L R) (hl : s.link root = some (none, 0))
    (hp : s.link x = some (some p, i)) :
    ∃ L' R', Spot s root h (k + 1) p L' R' ∧ x ∈ s.kids p := by
  cases hx with
  | root =>
      rw [hl] at hp
      cases hp
  | @child k q L' R' xs ys e hq hat =>
      rw [link_child hat, Option.some.injEq, Prod.mk.injEq, Option.some.injEq] at hp
      obtain ⟨rfl, _⟩ := hp
      refine ⟨L', R', hq, ?_⟩
      rw [hat.kids]
      exact List.mem_map_of_mem (List.mem_append_right _ List.mem_cons_self)

/-- Only the root has no parent. -/
theorem eq_root (hx : Spot s root h k x L R) (hp : s.link x = some (none, i)) :
    x = root ∧ k = h := by
  cases hx with
  | root => exact ⟨rfl, rfl⟩
  | child hq hat =>
      rw [link_child hat] at hp
      cases hp

/-- A sibling is on the same level. -/
theorem beside (hx : Spot s root h k x L R) (hc : Counted s h root)
    (hl : s.link root = some (none, 0)) (hm : Remove.Beside s x m) : Counted s k m := by
  rcases hm with rfl | ⟨p, xs, ys, c, hlink, _, hb, hm⟩
  · exact hx.counted hc
  · obtain ⟨L', R', hp, _⟩ := hx.parent hl hlink
    refine (hp.counted hc).kid ?_
    rw [Store.kids, hb]
    show m ∈ (xs ++ (x, c) :: ys).map Prod.fst
    rw [List.map_append, List.map_cons, List.mem_append, List.mem_cons]
    rcases hm with hm | hm
    · obtain ⟨e, he, rfl⟩ := Option.map_eq_some_iff.mp hm
      exact Or.inl (List.mem_map_of_mem (List.mem_of_mem_getLast? he))
    · obtain ⟨e, he, rfl⟩ := Option.map_eq_some_iff.mp hm
      exact Or.inr (Or.inr (List.mem_map_of_mem (List.mem_of_mem_head? he)))

end Spot

theorem Remove.Beside.siblings (hm : Beside s x m) :
    m = x ∨ some m = (s.siblings x).1 ∨ some m = (s.siblings x).2 := by
  refine hm.imp_right fun hm => ?_
  obtain ⟨p, xs, ys, c, hlink, _, hb, hm⟩ := hm
  rw [siblings_of_slot hlink (childrenAt_of_body hb)]
  exact hm.imp (fun h => h.symm) fun h => h.symm

/-- A child of a node with two is at least half full. -/
theorem Tree.kids_wide (ht : Tree s root Ds l) (hx : Spot s root Ds.length k p L R)
    (hw : 2 ≤ s.width p) (hk : x ∈ s.kids p) : B / 2 ≤ s.width x := by
  obtain ⟨d, _, hr⟩ := hx.reach
  obtain ⟨W, Ds', hpW, hW, _⟩ := ht.row_of_reach hr
  exact hW.kids_wide hpW hw hk

/-! ## The way up -/

/--
An edit of the tree in `s₀` has climbed from the leaf to `n`, which is `k` levels up, and
`levels` are the nodes it may have written, in pairs: the one on its way, and one beside it.
Of the other nodes in `O` it wrote none.
-/
structure Trail (s₀ : Store T P B) (O : Set Addr) (root : Addr) (h : Nat) (leaf : Addr) (k : Nat)
    (n : Addr) (levels : List (Addr × Addr)) (s : Store T P B) : Prop where
  spot : ∃ L R, Spot s₀ root h k n L R
  path : Path s₀ leaf n (levels.map Prod.fst)
  below : ∀ e ∈ levels, ∃ j ≤ k, Counted s₀ j e.1 ∧ Counted s₀ j e.2
  beside : ∀ e ∈ levels, Remove.Beside s₀ e.1 e.2
  kept : ∀ x ∈ O, (∀ e ∈ levels, x ≠ e.1 ∧ x ≠ e.2) → Same s₀ s x
  /-- Links are rewritten one level below the nodes. -/
  link : ∀ x j, k ≤ j → Counted s₀ j x → s.link x = s₀.link x

namespace Trail

variable {O : Set Addr} {levels : List (Addr × Addr)}

theorem same_above (ht : Trail s₀ O root h leaf k n levels s)
    (hO : ∀ x, s₀.heap.read x ≠ none → x ∈ O) {j : Nat} (hj : k < j) (hx : Counted s₀ j x) :
    Same s₀ s x := by
  refine ht.kept x (hO x hx.live) fun e he => ?_
  obtain ⟨i, hi, h₁, h₂⟩ := ht.below e he
  constructor
  · intro hxe
    have := hx.height_unique (hxe ▸ h₁)
    omega
  · intro hxe
    have := hx.height_unique (hxe ▸ h₂)
    omega

/-- At the leaf. -/
theorem start {xs : List T} {nx : Option Addr} (hx : Spot s₀ root h 0 n L R)
    (hc : Counted s₀ h root) (hl : s₀.link root = some (none, 0))
    (hn : s₀.body n = some (.leaf xs nx)) (hm : Remove.Beside s₀ n m)
    (hsame : ∀ x ∈ O, x ≠ n → x ≠ m → Same s₀ s x)
    (hlink : ∀ x, s₀.heap.read x ≠ none → s.link x = s₀.link x) :
    Trail s₀ O root h n 0 n [(n, m)] s where
  spot := ⟨L, R, hx⟩
  path := by
    obtain ⟨node, hr, _⟩ := Store.body_leaf.mp hn
    exact .leaf ⟨node, hr⟩
  below e he := by
    obtain rfl := List.mem_singleton.mp he
    exact ⟨0, Nat.le_refl 0, hx.counted hc, hx.beside hc hl hm⟩
  beside e he := by
    obtain rfl := List.mem_singleton.mp he
    exact hm
  kept x hO hne := by
    obtain ⟨h₁, h₂⟩ := hne (n, m) (List.mem_singleton.mpr rfl)
    exact hsame x hO h₁ h₂
  link x j _ hx := hlink x hx.live

/--
One turn up to the parent `p`. It writes `p` and a node beside it, it links their children
anew, and it may take away a child of `p` that is empty.
-/
theorem climb (ht : Trail s₀ O root Ds₀.length leaf k n levels s) (htree : Tree s₀ root Ds₀ l₀)
    (hB : 2 ≤ B) (hO : ∀ x, s₀.heap.read x ≠ none → x ∈ O) (hl : s.link n = some (some p, i))
    (hm : Remove.Beside s p m)
    (hsame : ∀ x ∈ O, x ≠ p → x ≠ m →
      Same s s' x ∨ x ∈ s.kids p ∧ 2 ≤ s.width p ∧ s.width x = 0)
    (hlink : ∀ x, s₀.heap.read x ≠ none → x ∉ s.kids p → x ∉ s.kids m → s'.link x = s.link x) :
    Trail s₀ O root Ds₀.length leaf (k + 1) p ((p, m) :: levels) s' := by
  have hc := htree.counted.1
  obtain ⟨L, R, hn⟩ := ht.spot
  rw [ht.link n k (Nat.le_refl k) (hn.counted hc)] at hl
  obtain ⟨L', R', hp, hnp⟩ := hn.parent htree.link hl
  have hpc := hp.counted hc
  have hps := ht.same_above hO (Nat.lt_succ_self k) hpc
  -- the parent of `p` and the siblings have not been written either
  have hm₀ : Remove.Beside s₀ p m := by
    have hlp := ht.link p (k + 1) (Nat.le_succ k) hpc
    refine hm.congr hlp fun q j hq _ => ?_
    obtain ⟨_, _, hqs, _⟩ := hp.parent htree.link (hlp.symm.trans hq)
    exact (ht.same_above hO (by omega) (hqs.counted hc)).body
  have hmc := hp.beside hc htree.link hm₀
  have hms := ht.same_above hO (Nat.lt_succ_self k) hmc
  refine ⟨⟨L', R', hp⟩, ?_, ?_, ?_, ?_, ?_⟩
  · refine .child ?_ ht.path
    rw [hpc.childrenAt]
    exact hnp
  · intro e he
    rcases List.mem_cons.mp he with rfl | he
    · exact ⟨k + 1, Nat.le_refl _, hpc, hmc⟩
    · obtain ⟨j, hj, hje⟩ := ht.below e he
      exact ⟨j, Nat.le_succ_of_le hj, hje⟩
  · intro e he
    rcases List.mem_cons.mp he with rfl | he
    · exact hm₀
    · exact ht.beside e he
  · intro x hxO hne
    have hold := ht.kept x hxO fun e he => hne e (List.mem_cons_of_mem _ he)
    obtain ⟨hxp, hxm⟩ := hne (p, m) List.mem_cons_self
    rcases hsame x hxO hxp hxm with hnew | ⟨hk, hw, hwx⟩
    · exact hold.trans hnew
    · -- an empty child of a node with two was merged away one level below, and written there
      rw [kids_congr hps.body] at hk
      rw [width_congr hps.body] at hw
      rw [width_congr hold.body] at hwx
      have := htree.kids_wide hp hw hk
      omega
  · intro x j hj hx
    have hnot : ∀ {q : Addr}, Counted s₀ (k + 1) q → Same s₀ s q → x ∉ s.kids q := by
      intro q hq hqs hxq
      rw [kids_congr hqs.body] at hxq
      have := (hq.kid hxq).height_unique hx
      omega
    rw [hlink x hx.live (hnot hpc hps) (hnot hmc hms)]
    exact ht.link x j (by omega) hx

/-- Where the node has no parent, the way ends at the root. -/
theorem eq_root (ht : Trail s₀ O root h leaf k n levels s) (hc : Counted s₀ h root)
    (hl : s.link n = some (none, i)) : n = root ∧ k = h := by
  obtain ⟨L, R, hn⟩ := ht.spot
  rw [ht.link n k (Nat.le_refl k) (hn.counted hc)] at hl
  exact hn.eq_root hl

end Trail

/-! ## Who is linked anew -/

omit [TaggedPtr P] in
theorem mem_childrenAt {node : InternalNode P B} (hn : s.heap.read p = some (.internal node))
    (hi : i < node.length) (hx : node.children.get? i = some (some x)) : x ∈ s.childrenAt p := by
  rw [Store.childrenAt, hn]
  refine List.mem_filterMap.mpr ⟨some x, ?_, rfl⟩
  refine List.mem_of_getElem? (i := i) ?_
  rw [List.getElem?_take, if_pos hi]
  exact hx

/-- A node that is not the root is linked by its parent, so a parent left alone leaves it alone. -/
theorem PrefixesCorrect.relinked (hp : PrefixesCorrect v s) (hp' : PrefixesCorrect v' s')
    {c : Cell T P B} (hc : s.heap.read x = some c) (hr : v.root ≠ some x)
    (hl : s'.link x ≠ s.link x) : ∃ p, Touched s s' p ∧ x ∈ s.childrenAt p := by
  obtain ⟨p, node, hparent, hn, hi, hx, _⟩ := hp.parent x c hc hr
  refine ⟨p, fun hsame => hl ?_, mem_childrenAt hn hi hx⟩
  rw [hn, Option.map_some] at hsame
  obtain ⟨c', hn', he⟩ := Option.map_eq_some_iff.mp hsame
  obtain ⟨q, rfl⟩ := Cell.eq_internal_of_strip he
  obtain ⟨d, hd, hparent', hindex'⟩ := hp'.child p _ _ x hn' hi hx
  rw [Store.link, Store.link, hc, hd, Option.map_some, Option.map_some, Cell.link, Cell.link,
    hparent, hparent', hindex']

theorem Sound.linksLocal {l' : List T} {F' : Set Addr} (hs : Sound v s l F)
    (hs' : Sound v' s' l' F') : LinksLocal s s' := by
  intro x hx hx' hl
  obtain ⟨c, hc⟩ := Option.ne_none_iff_exists'.mp hx
  obtain ⟨c', hc'⟩ := Option.ne_none_iff_exists'.mp hx'
  by_cases hr : v.root = some x
  · by_cases hr' : v'.root = some x
    · -- a root has no parent, and its index is 0
      obtain ⟨d, hd, hp, hi⟩ := hs.prefixesCorrect.root x hr
      obtain ⟨d', hd', hp', hi'⟩ := hs'.prefixesCorrect.root x hr'
      refine absurd ?_ hl
      rw [Store.link, Store.link, hd, hd', Option.map_some, Option.map_some, Cell.link, Cell.link,
        hp, hp', hi, hi']
    · obtain ⟨p, hp, hxp⟩ := hs'.prefixesCorrect.relinked hs.prefixesCorrect hc' hr' hl.symm
      exact ⟨p, hp.symm, Or.inr hxp⟩
  · obtain ⟨p, hp, hxp⟩ := hs.prefixesCorrect.relinked hs'.prefixesCorrect hc hr hl
    exact ⟨p, hp, Or.inl hxp⟩

/-! ## Removal -/

omit [TaggedPtr P] in
theorem Path.head_mem {path : List Addr} (hp : Path s leaf p path) : p ∈ path := by
  cases hp with
  | leaf => exact List.mem_cons_self
  | child => exact List.mem_cons_self

/-- The leaf of an index is a node of the old tree. -/
theorem LeafSplit.spot {pre post l₁ xs ys l₂ : List T} {a : Addr} {U V : List Addr}
    (hs : LeafSplit s root Ds pre post a U V As l₁ xs ys l₂) (ht : Tree s root Ds l) :
    Spot s root Ds.length 0 a ([] ++ U) (V ++ []) :=
  ht.below.spot (List.mem_singleton.mpr rfl) .root hs.leaves

/-- Between two turns of a removal. -/
def Removing (s₀ : Store T P B) (root : Addr) (h index : Nat) (n : Addr) (s : Store T P B) : Prop :=
  ∃ leaf i k levels, leafFor root index s₀ = .ok (leaf, i) s₀
    ∧ Trail s₀ Set.univ root h leaf k n levels s

theorem Removing.climb (hr : Removing s₀ root Ds₀.length index n s) (ht : Tree s₀ root Ds₀ l₀)
    (hB : 3 ≤ B) (hc : Remove.Climbed s s' n p) : Removing s₀ root Ds₀.length index p s' := by
  obtain ⟨leaf, i, k, levels, hrun, htrail⟩ := hr
  obtain ⟨j, hl⟩ := hc.parent
  obtain ⟨m, hm, hsame, hlink⟩ := hc.wrote
  exact ⟨leaf, i, k + 1, _, hrun, htrail.climb ht (by omega) (fun _ _ => Set.mem_univ _) hl hm
    (fun x _ => hsame x) fun x _ => hlink x⟩

/-- The root is reached, and may have given way to its only child. -/
theorem Removing.local
    (hr : Remove.Collapsed (fun n _ => Removing s₀ root Ds₀.length index n) s')
    (ht : Tree s₀ root Ds₀ l₀) (hv : v.root = some root) (hlinks : LinksLocal s₀ s') :
    RemoveLocal v s₀ index s' := by
  obtain ⟨n, s, ⟨leaf, i, k, levels, hrun, htrail⟩, hl, hsame, _⟩ := hr
  obtain ⟨rfl, _⟩ := htrail.eq_root ht.counted.1 hl
  have htouched : ∀ x, Touched s₀ s' x → ∃ e ∈ levels, x = e.1 ∨ x = e.2 := by
    intro x hx
    by_contra hne
    have hne' : ∀ e ∈ levels, x ≠ e.1 ∧ x ≠ e.2 := fun e he =>
      ⟨fun h => hne ⟨e, he, Or.inl h⟩, fun h => hne ⟨e, he, Or.inr h⟩⟩
    have hxn : x ≠ n := by
      obtain ⟨e, he, hen⟩ := List.mem_map.mp htrail.path.head_mem
      rw [← hen]
      exact (hne' e he).1
    exact hx ((htrail.kept x (Set.mem_univ x) hne').trans (hsame x hxn)).strip
  refine ⟨⟨levels, ?_, fun e he => (htrail.beside e he).siblings, htouched⟩, fun x hx => ?_, hlinks⟩
  · rw [EditPath, hv]
    exact ⟨leaf, i, hrun, htrail.path⟩
  · by_contra hx'
    have ht : Touched s₀ s' x := by
      rw [Touched, hx]
      exact fun he => hx' (Option.map_eq_none_iff.mp he)
    obtain ⟨e, he, hxe⟩ := htouched x ht
    obtain ⟨j, _, h₁, h₂⟩ := htrail.below e he
    rcases hxe with rfl | rfl
    · exact h₁.live hx
    · exact h₂.live hx

theorem Sound.remove_local (h : Sound v s l F) (hi : index < v.size) : ∃ r s',
    (v.remove index : Exec T P B _) s = .ok r s' ∧ RemoveLocal v s index s' := by
  cases h.vec with
  | empty => exact absurd hi (Nat.not_lt_zero index)
  | @tree root Ds l ht =>
      obtain ⟨x, hx⟩ : ∃ x, l[index]? = some x := ⟨_, List.getElem?_eq_getElem hi⟩
      obtain ⟨pre, post, rfl, rfl⟩ := split_at hx
      have hrun := BTreeVec.remove_tree (G := fun n _ => Removing s root Ds.length pre.length n) ht
        h.branching ?_ fun hr hc => hr.climb ht h.branching hc
      · obtain ⟨r, s', he, root', Ds', hv', ht', heff, hcol⟩ := returns_iff.mp hrun
        have hlinks := h.linksLocal (h.of_local (.tree ht') heff.locality)
        exact ⟨r, s', he, Removing.local hcol ht rfl hlinks⟩
      · intro a i U V As l₁ xs ys l₂ hrun hs m s₁ _ _ _ _ _ hm f _
        refine ⟨a, i, 0, [(a, m)], hrun, .start (hs.spot ht) ht.counted.1 ht.link hs.leaf hm ?_ ?_⟩
        · intro x _ hxa hxm
          exact .of_frame f fun hx => hx.elim hxa hxm
        · intro x _
          exact f.link x (Set.notMem_empty x)

/-! ## Insertion -/

/-- One node of the row at most is not from the old tree. -/
def OneNew (s₀ : Store T P B) (D : List Addr) : Prop :=
  ∀ x ∈ D, ∀ y ∈ D, s₀.heap.read x = none → s₀.heap.read y = none → x = y

omit [TaggedPtr P] in
/-- A row of old nodes, with the one that was split off. -/
theorem OneNew.row {A₁ A₂ : List Addr} {split : Option Addr}
    (hold : ∀ x ∈ A₁ ++ p :: A₂, s₀.heap.read x ≠ none) :
    OneNew s₀ ((⟨p, split⟩ : Insert.Insertion).row A₁ A₂) := by
  have hnew : ∀ x ∈ (⟨p, split⟩ : Insert.Insertion).row A₁ A₂, s₀.heap.read x = none →
      x ∈ split := by
    intro x hx hdead
    rcases Insert.Insertion.mem_row hx with hx | hx
    · rcases List.mem_cons.mp hx with rfl | hx
      · exact absurd hdead (hold x (mem_mid.mpr (Or.inl rfl)))
      · exact Option.mem_toList.mp hx
    · exact absurd hdead (hold x (mem_mid.mpr (Or.inr hx)))
  intro x hx y hy hxd hyd
  exact Option.mem_unique (hnew x hx hxd) (hnew y hy hyd)

/-- How far up an insertion is: still in the old tree, or it has put a new root on top. -/
inductive Rising (s₀ : Store T P B) (root : Addr) (h index : Nat) (Ds : List (List Addr))
    (ins : Insert.Insertion) : List (List Addr) → Store T P B → Prop where
  | climbing {leaf : Addr} {i : Nat} {levels : List (Addr × Addr)} {As : List (List Addr)}
      {s : Store T P B} (hrun : leafFor root index s₀ = .ok (leaf, i) s₀)
      (ht : Trail s₀ {x | s₀.heap.read x ≠ none} root h leaf Ds.length ins.node levels s)
      (hpath : ∀ e ∈ levels, e.2 = e.1) (hnew : ∀ x ∈ ins.new, s₀.heap.read x = none) :
      Rising s₀ root h index Ds ins As s
  | rooted {leaf : Addr} {i : Nat} {path : List Addr} {s : Store T P B}
      (hrun : leafFor root index s₀ = .ok (leaf, i) s₀) (hp : Path s₀ leaf root path)
      (hkept : ∀ x, s₀.heap.read x ≠ none → x ∉ path → Same s₀ s x) (hnew : ins.new = none)
      (hlen : Ds.length = h + 1) : Rising s₀ root h index Ds ins [] s

/-- Between two turns of an insertion. -/
structure Inserting (s₀ : Store T P B) (root : Addr) (h index : Nat) (Ds : List (List Addr))
    (L : List Addr) (ins : Insert.Insertion) (R : List Addr) (As : List (List Addr))
    (s : Store T P B) : Prop where
  one_new : ∀ D ∈ ins.row L R :: Ds, OneNew s₀ D
  above : ∀ x ∈ As.flatten, s₀.heap.read x ≠ none
  next_le : s₀.heap.next ≤ s.heap.next
  rising : Rising s₀ root h index Ds ins As s

/-- Where no sibling was written, the path is all that was. -/
theorem Trail.same_off_path {O : Set Addr} {levels : List (Addr × Addr)}
    (ht : Trail s₀ O root h leaf k n levels s) (hpath : ∀ e ∈ levels, e.2 = e.1) (hx : x ∈ O)
    (hxp : x ∉ levels.map Prod.fst) : Same s₀ s x := by
  refine ht.kept x hx fun e he => ?_
  have hne : x ≠ e.1 := fun hxe => hxp (hxe ▸ List.mem_map_of_mem he)
  exact ⟨hne, by rw [hpath e he]; exact hne⟩

namespace Inserting

variable {ins : Insert.Insertion}

theorem lt_next (hi : Inserting s₀ root h index Ds L ins R As s) (hx : s₀.heap.read x ≠ none) :
    x < s.heap.next := by
  obtain ⟨c, hc⟩ := Option.ne_none_iff_exists'.mp hx
  exact Nat.lt_of_lt_of_le (Heap.lt_next_of_read hc) hi.next_le

theorem climb {A₁ A₂ : List Addr} {cnt : Addr → Nat} {D₁ xs ys D₂ : List (Addr × Nat)}
    {split : Option Addr} {size : Nat}
    (hi : Inserting s₀ root Ds₀.length index Ds L ins R ((A₁ ++ p :: A₂) :: As) s)
    (ht : Tree s₀ root Ds₀ l₀) (hB : 3 ≤ B)
    (c : Insert.Climb s s' Ds L ins R cnt A₁ p A₂ As D₁ xs ys D₂ split size l) :
    Inserting s₀ root Ds₀.length index (ins.row L R :: Ds) A₁ ⟨p, split⟩ A₂ As s' := by
  -- what is split off was not in the old tree
  have hsplit : ∀ x ∈ split, s₀.heap.read x = none := by
    intro x hx
    by_contra hlive
    exact absurd (hi.lt_next hlive) (Nat.not_lt.mpr (c.inserted.fresh x hx))
  have hA : ∀ x ∈ A₁ ++ p :: A₂, s₀.heap.read x ≠ none := fun x hx =>
    hi.above x (List.mem_append_left _ hx)
  refine ⟨?_, fun x hx => hi.above x (List.mem_append_right _ hx),
    Nat.le_trans hi.next_le c.inserted.frame.next_le, ?_⟩
  · intro D hD
    rcases List.mem_cons.mp hD with rfl | hD
    · exact .row hA
    · exact hi.one_new D hD
  · cases hi.rising with
    | @climbing leaf i levels _ _ hrun htrail hpath hnew =>
        have hsame : ∀ x, s₀.heap.read x ≠ none → x ≠ p → Same s s' x := by
          intro x hx hxp
          refine .of_frame c.inserted.frame fun hmem => ?_
          rcases List.mem_cons.mp hmem with hmem | hmem
          · exact hxp hmem
          · exact hx (hsplit x (Option.mem_toList.mp hmem))
        -- the links written are those of the parent's children and of the new node
        have hlink : ∀ x, s₀.heap.read x ≠ none → x ∉ s.kids p → s'.link x = s.link x := by
          intro x hx hxk
          refine c.inserted.frame.link x fun hmem => ?_
          rcases List.mem_append.mp hmem with hmem | hmem
          · exact hx (hsplit x (Option.mem_toList.mp hmem))
          · -- the parent's new child is not from the old tree
            rw [c.parent.kids] at hxk
            simp only [kidsOf, List.map_append, List.map_cons, map_fst_counted, List.mem_append,
              List.mem_cons, Option.mem_toList, not_or] at hmem hxk
            have := hnew x
            tauto
        have htrail' := htrail.climb ht (by omega) (fun x hx => hx) (Spot.link_child c.parent)
          (Or.inl rfl) (fun x hx hxp _ => Or.inl (hsame x hx hxp)) fun x hx hxk _ => hlink x hx hxk
        refine .climbing hrun htrail' (fun e he => ?_) hsplit
        rcases List.mem_cons.mp he with rfl | he
        · rfl
        · exact hpath e he

theorem newRoot {q : Addr} (hi : Inserting s₀ root Ds₀.length index Ds [] ins [] [] s)
    (ht : Tree s₀ root Ds₀ l₀) (hx : ins.new = some x) (hl : s.link ins.node = some (none, 0))
    (hq : s.heap.next ≤ q) (f : Frame s s' {q} {q, ins.node, x}) :
    Inserting s₀ root Ds₀.length index (ins.row [] [] :: Ds) [] ⟨q, none⟩ [] [] s' := by
  refine ⟨?_, fun x hx => absurd hx List.not_mem_nil, Nat.le_trans hi.next_le f.next_le, ?_⟩
  · intro D hD
    rcases List.mem_cons.mp hD with rfl | hD
    · intro y hy z hz _ _
      rw [List.mem_singleton.mp (show y ∈ [q] from hy),
        List.mem_singleton.mp (show z ∈ [q] from hz)]
    · exact hi.one_new D hD
  · cases hi.rising with
    | rooted _ _ _ hnew _ =>
        rw [hx] at hnew
        cases hnew
    | climbing hrun htrail hpath _ =>
        obtain ⟨hroot, hk⟩ := htrail.eq_root ht.counted.1 hl
        refine .rooted hrun (hroot ▸ htrail.path) (fun y hy hyp => ?_) rfl (congrArg (· + 1) hk)
        refine (htrail.same_off_path hpath hy hyp).trans (.of_frame f fun hyq => ?_)
        obtain rfl : y = q := hyq
        exact absurd (hi.lt_next hy) (Nat.not_lt.mpr hq)

theorem carried (ht : Tree s₀ root Ds₀ l₀) (hB : 3 ≤ B) :
    Insert.Carried (Inserting s₀ root Ds₀.length index) :=
  ⟨fun hi c => hi.climb ht hB c, fun hi hx hl hq _ f => hi.newRoot ht hx hl hq f⟩

/-- The old nodes that were touched are on the path, and above it is one new level at most. -/
theorem path (hi : Inserting s₀ root Ds₀.length index Ds [] ⟨n, none⟩ [] [] s)
    (ht : Tree s₀ root Ds₀ l₀) (hl : s.link n = some (none, 0)) : ∃ leaf i path,
    leafFor root index s₀ = .ok (leaf, i) s₀ ∧ Path s₀ leaf root path
      ∧ (∀ x, s₀.heap.read x ≠ none → x ∉ path → Same s₀ s x) ∧ Ds.length ≤ path.length := by
  cases hi.rising with
  | @climbing leaf i levels _ _ hrun htrail hpath _ =>
      obtain ⟨rfl, hk⟩ := htrail.eq_root ht.counted.1 hl
      refine ⟨leaf, i, _, hrun, htrail.path, fun x hx hxp => htrail.same_off_path hpath hx hxp, ?_⟩
      rw [ht.counted.1.path_length htrail.path, hk]
      exact Nat.le_succ _
  | @rooted leaf i path _ hrun hp hkept _ hlen =>
      refine ⟨leaf, i, path, hrun, hp, hkept, ?_⟩
      rw [ht.counted.1.path_length hp, hlen]

end Inserting

/-- The nodes of the tree are live. -/
theorem Tree.live (ht : Tree s root Ds l) (hx : x ∈ rowNodes Ds [root] []) :
    s.heap.read x ≠ none := by
  obtain ⟨W, Ds', hxW, hW, _⟩ := ht.below.find_row ((rowNodes_root_perm Ds root).mem_iff.mp hx)
  exact hW.live hxW

/-- The leaf has the item, and may have been split. -/
theorem Inserting.start {pre post l₁ xs ys l₂ : List T} {a : Addr} {U V : List Addr} {x : T}
    {new : Option Addr} (ht : Tree s₀ root Ds₀ l₀)
    (hrun : leafFor root index s₀ = .ok (a, i) s₀)
    (hs : LeafSplit s₀ root Ds₀ pre post a U V As l₁ xs ys l₂)
    (hins : Insert.Inserted s₀ s .leaf a (xs ++ x :: ys) (V.head?.or none) new) :
    Inserting s₀ root Ds₀.length index [] U ⟨a, new⟩ V As s := by
  have hlive : ∀ y ∈ (U ++ a :: V) ++ As.flatten, s₀.heap.read y ≠ none := fun y hy =>
    ht.live (hs.perm.mem_iff.mp hy)
  have hnew : ∀ y ∈ new, s₀.heap.read y = none := by
    intro y hy
    by_contra h
    obtain ⟨c, hc⟩ := Option.ne_none_iff_exists'.mp h
    exact absurd (Heap.lt_next_of_read hc) (Nat.not_lt.mpr (hins.fresh y hy))
  refine ⟨?_, fun y hy => hlive y (List.mem_append_right _ hy), hins.frame.next_le, ?_⟩
  · intro D hD
    obtain rfl := List.mem_singleton.mp hD
    exact .row fun y hy => hlive y (List.mem_append_left _ hy)
  · refine .climbing hrun (.start (hs.spot ht) ht.counted.1 ht.link hs.leaf (Or.inl rfl) ?_ ?_)
      (fun e he => by rw [List.mem_singleton.mp he]) hnew
    · intro y hy hya _
      refine .of_frame hins.frame fun hmem => ?_
      rcases List.mem_cons.mp hmem with hmem | hmem
      · exact hya hmem
      · exact hy (hnew y (Option.mem_toList.mp hmem))
    · intro y hy
      refine hins.frame.link y fun hmem => ?_
      rcases List.mem_append.mp hmem with hmem | hmem
      · exact hy (hnew y (Option.mem_toList.mp hmem))
      · exact absurd hmem List.not_mem_nil

/-- The new nodes are on different levels if they are in different rows. -/
theorem InsertLocal.of_rows {root' : Addr} {l' : List T} {F' : Set Addr} {path : List Addr}
    (hs' : Sound v' s' l' F') (ht : Tree s' root' Ds l') (hv : v'.root = some root')
    (hnew : ∀ D ∈ [root'] :: Ds, OneNew s D) (hpath : EditPath v s index path)
    (hkept : ∀ x, s.heap.read x ≠ none → x ∉ path → Same s s' x) (hlen : Ds.length ≤ path.length)
    (hlinks : LinksLocal s s') : InsertLocal v s index v' s' := by
  refine ⟨⟨path, hpath, fun x hx htouched => ?_, fun root₁ d x hr hx => ?_⟩, fun x hx hx' => ?_,
    hlinks⟩
  · by_contra hxp
    exact htouched (hkept x hx hxp).strip
  · obtain rfl := Option.some.inj (hv.symm.trans hr)
    obtain ⟨W, Ds', _, _, hd⟩ := ht.row_of_reach hx
    omega
  · obtain ⟨root₁, d, hr, hd⟩ := (hs'.owned.live x).mp hx'
    refine ⟨root₁, d, hr, hd, fun y hy hyd => ?_⟩
    obtain rfl := Option.some.inj (hv.symm.trans hr)
    obtain ⟨As₁, W, Ds₁, hrows, hlen₁, hxW, _⟩ := ht.rows_of_reach hd
    obtain ⟨As₂, W', Ds₂, hrows', hlen₂, hyW, _⟩ := ht.rows_of_reach hy
    obtain ⟨_, htail⟩ := List.append_inj (hrows.symm.trans hrows') (hlen₁.trans hlen₂.symm)
    obtain ⟨rfl, _⟩ := List.cons.inj htail
    have hWmem : W ∈ [root'] :: Ds := by
      rw [hrows]
      exact List.mem_append_right _ List.mem_cons_self
    exact hnew W hWmem y hyW x hxW hyd hx

theorem Sound.insert_local (h : Sound v s l F) (hi : index ≤ v.size) (item : T) : ∃ v' s',
    (v.insert index item : Exec T P B _) s = .ok v' s' ∧ InsertLocal v s index v' s' := by
  cases h.vec with
  | empty =>
      obtain rfl : index = 0 := Nat.le_zero.mp hi
      obtain ⟨v', s', he, root', rfl, ht, heff⟩ :=
        returns_iff.mp (BTreeVec.insert_empty (s := s) h.branching item)
      have hs' := h.of_local (.tree ht) heff.locality
      have hpath : EditPath ⟨none, 0⟩ s 0 [] := rfl
      refine ⟨_, s', he, .of_rows hs' ht rfl ?_ hpath (fun x hx => ?_) (Nat.zero_le _)
        (h.linksLocal hs')⟩
      · intro D hD x hx y hy _ _
        obtain rfl := List.mem_singleton.mp hD
        rw [List.mem_singleton.mp hx, List.mem_singleton.mp hy]
      · exact absurd (h.live x hx) (Set.notMem_empty x)
  | @tree root Ds l ht =>
      have hlen : (l.take index).length = index := List.length_take_of_le hi
      obtain ⟨pre, post, rfl, rfl⟩ : ∃ pre post, l = pre ++ post ∧ index = pre.length :=
        ⟨_, _, (List.take_append_drop index l).symm, hlen.symm⟩
      obtain ⟨v', s', he, root', Ds', rfl, ht', heff, hins⟩ := returns_iff.mp
        (BTreeVec.insert_tree ht h.branching item (Inserting.carried ht h.branching)
          fun hrun hs new s₁ hins => Inserting.start ht hrun hs hins)
      have hs' := h.of_local (.tree ht') heff.locality
      obtain ⟨leaf, i, path, hrun, hp, hkept, hle⟩ := hins.path ht ht'.link
      exact ⟨_, s', he, .of_rows hs' ht' rfl hins.one_new ⟨leaf, i, hrun, hp⟩ hkept hle
        (h.linksLocal hs')⟩

/--
**An edit is local.** An `insert` in range touches no old node off the path to its leaf, and
adds a node a level at most. A `remove` touches one sibling a level beside the path at most,
and adds none. Both link anew children of touched nodes only.
-/
theorem edits_local (h : Reachable v s) :
    (∀ (index : Nat) (item : T), index ≤ v.size → ∃ v' s',
      (v.insert index item : Exec T P B _) s = .ok v' s' ∧ InsertLocal v s index v' s')
    ∧ ∀ index : Nat, index < v.size → ∃ r s',
      (v.remove index : Exec T P B _) s = .ok r s' ∧ RemoveLocal v s index s' := by
  obtain ⟨l, F, hs⟩ := h.sound
  exact ⟨fun index item hi => hs.insert_local hi item, fun index hi => hs.remove_local hi⟩

theorem edits_local_grownAndShrunk : ∃ s : Store Nat PairPtr 3,
    (∃ v' s', BTreeVec.insert ⟨some 6, 3⟩ 1 (9 : Nat) s = .ok v' s'
      ∧ InsertLocal ⟨some 6, 3⟩ s 1 v' s')
    ∧ ∃ r s', BTreeVec.remove ⟨some 6, 3⟩ 2 s = .ok r s' ∧ RemoveLocal ⟨some 6, 3⟩ s 2 s' := by
  obtain ⟨s, h, _⟩ := grownAndShrunk_reachable
  obtain ⟨hinsert, hremove⟩ := edits_local h
  exact ⟨s, hinsert 1 9 (by decide), hremove 2 (by decide)⟩

end BTreeVec
