import BTreeVec.Model.Client
import BTreeVec.Proof.Growth
import BTreeVec.Proof.Shrink
import BTreeVec.Proof.Descent

/-!
# The vector refines the list

`VecAt` says which items a vector holds and in which nodes. Every call keeps it and
does to the items what the same call does to a plain list, so a program cannot
tell the two apart.
-/

set_option linter.dupNamespace false

namespace BTreeVec

open Prog

variable {T P : Type} {B : Nat} [TaggedPtr P] {s s' : Store T P B} {v : BTreeVec} {l : List T}
  {F : Set Addr} {root : Addr} {Ds : List (List Addr)}

/-- The vector `v` holds the items `l` in the nodes `F`. -/
inductive VecAt (s : Store T P B) : BTreeVec → List T → Set Addr → Prop where
  | empty : VecAt s ⟨none, 0⟩ [] ∅
  | tree {root : Addr} {Ds : List (List Addr)} {l : List T} (h : Tree s root Ds l) :
      VecAt s ⟨some root, l.length⟩ l {x | x ∈ rowNodes Ds [root] []}

theorem VecAt.size (h : VecAt s v l F) : v.size = l.length := by
  cases h <;> rfl

theorem VecAt.root_ne_none (h : VecAt s v l F) (hl : l ≠ []) : ∃ Ds root, v.root = some root
    ∧ Tree s root Ds l ∧ F = {x | x ∈ rowNodes Ds [root] []} := by
  cases h with
  | empty => exact absurd rfl hl
  | tree h => exact ⟨_, _, rfl, h, rfl⟩

/-! ## From an index to a leaf -/

/-- The leaf `a` has the items `xs ++ ys`, and the row of all leaves splits around it. -/
structure LeafSplit (s : Store T P B) (root : Addr) (Ds : List (List Addr)) (pre post : List T)
    (a : Addr) (U V : List Addr) (As : List (List Addr)) (l₁ xs ys l₂ : List T) : Prop where
  pre_eq : pre = l₁ ++ xs
  post_eq : post = ys ++ l₂
  row₁ : RowAt s .leaf U l₁ (some a)
  leaf : NodeAt s .leaf a (xs ++ ys) (V.head?.or none)
  row₂ : RowAt s .leaf V l₂ none
  all : AtLeaves s (U ++ a :: V) As (l₁ ++ (xs ++ ys ++ l₂))
  leaves : s.leavesUnder Ds.length root = U ++ a :: V
  perm : (rowNodes [] (U ++ a :: V) As).Perm (rowNodes Ds [root] [])
  /-- Only the last leaf is ever entered past its items. -/
  last : ys = [] → V = []

theorem LeafSplit.ys_ne {pre post : List T} {a : Addr} {U V : List Addr} {As : List (List Addr)}
    {l₁ xs ys l₂ : List T} (h : LeafSplit s root Ds pre post a U V As l₁ xs ys l₂)
    (hpost : post ≠ []) : ys ≠ [] := by
  intro hys
  have hrow := h.row₂
  rw [h.last hys] at hrow
  rw [h.post_eq, hys, show l₂ = [] from hrow] at hpost
  exact hpost rfl

theorem LeafSplit.nodes {pre post : List T} {a : Addr} {U V : List Addr} {As : List (List Addr)}
    {l₁ xs ys l₂ : List T} (h : LeafSplit s root Ds pre post a U V As l₁ xs ys l₂) :
    {x | x ∈ rowNodes Ds [root] []} = {x | x ∈ rowNodes [] (U ++ a :: V) As} :=
  Set.ext fun _ => h.perm.mem_iff.symm

theorem Tree.leafFor_spec {pre post : List T} (h : Tree s root Ds (pre ++ post)) :
    Returns (leafFor root pre.length) s (fun r s' => s' = s ∧ ∃ U V As l₁ xs ys l₂,
      LeafSplit s root Ds pre post r.1 U V As l₁ xs ys l₂ ∧ r.2 = xs.length) := by
  obtain ⟨hc, hit⟩ := h.counted
  obtain ⟨As, hal, hperm⟩ := h.atLeaves
  refine (BTreeVec.leafFor_spec hc (by rw [hit, List.length_append]; omega)).mono ?_
  intro r s hr
  obtain ⟨a, j⟩ := r
  obtain ⟨rfl, hf⟩ := hr
  obtain ⟨U, V, hU, hj, hlast⟩ := hf.split
  have hle := hf.le
  rw [hU] at hal hperm
  obtain ⟨l₁, E, l₂, hl, h₁, ha, h₂⟩ := RowAt.mid.mp hal.row
  have hE : s.items a = E := by rw [Store.items, show s.body a = _ from ha]; rfl
  rw [h₁.items] at hj
  rw [hE] at hle hlast
  -- the item at the index splits its leaf as it splits the list
  have hsplit : pre = l₁ ++ E.take j ∧ post = E.drop j ++ l₂ := by
    refine List.append_inj (hl.trans ?_) ?_
    · rw [List.append_assoc, ← List.append_assoc (E.take j), List.take_append_drop]
    · rw [hj, List.length_append, List.length_take, Nat.min_eq_left hle]
  have hlen : (E.take j).length = j := by rw [List.length_take, Nat.min_eq_left hle]
  refine ⟨rfl, U, V, As, l₁, E.take j, E.drop j, l₂,
    ⟨hsplit.1, hsplit.2, h₁, ?_, h₂, ?_, hU, hperm, ?_⟩, hlen.symm⟩
  · rw [List.take_append_drop]
    exact ha
  · rw [List.take_append_drop, ← hl]
    exact hal
  · intro hnil
    rw [List.drop_eq_nil_iff] at hnil
    exact hlast (Nat.le_antisymm hle hnil)

/-! ## Writing to an item -/

section Rewrite

variable {a : Addr} {E E' : List T} {nx : Option Addr}

theorem RowAt.rewrite_leaf {U : List Addr} {nx' : Option Addr} (h : RowAt s .leaf U l nx')
    (ha : s.body a = some (.leaf E nx)) (ha' : s'.body a = some (.leaf E' nx))
    (hb : ∀ x, x ≠ a → s'.body x = s.body x) :
    RowAt s' .leaf U (U.flatMap s'.items) nx' := by
  induction U generalizing l with
  | nil => rfl
  | cons x U ih =>
      obtain ⟨G, C, rfl, hG, h⟩ := h
      refine ⟨s'.items x, _, rfl, ?_, ih h⟩
      have hGb : s.body x = some (.leaf G (U.head?.or nx')) := hG
      show s'.body x = _
      by_cases hx : x = a
      · subst hx
        rw [ha, Option.some.injEq, Body.leaf.injEq] at hGb
        rw [Store.items, ha', hGb.2]; rfl
      · rw [Store.items, hb x hx, hGb]; rfl

/-- Another item in the same place of a leaf changes the items and nothing else. -/
theorem Below.rewrite_leaf {U : List Addr} (h : Below s U Ds l)
    (ha : s.body a = some (.leaf E nx)) (ha' : s'.body a = some (.leaf E' nx))
    (hlen : E'.length = E.length) (hb : ∀ x, x ≠ a → s'.body x = s.body x)
    (hl : ∀ x, s'.link x = s.link x) :
    Below s' U Ds ((U.flatMap (s'.leavesUnder Ds.length)).flatMap s'.items) := by
  have hwidth : ∀ x, s'.width x = s.width x ∧ s'.total x = s.total x := by
    intro x
    by_cases hx : x = a
    · subst hx
      simp [Store.width, Store.total, ha, ha', Body.width, Body.total, hlen]
    · exact ⟨width_congr (hb x hx), total_congr (hb x hx)⟩
  induction Ds generalizing U l with
  | nil =>
      have hU : U.flatMap (s'.leavesUnder 0) = U := List.flatMap_pure_eq_map id U ▸ List.map_id U
      rw [List.length_nil, hU]
      exact RowAt.rewrite_leaf h ha ha' hb
  | cons D Ds ih =>
      obtain ⟨he, ho, h⟩ := h
      have hU : ∀ x ∈ U, s'.body x = s.body x := by
        intro x hx
        refine hb x fun hxa => ?_
        obtain ⟨G, nx', hG, _⟩ := he.row.nodeAt hx
        have hbody := hG.1
        rw [hxa, ha] at hbody
        cases hbody
      have he' := he.congr hU (fun x _ => hl x) fun x _ => (hwidth x).2
      refine ⟨he', ?_, ?_⟩
      · intro x hx hw c hc hcD
        rw [kids_congr (hU x hx)] at hc
        rw [(hwidth x).1] at hw
        rw [(hwidth c).1]
        exact ho x hx hw c hc hcD
      · have hleaves : U.flatMap (s'.leavesUnder (Ds.length + 1))
            = D.flatMap (s'.leavesUnder Ds.length) := by
          rw [← he'.kids, List.flatMap_assoc]; rfl
        rw [List.length_cons, hleaves]
        exact ih h

end Rewrite

theorem leavesUnder_congr (h : ∀ x, s'.kids x = s.kids x) (k : Nat) :
    ∀ a, s'.leavesUnder k a = s.leavesUnder k a := by
  induction k with
  | zero => intro a; rfl
  | succ k ih =>
      intro a
      rw [Store.leavesUnder, Store.leavesUnder, h a]
      exact List.flatMap_congr fun x _ => ih x

theorem Tree.rewrite_leaf {pre post l₁ xs ys l₂ : List T} {x y : T} {a : Addr} {U V : List Addr}
    {As : List (List Addr)} (h : Tree s root Ds (pre ++ x :: post))
    (hs : LeafSplit s root Ds pre (x :: post) a U V As l₁ xs (x :: ys) l₂)
    (ha' : s'.body a = some (.leaf (xs ++ y :: ys) (V.head?.or none))) (f : Frame s s' {a} ∅) :
    Tree s' root Ds (pre ++ y :: post) := by
  have ha : s.body a = some (.leaf (xs ++ x :: ys) (V.head?.or none)) := hs.leaf
  have hb : ∀ z, z ≠ a → s'.body z = s.body z := fun z hz => f.body z hz
  have hkids : ∀ z, s'.kids z = s.kids z := by
    intro z
    by_cases hz : z = a
    · subst hz
      rw [Store.kids, Store.kids, ha, ha']; rfl
    · exact kids_congr (hb z hz)
  have hbelow := h.below.rewrite_leaf ha ha' (by simp) hb fun z => f.link z (Set.notMem_empty z)
  rw [List.flatMap_singleton, leavesUnder_congr hkids, hs.leaves, List.flatMap_append,
    List.flatMap_cons] at hbelow
  have hnd := (List.nodup_append.mp (List.nodup_append.mp hs.all.nodup).2.1).1
  rw [List.nodup_middle, List.nodup_cons, List.mem_append, not_or] at hnd
  have hitems : ∀ W : List Addr, a ∉ W → W.flatMap s'.items = W.flatMap s.items := by
    intro W haW
    refine List.flatMap_congr fun z hz => ?_
    rw [Store.items, hb z fun hza => haW (hza ▸ hz)]
    rfl
  rw [hitems U hnd.1.1, hitems V hnd.1.2, hs.row₁.items, hs.row₂.items,
    show s'.items a = xs ++ y :: ys by rw [Store.items, ha']; rfl] at hbelow
  have hpost := hs.post_eq
  rw [List.cons_append, List.cons.injEq] at hpost
  have hl : pre ++ y :: post = l₁ ++ (xs ++ y :: ys ++ l₂) := by
    rw [hs.pre_eq, hpost.2]; simp
  refine ⟨hl ▸ hbelow, (f.link root (Set.notMem_empty root)).trans h.link, fun hD => ?_, h.nodup⟩
  have hr : root ≠ a := by
    intro he
    subst he
    cases Ds with
    | nil => exact hD rfl
    | cons D Ds =>
        obtain ⟨es, hes⟩ := h.below.1.row.nodeAt List.mem_cons_self
        obtain ⟨nx, hes, _⟩ := hes
        have hbody := hes.1
        rw [ha] at hbody
        cases hbody
  rw [width_congr (hb root hr)]
  exact h.wide hD

namespace BTreeVec

/-! ## One call -/

section Insert

variable {pre post : List T} {G : List (List Addr) → List Addr → Insert.Insertion → List Addr →
  List (List Addr) → Store T P B → Prop}

theorem insert_root (h : Tree s root Ds (pre ++ post)) (hB : 3 ≤ B) (x : T)
    (hcar : Insert.Carried G)
    (hG : ∀ {a i U V As l₁ xs ys l₂}, leafFor root pre.length s = .ok (a, i) s →
      LeafSplit s root Ds pre post a U V As l₁ xs ys l₂ →
      ∀ new s₁, Insert.Inserted s s₁ .leaf a (xs ++ x :: ys) (V.head?.or none) new →
      G [] U ⟨a, new⟩ V As s₁) :
    Returns (do
      let (leaf, index) ← leafFor root pre.length
      Insert.insert leaf index x (pre ++ post).length : Exec T P B Addr) s (fun root' s' =>
      ∃ Ds', Tree s' root' Ds' (pre ++ x :: post)
        ∧ Effect s s' {x | x ∈ rowNodes Ds [root] []} {x | x ∈ rowNodes Ds' [root'] []}
        ∧ G Ds' [] ⟨root', none⟩ [] [] s') := by
  rw [returns_bind]
  refine h.leafFor_spec.run.mono ?_
  intro r s hr
  obtain ⟨a, _⟩ := r
  obtain ⟨hrun, rfl, U, V, As, l₁, xs, ys, l₂, hs, rfl⟩ := hr
  have hl : pre ++ post = l₁ ++ (xs ++ ys ++ l₂) := by
    rw [hs.pre_eq, hs.post_eq]; simp
  have hl' : pre ++ x :: post = l₁ ++ (xs ++ x :: ys ++ l₂) := by
    rw [hs.pre_eq, hs.post_eq]; simp
  rw [hl, hl', hs.nodes]
  exact Insert.insert_spec hs.row₁ hs.leaf hs.row₂ hs.all hB hcar (hG hrun hs)

/-- `insert` on a vector that has a root. -/
theorem insert_tree (h : Tree s root Ds (pre ++ post)) (hB : 3 ≤ B) (x : T)
    (hcar : Insert.Carried G)
    (hG : ∀ {a i U V As l₁ xs ys l₂}, leafFor root pre.length s = .ok (a, i) s →
      LeafSplit s root Ds pre post a U V As l₁ xs ys l₂ →
      ∀ new s₁, Insert.Inserted s s₁ .leaf a (xs ++ x :: ys) (V.head?.or none) new →
      G [] U ⟨a, new⟩ V As s₁) :
    Returns (insert ⟨some root, (pre ++ post).length⟩ pre.length x) s (fun v' s' =>
      ∃ root' Ds', v' = ⟨some root', (pre ++ x :: post).length⟩
        ∧ Tree s' root' Ds' (pre ++ x :: post)
        ∧ Effect s s' {x | x ∈ rowNodes Ds [root] []} {x | x ∈ rowNodes Ds' [root'] []}
        ∧ G Ds' [] ⟨root', none⟩ [] [] s') := by
  have hlen : (pre ++ x :: post).length = (pre ++ post).length + 1 := by simp; omega
  have hi := insert_root h hB x hcar hG
  unfold insert
  simp only [returns_bind, returns_check, returns_pure] at hi ⊢
  refine ⟨by simp, hi.mono fun r s₁ hr => hr.mono ?_⟩
  intro root' s' h'
  obtain ⟨Ds', ht, he, hg⟩ := h'
  exact ⟨root', Ds', by rw [hlen], ht, he, hg⟩

/-- `insert` on an empty vector makes a leaf, which has room for the item. -/
theorem insert_empty (hB : 3 ≤ B) (x : T) : Returns (insert ⟨none, 0⟩ 0 x) s (fun v' s' =>
    ∃ root', v' = ⟨some root', 1⟩ ∧ Tree s' root' [] [x]
      ∧ Effect s s' ∅ {x | x ∈ rowNodes [] [root'] []}) := by
  unfold insert
  simp only [returns_bind, returns_check, returns_pure]
  refine ⟨Nat.le_refl 0, (LeafNode.alloc_spec s).mono ?_⟩
  intro _ s₁ h₁
  obtain ⟨rfl, hr, hb, hlink, f, hnext⟩ := h₁
  have ht : Tree s₁ s.heap.next [] ([] ++ []) := by
    refine ⟨⟨[], [], rfl, hb, rfl⟩, hlink, fun hD => absurd rfl hD, List.nodup_singleton _⟩
  have hcar : Insert.Carried (T := T) (P := P) (B := B) fun Ds _ ins _ As _ =>
      Ds = [] ∧ ins.new = none ∧ As = [] := by
    refine ⟨fun hg _ => ?_, fun hg hnew _ _ _ _ => ?_⟩
    · cases hg.2.2
    · rw [hg.2.1] at hnew
      cases hnew
  have hi := insert_root ht hB x hcar fun {a i U V As l₁ xs ys l₂} _ hs new _ hins => ?_
  · rw [returns_bind] at hi
    refine hi.mono fun r s₂ hr => hr.mono ?_
    intro root' s' h'
    obtain ⟨Ds', ht', he, rfl, _⟩ := h'
    refine ⟨root', rfl, ht', Effect.trans (.of_local ?_ f.destroyed f.dropped) he⟩
    have hF : {x | x ∈ rowNodes [] [s.heap.next] []} = {s.heap.next} := by
      refine Set.ext fun x => ?_
      exact List.mem_singleton
    rw [hF]
    refine .of_frame f (Set.Subset.refl _) (Set.Subset.refl _) (Set.empty_subset _) fun x hx => ?_
    exact Or.inr (Nat.le_of_eq (Set.mem_singleton_iff.mp hx).symm)
  · -- the tree is the one leaf, and it is empty
    obtain ⟨rfl, rfl⟩ := List.append_eq_nil_iff.mp hs.pre_eq.symm
    obtain ⟨rfl, rfl⟩ := List.append_eq_nil_iff.mp hs.post_eq.symm
    refine ⟨rfl, hins.fits_of_lt (Nat.le_trans (by simp) hB), ?_⟩
    have hlen := hs.perm.length_eq
    cases As with
    | nil => rfl
    | cons A As =>
        obtain ⟨A₁, p, A₂, _, _, _, _, rfl, _⟩ := hs.all.above.1.parent
        simp [rowNodes] at hlen
        omega

end Insert

theorem insert_spec {pre post : List T} (h : VecAt s v (pre ++ post) F) (hB : 3 ≤ B) (x : T) :
    Returns (v.insert pre.length x) s (fun v' s' => ∃ F', VecAt s' v' (pre ++ x :: post) F'
      ∧ Effect s s' F F') := by
  generalize hl : pre ++ post = l at h
  cases h with
  | @tree root Ds l h =>
      subst hl
      refine (insert_tree h hB x .trivial fun _ _ _ _ _ => trivial).mono ?_
      intro _ s' h'
      obtain ⟨root', Ds', rfl, ht, he, _⟩ := h'
      exact ⟨_, .tree ht, he⟩
  | empty =>
      obtain ⟨rfl, rfl⟩ := List.append_eq_nil_iff.mp hl
      refine (insert_empty hB x).mono ?_
      intro _ s' h'
      obtain ⟨root', rfl, ht, he⟩ := h'
      exact ⟨_, .tree ht, he⟩

/-- `remove` on a vector that has a root. -/
theorem remove_tree {pre post : List T} {x : T} {G : Addr → List (List Addr) → Store T P B → Prop}
    (h : Tree s root Ds (pre ++ x :: post)) (hB : 3 ≤ B)
    (hstart : ∀ {a i U V As l₁ xs ys l₂}, leafFor root pre.length s = .ok (a, i) s →
      LeafSplit s root Ds pre (x :: post) a U V As l₁ xs ys l₂ →
      ∀ {m s₁ V' k size l'}, m ∈ U ++ a :: V → Remove.Beside s a m → Frame s s₁ {a, m} ∅ →
      Remove.Shrinking s₁ [] V' (U ++ a :: V) ⟨a, k⟩ s.total As size l' → G a As s₁)
    (hG : ∀ {s s' n p A As}, G n (A :: As) s → Remove.Climbed s s' n p → G p As s') :
    Returns (remove ⟨some root, (pre ++ x :: post).length⟩ pre.length) s (fun r s' =>
      ∃ root' Ds', r = (⟨some root', (pre ++ post).length⟩, x) ∧ Tree s' root' Ds' (pre ++ post)
        ∧ Effect s s' {x | x ∈ rowNodes Ds [root] []} {x | x ∈ rowNodes Ds' [root'] []}
        ∧ Remove.Collapsed G s') := by
  have hlen : (pre ++ x :: post).length = (pre ++ post).length + 1 := by simp; omega
  unfold remove
  simp only [returns_bind, returns_check, returns_orFault]
  refine ⟨by simp, root, rfl, h.leafFor_spec.run.mono ?_⟩
  intro r s hr
  obtain ⟨a, _⟩ := r
  obtain ⟨hrun, rfl, U, V, As, l₁, xs, ys, l₂, hs, rfl⟩ := hr
  obtain ⟨y, ys, rfl⟩ := List.exists_cons_of_ne_nil (hs.ys_ne (List.cons_ne_nil _ _))
  have hpost := hs.post_eq
  rw [List.cons_append, List.cons.injEq] at hpost
  obtain ⟨rfl, hpost⟩ := hpost
  have hl : pre ++ post = l₁ ++ (xs ++ ys ++ l₂) := by
    rw [hs.pre_eq, hpost]; simp
  refine (Remove.remove_spec hs.row₁ hs.leaf hs.row₂ hs.all hB
    (fun hm hb f hsh => hstart hrun hs hm hb f hsh)
    hG).mono ?_
  intro r s' h'
  obtain ⟨root', _⟩ := r
  obtain ⟨rfl, ⟨Ds', ht', he⟩, hcol⟩ := h'
  rw [returns_sub]
  refine ⟨by omega, root', Ds', ?_, hl ▸ ht', hs.nodes ▸ he, hcol⟩
  rw [hlen, Nat.add_sub_cancel]

theorem remove_spec {pre post : List T} {x : T} (h : VecAt s v (pre ++ x :: post) F)
    (hB : 3 ≤ B) :
    Returns (v.remove pre.length) s (fun r s' => r.2 = x ∧ ∃ F', VecAt s' r.1 (pre ++ post) F'
      ∧ Effect s s' F F') := by
  generalize hl : pre ++ x :: post = l at h
  cases h with
  | empty => exact absurd hl (by simp)
  | @tree root Ds l h =>
      subst hl
      refine (remove_tree (G := fun _ _ _ => True) h hB (by intros; trivial)
        fun _ _ => trivial).mono ?_
      intro _ s' h'
      obtain ⟨root', Ds', rfl, ht, he, _⟩ := h'
      exact ⟨rfl, _, .tree ht, he⟩

/-- `get_mut` finds the slot of the item, and `get` the item in it. -/
theorem locate_spec {pre post : List T} {x : T} (h : VecAt s v (pre ++ x :: post) F) :
    ∃ root Ds, v.root = some root ∧ pre.length < v.size ∧ Tree s root Ds (pre ++ x :: post)
      ∧ F = {x | x ∈ rowNodes Ds [root] []}
      ∧ Returns (leafFor root pre.length) s (fun r s' => s' = s ∧ ∃ U V As l₁ xs ys l₂,
        LeafSplit s root Ds pre (x :: post) r.1 U V As l₁ xs (x :: ys) l₂ ∧ r.2 = xs.length) := by
  obtain ⟨Ds, root, hroot, ht, rfl⟩ := h.root_ne_none (by simp)
  refine ⟨root, Ds, hroot, by rw [h.size]; simp, ht, rfl, ht.leafFor_spec.mono ?_⟩
  intro r s hr
  obtain ⟨a, _⟩ := r
  obtain ⟨rfl, U, V, As, l₁, xs, ys, l₂, hs, rfl⟩ := hr
  obtain ⟨y, ys, rfl⟩ := List.exists_cons_of_ne_nil (hs.ys_ne (List.cons_ne_nil _ _))
  obtain rfl : x = y := by
    have := hs.post_eq
    rw [List.cons_append, List.cons.injEq] at this
    exact this.1
  exact ⟨rfl, U, V, As, l₁, xs, ys, l₂, hs, rfl⟩

theorem get_spec {pre post : List T} {x : T} (h : VecAt s v (pre ++ x :: post) F) :
    Returns (v.get pre.length) s (fun r s' => r = some x ∧ s' = s) := by
  obtain ⟨root, Ds, hroot, hlt, _, _, hleaf⟩ := locate_spec h
  rw [get, if_pos hlt]
  simp only [returns_bind, hroot, returns_orFault]
  refine ⟨root, rfl, hleaf.mono ?_⟩
  intro r s hr
  obtain ⟨a, _⟩ := r
  obtain ⟨rfl, U, V, As, l₁, xs, ys, l₂, hs, rfl⟩ := hr
  rw [LeafNode.child_spec hs.leaf (x := x) (by simp)]
  exact ⟨rfl, rfl⟩

theorem getMut_spec {pre post : List T} {x : T} (h : VecAt s v (pre ++ x :: post) F) (y : T) :
    Returns (Op.exec v (.getMut pre.length y)) s (fun r s' => r = (v, .option (some x))
      ∧ VecAt s' v (pre ++ y :: post) F ∧ Local s s' F F
      ∧ ∀ a es, s'.body a = some (.internal es) → s.body a = some (.internal es)) := by
  obtain ⟨root, Ds, hroot, hlt, ht, rfl, hleaf⟩ := locate_spec h
  have hsize := h.size
  unfold Op.exec
  simp only [getMut, if_pos hlt, returns_bind, hroot, returns_orFault]
  refine ⟨root, rfl, hleaf.mono ?_⟩
  intro r s hr
  obtain ⟨a, _⟩ := r
  obtain ⟨rfl, U, V, As, l₁, xs, ys, l₂, hs, rfl⟩ := hr
  have hx : (xs ++ x :: ys)[xs.length]? = some x := by simp
  rw [LeafNode.child_spec hs.leaf hx]
  simp only [returns_pure, returns_bind]
  rw [LeafNode.child_spec hs.leaf hx, write]
  refine (LeafNode.setChild_spec hs.leaf).mono ?_
  intro _ _ h
  obtain ⟨t, rfl, hb, f⟩ := h
  have ht' := ht.rewrite_leaf hs hb f
  refine ⟨rfl, ?_, ?_, fun z es hz => ?_⟩
  · have htree : Tree { t with dropped := s.dropped ++ [x] } root Ds (pre ++ y :: post) :=
      ⟨ht'.below.congr (fun _ _ => rfl) fun _ _ => rfl, ht'.link, ht'.wide, ht'.nodup⟩
    have hv : v = ⟨some root, (pre ++ y :: post).length⟩ := by
      rw [List.length_append, List.length_cons] at hsize
      rw [List.length_append, List.length_cons, ← hsize, ← hroot]
    rw [hv]
    exact .tree htree
  · have hloc : Local s t {x | x ∈ rowNodes Ds [root] []} {x | x ∈ rowNodes Ds [root] []} := by
      refine .of_frame f ?_ (Set.empty_subset _) (Set.Subset.refl _) fun _ hx => Or.inl hx
      rw [hs.nodes]
      intro z hz
      obtain rfl := Set.mem_singleton_iff.mp hz
      exact List.mem_append_right _ (List.mem_append_left _ (mem_mid.mpr (Or.inl rfl)))
    exact ⟨hloc.outside, hloc.live, hloc.owned, hloc.next_le⟩
  · -- the node that is written is a leaf
    have hz' : t.body z = some (.internal es) := hz
    rw [← f.body z fun hza => ?_]
    · exact hz'
    · obtain rfl := Set.mem_singleton_iff.mp hza
      rw [hb] at hz'
      cases hz'

end BTreeVec

/-! ## Any call -/

/-- The call on a plain list, `none` where it is out of bounds. -/
def Op.onList (l : List T) : Op T → Option (List T × Ret T)
  | insert index item =>
      if index ≤ l.length then some (l.take index ++ item :: l.drop index, .unit) else none
  | push item => some (l ++ [item], .unit)
  | remove index => l[index]?.map fun item => (l.eraseIdx index, .item item)
  | pop => some (l.dropLast, .option l.getLast?)
  | get index => some (l, .option l[index]?)
  | getMut index item => some (l.set index item, .option l[index]?)
  | first => some (l, .option l.head?)
  | last => some (l, .option l.getLast?)
  | len => some (l, .nat l.length)

/-- The call does to the vector what `o` says it does to the list, or panics at once. -/
def Op.Refines (op : Op T) (v : BTreeVec) (s : Store T P B) (F : Set Addr) :
    Option (List T × Ret T) → Prop
  | some (l, r) => Returns (op.exec v) s (fun a s' => a.2 = r
      ∧ ∃ F', VecAt s' a.1 l F' ∧ Local s s' F F')
  | none => op.exec v s = .error .assertion s

theorem Local.refl (s : Store T P B) (F : Set Addr) : Local s s F F :=
  .of_frame (Frame.refl s ∅ ∅) (Set.empty_subset _) (Set.empty_subset _) (Set.Subset.refl _)
    fun _ hx => Or.inl hx

theorem split_at {i : Nat} {x : T} (h : l[i]? = some x) :
    ∃ pre post, l = pre ++ x :: post ∧ i = pre.length := by
  obtain ⟨hi, rfl⟩ := List.getElem?_eq_some_iff.mp h
  refine ⟨l.take i, l.drop (i + 1), ?_, ?_⟩
  · rw [← List.drop_eq_getElem_cons hi, List.take_append_drop]
  · rw [List.length_take, Nat.min_eq_left (Nat.le_of_lt hi)]

/-- `get` at any index. -/
theorem VecAt.get (h : VecAt s v l F) (i : Nat) :
    Returns (v.get i) s (fun r s' => r = l[i]? ∧ s' = s) := by
  cases hx : l[i]? with
  | some x =>
      obtain ⟨pre, post, rfl, rfl⟩ := split_at hx
      exact BTreeVec.get_spec h
  | none =>
      have hi : ¬ i < v.size := by
        rw [h.size]
        exact Nat.not_lt.mpr (List.getElem?_eq_none_iff.mp hx)
      rw [BTreeVec.get, if_neg hi, returns_pure]
      exact ⟨rfl, rfl⟩

theorem VecAt.last (h : VecAt s v l F) :
    Returns v.last s (fun r s' => r = l.getLast? ∧ s' = s) := by
  rw [BTreeVec.last, h.size, List.getLast?_eq_getElem?]
  split
  · exact h.get _
  · rename_i hi
    have hnil : l = [] := List.length_eq_zero_iff.mp (by omega)
    rw [hnil, returns_pure]
    exact ⟨rfl, rfl⟩

theorem VecAt.refines_read (h : VecAt s v l F) {op : Op T} {m : Exec T P B (Option T)}
    {r : Option T} (he : op.exec v = (do return (v, .option (← m)) : Exec T P B _))
    (hm : Returns m s (fun a s' => a = r ∧ s' = s)) : op.Refines v s F (some (l, .option r)) := by
  rw [Op.Refines, he, returns_bind]
  refine hm.mono ?_
  intro _ s hr
  obtain ⟨rfl, rfl⟩ := hr
  exact ⟨rfl, F, h, Local.refl s F⟩

/-- A call on the vector is the call on the list. -/
theorem VecAt.exec (h : VecAt s v l F) (hB : 3 ≤ B) (op : Op T) :
    op.Refines v s F (op.onList l) := by
  cases op with
  | insert i x =>
      rw [Op.onList]
      split
      · rename_i hi
        have hlen : (l.take i).length = i := by rw [List.length_take, Nat.min_eq_left hi]
        rw [← List.take_append_drop i l] at h
        have hins := BTreeVec.insert_spec h hB x
        rw [hlen] at hins
        simp only [Op.Refines, Op.exec, returns_bind, returns_pure]
        refine hins.mono ?_
        intro v' s' h'
        obtain ⟨F', hv, he⟩ := h'
        exact ⟨trivial, F', hv, he.locality⟩
      · rename_i hi
        -- `insert` checks the index before it does anything
        rw [← h.size] at hi
        exact bind_error (bind_error (check_of_not hi))
  | push x =>
      rw [← List.append_nil l] at h
      have hins := BTreeVec.insert_spec h hB x
      unfold Op.onList
      simp only [Op.Refines, Op.exec, BTreeVec.push, returns_bind, returns_pure]
      rw [h.size, List.append_nil]
      refine hins.mono ?_
      intro v' s' h'
      obtain ⟨F', hv, he⟩ := h'
      exact ⟨trivial, F', hv, he.locality⟩
  | remove i =>
      cases hx : l[i]? with
      | some x =>
          obtain ⟨pre, post, rfl, rfl⟩ := split_at hx
          have he : (pre ++ x :: post).eraseIdx pre.length = pre ++ post := by
            rw [List.eraseIdx_append_of_length_le (Nat.le_refl _), Nat.sub_self]; rfl
          unfold Op.onList
          simp only [hx, Option.map_some, he, Op.Refines, Op.exec, returns_bind,
            returns_pure]
          refine (BTreeVec.remove_spec h hB).mono ?_
          intro r s' h'
          obtain ⟨hr, F', hv, he⟩ := h'
          exact ⟨hr ▸ rfl, F', hv, he.locality⟩
      | none =>
          have hi : ¬ i < v.size := by
            rw [h.size]
            exact Nat.not_lt.mpr (List.getElem?_eq_none_iff.mp hx)
          simp only [Op.onList, hx, Option.map_none]
          exact bind_error (bind_error (check_of_not hi))
  | pop =>
      have hsize := h.size
      unfold Op.onList
      simp only [Op.Refines, Op.exec, BTreeVec.pop, returns_bind, returns_pure]
      rcases List.eq_nil_or_concat l with rfl | ⟨pre, x, rfl⟩
      · rw [if_neg (by rw [hsize]; simp), returns_pure]
        exact ⟨rfl, F, h, Local.refl s F⟩
      · rw [List.concat_eq_append] at h hsize ⊢
        -- the last item is removed by its index
        have hi : v.size - 1 = pre.length := by rw [hsize]; simp
        rw [if_pos (by rw [hsize]; simp), hi]
        simp only [returns_bind, returns_pure]
        refine (BTreeVec.remove_spec h hB).mono ?_
        intro r s' h'
        obtain ⟨hr, F', hv, he⟩ := h'
        rw [List.append_nil] at hv
        refine ⟨by rw [hr]; simp, F', ?_, he.locality⟩
        rwa [List.dropLast_concat]
  | get i => exact h.refines_read rfl (h.get i)
  | getMut i y =>
      cases hx : l[i]? with
      | some x =>
          obtain ⟨pre, post, rfl, rfl⟩ := split_at hx
          -- the reference that is handed out is written through
          have he : (pre ++ x :: post).set pre.length y = pre ++ y :: post := by
            rw [List.set_append_right _ _ (Nat.le_refl _), Nat.sub_self]; rfl
          simp only [Op.onList, hx, he, Op.Refines]
          refine (BTreeVec.getMut_spec h y).mono ?_
          intro _ s' h'
          obtain ⟨rfl, hv, hl, _⟩ := h'
          exact ⟨rfl, F, hv, hl⟩
      | none =>
          have hle := List.getElem?_eq_none_iff.mp hx
          have hi : ¬ i < v.size := by
            rw [h.size]
            exact Nat.not_lt.mpr hle
          unfold Op.onList
          simp only [hx, Op.Refines, Op.exec, BTreeVec.getMut, if_neg hi, returns_bind,
            returns_pure]
          rw [List.set_eq_of_length_le hle]
          exact ⟨trivial, F, h, Local.refl s F⟩
  | first =>
      rw [Op.onList, List.head?_eq_getElem?]
      exact h.refines_read rfl (h.get 0)
  | last => exact h.refines_read rfl h.last
  | len =>
      unfold Op.onList
      simp only [Op.Refines, Op.exec, returns_pure]
      exact ⟨by rw [BTreeVec.len, h.size], F, h, Local.refl s F⟩

/-- A call that returns leaves a vector again. -/
theorem VecAt.exec_ok (h : VecAt s v l F) (hB : 3 ≤ B) {op : Op T} {v' : BTreeVec} {r : Ret T}
    (he : op.exec v s = .ok (v', r) s') : ∃ l' F', VecAt s' v' l' F' ∧ Local s s' F F' := by
  have hr := h.exec hB op
  cases ho : op.onList l with
  | none =>
      rw [ho] at hr
      rw [show op.exec v s = .error .assertion s from hr] at he
      cases he
  | some lr =>
      rw [ho, Op.Refines, Returns, he] at hr
      exact ⟨lr.1, hr.2⟩

/-- A call that panics leaves everything as it was. -/
theorem VecAt.exec_error (h : VecAt s v l F) (hB : 3 ≤ B) {op : Op T} {e : Fault}
    (he : op.exec v s = .error e s') : e = .assertion ∧ s' = s ∧ op.onList l = none := by
  have hr := h.exec hB op
  cases ho : op.onList l with
  | none =>
      rw [ho] at hr
      rw [show op.exec v s = .error .assertion s from hr] at he
      cases he
      exact ⟨rfl, rfl, rfl⟩
  | some lr =>
      rw [ho, Op.Refines, Returns, he] at hr
      exact absurd hr id

/-! ## Any sequence of calls -/

/-- What a caller gets from a plain list. -/
def observeList : List (Op T) → List T → List (Except Fault (Ret T))
  | [], _ => []
  | op :: ops, l =>
      match op.onList l with
      | some (l', r) => .ok r :: observeList ops l'
      | none => .error .assertion :: observeList ops l

theorem VecAt.observe (h : VecAt s v l F) (hB : 3 ≤ B) (ops : List (Op T)) :
    BTreeVec.observe ops v s = observeList ops l := by
  induction ops generalizing v s l F with
  | nil => rfl
  | cons op ops ih =>
      have hr := h.exec hB op
      rw [BTreeVec.observe, observeList]
      cases ho : op.onList l with
      | none =>
          rw [ho] at hr
          rw [show op.exec v s = .error .assertion s from hr]
          exact congrArg _ (ih h)
      | some lr =>
          obtain ⟨l', r⟩ := lr
          rw [ho] at hr
          obtain ⟨⟨v', r'⟩, s', he, rfl, F', hv, _⟩ := returns_iff.mp hr
          rw [he]
          exact congrArg _ (ih hv)

theorem create_spec (hB : 3 ≤ B) : Returns (BTreeVec.create : Exec T P B BTreeVec) s
    (fun v s' => s' = s ∧ VecAt s v [] ∅) := by
  unfold BTreeVec.create
  simp only [returns_bind, returns_check, returns_pure]
  exact ⟨hB, trivial, .empty⟩

/--
**The vector behaves as a plain list.** Whatever calls are made on a new vector, each
returns what it returns on a list, and panics only where the index is out of bounds.
-/
theorem behaves_as_list (hB : 3 ≤ B) (ops : List (Op T)) :
    Returns (BTreeVec.create : Exec T P B BTreeVec) Store.empty
      (fun v s => observe ops v s = observeList ops []) := by
  refine (create_spec hB).mono ?_
  intro v _ h
  obtain ⟨rfl, h⟩ := h
  exact h.observe hB ops

theorem behaves_as_list_three : Returns (BTreeVec.create : Exec Nat PairPtr 3 BTreeVec) Store.empty
    (fun v s => observe [.push 7, .insert 0 5, .get 1, .remove 2, .pop, .len] v s
      = [.ok .unit, .ok .unit, .ok (.option (some 7)), .error .assertion, .ok (.option (some 7)),
        .ok (.nat 1)]) :=
  behaves_as_list (by decide) [.push 7, .insert 0 5, .get 1, .remove 2, .pop, .len]

/-! ## Reachable vectors -/

/-- What holds of a vector and a store that has nothing else in it. -/
structure Sound (v : BTreeVec) (s : Store T P B) (l : List T) (F : Set Addr) : Prop where
  branching : 3 ≤ B
  vec : VecAt s v l F
  live : ∀ x, s.heap.read x ≠ none → x ∈ F

theorem Sound.of_local {v' : BTreeVec} {l' : List T} {F' : Set Addr} (hs : Sound v s l F)
    (hv' : VecAt s' v' l' F') (hloc : Local s s' F F') : Sound v' s' l' F' := by
  refine ⟨hs.branching, hv', fun x hx => ?_⟩
  rcases hloc.live x hx with hF | ⟨hF, hn⟩
  · exact hF
  · rw [hloc.outside x hF hn] at hx
    exact absurd (hs.live x hx) hF

theorem Reachable.sound (h : Reachable v s) : ∃ l F, Sound v s l F := by
  induction h with
  | create h =>
      rename_i v s
      have hB : 3 ≤ B := by
        have hc := Returns.of_ok (Q := fun _ _ => True) h trivial
        simp only [BTreeVec.create, returns_bind, returns_check] at hc
        exact hc.1
      have hc := create_spec (T := T) (P := P) (s := Store.empty) hB
      rw [Returns, h] at hc
      obtain ⟨rfl, hv⟩ := hc
      exact ⟨[], ∅, hB, hv, fun x hx => absurd (Heap.read_empty x) hx⟩
  | call op hv he ih =>
      obtain ⟨l, F, hs⟩ := ih
      obtain ⟨l', F', hv', hloc⟩ := hs.vec.exec_ok hs.branching he
      exact ⟨l', F', hs.of_local hv' hloc⟩
  | panic op hv he ih =>
      obtain ⟨l, F, hs⟩ := ih
      obtain ⟨_, rfl, _⟩ := hs.vec.exec_error hs.branching he
      exact ⟨l, F, hs⟩

end BTreeVec
