import Mathlib.Algebra.Order.BigOperators.Group.List
import Mathlib.Algebra.Order.Group.Nat
import BTreeVec.Proof.Shape

/-!
# The height of a reachable tree

The height is logarithmic in the number of items as long as internal nodes have two
children, which `Forked` says. With `B` at least 4 the minimum of a node sees to that.
With `B = 3` it does not: of the only two children of a node, one may be merged into the
other, and the node, which then has no items to spare, has the minimum still. A removal
that takes its item from below the root, or from below a node with an item to spare, does
not do this, and in a run of such calls the height stays logarithmic for `B = 3` too.
-/

namespace BTreeVec

open Prog

variable {T P : Type} {B : Nat} [TaggedPtr P] {s s' : Store T P B} {v v' : BTreeVec} {l l' : List T}
  {F F' : Set Addr} {root a n p x : Addr} {Ds As : List (List Addr)} {U : List Addr}

/-- The tree has `h` levels, a lone leaf being one. -/
def HasLevels (v : BTreeVec) (s : Store T P B) (h : Nat) : Prop :=
  ∃ r d a, v.root = some r ∧ Reach s r d a ∧ s.IsLeaf a ∧ h = d + 1

/-- The bound that access in logarithmic time needs. -/
def LogHeight (v : BTreeVec) (s : Store T P B) : Prop :=
  ∀ h, HasLevels v s h → 2 ≤ h → 2 ^ (h - 1) ≤ v.size

theorem HasLevels.eq {h n : Nat} (hl : HasLevels ⟨some root, n⟩ s h) (ht : Tree s root Ds l) :
    h = Ds.length + 1 := by
  obtain ⟨r, d, a, hr, ha, ⟨n, hn⟩, rfl⟩ := hl
  cases hr
  obtain ⟨W, Ds', haW, hW, hd⟩ := ht.row_of_reach ha
  obtain ⟨rfl, _⟩ := hW.leaf haW hn
  obtain rfl : d = Ds.length := hd
  rfl

/-! ## Rows that double -/

/-- Every internal node has two children. -/
def Forked (s : Store T P B) : Prop :=
  ∀ a es, s.body a = some (.internal es) → 2 ≤ es.length

/-- Nodes that have siblings, and are occupied as this demands. -/
theorem Edge.half_le {A : List Addr} {cnt : Addr → Nat} (h : Edge s A U cnt) (hocc : Occ s A U)
    (hwide : ∀ a ∈ A, 2 ≤ s.width a) : ∀ a ∈ U, B / 2 ≤ s.width a := by
  intro a ha
  obtain ⟨p, hp, hap⟩ := List.mem_flatMap.mp (h.kids ▸ ha)
  exact hocc p hp (hwide p hp) a hap ha

theorem Edge.width_of_forked {A : List Addr} {cnt : Addr → Nat} (h : Edge s A U cnt)
    (hf : Forked s) (ha : a ∈ A) : 2 ≤ s.width a := by
  obtain ⟨E, nx, hE, _⟩ := h.row.nodeAt ha
  rw [hE.width]
  exact hf a E hE.1

/-- A node has twice as many items below it as each of its children, and a leaf has one. -/
theorem Below.two_pow_le (h : Below s U Ds l) (hf : Forked s) (hB : 3 ≤ B)
    (hU : Ds = [] → ∀ a ∈ U, 1 ≤ s.width a) : ∀ a ∈ U, 2 ^ Ds.length ≤ s.total a := by
  induction Ds generalizing U l with
  | nil =>
      intro a ha
      obtain ⟨E, nx, hE, _⟩ := RowAt.nodeAt h ha
      have hb : s.body a = some (.leaf E nx) := hE
      have hwa := hU rfl a ha
      rw [Store.width, hb] at hwa
      rw [Store.total, hb]
      exact hwa
  | cons D Ds ih =>
      have hw : ∀ a ∈ U, 2 ≤ s.width a := fun a ha => h.1.width_of_forked hf ha
      have hD := ih h.2.2 fun _ c hc => by
        have := h.1.half_le h.2.1 hw c hc
        omega
      intro a ha
      obtain ⟨E, nx, hE, hsub⟩ := h.1.row.nodeAt ha
      have hwa := hw a ha
      rw [hE.width] at hwa
      -- the counts of the entries are those of the row below
      have hE2 : ∀ k ∈ E.map Prod.snd, 2 ^ Ds.length ≤ k := by
        intro k hk
        obtain ⟨e, he, rfl⟩ := List.mem_map.mp hk
        obtain ⟨d, hd, rfl⟩ := List.mem_map.mp (hsub he)
        exact hD d hd
      calc 2 ^ (Ds.length + 1) = 2 * 2 ^ Ds.length := by rw [Nat.pow_succ, Nat.mul_comm]
        _ ≤ (E.map Prod.snd).length * 2 ^ Ds.length := by
            rw [List.length_map]
            exact Nat.mul_le_mul_right _ hwa
        _ ≤ (E.map Prod.snd).sum := List.card_nsmul_le_sum _ _ hE2
        _ = s.total a := hE.total.symm

theorem Sound.logHeight (h : Sound v s l F) (hf : Forked s) : LogHeight v s := by
  intro n hl hn
  cases h.vec with
  | empty =>
      obtain ⟨r, _, _, hr, _⟩ := hl
      cases hr
  | @tree root Ds l ht =>
      have hlev := hl.eq ht
      have hle := ht.below.two_pow_le hf h.branching (fun hDs => by
        rw [hlev, hDs] at hn
        exact absurd hn (by decide)) root List.mem_cons_self
      rw [ht.total] at hle
      rw [hlev, Nat.add_sub_cancel]
      exact hle

theorem Sound.forked_of_four (h : Sound v s l F) (hB : 4 ≤ B) : Forked s := by
  intro a es hb
  obtain ⟨n, hn, hes⟩ := Store.body_internal.mp hb
  rw [← hes.length]
  by_cases hroot : v.root = some a
  · exact h.balanced.root a n hroot hn
  · have : B / 2 ≤ n.length := h.balanced.wide hB a _ hn hroot
    omega

/-! ## Insertion keeps two children -/

namespace Insert

variable {N : NodeKind} {E : List (Child T N)} {nx : Option Addr} {r : Option Addr}

/-- A node that had two children shares three or more with the one that it is split into. -/
theorem Inserted.forked (h : Inserted s s' N a E nx r) (hf : Forked s) (hB : 3 ≤ B)
    (hE : N = .internal → 2 ≤ E.length) : Forked s' := by
  intro x es hx
  by_cases hmem : x ∈ a :: r.toList
  · obtain ⟨G, nx', hG, _⟩ := h.row.nodeAt hmem
    cases N with
    | leaf =>
        rw [show s'.body x = some (.leaf G nx') from hG] at hx
        cases hx
    | internal =>
        have hw : s'.width x = es.length := by rw [Store.width, hx]; rfl
        rw [← hw]
        cases h with
        | fits hat f =>
            obtain rfl := List.mem_singleton.mp hmem
            rw [hat.width]
            exact hE rfl
        | split hE' hlen h₁ h₂ h₃ h₄ hc hat₁ hat₂ =>
            have hsum := congrArg List.length hE'
            rw [List.length_append, hlen] at hsum
            simp only [Option.toList_some, List.mem_cons, List.not_mem_nil, or_false] at hmem
            rcases hmem with rfl | rfl
            · rw [hat₁.width]
              omega
            · rw [hat₂.width]
              omega
  · rw [h.frame.body x hmem] at hx
    exact hf x es hx

/-- Each turn of `insert` keeps two children. -/
theorem carried_forked (hB : 3 ≤ B) :
    Carried (T := T) (P := P) (B := B) fun _ _ _ _ _ s => Forked s where
  climb hf c := by
    refine c.inserted.forked hf hB fun _ => ?_
    have hp := hf _ _ c.parent.1
    simp only [counted, List.length_append, List.length_cons, List.length_map] at hp ⊢
    omega
  newRoot := by
    intro s s' Ds ins x q hf _ _ _ hat f b es hb
    by_cases hbq : b = q
    · subst hbq
      rw [hat.1, Option.some.injEq, Body.internal.injEq] at hb
      rw [← hb]
      exact Nat.le_refl 2
    · rw [f.body b hbq] at hb
      exact hf b es hb

end Insert

theorem Sound.insert_forked (h : Sound v s l F) (hf : Forked s) {i : Nat} (hi : i ≤ l.length)
    (x : T) : Returns (v.insert i x) s (fun _ s' => Forked s') := by
  obtain ⟨pre, post, rfl, rfl⟩ : ∃ pre post, l = pre ++ post ∧ i = pre.length :=
    ⟨l.take i, l.drop i, (List.take_append_drop i l).symm, by simp [hi]⟩
  generalize hl : pre ++ post = l at h
  have hvec := h.vec
  cases hvec with
  | empty =>
      obtain ⟨rfl, rfl⟩ := List.append_eq_nil_iff.mp hl
      refine (BTreeVec.insert_empty h.branching x).mono ?_
      intro _ s' h'
      obtain ⟨root', rfl, ht, he⟩ := h'
      intro b es hb
      obtain ⟨n, hn, _⟩ := Store.body_internal.mp hb
      -- there is nothing in the store but one leaf
      have hF := (h.of_local (.tree ht) he.locality).live b
        (by rw [hn]; exact Option.some_ne_none _)
      obtain rfl : b = root' := List.mem_singleton.mp hF
      obtain ⟨E, nx, hE, _⟩ := RowAt.nodeAt (show RowAt s' .leaf [b] [x] none from ht.below)
        List.mem_cons_self
      rw [show s'.body b = some (.leaf E nx) from hE] at hb
      cases hb
  | @tree root Ds l ht =>
      subst hl
      refine (BTreeVec.insert_tree ht h.branching x (Insert.carried_forked h.branching)
        fun _ _ new s₁ hins => hins.forked hf h.branching fun hN => nomatch hN).mono ?_
      intro _ s' h'
      obtain ⟨root', Ds', _, _, _, hf'⟩ := h'
      exact hf'

/-! ## Removal, with a child to spare -/

/-- The parent of the node at `a`. -/
def Store.parentAt (s : Store T P B) (a : Addr) : Option Addr :=
  (s.heap.read a).bind fun c => c.nodePrefix.parent.get

/--
The leaf of the index is below a node that can do with a child less: the root, which gives
way to an only child, or a node with three items, which do not fit into one leaf.
-/
def Spare (root index : Nat) (s : Store T P B) : Prop :=
  match leafFor root index s with
  | .ok (leaf, _) _ => ∀ p ∈ s.parentAt leaf, p = root ∨ 3 ≤ s.countBelow p
  | .error _ _ => True

theorem total_internal {es : List (Addr × Nat)} (h : s.body p = some (.internal es)) :
    s.total p = (es.map Prod.snd).sum := by
  rw [Store.total, h]; rfl

theorem Forked.kept {E₀ E : List (Addr × Nat)} (hf : Forked s) (hp : s.body p = some (.internal E₀))
    (hp' : s'.body p = some (.internal E)) (hk : E.map Prod.fst = E₀.map Prod.fst)
    (same : ∀ x, x ≠ p → s'.body x = s.body x) : Forked s' := by
  intro x es hx
  by_cases hxp : x = p
  · subst hxp
    rw [hp', Option.some.injEq, Body.internal.injEq] at hx
    have hlen := congrArg List.length hk
    rw [List.length_map, List.length_map] at hlen
    rw [← hx, hlen]
    exact hf _ _ hp
  · rw [same x hxp] at hx
    exact hf x es hx

namespace Remove

/--
Between two turns of `remove` with `B = 3`, at the node `n` with the rows `As` above it:
no node has lost a child yet that it could not do without, nor will it.
-/
inductive Pruning (n : Addr) (As : List (List Addr)) (s : Store T P B) : Prop where
  | leaf {xs : List T} {nx : Option Addr} (hn : s.body n = some (.leaf xs nx)) (hf : Forked s)
      (spare : ∀ p i, s.link n = some (some p, i) → As.length ≤ 1 ∨ 3 ≤ s.total p)
  | above {es : List (Addr × Nat)} (hn : s.body n = some (.internal es))
      (hf : ∀ x es, s.body x = some (.internal es) → 2 ≤ es.length ∨ x = n ∧ As = [])

/-- Of two leaves one was merged into the other: their parent could do with a child less. -/
theorem Repaired.pruning (hr : Repaired s s' .leaf p) (hf : Forked s) (hB : B = 3)
    (spare : As = [] ∨ 3 ≤ s.total p) : Pruning p As s' := by
  subst hB
  cases hr with
  | kept hp hp' hk _ same =>
      exact .above hp' fun x es hx => Or.inl (hf.kept hp hp' hk same x es hx)
  | @took xs ys a b m₁ m₂ C nx hp hc ha hlt hb gone rest =>
      obtain ⟨hp', same, _⟩ := rest (by omega)
      refine .above hp' fun x es hx => ?_
      by_cases hxp : x = p
      · subst hxp
        rw [hp', Option.some.injEq, Body.internal.injEq] at hx
        rw [← hx, List.length_append, List.length_cons]
        by_cases hlen : 2 ≤ xs.length + (ys.length + 1)
        · exact Or.inl hlen
        · -- an only child is left, with one item at most
          obtain rfl := List.length_eq_zero_iff.mp (show xs.length = 0 by omega)
          obtain rfl := List.length_eq_zero_iff.mp (show ys.length = 0 by omega)
          have htx : s.total x = m₁ + m₂ := by
            rw [total_internal hp]
            simp
          have hta : s.total a = C.length := by
            rw [Store.total, show s.body a = some (.leaf C nx) from ha]; rfl
          exact Or.inr ⟨rfl, spare.resolve_right fun h => by omega⟩
      · refine Or.inl (hf x es ?_)
        rw [← same x hxp fun hxb => ?_]
        · exact hx
        · rw [hxb, gone] at hx
          cases hx

theorem Pruning.climb {A : List Addr} (h : Pruning n (A :: As) s) (hB : B = 3)
    (hc : Climbed s s' n p) : Pruning p As s' := by
  obtain ⟨i, hl⟩ := hc.parent
  obtain ⟨N, E, nx, hn, hr⟩ := hc.repaired
  cases h with
  | leaf hb hf spare =>
      cases N with
      | leaf =>
          refine hr.pruning hf hB ((spare p i hl).imp_left fun hlen => ?_)
          exact List.length_eq_zero_iff.mp (Nat.le_zero.mp (Nat.le_of_succ_le_succ hlen))
      | internal =>
          rw [hn.1] at hb
          cases hb
  | above hb hf =>
      have hf' : Forked s := fun x es hx => (hf x es hx).resolve_right fun h => nomatch h.2
      cases N with
      | leaf =>
          rw [show s.body n = some (.leaf E nx) from hn] at hb
          cases hb
      | internal =>
          cases hr with
          | kept hp hp' hk _ same =>
              exact .above hp' fun x es hx => Or.inl (hf'.kept hp hp' hk same x es hx)
          | took _ _ _ _ hempty =>
              -- none of these nodes is empty, so none was merged away
              exact absurd (hf' _ _ hempty.1) (Nat.not_succ_le_zero 1)

/--
Between two turns of `remove` with `B = 3`, at the node `n`: the node `p`, which is not the
root, has fewer items than two children need, or will when its turn has come.
-/
inductive Scarce (p n : Addr) (s : Store T P B) : Prop where
  | leaf {xs : List T} {nx : Option Addr} (hn : s.body n = some (.leaf xs nx)) (hf : Forked s)
      (hp : ∃ i, s.link n = some (some p, i)) (hpp : ∃ q i, s.link p = some (some q, i))
      (kids : p ∉ s.kids p) (few : s.total p ≤ 2)
  | above {es ps : List (Addr × Nat)} (hn : s.body n = some (.internal es))
      (hne : ∀ x, s.body x ≠ some (.internal [])) (hp : s.body p = some (.internal ps))
      (hpp : ∃ q i, s.link p = some (some q, i)) (few : s.total p ≤ 1)

/-- The turn of the scarce node takes an item from it, whatever becomes of its children. -/
theorem Repaired.scarce (hr : Repaired s s' .leaf p) (hf : Forked s) (hB : B = 3)
    (hpp : ∃ q i, s.link p = some (some q, i)) (kids : p ∉ s.kids p) (few : s.total p ≤ 2) :
    Scarce p p s' := by
  subst hB
  cases hr with
  | @kept E₀ E hp hp' hk hsum same link =>
      refine .above hp' (fun x hx => ?_) hp' (by rwa [link p]) ?_
      · exact absurd (hf.kept hp hp' hk same x [] hx) (by decide)
      · rw [total_internal hp] at few
        rw [total_internal hp']
        omega
  | @took xs ys a b m₁ m₂ C nx hp hc ha hlt hb gone rest =>
      obtain ⟨hp', same, link⟩ := rest (by omega)
      refine .above hp' (fun x hx => ?_) hp' (by rwa [link p kids]) ?_
      · by_cases hxp : x = p
        · subst hxp
          rw [hp'] at hx
          simp at hx
        · rw [same x hxp fun hxb => ?_] at hx
          · exact absurd (hf x [] hx) (by decide)
          · rw [hxb, gone] at hx
            cases hx
      · rw [total_internal hp] at few
        rw [total_internal hp']
        simp only [List.map_append, List.map_cons, List.sum_append, List.sum_cons] at few ⊢
        omega

theorem Scarce.climb {q : Addr} (h : Scarce p n s) (hB : B = 3) (hc : Climbed s s' n q) :
    Scarce p q s' := by
  obtain ⟨i, hl⟩ := hc.parent
  obtain ⟨N, E, nx, hn, hr⟩ := hc.repaired
  cases h with
  | leaf hb hf hp hpp kids few =>
      cases N with
      | leaf =>
          obtain ⟨j, hp⟩ := hp
          obtain rfl : p = q := by
            rw [hp, Option.some.injEq, Prod.mk.injEq, Option.some.injEq] at hl
            exact hl.1
          exact hr.scarce hf hB hpp kids few
      | internal =>
          rw [hn.1] at hb
          cases hb
  | @above es ps hb hne hp hpp few =>
      cases N with
      | leaf =>
          rw [show s.body n = some (.leaf E nx) from hn] at hb
          cases hb
      | internal =>
          cases hr with
          | @kept E₀ E hq hq' hk hsum same link =>
              have hne' : ∀ x, s'.body x ≠ some (.internal []) := by
                intro x hx
                by_cases hxq : x = q
                · subst hxq
                  rw [hq', Option.some.injEq, Body.internal.injEq] at hx
                  subst hx
                  obtain rfl := List.map_eq_nil_iff.mp hk.symm
                  exact hne x hq
                · rw [same x hxq] at hx
                  exact hne x hx
              by_cases hpq : p = q
              · subst hpq
                rw [total_internal hq] at few
                refine .above hq' hne' hq' (by rwa [link p]) ?_
                rw [total_internal hq']
                omega
              · refine .above hq' hne' ((same p hpq).trans hp) (by rwa [link p]) ?_
                rwa [total_congr (same p hpq)]
          | took _ _ _ _ hempty =>
              -- none of these nodes is empty, so none was merged away
              exact absurd hempty.1 (hne _)

end Remove

/-- The counts of a live node are those of the leaves below it. -/
theorem Sound.total_eq (h : Sound v s l F) (hx : s.heap.read x ≠ none) :
    s.total x = s.countBelow x := by
  obtain ⟨root, Ds, W, Ds', hrow, hxW⟩ := h.row hx
  obtain ⟨hc, ht⟩ := hrow.below.counted.1 x hxW
  rw [ht, hc.countBelow]

theorem parentAt_of_link {q : Option Addr} {i : Nat} (h : s.link a = some (q, i)) :
    s.parentAt a = q := by
  rw [Store.link] at h
  rw [Store.parentAt]
  obtain ⟨c, hc, he⟩ := Option.map_eq_some_iff.mp h
  rw [hc]
  exact congrArg Prod.fst he

section Split

variable {pre post l₁ xs ys l₂ : List T} {i j size : Nat} {V V' : List Addr} {m : Addr}
  {k : Remove.RemovalKind}

/-- The parent of the leaf is in the row above it. -/
theorem LeafSplit.parent_mem (hs : LeafSplit s root Ds pre post a U V As l₁ xs ys l₂)
    (hp : s.link a = some (some p, j)) : ∃ A As', As = A :: As' ∧ p ∈ A := by
  have habove := hs.all.above
  cases As with
  | nil =>
      obtain ⟨_, _, hl, _⟩ := Above.root habove
      rw [hl] at hp
      cases hp
  | cons A As =>
      obtain ⟨q, hq, i', hl⟩ := habove.1.row.link_of_mem (x := a) (by rw [kidsOf_counted]; simp)
      rw [hp, Option.some.injEq, Prod.mk.injEq, Option.some.injEq] at hl
      exact ⟨A, As, rfl, hl.1 ▸ hq⟩

/-- Only leaves were written, and the parent is none. -/
theorem LeafSplit.parent_body (hs : LeafSplit s root Ds pre post a U V As l₁ xs ys l₂)
    (hp : s.link a = some (some p, j)) (hm : m ∈ U ++ a :: V) (f : Frame s s' {a, m} ∅) :
    s'.body p = s.body p ∧ (∃ es, s.body p = some (.internal es))
      ∧ ∀ x ∈ s.kids p, x ∈ U ++ a :: V := by
  obtain ⟨A, As', rfl, hpA⟩ := hs.parent_mem hp
  obtain ⟨E, nx, hE, _⟩ := hs.all.above.1.row.nodeAt hpA
  refine ⟨f.body p fun hmem => ?_, ⟨E, hE.1⟩, fun x hx => ?_⟩
  · have hpU : p ∈ U ++ a :: V := by
      rcases hmem with rfl | rfl
      · exact mem_mid.mpr (Or.inl rfl)
      · exact hm
    obtain ⟨G, nx', hG, _⟩ := hs.all.row.nodeAt hpU
    have hb := hE.1
    rw [show s.body p = some (.leaf G nx') from hG] at hb
    cases hb
  · exact Above.kids_mem hs.all.above rfl hpA hx

/-- Nothing is written at the leaves that makes an internal node narrower. -/
theorem Forked.of_leaves (hf : Forked s) (hm : m ∈ U ++ a :: V) (f : Frame s s' {a, m} ∅)
    (hleaf : ∀ x ∈ U ++ a :: V, ∃ xs nx, s'.body x = some (.leaf xs nx)) : Forked s' := by
  intro x es hx
  rw [f.body x fun hmem => ?_] at hx
  · exact hf x es hx
  · have hxU : x ∈ U ++ a :: V := by
      rcases hmem with rfl | rfl
      · exact mem_mid.mpr (Or.inl rfl)
      · exact hm
    obtain ⟨_, _, hx'⟩ := hleaf x hxU
    rw [hx'] at hx
    cases hx

/-- The item was taken out of the leaf, and the leaf was dealt with. -/
theorem Sound.pruning {y : T} (h : Sound v s l F) (hlink : s.link root = some (none, 0))
    (hf : Forked s) (spare : Spare root pre.length s)
    (hrun : leafFor root pre.length s = .ok (a, i) s)
    (hs : LeafSplit s root Ds pre (y :: post) a U V As l₁ xs ys l₂) (hm : m ∈ U ++ a :: V)
    (f : Frame s s' {a, m} ∅)
    (hsh : Remove.Shrinking s' [] V' (U ++ a :: V) ⟨a, k⟩ s.total As size l') :
    Remove.Pruning a As s' := by
  have hleaf : ∀ x ∈ U ++ a :: V, ∃ xs nx, s'.body x = some (.leaf xs nx) := fun x hx =>
    hsh.nodeAt hx
  obtain ⟨_, _, hn⟩ := hleaf a (mem_mid.mpr (Or.inl rfl))
  refine .leaf hn (hf.of_leaves hm f hleaf) fun p j hp => ?_
  rw [f.link a (Set.notMem_empty a)] at hp
  obtain ⟨hbody, ⟨es, hes⟩, _⟩ := hs.parent_body hp hm f
  obtain ⟨A, As', rfl, hpA⟩ := hs.parent_mem hp
  rw [total_congr hbody]
  cases As' with
  | nil => exact Or.inl (Nat.le_refl 1)
  | cons A' As' =>
      -- the parent has a parent in turn, so it is not the root
      obtain ⟨q, _, _, hq⟩ := hs.all.above.2.2.2.1.row.link_of_mem (x := p)
        (by rwa [kidsOf_counted])
      have hpr : p ≠ root := by
        rintro rfl
        rw [hlink] at hq
        cases hq
      obtain ⟨node, hnode, _⟩ := Store.body_internal.mp hes
      rw [Spare, hrun] at spare
      have h3 := (spare p (parentAt_of_link hp)).resolve_left hpr
      rw [← h.total_eq (by rw [hnode]; exact Option.some_ne_none _)] at h3
      exact Or.inr h3

theorem link_of_parentAt (h : p ∈ s.parentAt a) : ∃ i, s.link a = some (some p, i) := by
  obtain ⟨c, hc, hp⟩ := Option.bind_eq_some_iff.mp h
  refine ⟨c.nodePrefix.index, ?_⟩
  rw [Store.link, hc, Option.map_some, Cell.link, hp]

/-- The item was taken from below a node with two items, which is not the root. -/
theorem Sound.scarce {y : T} (h : Sound v s l F) (hv : v.root = some root) (hf : Forked s)
    (hpa : p ∈ s.parentAt a) (hpr : p ≠ root) (few : s.countBelow p < 3)
    (hs : LeafSplit s root Ds pre (y :: post) a U V As l₁ xs ys l₂) (hm : m ∈ U ++ a :: V)
    (f : Frame s s' {a, m} ∅)
    (hsh : Remove.Shrinking s' [] V' (U ++ a :: V) ⟨a, k⟩ s.total As size l') :
    Remove.Scarce p a s' := by
  have hleaf : ∀ x ∈ U ++ a :: V, ∃ xs nx, s'.body x = some (.leaf xs nx) := fun x hx =>
    hsh.nodeAt hx
  obtain ⟨_, _, hn⟩ := hleaf a (mem_mid.mpr (Or.inl rfl))
  obtain ⟨j, hp⟩ := link_of_parentAt hpa
  obtain ⟨hbody, ⟨es, hes⟩, hkids⟩ := hs.parent_body hp hm f
  obtain ⟨node, hnode, _⟩ := Store.body_internal.mp hes
  obtain ⟨q, _, hq, _⟩ := h.prefixesCorrect.parent p _ hnode fun he => by
    rw [hv, Option.some.injEq] at he
    exact hpr he.symm
  refine .leaf hn (hf.of_leaves hm f hleaf) ⟨j, ?_⟩ ⟨q, node.nodePrefix.index, ?_⟩ ?_ ?_
  · rw [f.link a (Set.notMem_empty a)]
    exact hp
  · rw [f.link p (Set.notMem_empty p), Store.link, hnode, Option.map_some, Cell.link, hq]
    rfl
  · rw [kids_congr hbody]
    intro hpk
    obtain ⟨_, _, hl⟩ := hleaf p (hkids p hpk)
    rw [hbody, hes] at hl
    cases hl
  · rw [total_congr hbody, h.total_eq (by rw [hnode]; exact Option.some_ne_none _)]
    exact Nat.le_of_lt_succ few

end Split

/-- The root is reached, and may have given way to its only child. -/
theorem Sound.forked_of_collapsed (h : Sound v s' l F) (hc : Remove.Collapsed Remove.Pruning s') :
    Forked s' := by
  obtain ⟨root, s, hp, hl, hsame, hroot⟩ := hc
  intro x es hx
  by_cases hxr : x = root
  · subst hxr
    obtain ⟨n, hn, hes⟩ := Store.body_internal.mp hx
    rcases hroot with rfl | hdead
    · -- it has no parent, so it is the root still
      rw [← hes.length]
      refine h.balanced.root x n ?_ hn
      by_contra hne
      obtain ⟨q, m, hq, _⟩ := h.prefixesCorrect.parent x _ hn hne
      rw [Store.link, hn, Option.map_some, Option.some.injEq] at hl
      rw [show (Cell.internal n).nodePrefix.parent.get = none from congrArg Prod.fst hl] at hq
      cases hq
    · rw [hdead] at hn
      cases hn
  · rw [(hsame x hxr).body] at hx
    cases hp with
    | leaf _ hf => exact hf x es hx
    | above _ hf => exact (hf x es hx).resolve_right fun h => hxr h.1

/-- With two children the scarce node would have two items. -/
theorem Sound.not_forked (h : Sound v s' l F)
    (hc : Remove.Collapsed (fun n _ s => Remove.Scarce p n s) s') : ¬ Forked s' := by
  obtain ⟨root, s, hsc, hl, hsame, _⟩ := hc
  cases hsc with
  | leaf _ _ hp =>
      obtain ⟨i, hp⟩ := hp
      rw [hl] at hp
      cases hp
  | above _ _ hp hpp few =>
      have hpr : p ≠ root := by
        rintro rfl
        obtain ⟨q, i, hpp⟩ := hpp
        rw [hl] at hpp
        cases hpp
      have hbody := (hsame p hpr).body
      rw [← hbody] at hp
      rw [← total_congr hbody] at few
      obtain ⟨n, hn, _⟩ := Store.body_internal.mp hp
      obtain ⟨r, Ds, W, Ds', hrow, hpW⟩ := h.row (by rw [hn]; exact Option.some_ne_none _)
      obtain ⟨D, Ds', _, rfl, _⟩ := hrow.below.internal hpW hn
      intro hf
      have hle := hrow.below.two_pow_le hf h.branching (fun hD => nomatch hD) p hpW
      rw [List.length_cons, Nat.pow_succ] at hle
      have := Nat.one_le_two_pow (n := Ds'.length)
      omega

/-- A removal keeps two children just where there is a child to spare. -/
theorem Sound.remove_forked (h : Sound v s l F) (hf : Forked s) (hB : B = 3) {i : Nat} {y : T}
    (hi : l[i]? = some y) (hv : v.root = some root) :
    Returns (v.remove i) s (fun _ s' => Forked s' ↔ Spare root i s) := by
  obtain ⟨pre, post, rfl, rfl⟩ := split_at hi
  generalize hl : pre ++ y :: post = l at h
  have hvec := h.vec
  cases hvec with
  | empty => exact absurd hl (by simp)
  | @tree r Ds l ht =>
      subst hl
      obtain rfl : r = root := Option.some.inj hv
      by_cases spare : Spare r pre.length s
      · refine (BTreeVec.remove_tree (G := Remove.Pruning) ht h.branching ?_
          fun hp hc => hp.climb hB hc).mono ?_
        · intro a i U V As l₁ xs ys l₂ hrun hs m s₁ V' k size l' hm _ f hsh
          exact h.pruning ht.link hf spare hrun hs hm f hsh
        · intro _ s' h'
          obtain ⟨root', Ds', rfl, ht', he, hcol⟩ := h'
          have hs' := h.of_local (.tree ht') he.locality
          exact iff_of_true (hs'.forked_of_collapsed hcol) spare
      · obtain ⟨a, i, p, hrun, hpa, hpr, few⟩ : ∃ a i p, leafFor r pre.length s = .ok (a, i) s
            ∧ p ∈ s.parentAt a ∧ p ≠ r ∧ s.countBelow p < 3 := by
          obtain ⟨⟨a, i⟩, s', hrun, rfl, _⟩ := returns_iff.mp ht.leafFor_spec
          rw [Spare, hrun] at spare
          push Not at spare
          obtain ⟨p, hpa, hpr, few⟩ := spare
          exact ⟨a, i, p, hrun, hpa, hpr, few⟩
        refine (BTreeVec.remove_tree (G := fun n _ s => Remove.Scarce p n s) ht h.branching ?_
          fun hp hc => hp.climb hB hc).mono ?_
        · intro a' i' U V As l₁ xs ys l₂ hrun' hs m s₁ V' k size l' hm _ f hsh
          rw [hrun] at hrun'
          cases hrun'
          exact h.scarce rfl hf hpa hpr few hs hm f hsh
        · intro _ s' h'
          obtain ⟨root', Ds', rfl, ht', he, hcol⟩ := h'
          have hs' := h.of_local (.tree ht') he.locality
          exact iff_of_false (hs'.not_forked hcol) spare

/-! ## Runs of such calls -/

/-- The index of the item that the call takes out of the vector. -/
def Op.target (v : BTreeVec) : Op T → Option Nat
  | remove index => if index < v.len then some index else none
  | pop => if 1 ≤ v.len then some (v.len - 1) else none
  | _ => none

/-- Internal nodes keep two children: `B` is large, or nothing is taken from a scarce node. -/
def Op.KeepsForks (op : Op T) (v : BTreeVec) (s : Store T P B) : Prop :=
  4 ≤ B ∨ ∀ index ∈ op.target v, ∀ root ∈ v.root, Spare root index s

/-- As `Reachable`, where every call that does not panic meets `C` in the state before it. -/
inductive ReachableIf (C : Op T → BTreeVec → Store T P B → Prop) :
    BTreeVec → Store T P B → Prop where
  | create {v : BTreeVec} {s : Store T P B} (h : BTreeVec.create Store.empty = .ok v s) :
      ReachableIf C v s
  | call {v v' : BTreeVec} {s s' : Store T P B} (op : Op T) {r : Ret T} (hv : ReachableIf C v s)
      (hop : C op v s) (h : op.exec v s = .ok (v', r) s') : ReachableIf C v' s'
  | panic {v : BTreeVec} {s s' : Store T P B} (op : Op T) {e : Fault} (hv : ReachableIf C v s)
      (h : op.exec v s = .error e s') : ReachableIf C v s'

theorem ReachableIf.reachable {C : Op T → BTreeVec → Store T P B → Prop}
    (h : ReachableIf C v s) : Reachable v s := by
  induction h with
  | create h => exact .create h
  | call op _ _ he ih => exact ih.call op he
  | panic op _ he ih => exact ih.panic op he

theorem Op.keepsForks_of_none {op : Op T} (h : op.target v = none) : op.KeepsForks v s := by
  refine Or.inr fun index hi => ?_
  rw [h] at hi
  cases hi

theorem Op.keepsForks_iff {op : Op T} {i : Nat} (hB : B = 3) (h : op.target v = some i)
    (hv : v.root = some root) : op.KeepsForks v s ↔ Spare root i s := by
  constructor
  · exact fun hop => hop.resolve_left (by omega) i h root hv
  · refine fun spare => Or.inr fun index hi r hr => ?_
    rw [h] at hi
    rw [hv] at hr
    cases hi
    cases hr
    exact spare

/-- One call that takes out an item. -/
theorem Sound.target_forked (h : Sound v s l F) (hf : Forked s) (hB : B = 3) {op : Op T} {i : Nat}
    (ht : op.target v = some i) (hi : i < l.length) :
    Returns (v.remove i) s (fun _ s' => Forked s' ↔ op.KeepsForks v s) := by
  obtain ⟨Ds, root, hv, _, _⟩ := h.vec.root_ne_none (List.length_pos_iff.mp (Nat.zero_lt_of_lt hi))
  refine (h.remove_forked hf hB (List.getElem?_eq_getElem hi) hv).mono ?_
  intro _ s' h'
  exact h'.trans (Op.keepsForks_iff hB ht hv).symm

theorem Forked.read (hf : Forked s) {op : Op T} (ht : op.target v = none)
    {m : Exec T P B (Option T)} {r : Option T} (hm : Returns m s (fun a s' => a = r ∧ s' = s)) :
    Returns m s (fun _ s' => Forked s' ↔ op.KeepsForks v s) := by
  refine hm.mono ?_
  intro _ s hr
  obtain ⟨_, rfl⟩ := hr
  exact iff_of_true hf (Op.keepsForks_of_none ht)

/-- One call. -/
theorem Sound.exec_forked (h : Sound v s l F) (hf : Forked s) (hB : B = 3) {op : Op T}
    (hb : op.InBounds v) :
    Returns (op.exec v) s (fun _ s' => Forked s' ↔ op.KeepsForks v s) := by
  have hsize := h.vec.size
  cases op with
  | insert i x =>
      simp only [Op.InBounds, BTreeVec.len, hsize] at hb
      simp only [Op.exec, returns_bind, returns_pure]
      refine (h.insert_forked hf hb x).mono ?_
      exact fun _ _ hf' => iff_of_true hf' (Op.keepsForks_of_none rfl)
  | push x =>
      simp only [Op.exec, BTreeVec.push, returns_bind, returns_pure]
      refine (h.insert_forked hf (Nat.le_of_eq hsize) x).mono ?_
      exact fun _ _ hf' => iff_of_true hf' (Op.keepsForks_of_none rfl)
  | remove i =>
      simp only [Op.InBounds, BTreeVec.len, hsize] at hb
      simp only [Op.exec, returns_bind, returns_pure]
      refine h.target_forked hf hB ?_ hb
      rw [Op.target, BTreeVec.len, hsize, if_pos hb]
  | pop =>
      simp only [Op.exec, BTreeVec.pop, returns_bind, returns_pure]
      split
      · rename_i hlen
        simp only [returns_bind, returns_pure]
        refine h.target_forked hf hB ?_ (by omega)
        rw [Op.target, BTreeVec.len, if_pos hlen]
      · rename_i hlen
        rw [returns_pure]
        refine iff_of_true hf (Op.keepsForks_of_none ?_)
        rw [Op.target, BTreeVec.len, if_neg hlen]
  | get i =>
      simp only [Op.exec, returns_bind, returns_pure]
      exact hf.read rfl (h.vec.get i)
  | getMut i y =>
      have hkeep : (Op.getMut i y).KeepsForks v s := Op.keepsForks_of_none rfl
      cases hx : l[i]? with
      | some x =>
          obtain ⟨pre, post, rfl, rfl⟩ := split_at hx
          refine (BTreeVec.getMut_spec h.vec y).mono ?_
          intro _ s' h'
          obtain ⟨_, _, _, hinner⟩ := h'
          exact iff_of_true (fun a es ha => hf a es (hinner a es ha)) hkeep
      | none =>
          have hi : ¬ i < v.size := by
            rw [hsize]
            exact Nat.not_lt.mpr (List.getElem?_eq_none_iff.mp hx)
          simp only [Op.exec, BTreeVec.getMut, if_neg hi, returns_bind, returns_pure]
          exact iff_of_true hf hkeep
  | first =>
      simp only [Op.exec, returns_bind, returns_pure]
      exact hf.read rfl (h.vec.get 0)
  | last =>
      simp only [Op.exec, returns_bind, returns_pure]
      exact hf.read rfl h.vec.last
  | len => exact iff_of_true hf (Op.keepsForks_of_none rfl)

/-- A call that returns was in bounds. -/
theorem Sound.inBounds (h : Sound v s l F) {op : Op T} {r : Ret T}
    (he : op.exec v s = .ok (v', r) s') : op.InBounds v := by
  have hr := h.vec.exec h.branching op
  have hsize := h.vec.size
  cases op with
  | insert i x =>
      by_contra hi
      simp only [Op.InBounds, BTreeVec.len, hsize] at hi
      rw [Op.onList, if_neg hi, Op.Refines, he] at hr
      cases hr
  | remove i =>
      by_contra hi
      simp only [Op.InBounds, BTreeVec.len, hsize] at hi
      rw [Op.onList, List.getElem?_eq_none (Nat.not_lt.mp hi), Option.map_none, Op.Refines,
        he] at hr
      cases hr
  | _ => trivial

/-- In a run of such calls every internal node has two children. -/
theorem ReachableIf.forked (h : ReachableIf Op.KeepsForks v s) : Forked s := by
  obtain ⟨l, F, hs⟩ := h.reachable.sound
  by_cases hB : 4 ≤ B
  · exact hs.forked_of_four hB
  have hB3 : B = 3 := by
    have := hs.branching
    omega
  clear hs
  induction h with
  | create h =>
      have hc := create_spec (T := T) (P := P) (s := Store.empty) (show 3 ≤ B by omega)
      rw [Returns, h] at hc
      obtain ⟨rfl, _⟩ := hc
      intro a es ha
      cases ha
  | call op hv hop he ih =>
      obtain ⟨l, F, hs⟩ := hv.reachable.sound
      have hr := hs.exec_forked ih hB3 (hs.inBounds he)
      rw [Returns, he] at hr
      exact hr.mpr hop
  | panic op hv he ih =>
      obtain ⟨l, F, hs⟩ := hv.reachable.sound
      obtain ⟨_, rfl, _⟩ := hs.vec.exec_error hs.branching he
      exact ih

/-- The next call keeps two children just where it meets the condition. -/
theorem ReachableIf.forked_iff (h : ReachableIf Op.KeepsForks v s) {op : Op T} {r : Ret T}
    (he : op.exec v s = .ok (v', r) s') : Forked s' ↔ op.KeepsForks v s := by
  obtain ⟨l, F, hs⟩ := h.reachable.sound
  by_cases hB : 4 ≤ B
  · obtain ⟨l', F', hs'⟩ := (h.reachable.call op he).sound
    exact iff_of_true (hs'.forked_of_four hB) (Or.inl hB)
  · have hB3 := hs.branching
    have hr := hs.exec_forked h.forked (by omega) (hs.inBounds he)
    rwa [Returns, he] at hr

/-- The calls meet `C` one after the other, and none panics. -/
def Meets (C : Op T → BTreeVec → Store T P B → Prop) :
    List (Op T) → BTreeVec → Store T P B → Prop
  | [], _, _ => True
  | op :: ops, v, s => C op v s ∧ match op.exec v s with
      | .ok (v, _) s => Meets C ops v s
      | .error _ _ => False

theorem ReachableIf.execAll {C : Op T → BTreeVec → Store T P B → Prop} {ops : List (Op T)}
    (hv : ReachableIf C v s) (hm : Meets C ops v s) (h : execAll ops v s = .ok v' s') :
    ReachableIf C v' s' := by
  induction ops generalizing v s with
  | nil =>
      injection h with hv' hs'
      subst hv' hs'
      exact hv
  | cons op ops ih =>
      simp only [BTreeVec.execAll, bind, EStateM.bind] at h
      obtain ⟨hop, hm⟩ := hm
      cases he : op.exec v s with
      | error e t => rw [he] at h; cases h
      | ok r t =>
          rw [he] at h hm
          exact ih (hv.call op hop he) hm h

theorem ReachableIf.history {C : Op T → BTreeVec → Store T P B → Prop} {ops : List (Op T)}
    (hm : Meets C ops ⟨none, 0⟩ Store.empty) (h : history ops Store.empty = .ok v s) :
    ReachableIf C v s := by
  simp only [BTreeVec.history, bind, EStateM.bind] at h
  cases hc : (BTreeVec.create : Exec T P B BTreeVec) Store.empty with
  | error e t => rw [hc] at h; cases h
  | ok v₀ s₀ =>
      rw [hc] at h
      have hnew : v₀ = ⟨none, 0⟩ ∧ s₀ = Store.empty := by
        have hr := Returns.of_ok (Q := fun w t => w = v₀ ∧ t = s₀) hc ⟨rfl, rfl⟩
        simp only [BTreeVec.create, returns_bind, returns_check, returns_pure] at hr
        exact ⟨hr.2.1.symm, hr.2.2.symm⟩
      obtain ⟨rfl, rfl⟩ := hnew
      exact (ReachableIf.create hc).execAll hm h

instance (root index : Nat) (s : Store T P B) : Decidable (Spare root index s) :=
  match h : (leafFor root index : Exec T P B (Addr × Nat)) s with
  | .ok (leaf, _) _ =>
      decidable_of_iff (∀ p ∈ s.parentAt leaf, p = root ∨ 3 ≤ s.countBelow p) (by rw [Spare, h])
  | .error _ _ => isTrue (by rw [Spare, h]; trivial)

instance (op : Op T) (v : BTreeVec) (s : Store T P B) : Decidable (op.KeepsForks v s) :=
  inferInstanceAs (Decidable (_ ∨ _))

instance Meets.decidable (C : Op T → BTreeVec → Store T P B → Prop)
    [∀ op v s, Decidable (C op v s)] :
    (ops : List (Op T)) → (v : BTreeVec) → (s : Store T P B) → Decidable (Meets C ops v s)
  | [], _, _ => isTrue trivial
  | op :: ops, v, s =>
      have : Decidable (match op.exec v s with
          | .ok (v, _) s => Meets C ops v s
          | .error _ _ => False) :=
        match op.exec v s with
        | .ok (v, _) s => Meets.decidable C ops v s
        | .error _ _ => isFalse id
      inferInstanceAs (Decidable (_ ∧ _))

/-! ## The bound -/

omit [TaggedPtr P] in
theorem hasLevels_three {r c k : Nat} (hc : c ∈ s.childrenAt r) (ha : a ∈ s.childrenAt c)
    (hl : s.IsLeaf a) : HasLevels ⟨some r, k⟩ s 3 :=
  ⟨r, 2, a, rfl, .child (.child .root hc) ha, hl, rfl⟩

theorem grownAndShrunk_not_logHeight : ∃ s : Store Nat PairPtr 3, Reachable ⟨some 6, 3⟩ s
    ∧ HasLevels ⟨some 6, 3⟩ s 3 ∧ ¬ LogHeight ⟨some 6, 3⟩ s := by
  obtain ⟨v, s, h, rfl, h₁, h₂, hl⟩ := grownAndShrunk_run
  have hlev := hasLevels_three (k := 3) h₁ h₂ hl
  exact ⟨s, .history h, hlev, fun hlog => absurd (hlog 3 hlev (by decide)) (by decide)⟩

/--
**The height is logarithmic in every run just when `B` is at least 4.** With `B = 3` a node
may lose all its children but one and have no sibling to be merged with, so levels stay
that the items no longer need. **In a run without such removals it is logarithmic, too.**
-/
theorem log_height_iff (hB : 3 ≤ B) :
    ((∀ (T P : Type) [TaggedPtr P] (v : BTreeVec) (s : Store T P B), Reachable v s → LogHeight v s)
      ↔ 4 ≤ B)
    ∧ ∀ (T P : Type) [TaggedPtr P] (v : BTreeVec) (s : Store T P B),
      ReachableIf Op.KeepsForks v s → LogHeight v s
        ∧ ∀ (op : Op T) (v' : BTreeVec) (r : Ret T) (s' : Store T P B),
          op.exec v s = .ok (v', r) s' → (Forked s' ↔ op.KeepsForks v s) := by
  refine ⟨⟨fun h => ?_, fun h4 T P _ v s hr => ?_⟩, fun T P _ v s hr => ⟨?_, fun op v' r s' he =>
    hr.forked_iff he⟩⟩
  · by_contra hlt
    obtain rfl : B = 3 := by omega
    obtain ⟨s, hr, _, hnot⟩ := grownAndShrunk_not_logHeight
    exact hnot (h Nat PairPtr _ s hr)
  · obtain ⟨l, F, hs⟩ := hr.sound
    exact hs.logHeight (hs.forked_of_four h4)
  · obtain ⟨l, F, hs⟩ := hr.reachable.sound
    exact hs.logHeight hr.forked

/-- Ten items in and five out again, none of them from a node that cannot do without. -/
def pruned : List (Op Nat) := (List.range 8).map .push
  ++ [.insert 0 9, .insert 0 8, .remove 4, .remove 4, .remove 2, .pop, .remove 0]

theorem pruned_run : ∃ (v : BTreeVec) (s : Store Nat PairPtr 3),
    history pruned Store.empty = .ok v s ∧ v = ⟨some 6, 5⟩ ∧ 2 ∈ s.childrenAt 6
      ∧ 0 ∈ s.childrenAt 2 ∧ s.IsLeaf 0 ∧ ¬ (Op.remove 0 : Op Nat).KeepsForks v s
      ∧ Returns ((Op.remove 0).exec v) s (fun _ _ => True) :=
  returns_iff.mp (by decide +kernel)

theorem pruned_meets :
    Meets Op.KeepsForks pruned ⟨none, 0⟩ (Store.empty : Store Nat PairPtr 3) := by
  decide +kernel

theorem grown_run : ∃ (v : BTreeVec) (s : Store Nat PairPtr 4),
    history ((List.range 11).map .push) Store.empty = .ok v s
      ∧ v = ⟨some 7, 11⟩ ∧ 2 ∈ s.childrenAt 7 ∧ 0 ∈ s.childrenAt 2 ∧ s.IsLeaf 0 :=
  returns_iff.mp (by decide +kernel)

/--
Five items on three levels with `B = 3`, and eleven with `B = 4`. To remove the first of the
five leaves a node with one child.
-/
theorem log_height_iff_levels :
    (∃ s s' : Store Nat PairPtr 3, HasLevels ⟨some 6, 5⟩ s 3 ∧ LogHeight ⟨some 6, 5⟩ s
      ∧ (∃ r, Op.exec ⟨some 6, 5⟩ (.remove 0) s = .ok r s') ∧ ¬ Forked s')
    ∧ ∃ s : Store Nat PairPtr 4, HasLevels ⟨some 7, 11⟩ s 3 ∧ LogHeight ⟨some 7, 11⟩ s := by
  obtain ⟨v, s, h, rfl, h₁, h₂, hl, hop, hr⟩ := pruned_run
  obtain ⟨r, s', he, _⟩ := returns_iff.mp hr
  obtain ⟨w, t, ht, rfl, ht₁, ht₂, htl⟩ := grown_run
  have hthree := (log_height_iff (by decide)).2 _ _ _ s (.history pruned_meets h)
  exact ⟨⟨s, s', hasLevels_three h₁ h₂ hl, hthree.1, ⟨r, he⟩, fun hf =>
      hop ((hthree.2 _ r.1 r.2 s' he).mp hf)⟩,
    t, hasLevels_three ht₁ ht₂ htl,
      (log_height_iff (by decide)).1.mpr (by decide) _ _ _ t (.history ht)⟩

/-- Three items on three levels, where `2 ^ 2` would be needed. -/
theorem log_height_fails_three : ∃ (v : BTreeVec) (s : Store Nat PairPtr 3),
    history grownAndShrunk Store.empty = .ok v s ∧ v.size = 3 ∧ HasLevels v s 3
      ∧ ¬ LogHeight v s := by
  obtain ⟨v, s, h, rfl, h₁, h₂, hl⟩ := grownAndShrunk_run
  have hlev := hasLevels_three (k := 3) h₁ h₂ hl
  exact ⟨_, s, h, rfl, hlev, fun hlog => absurd (hlog 3 hlev (by decide)) (by decide)⟩

end BTreeVec
