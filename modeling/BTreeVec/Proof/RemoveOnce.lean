import BTreeVec.Proof.Balance
import BTreeVec.Proof.Shape

/-!
# What `remove_once` does to a node and its siblings

`remove_once` is called at a leaf, and then at the parent of each node that was merged
away, while the counts further up are still the old ones. So a tree is well formed here
by its links, its leaf chain and its occupancy alone, and one node in it may be a hole:
left empty, not in the leaf chain, about to be taken out of its parent. The kind that
`remove_once` returns is all that the parent hears, so `Described` says what it promises.
-/

namespace BTreeVec

open Prog

variable {T P : Type} {B : Nat} [TaggedPtr P] {s s' s₁ : Store T P B} {N : NodeKind}
  {a b n p node root x : Addr} {nx : Option Addr} {left right hole : Option Addr} {ls : List Addr}
  {E : List (Child T N)}

/-! ## The tree -/

namespace Store

/-- The items of a leaf, or the children of an internal node with their counts. -/
def childList (s : Store T P B) : (N : NodeKind) → Addr → List (Child T N)
  | .leaf, a => s.items a
  | .internal, a =>
      match s.body a with
      | some (.internal es) => es
      | _ => []

/-- The nodes in the slots before and after the one the node is in. -/
def siblings (s : Store T P B) (a : Addr) : Option Addr × Option Addr :=
  match s.link a with
  | some (some p, i) =>
      (if i = 0 then none else (s.childrenAt p)[i - 1]?, (s.childrenAt p)[i + 1]?)
  | _ => (none, none)

end Store

/--
A subtree of height `k` with the leaves `ls`: the children of a node have it as their
parent and their slot as their index, and with a sibling they are at least half full. The
hole is at no particular height, and without leaves.
-/
inductive Shaped (s : Store T P B) (hole : Option Addr) : Nat → Addr → List Addr → Prop where
  | leaf {a : Addr} {xs : List T} {nx : Option Addr} (h : s.body a = some (.leaf xs nx)) :
      Shaped s hole 0 a [a]
  | internal {k : Nat} {a : Addr} {es : List (Addr × Nat)} {f : Addr → List Addr}
      (h : NodeAt s .internal a es none)
      (hocc : 2 ≤ es.length → ∀ e ∈ es, hole ≠ some e.1 → B / 2 ≤ s.lengthAt e.1)
      (hsub : ∀ e ∈ es, Shaped s hole k e.1 (f e.1)) :
      Shaped s hole (k + 1) a (es.flatMap fun e => f e.1)
  | hole {k : Nat} {a : Addr} {b : Body T} (ha : hole = some a) (h : s.body a = some b)
      (hw : b.width = 0) : Shaped s hole k a []

/-- A well-formed tree, whatever its counts: all leaves are at one depth, and chained. -/
structure WellFormed (s : Store T P B) (root : Addr) (hole : Option Addr) : Prop where
  shaped : ∃ k ls, Shaped s hole k root ls ∧ Chain s ls.head? ls
  parent : ∃ i, s.link root = some (none, i)

/-! ## What the kind says -/

namespace Remove

/--
`kind` says what was done to `node`, which has lost a child and had the children `E` after
that, and to its siblings. Indices are those of the slots in their parent.
-/
def Described (s s' : Store T P B) (N : NodeKind) (node : Addr) (E : List (Child T N))
    (left right : Option Addr) : RemovalKind → Prop
  | .absorbed index => (∃ p, s.link node = some (p, index)) ∧ s'.childList N node = E
      ∧ (∀ x, x ∈ left ∨ x ∈ right → s'.heap.read x = s.heap.read x)
      ∧ (B / 2 ≤ s'.lengthAt node ∨ left = none ∧ right = none)
  | .moved src dest size => ∃ p sib c, s.link node = some (some p, dest)
      ∧ s.link sib = some (some p, src) ∧ Node.itemSize N c = size
      ∧ (sib ∈ left ∧ s.childList N sib = s'.childList N sib ++ [c]
          ∧ s'.childList N node = c :: E
        ∨ sib ∈ right ∧ s.childList N sib = c :: s'.childList N sib
          ∧ s'.childList N node = E ++ [c])
      ∧ B / 2 ≤ s'.lengthAt sib ∧ B / 2 ≤ s'.lengthAt node
  | .merged src dest => ∃ p a b, s.link a = some (some p, dest)
      ∧ s.link b = some (some p, src) ∧ src = dest + 1
      ∧ (a ∈ left ∧ b = node ∧ s'.childList N a = s.childList N a ++ E
        ∨ a = node ∧ b ∈ right ∧ s'.childList N a = E ++ s.childList N b)
      ∧ s'.lengthAt b = 0 ∧ s'.lengthAt a ≤ B - 1

end Remove

theorem NodeAt.childList (h : NodeAt s N a E nx) : s.childList N a = E := by
  cases N with
  | leaf =>
      have hb : s.body a = some (.leaf E nx) := h
      rw [Store.childList, Store.items, hb]
      rfl
  | internal => simp only [Store.childList, h.1]

theorem NodeAt.lengthAt (h : NodeAt s N a E nx) : s.lengthAt a = E.length := by
  obtain ⟨b, hb, _, hw, _⟩ := h.body
  rw [lengthAt_of_body hb, hw]

/-! ## At one node -/

namespace Remove

/--
The place of a node among its siblings: it has none, or those that it has are neighbours
under one parent, and all are at least half full.
-/
inductive Place (s : Store T P B) (N : NodeKind) (node : Addr) (E : List (Child T N))
    (nx : Option Addr) : Option Addr → Option Addr → Prop where
  | root {i : Nat} (hl : s.link node = some (none, i)) : Place s N node E nx none none
  | under {p : Addr} {m : Nat} {xs ys : List (Addr × Nat)}
      (hl : s.link node = some (some p, xs.length))
      (hp : s.body p = some (.internal (xs ++ (node, m) :: ys))) (hpn : p ≠ node)
      (hmin : xs ≠ [] ∨ ys ≠ [] → B / 2 ≤ E.length)
      (hleft : ∀ a ∈ xs.getLast?.map Prod.fst, ∃ F j, Neighbours s N p a node F E nx j
        ∧ B / 2 ≤ F.length)
      (hright : ∀ b ∈ ys.head?.map Prod.fst, ∃ G nx' j, Neighbours s N p node b E G nx' j
        ∧ B / 2 ≤ G.length) :
      Place s N node E nx (xs.getLast?.map Prod.fst) (ys.head?.map Prod.fst)

/-- A child was taken out of the right one of two neighbours. -/
theorem Neighbours.drop_right {F xs ys : List (Child T N)} {c : Child T N} {j : Nat}
    (h : Neighbours s N p a b F (xs ++ c :: ys) nx j) (hb : NodeAt s₁ N b (xs ++ ys) nx)
    (f : Frame s s₁ {b} {y | y ∈ kidsOf N (c :: ys)}) :
    Neighbours s₁ N p a b F (xs ++ ys) nx j := by
  have hsub : c :: ys ⊆ xs ++ c :: ys := List.subset_append_right _ _
  have hsub' : c :: ys ⊆ F ++ (xs ++ c :: ys) := fun y hy => List.mem_append_right _ (hsub hy)
  refine ⟨h.ne, ?_, hb, (h.link_eq f hsub' (Or.inl rfl)).trans h.link₁,
    (h.link_eq f hsub' (Or.inr rfl)).trans h.link₂, h.parent₁, h.parent₂⟩
  refine h.at₁.frame f h.ne fun y hy hmem => ?_
  exact h.at₁.not_mem_kids h.at₂ h.ne hy (kidsOf_mono hsub hmem)

/-- A child was taken out of the left one of two neighbours. -/
theorem Neighbours.drop_left {G xs ys : List (Child T N)} {c : Child T N} {j : Nat}
    (h : Neighbours s N p a b (xs ++ c :: ys) G nx j) (ha : NodeAt s₁ N a (xs ++ ys) (some b))
    (f : Frame s s₁ {a} {y | y ∈ kidsOf N (c :: ys)}) :
    Neighbours s₁ N p a b (xs ++ ys) G nx j := by
  have hsub : c :: ys ⊆ xs ++ c :: ys := List.subset_append_right _ _
  have hsub' : c :: ys ⊆ (xs ++ c :: ys) ++ G := fun y hy => List.mem_append_left _ (hsub hy)
  refine ⟨h.ne, ha, ?_, (h.link_eq f hsub' (Or.inl rfl)).trans h.link₁,
    (h.link_eq f hsub' (Or.inr rfl)).trans h.link₂, h.parent₁, h.parent₂⟩
  refine h.at₂.frame f (fun he => h.ne he.symm) fun y hy hmem => ?_
  exact h.at₁.not_mem_kids h.at₂ h.ne (kidsOf_mono hsub hmem) hy

/-- The three nodes in order: `node` with the children `E`, the siblings as they were. -/
def trio (left : Option Addr) (node : Addr) (right : Option Addr) : List Addr :=
  left.toList ++ node :: right.toList

/-- What is so after `remove_once`. -/
structure Settled (s s' : Store T P B) (N : NodeKind) (node : Addr) (E : List (Child T N))
    (left right : Option Addr) (kind : RemovalKind) : Prop where
  described : Described s s' N node E left right kind
  order : (trio left node right).flatMap (s'.childList N)
    = left.toList.flatMap (s.childList N) ++ (E ++ right.toList.flatMap (s.childList N))
  nodes : ∀ x ∈ trio left node right, ∃ G nx, NodeAt s' N x G nx

theorem flatMap_trio {β : Type} {f : Addr → List β} :
    (trio left node right).flatMap f
      = left.toList.flatMap f ++ (f node ++ right.toList.flatMap f) := by
  rw [trio, List.flatMap_append, List.flatMap_cons]

/-- The sibling that had no part in it. -/
theorem Settled.other {b₁ b₂ : Addr} {G : List (Child T N)} {nx₁ nx₂ nx' : Option Addr}
    {E₁ E₂ : List (Child T N)} (h₁ : NodeAt s N b₁ E₁ nx₁) (h₂ : NodeAt s N b₂ E₂ nx₂)
    (f : Frame s s' {b₁, b₂} {y | y ∈ kidsOf N (E₁ ++ E₂)}) (hx : NodeAt s N x G nx')
    (hne₁ : x ≠ b₁) (hne₂ : x ≠ b₂) : NodeAt s' N x G nx' := by
  refine hx.frame f (fun hmem => hmem.elim hne₁ hne₂) fun y hy hmem => ?_
  rw [Set.mem_ofPred_eq, kidsOf_append, List.mem_append] at hmem
  rcases hmem with hmem | hmem
  · exact hx.not_mem_kids h₁ hne₁ hy hmem
  · exact hx.not_mem_kids h₂ hne₂ hy hmem

/-- Two of the three nodes in order share their children anew, the other is as it was. -/
theorem Settled.of_pair {before after : List Addr} {F G F' G' : List (Child T N)}
    {nx₁ nx₂ : Option Addr} {kind : RemovalKind}
    (htrio : trio left node right = before ++ a :: b :: after)
    (hold : left.toList.flatMap (s.childList N) ++ (E ++ right.toList.flatMap (s.childList N))
      = before.flatMap (s.childList N) ++ (F ++ G ++ after.flatMap (s.childList N)))
    (hside : ∀ x ∈ before ++ after, ∃ C nx, NodeAt s' N x C nx ∧ s.childList N x = C)
    (h₁ : NodeAt s' N a F' nx₁) (h₂ : NodeAt s' N b G' nx₂) (heq : F' ++ G' = F ++ G)
    (hd : Described s s' N node E left right kind) : Settled s s' N node E left right kind := by
  have hlist : ∀ x ∈ before ++ after, s'.childList N x = s.childList N x := by
    intro x hx
    obtain ⟨C, nx, hC, hxC⟩ := hside x hx
    rw [hC.childList, hxC]
  refine ⟨hd, ?_, fun x hx => ?_⟩
  · rw [htrio, hold, List.flatMap_append, List.flatMap_cons, List.flatMap_cons, h₁.childList,
      h₂.childList, ← List.append_assoc F', heq]
    congr 1
    · exact List.flatMap_congr fun x hx => hlist x (List.mem_append_left _ hx)
    · congr 1
      exact List.flatMap_congr fun x hx => hlist x (List.mem_append_right _ hx)
  · rw [htrio, List.mem_append, List.mem_cons, List.mem_cons] at hx
    have hx' : x = a ∨ x = b ∨ x ∈ before ++ after := by
      rw [List.mem_append]
      tauto
    rcases hx' with rfl | rfl | hx'
    · exact ⟨F', nx₁, h₁⟩
    · exact ⟨G', nx₂, h₂⟩
    · obtain ⟨C, nx, hC, _⟩ := hside x hx'
      exact ⟨C, nx, hC⟩

/-- The left sibling lent a child or took all of them. -/
theorem Settled.of_left {F : List (Child T N)} {j : Nat} {kind : RemovalKind}
    (hnb : Neighbours s₁ N p a node F E nx j) (hr : Rebalanced s' N a node F E nx j node kind)
    (f : Frame s₁ s' {a, node} {y | y ∈ kidsOf N (F ++ E)}) (hlt : E.length < B / 2)
    (hmin : B / 2 ≤ E.length + 1) (ha : s.childList N a = F)
    (hla : s.link a = s₁.link a) (hln : s.link node = s₁.link node)
    (hright : ∀ b ∈ right, b ≠ a ∧ b ≠ node ∧ ∃ G nx', NodeAt s₁ N b G nx' ∧ s.childList N b = G) :
    Settled s s' N node E (some a) right kind := by
  rw [hnb.link₁] at hla
  rw [hnb.link₂] at hln
  have htrio : trio (some a) node right = [] ++ a :: node :: right.toList := rfl
  have hold : (some a).toList.flatMap (s.childList N) ++ (E ++ right.toList.flatMap (s.childList N))
      = [].flatMap (s.childList N) ++ (F ++ E ++ right.toList.flatMap (s.childList N)) := by
    rw [Option.toList_some, List.flatMap_singleton, ha, List.flatMap_nil, List.nil_append,
      List.append_assoc]
  have hside : ∀ x ∈ [] ++ right.toList, ∃ C nx, NodeAt s' N x C nx ∧ s.childList N x = C := by
    intro x hx
    obtain ⟨hxa, hxn, C, nx', hC, hxC⟩ := hright x (Option.mem_toList.mp hx)
    exact ⟨C, nx', Settled.other hnb.at₁ hnb.at₂ f hC hxa hxn, hxC⟩
  cases hr with
  | @movedRight F' c hF half hat₁ hat₂ =>
      refine .of_pair htrio hold hside hat₁ hat₂ (by rw [hF]; simp)
        ⟨p, a, c, hln, hla, rfl, Or.inl ⟨rfl, ?_, ?_⟩, ?_, ?_⟩
      · rw [ha, hat₁.childList, hF]
      · exact hat₂.childList
      · rw [hat₁.lengthAt]
        exact half
      · rw [hat₂.lengthAt, List.length_cons]
        exact hmin
  -- the short node is the right one of the two
  | movedLeft => exact absurd rfl hnb.ne
  | merged hn hF hE _ hat₁ hat₂ =>
      refine .of_pair htrio hold hside hat₁ hat₂ (List.append_nil _)
        ⟨p, a, node, hla, hln, rfl, Or.inl ⟨rfl, rfl, ?_⟩, hat₂.lengthAt, ?_⟩
      · rw [hat₁.childList, ha]
      · rw [hat₁.lengthAt, List.length_append]
        omega

/-- The right sibling lent a child or gave all of them. -/
theorem Settled.of_right {G : List (Child T N)} {j : Nat} {kind : RemovalKind}
    (hnb : Neighbours s₁ N p node b E G nx j) (hr : Rebalanced s' N node b E G nx j node kind)
    (f : Frame s₁ s' {node, b} {y | y ∈ kidsOf N (E ++ G)}) (hlt : E.length < B / 2)
    (hmin : B / 2 ≤ E.length + 1) (hb : s.childList N b = G)
    (hlb : s.link b = s₁.link b) (hln : s.link node = s₁.link node)
    (hleft : ∀ a ∈ left, a ≠ node ∧ a ≠ b ∧ ∃ F nx', NodeAt s₁ N a F nx' ∧ s.childList N a = F) :
    Settled s s' N node E left (some b) kind := by
  rw [hnb.link₁] at hln
  rw [hnb.link₂] at hlb
  have htrio : trio left node (some b) = left.toList ++ node :: b :: [] := rfl
  have hold : left.toList.flatMap (s.childList N) ++ (E ++ (some b).toList.flatMap (s.childList N))
      = left.toList.flatMap (s.childList N) ++ (E ++ G ++ [].flatMap (s.childList N)) := by
    rw [Option.toList_some, List.flatMap_singleton, hb, List.flatMap_nil, List.append_nil]
  have hside : ∀ x ∈ left.toList ++ [], ∃ C nx, NodeAt s' N x C nx ∧ s.childList N x = C := by
    intro x hx
    rw [List.append_nil] at hx
    obtain ⟨hxn, hxb, C, nx', hC, hxC⟩ := hleft x (Option.mem_toList.mp hx)
    exact ⟨C, nx', Settled.other hnb.at₁ hnb.at₂ f hC hxn hxb, hxC⟩
  cases hr with
  -- the short node is the left one of the two
  | movedRight => exact absurd rfl hnb.ne
  | @movedLeft G' c hG half hat₁ hat₂ =>
      refine .of_pair htrio hold hside hat₁ hat₂ (by rw [hG]; simp)
        ⟨p, b, c, hln, hlb, rfl, Or.inr ⟨rfl, ?_, ?_⟩, ?_, ?_⟩
      · rw [hb, hat₂.childList, hG]
      · exact hat₁.childList
      · rw [hat₂.lengthAt]
        exact half
      · rw [hat₁.lengthAt, List.length_append]
        exact hmin
  | merged hn hE hG _ hat₁ hat₂ =>
      refine .of_pair htrio hold hside hat₁ hat₂ (List.append_nil _)
        ⟨p, node, b, hln, hlb, rfl, Or.inr ⟨rfl, rfl, ?_⟩, hat₂.lengthAt, ?_⟩
      · rw [hat₁.childList, hb]
      · rw [hat₁.lengthAt, List.length_append]
        omega

/--
The node has just lost a child, and has the children `E` in `s₁`. Its siblings are as they
were in `s`, to the last field.
-/
structure Short (s s₁ : Store T P B) (N : NodeKind) (node : Addr) (E : List (Child T N))
    (nx : Option Addr) (p : Addr) (as bs : List (Addr × Nat)) : Prop where
  at₁ : NodeAt s₁ N node E nx
  link : s.link node = some (some p, as.length)
  link₁ : s₁.link node = some (some p, as.length)
  parent : ∃ m, s₁.body p = some (.internal (as ++ (node, m) :: bs))
  half : as ≠ [] ∨ bs ≠ [] → B / 2 ≤ E.length + 1
  left : ∀ a ∈ as.getLast?.map Prod.fst, s₁.heap.read a = s.heap.read a
    ∧ ∃ F j, Neighbours s₁ N p a node F E nx j ∧ B / 2 ≤ F.length ∧ s.childList N a = F
  right : ∀ b ∈ bs.head?.map Prod.fst, s₁.heap.read b = s.heap.read b
    ∧ ∃ G nx' j, Neighbours s₁ N p node b E G nx' j ∧ B / 2 ≤ G.length ∧ s.childList N b = G

theorem kids_of_read (hx : s₁.heap.read x = s.heap.read x) : s₁.kids x = s.kids x := by
  refine kids_congr ?_
  rw [Store.body, hx]
  rfl

theorem link_of_read (hx : s₁.heap.read x = s.heap.read x) : s.link x = s₁.link x := by
  rw [Store.link, ← hx]
  rfl

theorem childList_of_read (hx : s₁.heap.read x = s.heap.read x) :
    s₁.childList N x = s.childList N x := by
  have hb : s₁.body x = s.body x := by
    rw [Store.body, hx]
    rfl
  cases N with
  | leaf => rw [Store.childList, Store.childList, Store.items, Store.items, hb]
  | internal => rw [Store.childList, Store.childList, hb]

namespace Short

variable {as bs : List (Addr × Nat)}

/-- It keeps its place when a child is taken out of it. -/
theorem of_place {xs ys : List (Child T N)} {c : Child T N} {m : Nat}
    (hat : NodeAt s N node (xs ++ c :: ys) nx) (hat₁ : NodeAt s₁ N node (xs ++ ys) nx)
    (f : Frame s s₁ {node} {y | y ∈ kidsOf N (c :: ys)})
    (hl : s.link node = some (some p, as.length)) (hl₁ : s₁.link node = some (some p, as.length))
    (hp : s.body p = some (.internal (as ++ (node, m) :: bs))) (hpn : p ≠ node)
    (hmin : as ≠ [] ∨ bs ≠ [] → B / 2 ≤ (xs ++ c :: ys).length)
    (hleft : ∀ a ∈ as.getLast?.map Prod.fst, ∃ F j, Neighbours s N p a node F (xs ++ c :: ys) nx j
      ∧ B / 2 ≤ F.length)
    (hright : ∀ b ∈ bs.head?.map Prod.fst, ∃ G nx' j,
      Neighbours s N p node b (xs ++ c :: ys) G nx' j ∧ B / 2 ≤ G.length) :
    Short s s₁ N node (xs ++ ys) nx p as bs := by
  have hsub : c :: ys ⊆ xs ++ c :: ys := List.subset_append_right _ _
  -- a sibling has the same parent, so it is not a child of the node
  have hsame : ∀ {x : Addr} {j : Nat}, x ≠ node → s.link x = some (some p, j) →
      s₁.heap.read x = s.heap.read x := by
    intro x j hxn hlx
    refine f.read x hxn fun hmem => ?_
    obtain ⟨k, hk⟩ := hat.link_of_mem (kidsOf_mono hsub hmem)
    rw [hlx, Option.some.injEq, Prod.mk.injEq, Option.some.injEq] at hk
    exact hpn hk.1
  refine ⟨hat₁, hl, hl₁, ⟨m, (f.body p hpn).trans hp⟩, fun hsib => ?_, fun a ha => ?_,
    fun b hb => ?_⟩
  · have := hmin hsib
    rw [List.length_append, List.length_cons] at this
    rw [List.length_append]
    omega
  · obtain ⟨F, j, hnb, hF⟩ := hleft a ha
    exact ⟨hsame hnb.ne hnb.link₁, F, j, hnb.drop_right hat₁ f, hF, hnb.at₁.childList⟩
  · obtain ⟨G, nx', j, hnb, hG⟩ := hright b hb
    obtain ⟨_, hnx⟩ := hat.unique hnb.at₁
    exact ⟨hsame hnb.ne.symm hnb.link₂, G, nx', j, hnb.drop_left (hnx hat₁) f, hG,
      hnb.at₂.childList⟩

/-- The two siblings have different indices. -/
theorem siblings_ne (h : Short s s₁ N node E nx p as bs) {a b : Addr}
    (ha : a ∈ as.getLast?.map Prod.fst) (hb : b ∈ bs.head?.map Prod.fst) : b ≠ a := by
  obtain ⟨_, F, i, hna, _⟩ := h.left a ha
  obtain ⟨_, G, nx', j, hnb, _⟩ := h.right b hb
  intro he
  have hln := hna.link₂.symm.trans hnb.link₁
  have hlb := hnb.link₂
  rw [he, hna.link₁] at hlb
  simp only [Option.some.injEq, Prod.mk.injEq, true_and] at hln hlb
  omega

/-- Nothing more was done: the node is wide enough still, or has no sibling. -/
theorem absorbed (h : Short s s₁ N node E nx p as bs)
    (hok : B / 2 ≤ E.length ∨ as.getLast?.map Prod.fst = none ∧ bs.head?.map Prod.fst = none) :
    Settled s s₁ N node E (as.getLast?.map Prod.fst) (bs.head?.map Prod.fst)
      (.absorbed as.length) := by
  have hread : ∀ x, x ∈ as.getLast?.map Prod.fst ∨ x ∈ bs.head?.map Prod.fst →
      s₁.heap.read x = s.heap.read x := by
    intro x hx
    exact hx.elim (fun hx => (h.left x hx).1) fun hx => (h.right x hx).1
  rw [← h.at₁.lengthAt] at hok
  refine ⟨⟨⟨some p, h.link⟩, h.at₁.childList, hread, hok⟩, ?_, fun x hx => ?_⟩
  · rw [flatMap_trio, h.at₁.childList]
    congr 1
    · exact List.flatMap_congr fun x hx =>
        childList_of_read (hread x (Or.inl (Option.mem_toList.mp hx)))
    · congr 1
      exact List.flatMap_congr fun x hx =>
        childList_of_read (hread x (Or.inr (Option.mem_toList.mp hx)))
  · rw [trio, List.mem_append, List.mem_cons, Option.mem_toList, Option.mem_toList] at hx
    rcases hx with hx | rfl | hx
    · obtain ⟨_, F, j, hnb, _⟩ := h.left x hx
      exact ⟨F, _, hnb.at₁⟩
    · exact ⟨_, _, h.at₁⟩
    · obtain ⟨_, G, nx', j, hnb, _⟩ := h.right x hx
      exact ⟨G, nx', hnb.at₂⟩

/-- A sibling helped. -/
theorem helped (h : Short s s₁ N node E nx p as bs) (hlt : E.length < B / 2)
    (hmin : B / 2 ≤ E.length + 1) {kind : RemovalKind}
    (hh : Helped s₁ s' N p node E (as.getLast?.map Prod.fst) (bs.head?.map Prod.fst) kind) :
    Settled s s' N node E (as.getLast?.map Prod.fst) (bs.head?.map Prod.fst) kind := by
  obtain ⟨a, b, F, G, nx', j, hnb, hr, f, hcase⟩ := hh
  have hln := h.link.trans h.link₁.symm
  rcases hcase with ⟨ha, rfl, rfl, _⟩ | ⟨rfl, hb, rfl, _⟩
  · obtain ⟨hra, F', i, hnb', _, haF⟩ := h.left a ha
    obtain ⟨rfl, _⟩ := hnb.at₁.unique hnb'.at₁
    have hne : ∀ d ∈ bs.head?.map Prod.fst, d ≠ a := fun d hd => h.siblings_ne ha hd
    rw [Option.mem_def.mp ha]
    refine Settled.of_left hnb hr f hlt hmin haF (link_of_read hra) hln fun d hd => ?_
    obtain ⟨_, G, nx', _, hnd, _, hdG⟩ := h.right d hd
    exact ⟨hne d hd, hnd.ne.symm, G, nx', hnd.at₂, hdG⟩
  · obtain ⟨hrb, G', nx'', i, hnb', _, hbG⟩ := h.right b hb
    obtain ⟨rfl, _⟩ := hnb.at₂.unique hnb'.at₂
    have hne : ∀ d ∈ as.getLast?.map Prod.fst, b ≠ d := fun d hd => h.siblings_ne hd hb
    rw [Option.mem_def.mp hb]
    refine Settled.of_right hnb hr f hlt hmin hbG (link_of_read hrb) hln fun d hd => ?_
    obtain ⟨_, F, _, hnd, _, hdF⟩ := h.left d hd
    exact ⟨hnd.ne, (hne d hd).symm, F, _, hnd.at₁, hdF⟩

theorem restore_spec (h : Short s s₁ N node E nx p as bs) {kd : NodeKind}
    (hne : N = .internal → E ≠ []) (hkn : ∀ y ∈ kidsOf N E, s₁.tag y = some kd)
    (hks : ∀ a, a ∈ as.getLast?.map Prod.fst ∨ a ∈ bs.head?.map Prod.fst →
      ∀ y ∈ s.kids a, s₁.tag y = some kd) :
    Returns (restore N node) s₁ (fun kind s' =>
      Settled s s' N node E (as.getLast?.map Prod.fst) (bs.head?.map Prod.fst) kind) := by
  obtain ⟨m, hp⟩ := h.parent
  unfold restore
  simp only [returns_bind, NodeRef.siblings_spec h.at₁ h.link₁ hp, Node.length_spec h.at₁]
  split
  · rename_i hcond
    simp only [returns_bind, Node.index_spec h.at₁ h.link₁, returns_pure]
    refine h.absorbed (hcond.imp_right fun hsib => ?_)
    rwa [Bool.not_eq_true, Bool.or_eq_false_iff, Option.isSome_eq_false_iff,
      Option.isSome_eq_false_iff, Option.isNone_iff_eq_none, Option.isNone_iff_eq_none] at hsib
  · rename_i hcond
    rw [not_or, Nat.not_le, not_not] at hcond
    obtain ⟨hlt, hsib⟩ := hcond
    rw [Bool.or_eq_true, Option.isSome_iff_ne_none, Option.isSome_iff_ne_none] at hsib
    -- it was occupied before, and has lost one child
    have hmin : B / 2 ≤ E.length + 1 := by
      refine h.half (hsib.imp (fun hs he => hs ?_) fun hs he => hs ?_)
      · rw [he]; rfl
      · rw [he]; rfl
    refine (rebalance_spec (k := kd) (p := p) hlt hne ?_ ?_ hsib ?_).mono ?_
    · intro a ha
      obtain ⟨_, F, j, hnb, hF, _⟩ := h.left a ha
      exact ⟨F, nx, j, hnb, hF⟩
    · intro b hb
      obtain ⟨_, G, nx', j, hnb, hG, _⟩ := h.right b hb
      exact ⟨G, nx', j, hnb, hG⟩
    · intro x hx y hy
      rcases hx with rfl | hx | hx
      · rw [h.at₁.kids] at hy
        exact hkn y hy
      · rw [kids_of_read (h.left x hx).1] at hy
        exact hks x (Or.inl hx) y hy
      · rw [kids_of_read (h.right x hx).1] at hy
        exact hks x (Or.inr hx) y hy
    · intro kind s' hh
      exact h.helped hlt hmin hh

end Short

/-- A node is not a child of its own, if it has no parent or another one. -/
theorem not_mem_own_kids {q : Option Addr} {i : Nat} (hat : NodeAt s N node E nx)
    (hl : s.link node = some (q, i)) (hq : q ≠ some node) : node ∉ kidsOf N E := by
  intro hmem
  obtain ⟨j, hj⟩ := hat.link_of_mem hmem
  rw [hl, Option.some.injEq, Prod.mk.injEq] at hj
  exact hq hj.1

theorem removeOnce_at {xs ys : List (Child T N)} {c : Child T N} {kd : NodeKind}
    (hpl : Place s N node (xs ++ c :: ys) nx left right) (hat : NodeAt s N node (xs ++ c :: ys) nx)
    (hne : N = .internal → xs ++ ys ≠ [])
    (hkn : ∀ y ∈ kidsOf N (xs ++ ys), s.tag y = some kd)
    (hks : ∀ a, a ∈ left ∨ a ∈ right → ∀ y ∈ s.kids a, s.tag y = some kd) :
    Returns (removeOnce N node xs.length) s (fun r s' => r.1.node = node ∧ r.2 = c
      ∧ Settled s s' N node (xs ++ ys) left right r.1.kind) := by
  have hsub : c :: ys ⊆ xs ++ c :: ys := List.subset_append_right _ _
  rw [removeOnce, returns_bind]
  refine (Node.simpleRemove_spec hat).mono ?_
  intro _ s₁ h₁
  obtain ⟨rfl, hat₁, _, f₁⟩ := h₁
  rw [returns_bind]
  -- the removal itself is done, and what is left is to restore the node
  suffices hrun : Returns (restore N node) s₁ (fun kind s' =>
      Settled s s' N node (xs ++ ys) left right kind) by
    exact hrun.mono fun _ s' hk => ⟨rfl, rfl, hk⟩
  have hlink : ∀ {q : Option Addr} {i : Nat}, s.link node = some (q, i) → q ≠ some node →
      s₁.link node = some (q, i) := by
    intro q i hl hq
    rw [f₁.link node fun hmem => not_mem_own_kids hat hl hq (kidsOf_mono hsub hmem), hl]
  cases hpl with
  | @root i hl =>
      have hl₁ := hlink hl (Option.some_ne_none _).symm
      unfold restore
      simp only [returns_bind, NodeRef.siblings_of_root hat₁ hl₁, Node.length_spec hat₁]
      rw [if_pos (Or.inr (by simp))]
      simp only [returns_bind, Node.index_spec hat₁ hl₁, returns_pure]
      refine ⟨⟨⟨none, hl⟩, hat₁.childList, fun x hx => by simp at hx, Or.inr ⟨rfl, rfl⟩⟩, ?_,
        fun x hx => ?_⟩
      · rw [flatMap_trio, hat₁.childList]
        rfl
      · obtain rfl := List.mem_singleton.mp hx
        exact ⟨_, _, hat₁⟩
  | @under p m as bs hl hp hpn hmin hleft hright =>
      have hl₁ := hlink hl fun he => hpn (Option.some.inj he)
      have h := Short.of_place hat hat₁ f₁ hl hl₁ hp hpn hmin hleft hright
      exact h.restore_spec hne (fun y hy => f₁.tag_eq (hkn y hy)) fun x hx y hy =>
        f₁.tag_eq (hks x hx y hy)

end Remove

/-! ## In a tree -/

theorem childrenAt_of_width {b : Body T} (h : s.body a = some b) (hw : b.width = 0) :
    s.childrenAt a = [] := by
  rw [childrenAt_of_body h]
  cases b with
  | leaf xs nx => rfl
  | internal es =>
      obtain rfl := List.length_eq_zero_iff.mp (show es.length = 0 from hw)
      rfl

theorem NodeAt.childrenAt {es : List (Addr × Nat)} (h : NodeAt s .internal a es nx) :
    s.childrenAt a = es.map Prod.fst := childrenAt_of_body h.1

theorem NodeAt.link_slot {m : Nat} {xs ys : List (Addr × Nat)}
    (h : NodeAt s .internal p (xs ++ (a, m) :: ys) nx) : s.link a = some (some p, xs.length) := by
  have := (Adopted.append.mp h.2).2.1
  rwa [Nat.zero_add] at this

/-- A child is in one slot only. -/
theorem NodeAt.not_mem_rest {xs ys : List (Addr × Nat)} {e : Addr × Nat}
    (h : NodeAt s .internal p (xs ++ e :: ys) nx) : e.1 ∉ (xs ++ ys).map Prod.fst := by
  have hnd : ((xs ++ e :: ys).map Prod.fst).Nodup := h.nodup
  rw [List.map_append, List.map_cons, List.nodup_middle, List.nodup_cons, ← List.map_append] at hnd
  exact hnd.1

namespace Shaped

variable {k d : Nat}

theorem reach (h : Shaped s hole k root ls) (hr : Reach s root d x) :
    ∃ k' ls' A C, Shaped s hole k' x ls' ∧ ls = A ++ (ls' ++ C) := by
  induction hr with
  | root => exact ⟨k, ls, [], [], h, by simp⟩
  | @child d q c hq hc ih =>
      obtain ⟨k', ls', A, C, hs, rfl⟩ := ih
      cases hs with
      | leaf hb =>
          rw [childrenAt_of_body hb] at hc
          exact absurd hc List.not_mem_nil
      | hole _ hb hw =>
          rw [childrenAt_of_width hb hw] at hc
          exact absurd hc List.not_mem_nil
      | @internal k' _ es f hat _ hsub =>
          rw [hat.childrenAt] at hc
          obtain ⟨e, he, rfl⟩ := List.mem_map.mp hc
          obtain ⟨xs, ys, rfl⟩ := List.append_of_mem he
          refine ⟨k', f e.1, A ++ xs.flatMap fun e => f e.1, (ys.flatMap fun e => f e.1) ++ C,
            hsub e he, by simp⟩

/-- The kind of a node is told by its height. -/
theorem tag (h : Shaped s hole k a ls) (ha : hole ≠ some a) :
    s.tag a = some (if k = 0 then .leaf else .internal) := by
  cases h with
  | leaf hb => exact Store.tag_of_body hb
  | internal hat _ _ => exact hat.tag
  | hole hh _ _ => exact absurd hh ha

theorem zero (h : Shaped s hole 0 a ls) (ha : hole ≠ some a) :
    ls = [a] ∧ ∃ xs nx, s.body a = some (.leaf xs nx) := by
  cases h with
  | leaf hb => exact ⟨rfl, _, _, hb⟩
  | hole hh _ _ => exact absurd hh ha

theorem succ (h : Shaped s hole (k + 1) a ls) (ha : hole ≠ some a) :
    ∃ es, NodeAt s .internal a es none ∧ ∀ e ∈ es, ∃ ls', Shaped s hole k e.1 ls' := by
  cases h with
  | internal hat _ hsub => exact ⟨_, hat, fun e he => ⟨_, hsub e he⟩⟩
  | hole hh _ _ => exact absurd hh ha

theorem height_leaf (h : Shaped s hole k a ls) (ha : hole ≠ some a) (ht : s.tag a = some .leaf) :
    k = 0 := by
  rw [h.tag ha] at ht
  by_contra hk
  rw [if_neg hk] at ht
  cases ht

theorem height_internal (h : Shaped s hole k a ls) (ha : hole ≠ some a)
    (ht : s.tag a = some .internal) : ∃ k', k = k' + 1 := by
  rw [h.tag ha] at ht
  by_cases hk : k = 0
  · rw [if_pos hk] at ht
    cases ht
  · exact Nat.exists_eq_succ_of_ne_zero hk

end Shaped

omit [TaggedPtr P] in
/-- In a chain of leaves each one is followed by the next. -/
theorem Chain.next {A C : List Addr} {o : Option Addr} (h : Chain s o (A ++ a :: b :: C)) :
    ∃ n, s.heap.read a = some (.leaf n) ∧ n.next = some b := by
  induction A generalizing o with
  | nil =>
      cases h with
      | @cons _ n _ ha h =>
          refine ⟨n, ha, ?_⟩
          generalize n.next = q at h
          cases h
          rfl
  | cons c A ih =>
      cases h with
      | cons _ h => exact ih h

/-- `x` is a child of `p`, between `xs` and `ys`, which are of height `k` like `x`. -/
structure Family (s : Store T P B) (hole : Option Addr) (k : Nat) (x p : Addr) (m : Nat)
    (xs ys : List (Addr × Nat)) (f : Addr → List Addr) : Prop where
  parent : NodeAt s .internal p (xs ++ (x, m) :: ys) none
  half : 2 ≤ (xs ++ (x, m) :: ys).length → ∀ e ∈ xs ++ (x, m) :: ys, hole ≠ some e.1 →
    B / 2 ≤ s.lengthAt e.1
  shaped : ∀ e ∈ xs ++ (x, m) :: ys, Shaped s hole k e.1 (f e.1)
  ne : ∀ e ∈ xs ++ (x, m) :: ys, p ≠ e.1
  chain : ∃ o A C, Chain s o (A ++ (((xs ++ (x, m) :: ys).flatMap fun e => f e.1) ++ C))

namespace WellFormed

variable {d : Nat}

/-- No node of the tree is its own parent, as going up from it ends at the root. -/
theorem parent_ne (hw : WellFormed s root hole) (hr : Reach s root d x) :
    ∀ i, s.link x ≠ some (some x, i) := by
  induction hr with
  | root =>
      intro i hl
      obtain ⟨j, hj⟩ := hw.parent
      rw [hj] at hl
      cases hl
  | @child d q c hq hc ih =>
      intro i hl
      obtain ⟨k, ls, hs, _⟩ := hw.shaped
      obtain ⟨k', ls', _, _, hs', _⟩ := hs.reach hq
      cases hs' with
      | leaf hb =>
          rw [childrenAt_of_body hb] at hc
          exact absurd hc List.not_mem_nil
      | hole _ hb hw =>
          rw [childrenAt_of_width hb hw] at hc
          exact absurd hc List.not_mem_nil
      | internal hat _ _ =>
          rw [hat.childrenAt] at hc
          obtain ⟨j, hj⟩ := hat.link_of_mem hc
          rw [hl, Option.some.injEq, Prod.mk.injEq, Option.some.injEq] at hj
          obtain ⟨rfl, rfl⟩ := hj
          exact ih _ hl

/-- A node of the tree is the root, or it is among the children of its parent. -/
theorem root_or_family (hw : WellFormed s root hole) (hr : Reach s root d x) :
    (∃ i, s.link x = some (none, i)) ∨ ∃ k p m xs ys f, Family s hole k x p m xs ys f := by
  cases hr with
  | root => exact Or.inl hw.parent
  | @child d p c hp hc =>
      right
      obtain ⟨k, ls, hs, hchain⟩ := hw.shaped
      obtain ⟨k', ls', A, C, hs', rfl⟩ := hs.reach hp
      cases hs' with
      | leaf hb =>
          rw [childrenAt_of_body hb] at hc
          exact absurd hc List.not_mem_nil
      | hole _ hb hw =>
          rw [childrenAt_of_width hb hw] at hc
          exact absurd hc List.not_mem_nil
      | @internal k' _ es f hat hocc hsub =>
          have hkids := hat.childrenAt
          rw [hkids] at hc
          obtain ⟨⟨c, m⟩, he, rfl⟩ := List.mem_map.mp hc
          obtain ⟨xs, ys, rfl⟩ := List.append_of_mem he
          refine ⟨k', p, m, xs, ys, f, hat, hocc, hsub, fun e he hpe => ?_, _, A, C, hchain⟩
          have hmem : e.1 ∈ (xs ++ (c, m) :: ys).map Prod.fst := List.mem_map_of_mem he
          obtain ⟨i, hi⟩ := hat.link_of_mem hmem
          rw [← hpe] at hi
          exact hw.parent_ne hp i hi

end WellFormed

theorem siblings_of_slot {m : Nat} {xs ys : List (Addr × Nat)}
    (hl : s.link x = some (some p, xs.length))
    (hc : s.childrenAt p = (xs ++ (x, m) :: ys).map Prod.fst) :
    s.siblings x = (xs.getLast?.map Prod.fst, ys.head?.map Prod.fst) := by
  have hright : ((xs ++ (x, m) :: ys).map Prod.fst)[xs.length + 1]? = ys.head?.map Prod.fst := by
    rw [List.getElem?_map, List.getElem?_append_right (Nat.le_add_right _ 1),
      Nat.add_sub_cancel_left, List.getElem?_cons_succ, List.head?_eq_getElem?]
  unfold Store.siblings
  rw [hl]
  simp only [hc, hright]
  cases xs with
  | nil => rfl
  | cons y xs =>
      have hleft : ((y :: xs ++ (x, m) :: ys).map Prod.fst)[(y :: xs).length - 1]?
          = (y :: xs).getLast?.map Prod.fst := by
        rw [List.getElem?_map, List.getElem?_append_left (by simp), List.getLast?_eq_getElem?]
      rw [if_neg (by simp), hleft]

namespace Family

variable {k m : Nat} {xs ys : List (Addr × Nat)} {f : Addr → List Addr}

theorem siblings (h : Family s hole k x p m xs ys f) :
    s.siblings x = (xs.getLast?.map Prod.fst, ys.head?.map Prod.fst) :=
  siblings_of_slot h.parent.link_slot h.parent.childrenAt

/-- The siblings are nodes of the same kind, and leaves are in the chain next to each other. -/
theorem place (h : Family s hole k x p m xs ys f) (hx : NodeAt s N x E nx)
    (hxh : hole ≠ some x)
    (hl : ∀ e ∈ xs, hole ≠ some e.1) (hr : ∀ e ∈ ys, hole ≠ some e.1)
    (hleft : ∀ e ∈ xs.getLast?, ∃ F, NodeAt s N e.1 F (some x))
    (hright : ∀ e ∈ ys.head?, NodeAt s N x E (some e.1) ∧ ∃ G nx', NodeAt s N e.1 G nx') :
    Remove.Place s N x E nx (xs.getLast?.map Prod.fst) (ys.head?.map Prod.fst) := by
  refine .under h.parent.link_slot h.parent.1 (h.ne (x, m) (by simp)) ?_ ?_ ?_
  · intro hne
    rw [← hx.lengthAt]
    refine h.half ?_ (x, m) (by simp) hxh
    rw [List.length_append, List.length_cons]
    rcases hne with hne | hne
    · have := List.length_pos_iff.mpr hne
      omega
    · have := List.length_pos_iff.mpr hne
      omega
  · intro a ha
    obtain ⟨e, he, rfl⟩ := Option.map_eq_some_iff.mp ha
    obtain ⟨F, hF⟩ := hleft e he
    -- the left sibling is in the slot before that of `x`
    obtain ⟨ws, rfl⟩ := List.getLast?_eq_some_iff.mp he
    obtain ⟨a, w⟩ := e
    have hat : NodeAt s .internal p (ws ++ (a, w) :: (x, m) :: ys) none := by
      have := h.parent
      rwa [List.append_assoc] at this
    have hlx := h.parent.link_slot
    rw [List.length_append, List.length_singleton] at hlx
    refine ⟨F, ws.length, ⟨?_, hF, hx, hat.link_slot, hlx, h.ne (a, w) (by simp),
      h.ne (x, m) (by simp)⟩, ?_⟩
    · intro (he : a = x)
      have hla := hat.link_slot
      rw [he, hlx, Option.some.injEq, Prod.mk.injEq] at hla
      omega
    · rw [← hF.lengthAt]
      exact h.half (by simp; omega) (a, w) (by simp) (hl _ (by simp))
  · intro b hb
    obtain ⟨e, he, rfl⟩ := Option.map_eq_some_iff.mp hb
    obtain ⟨hx', G, nx', hG⟩ := hright e he
    -- the right sibling is in the slot after it
    obtain ⟨zs, rfl⟩ := List.head?_eq_some_iff.mp he
    obtain ⟨b, w⟩ := e
    have hat : NodeAt s .internal p ((xs ++ [(x, m)]) ++ (b, w) :: zs) none := by
      have := h.parent
      rwa [List.append_cons] at this
    have hlb := hat.link_slot
    rw [List.length_append, List.length_singleton] at hlb
    refine ⟨G, nx', xs.length, ⟨?_, hx', hG, h.parent.link_slot, hlb, h.ne (x, m) (by simp),
      h.ne (b, w) (by simp)⟩, ?_⟩
    · intro (he : x = b)
      have hlx := h.parent.link_slot
      rw [he, hlb, Option.some.injEq, Prod.mk.injEq] at hlx
      omega
    · rw [← hG.lengthAt]
      exact h.half (by simp; omega) (b, w) (by simp) (hr _ (by simp))

/-- The children of a leaf's parent are leaves, in the chain one after the other. -/
theorem of_leaf (h : Family s none k x p m xs ys f) {es : List T}
    (hx : s.body x = some (.leaf es nx)) :
    (∀ e ∈ xs ++ (x, m) :: ys, ∃ G nx', s.body e.1 = some (.leaf G nx'))
    ∧ ∃ o A C, Chain s o (A ++ (xs.map Prod.fst ++ x :: ys.map Prod.fst ++ C)) := by
  have hnone : ∀ a : Addr, none ≠ some a := fun a => (Option.some_ne_none a).symm
  obtain rfl := (h.shaped (x, m) (by simp)).height_leaf (hnone x) (Store.tag_of_body hx)
  have hall : ∀ e ∈ xs ++ (x, m) :: ys,
      f e.1 = [e.1] ∧ ∃ G nx', s.body e.1 = some (.leaf G nx') := fun e he =>
    (h.shaped e he).zero (hnone e.1)
  refine ⟨fun e he => (hall e he).2, ?_⟩
  obtain ⟨o, A, C, hc⟩ := h.chain
  have hflat : ((xs ++ (x, m) :: ys).flatMap fun e => f e.1)
      = xs.map Prod.fst ++ x :: ys.map Prod.fst := by
    rw [List.flatMap_congr fun e he => (hall e he).1]
    exact (List.flatMap_pure_eq_map Prod.fst _).trans (by simp)
  rw [hflat] at hc
  exact ⟨o, A, C, hc⟩

/-- The place of a leaf, in a tree without a hole. -/
theorem place_leaf (h : Family s none k x p m xs ys f) {es : List T}
    (hx : NodeAt s .leaf x es nx) :
    Remove.Place s .leaf x es nx (xs.getLast?.map Prod.fst) (ys.head?.map Prod.fst) := by
  obtain ⟨hall, o, A, C, hc⟩ := h.of_leaf hx
  -- a leaf of the chain records the one after it
  have hnext : ∀ {a b : Addr} {A C : List Addr} {G : List T} {nx' : Option Addr},
      Chain s o (A ++ a :: b :: C) → s.body a = some (.leaf G nx') → nx' = some b := by
    intro a b A C G nx' hc hb
    obtain ⟨n, hr, hn⟩ := hc.next
    obtain ⟨n', hr', hh⟩ := Store.body_leaf.mp hb
    rw [hr, Option.some.injEq, Cell.leaf.injEq] at hr'
    subst hr'
    rw [← hh.next, hn]
  refine h.place hx (Option.some_ne_none _).symm (fun _ _ => (Option.some_ne_none _).symm)
    (fun _ _ => (Option.some_ne_none _).symm) ?_ ?_
  · intro e he
    obtain ⟨ws, rfl⟩ := List.getLast?_eq_some_iff.mp he
    obtain ⟨G, nx', hG⟩ := hall e (by simp)
    have hc' : Chain s o ((A ++ ws.map Prod.fst) ++ e.1 :: x :: (ys.map Prod.fst ++ C)) := by
      simpa using hc
    rw [hnext hc' hG] at hG
    exact ⟨G, hG⟩
  · intro e he
    obtain ⟨zs, rfl⟩ := List.head?_eq_some_iff.mp he
    obtain ⟨G, nx', hG⟩ := hall e (by simp)
    have hc' : Chain s o ((A ++ xs.map Prod.fst) ++ x :: e.1 :: (zs.map Prod.fst ++ C)) := by
      simpa using hc
    have hx' : s.body x = some (.leaf es nx) := hx
    rw [hnext hc' hx'] at hx'
    exact ⟨hx', G, nx', hG⟩

/-- The place of an internal node with a child that is the hole. -/
theorem place_internal {hole' : Addr} (h : Family s (some hole') k x p m xs ys f)
    {es : List (Addr × Nat)} (hx : NodeAt s .internal x es nx) (hmem : hole' ∈ es.map Prod.fst) :
    Remove.Place s .internal x es nx (xs.getLast?.map Prod.fst) (ys.head?.map Prod.fst)
    ∧ (∀ e ∈ xs ++ (x, m) :: ys, hole' ≠ e.1)
    ∧ ∃ k', k = k' + 1 := by
  obtain ⟨i, hi⟩ := hx.link_of_mem (x := hole') hmem
  -- the hole has another parent than the siblings
  have hnot : ∀ e ∈ xs ++ (x, m) :: ys, hole' ≠ e.1 := by
    intro e he heq
    have hek : e.1 ∈ kidsOf (T := T) .internal (xs ++ (x, m) :: ys) := List.mem_map_of_mem he
    obtain ⟨j, hj⟩ := h.parent.link_of_mem hek
    rw [← heq, hi, Option.some.injEq, Prod.mk.injEq, Option.some.injEq] at hj
    exact h.ne (x, m) (by simp) hj.1.symm
  have hnot' : ∀ e ∈ xs ++ (x, m) :: ys, some hole' ≠ some e.1 := fun e he heq =>
    hnot e he (Option.some.inj heq)
  have hxm : (x, m) ∈ xs ++ (x, m) :: ys := by simp
  obtain ⟨k', rfl⟩ := (h.shaped (x, m) hxm).height_internal (hnot' (x, m) hxm) hx.tag
  have hall : ∀ e ∈ xs ++ (x, m) :: ys, ∃ G, NodeAt s .internal e.1 G none := by
    intro e he
    obtain ⟨G, hG, _⟩ := (h.shaped e he).succ (hnot' e he)
    exact ⟨G, hG⟩
  refine ⟨h.place hx (hnot' (x, m) (by simp)) (fun e he => hnot' e (by simp [he]))
    (fun e he => hnot' e (by simp [he])) (fun e he => ?_) fun e he => ⟨hx, ?_⟩, hnot, k', rfl⟩
  · obtain ⟨ws, rfl⟩ := List.getLast?_eq_some_iff.mp he
    exact hall e (by simp)
  · obtain ⟨zs, rfl⟩ := List.head?_eq_some_iff.mp he
    obtain ⟨G, hG⟩ := hall e (by simp)
    exact ⟨G, none, hG⟩

/-- A sibling is another child of the parent. -/
theorem sibling_mem (h : Family s hole k x p m xs ys f)
    (ha : a ∈ xs.getLast?.map Prod.fst ∨ a ∈ ys.head?.map Prod.fst) :
    ∃ e ∈ xs ++ (x, m) :: ys, e.1 = a ∧ a ≠ x := by
  have hother : ∀ e ∈ xs ++ ys, e.1 ≠ x := by
    intro e he heq
    have hmem : e.1 ∈ (xs ++ ys).map Prod.fst := List.mem_map_of_mem he
    rw [heq] at hmem
    exact h.parent.not_mem_rest hmem
  rcases ha with ha | ha
  · obtain ⟨e, he, rfl⟩ := Option.map_eq_some_iff.mp ha
    have hmem := List.mem_of_getLast? he
    exact ⟨e, List.mem_append_left _ hmem, rfl, hother e (List.mem_append_left _ hmem)⟩
  · obtain ⟨e, he, rfl⟩ := Option.map_eq_some_iff.mp ha
    have hmem := List.mem_of_head? he
    exact ⟨e, List.mem_append_right _ (List.mem_cons_of_mem _ hmem), rfl,
      hother e (List.mem_append_right _ hmem)⟩

/-- The child nodes of `x` and of its siblings are all of one kind, but for the hole. -/
theorem tag_kids {hole' : Addr} (h : Family s (some hole') (k + 1) x p m xs ys f)
    (hnot : ∀ e ∈ xs ++ (x, m) :: ys, hole' ≠ e.1) :
    ∃ kd, ∀ e ∈ xs ++ (x, m) :: ys, ∀ y ∈ s.kids e.1, y ≠ hole' → s.tag y = some kd := by
  refine ⟨if k = 0 then .leaf else .internal, fun e he y hy hne => ?_⟩
  obtain ⟨es, hat, hsub⟩ := (h.shaped e he).succ fun heq => hnot e he (Option.some.inj heq)
  rw [hat.kids] at hy
  obtain ⟨e', he', rfl⟩ := List.mem_map.mp hy
  obtain ⟨ls', hs⟩ := hsub e' he'
  exact hs.tag fun heq => hne (Option.some.inj heq).symm

end Family

namespace Remove

/--
The calls that are made of `remove_once`: at a leaf of a tree without a hole, and at an
internal node with two children one of which is the hole.
-/
def Removable (s : Store T P B) (hole : Option Addr) (node : Addr) (i : Nat) : NodeKind → Prop
  | .leaf => s.IsLeaf node ∧ hole = none
  | .internal => 2 ≤ s.lengthAt node ∧ ∃ b, hole = some b ∧ (s.childrenAt node)[i]? = some b

theorem siblings_of_root {i : Nat} (hl : s.link node = some (none, i)) :
    s.siblings node = (none, none) := by
  rw [Store.siblings, hl]

theorem eq_split_of_lt {α : Type} {l : List α} {i : Nat} (hi : i < l.length) :
    ∃ xs c ys, l = xs ++ c :: ys ∧ xs.length = i := by
  refine ⟨l.take i, l.get ⟨i, hi⟩, l.drop (i + 1), ?_, List.length_take_of_le (Nat.le_of_lt hi)⟩
  exact (List.take_append_drop i l).symm.trans (by rw [List.drop_eq_getElem_cons hi]; rfl)

/-- `removeOnce_at` with the index in place of the children before it. -/
theorem removeOnce_settles (kd : NodeKind) {i : Nat} (hat : NodeAt s N node E nx)
    (hpl : Place s N node E nx left right) (hi : i < E.length)
    (hne : N = .internal → 2 ≤ E.length)
    (hkn : ∀ y ∈ kidsOf N (E.eraseIdx i), s.tag y = some kd)
    (hks : ∀ a, a ∈ left ∨ a ∈ right → ∀ y ∈ s.kids a, s.tag y = some kd) :
    ∃ kind c s', (removeOnce N node i : Exec T P B _) s = .ok (⟨node, kind⟩, c) s'
      ∧ E[i]? = some c ∧ Settled s s' N node (E.eraseIdx i) left right kind := by
  obtain ⟨xs, c, ys, rfl, rfl⟩ := eq_split_of_lt hi
  have herase : (xs ++ c :: ys).eraseIdx xs.length = xs ++ ys := by
    rw [List.eraseIdx_append_of_length_le (Nat.le_refl _), Nat.sub_self, List.eraseIdx_cons_zero]
  rw [herase] at hkn ⊢
  have hne' : N = .internal → xs ++ ys ≠ [] := by
    intro hN he
    have hlen := hne hN
    obtain ⟨rfl, rfl⟩ := List.append_eq_nil_iff.mp he
    simp at hlen
  obtain ⟨⟨⟨n, kind⟩, c'⟩, s', he, hnode, hc, hset⟩ :=
    returns_iff.mp (removeOnce_at hpl hat hne' hkn hks)
  obtain rfl : n = node := hnode
  obtain rfl : c' = c := hc
  exact ⟨kind, c', s', he, by simp, hset⟩

/--
**`remove_once` describes what it did.** It removes the child, it keeps all others of the
node and its siblings in order, and the kind it returns is what the parent has to know.
-/
theorem remove_once_describes {d i : Nat} (hw : WellFormed s root hole)
    (hr : Reach s root d node) (hi : i < s.lengthAt node) (hN : Removable s hole node i N) :
    ∃ kind c s', (removeOnce N node i : Exec T P B _) s = .ok (⟨node, kind⟩, c) s'
      ∧ (s.childList N node)[i]? = some c
      ∧ Settled s s' N node ((s.childList N node).eraseIdx i) (s.siblings node).1
        (s.siblings node).2 kind := by
  obtain ⟨k, ls, hs, _⟩ := hw.shaped
  obtain ⟨k, ls, _, _, hs, _⟩ := hs.reach hr
  cases N with
  | leaf =>
      obtain ⟨⟨n, hn⟩, rfl⟩ := hN
      obtain ⟨es, nx, hat⟩ : ∃ es nx, NodeAt s .leaf node es nx := by
        cases hs with
        | leaf hb => exact ⟨_, _, hb⟩
        | internal hat _ _ =>
            obtain ⟨m, hm, _⟩ := Store.body_internal.mp hat.1
            rw [hn] at hm
            cases hm
        | hole hh _ _ => cases hh
      rw [hat.childList]
      rw [hat.lengthAt] at hi
      rcases hw.root_or_family hr with ⟨j, hl⟩ | ⟨k', p, m, xs, ys, f, hf⟩
      · rw [siblings_of_root hl]
        exact removeOnce_settles .leaf hat (.root hl) hi (fun h => nomatch h)
          (fun y hy => absurd hy List.not_mem_nil) fun a ha => by simp at ha
      · rw [hf.siblings]
        refine removeOnce_settles .leaf hat (hf.place_leaf hat) hi (fun h => nomatch h)
          (fun y hy => absurd hy List.not_mem_nil) fun a ha y hy => ?_
        obtain ⟨e, he, rfl, _⟩ := hf.sibling_mem ha
        obtain ⟨G, nx', hG⟩ := (hf.of_leaf hat).1 e he
        rw [Store.kids, hG] at hy
        exact absurd hy List.not_mem_nil
  | internal =>
      obtain ⟨h2, b, rfl, hb⟩ := hN
      obtain ⟨es, k', hat, hsub⟩ : ∃ es k', NodeAt s .internal node es none
          ∧ ∀ e ∈ es, ∃ ls', Shaped s (some b) k' e.1 ls' := by
        cases hs with
        | leaf hl =>
            rw [childrenAt_of_body hl] at hb
            cases hb
        | internal hat _ hsub => exact ⟨_, _, hat, fun e he => ⟨_, hsub e he⟩⟩
        | hole _ hl hw =>
            rw [lengthAt_of_body hl, hw] at h2
            exact absurd h2 (by decide)
      rw [hat.childList]
      rw [hat.lengthAt] at hi h2
      rw [hat.childrenAt] at hb
      have hbm : b ∈ es.map Prod.fst := List.mem_of_getElem? hb
      -- the hole is the child that is removed
      have hrest : ∀ y ∈ kidsOf (T := T) .internal (es.eraseIdx i), y ∈ kidsOf (T := T) .internal es
          ∧ y ≠ b := by
        obtain ⟨xs, e, ys, rfl, rfl⟩ := eq_split_of_lt hi
        intro y hy
        rw [List.eraseIdx_append_of_length_le (Nat.le_refl _), Nat.sub_self,
          List.eraseIdx_cons_zero] at hy
        refine ⟨kidsOf_mono (by simp) hy, fun hyb => ?_⟩
        have hbe : e.1 = b := by simpa using hb
        have hy' : e.1 ∈ (xs ++ ys).map Prod.fst := by rw [hbe, ← hyb]; exact hy
        exact hat.not_mem_rest hy'
      rcases hw.root_or_family hr with ⟨j, hl⟩ | ⟨k', p, m, xs, ys, f, hf⟩
      · rw [siblings_of_root hl]
        refine removeOnce_settles (if k' = 0 then .leaf else .internal) hat (.root hl) hi
          (fun _ => h2) (fun y hy => ?_) fun a ha => by simp at ha
        obtain ⟨hy, hne⟩ := hrest y hy
        obtain ⟨e, he, rfl⟩ := List.mem_map.mp hy
        obtain ⟨ls', hs'⟩ := hsub e he
        exact hs'.tag fun heq => hne (Option.some.inj heq).symm
      · rw [hf.siblings]
        obtain ⟨hpl, hnot, k'', rfl⟩ := hf.place_internal hat hbm
        obtain ⟨kd, hkd⟩ := hf.tag_kids hnot
        refine removeOnce_settles kd hat hpl hi (fun _ => h2) (fun y hy => ?_) fun a ha y hy => ?_
        · obtain ⟨hy, hne⟩ := hrest y hy
          refine hkd (node, m) (by simp) y ?_ hne
          rw [hat.kids]
          exact hy
        · obtain ⟨e, he, rfl, hne⟩ := hf.sibling_mem ha
          refine hkd e he y hy ?_
          intro hyb
          subst hyb
          obtain ⟨i, hi⟩ := hat.link_of_mem hbm
          obtain ⟨G, hG, _⟩ := (hf.shaped e he).succ fun heq => hnot e he (Option.some.inj heq)
          rw [hG.kids] at hy
          obtain ⟨j, hj⟩ := hG.link_of_mem hy
          rw [hi, Option.some.injEq, Prod.mk.injEq, Option.some.injEq] at hj
          exact hne hj.1.symm

end Remove

/-! ## The tree of a vector -/

theorem Below.shaped {U : List Addr} {Ds : List (List Addr)} {l : List T} (h : Below s U Ds l)
    (ha : a ∈ U) : Shaped s none Ds.length a (s.leavesUnder Ds.length a) := by
  induction Ds generalizing U a with
  | nil =>
      obtain ⟨E, nx, hE⟩ := h.nodeAt ha
      have hb : s.body a = some (.leaf E nx) := hE
      exact .leaf hb
  | cons D Ds ih =>
      obtain ⟨es, _, hat⟩ := h.nodeAt ha
      have hat : NodeAt s .internal a es none := hat
      rw [List.length_cons, leavesUnder_internal hat.1]
      have hkid : ∀ e ∈ es, e.1 ∈ s.kids a := by
        intro e he
        rw [hat.kids]
        exact List.mem_map_of_mem he
      have hD : ∀ e ∈ es, e.1 ∈ D := by
        intro e he
        rw [← h.1.kids]
        exact List.mem_flatMap.mpr ⟨a, ha, hkid e he⟩
      refine .internal hat (fun h2 e he _ => ?_) fun e he => ih h.2.2 (hD e he)
      obtain ⟨E, nx, hE⟩ := h.2.2.nodeAt (hD e he)
      rw [hE.lengthAt, ← hE.width]
      exact h.kids_wide ha (by rw [hat.width]; exact h2) (hkid e he)

theorem Sound.wellFormed {v : BTreeVec} {l : List T} {F : Set Addr} (h : Sound v s l F)
    (hr : v.root = some root) : WellFormed s root none := by
  have hchain := h.chainMatches.chain root hr
  cases h.vec with
  | empty => cases hr
  | @tree root Ds l ht =>
      obtain rfl := Option.some.inj hr
      rw [ht.leaves] at hchain
      exact ⟨⟨_, _, ht.below.shaped List.mem_cons_self, hchain⟩, 0, ht.link⟩

namespace Remove

theorem pushed_firstLeaf : ∃ (v : BTreeVec) (s : Store Nat PairPtr 4),
    history ((List.range 11).map Op.push) Store.empty = .ok v s
      ∧ v.root = some 7 ∧ 2 ∈ s.childrenAt 7 ∧ 0 ∈ s.childrenAt 2 ∧ s.IsLeaf 0 ∧ 0 < s.lengthAt 0
      ∧ Returns (removeOnce .leaf 0 0) s (fun r _ => r.1.kind = .merged 1 0) :=
  returns_iff.mp (by decide +kernel)

theorem merged_firstLeaf_run : ∃ (r : Option (Addr × Option Nat)) (s : Store Nat PairPtr 4),
    (do
      let _ ← history ((List.range 11).map Op.push)
      let (removal, _) ← removeOnce .leaf 0 0
      repairSizes removal) Store.empty = .ok r s
      ∧ r = some (2, some 1)
      ∧ [7, 2, 6, 0, 1, 3, 4, 5].map s.body = [some (.internal [(2, 4), (6, 7)]),
        some (.internal [(0, 3), (1, 0)]), some (.internal [(3, 2), (4, 2), (5, 3)]),
        some (.leaf [1, 2, 3] (some 3)), some (.leaf [] none), some (.leaf [4, 5] (some 4)),
        some (.leaf [6, 7] (some 5)), some (.leaf [8, 9, 10] none)]
      ∧ [7, 2, 6, 0, 1, 3, 4, 5].map s.link = [some (none, 0), some (some 7, 0), some (some 7, 1),
        some (some 2, 0), some (some 2, 1), some (some 6, 0), some (some 6, 1), some (some 6, 2)]
      ∧ Returns (removeOnce .internal 2 1) s (fun r _ => r.1.kind = .moved 1 0 2) :=
  returns_iff.mp (by decide +kernel)

/-- The second leaf was merged into the first one, and their parent knows of the hole. -/
theorem merged_firstLeaf : ∃ s : Store Nat PairPtr 4, WellFormed s 7 (some 1)
    ∧ s.childrenAt 7 = [2, 6] ∧ s.childrenAt 2 = [0, 1] ∧ s.lengthAt 2 = 2
    ∧ Returns (removeOnce .internal 2 1) s (fun r _ => r.1.kind = .moved 1 0 2) := by
  obtain ⟨_, s, _, _, hbodies, hlinks, hret⟩ := merged_firstLeaf_run
  simp only [List.map_cons, List.map_nil, List.cons.injEq, and_true] at hbodies hlinks
  obtain ⟨hb₇, hb₂, hb₆, hb₀, hb₁, hb₃, hb₄, hb₅⟩ := hbodies
  obtain ⟨hl₇, hl₂, hl₆, hl₀, hl₁, hl₃, hl₄, hl₅⟩ := hlinks
  have hn₂ : s.lengthAt 2 = 2 := lengthAt_of_body hb₂
  have hat₂ : NodeAt s .internal 2 [(0, 3), (1, 0)] none := ⟨hb₂, hl₀, hl₁, trivial⟩
  have hat₆ : NodeAt s .internal 6 [(3, 2), (4, 2), (5, 3)] none := ⟨hb₆, hl₃, hl₄, hl₅, trivial⟩
  have hat₇ : NodeAt s .internal 7 [(2, 4), (6, 7)] none := ⟨hb₇, hl₂, hl₆, trivial⟩
  have hs₂ : Shaped s (some 1) 1 2 [0] := by
    refine .internal (f := fun a => if a = 0 then [0] else []) hat₂ ?_ ?_
    · simp [lengthAt_of_body hb₀, Body.width]
    · simp [Shaped.leaf hb₀, Shaped.hole rfl hb₁ rfl]
  have hs₆ : Shaped s (some 1) 1 6 [3, 4, 5] := by
    refine .internal (f := fun a => [a]) hat₆ ?_ ?_
    · simp [lengthAt_of_body hb₃, lengthAt_of_body hb₄, lengthAt_of_body hb₅, Body.width]
    · simp [Shaped.leaf hb₃, Shaped.leaf hb₄, Shaped.leaf hb₅]
  have hs₇ : Shaped s (some 1) 2 7 [0, 3, 4, 5] := by
    refine .internal (f := fun a => if a = 2 then [0] else [3, 4, 5]) hat₇ ?_ ?_
    · simp [hn₂, lengthAt_of_body hb₆, Body.width]
    · simp [hs₂, hs₆]
  have hrow : RowAt s .leaf [0, 3, 4, 5] [1, 2, 3, 4, 5, 6, 7, 8, 9, 10] none :=
    ⟨_, _, rfl, hb₀, _, _, rfl, hb₃, _, _, rfl, hb₄, _, _, rfl, hb₅, rfl⟩
  exact ⟨s, ⟨⟨2, _, hs₇, hrow.chain⟩, 0, hl₇⟩, childrenAt_of_body hb₇, childrenAt_of_body hb₂,
    hn₂, hret⟩

/--
The first of eleven items goes, and two leaves are merged. So their parent has a hole, which
goes too, and then it gets a leaf from its sibling.
-/
theorem remove_once_describes_pushed :
    (∃ (s : Store Nat PairPtr 4) (kind : RemovalKind) (c : Nat) (s' : Store Nat PairPtr 4),
      (removeOnce .leaf 0 0 : Exec Nat PairPtr 4 _) s = .ok (⟨0, kind⟩, c) s'
        ∧ kind = .merged 1 0 ∧ (s.childList .leaf 0)[0]? = some c
        ∧ Settled s s' .leaf 0 ((s.childList .leaf 0).eraseIdx 0) (s.siblings 0).1
          (s.siblings 0).2 kind)
      ∧ ∃ (s : Store Nat PairPtr 4) (kind : RemovalKind) (c : Addr × Nat)
        (s' : Store Nat PairPtr 4),
        (removeOnce .internal 2 1 : Exec Nat PairPtr 4 _) s = .ok (⟨2, kind⟩, c) s'
          ∧ kind = .moved 1 0 2 ∧ (s.childList .internal 2)[1]? = some c
          ∧ Settled s s' .internal 2 ((s.childList .internal 2).eraseIdx 1) (s.siblings 2).1
            (s.siblings 2).2 kind := by
  constructor
  · obtain ⟨v, s, hist, hroot, h₁, h₂, hleaf, hlen, hret⟩ := pushed_firstLeaf
    obtain ⟨l, F, hs⟩ := (Reachable.history hist).sound
    obtain ⟨kind, c, s', he, hc, hset⟩ := remove_once_describes (N := .leaf) (hs.wellFormed hroot)
      (.child (.child .root h₁) h₂) hlen ⟨hleaf, rfl⟩
    rw [Returns, he] at hret
    exact ⟨s, kind, c, s', he, hret, hc, hset⟩
  · obtain ⟨s, hw, h₇, h₂, hlen, hret⟩ := merged_firstLeaf
    have hreach : Reach s 7 1 2 := .child .root (by rw [h₇]; decide)
    have hi : 1 < s.lengthAt 2 := by omega
    have hhole : Removable s (some 1) 2 1 .internal := ⟨by omega, 1, rfl, by rw [h₂]; rfl⟩
    obtain ⟨kind, c, s', he, hc, hset⟩ := remove_once_describes hw hreach hi hhole
    rw [Returns, he] at hret
    exact ⟨s, kind, c, s', he, hret, hc, hset⟩

end Remove

end BTreeVec
