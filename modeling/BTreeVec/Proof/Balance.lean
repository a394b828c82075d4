import BTreeVec.Proof.Rows
import BTreeVec.Model.Remove

/-!
# Restoring the occupancy of one node

The part of `remove_once` that looks at the siblings. Whatever it does concerns two
neighbours `a` and `b`: a border child moves over, or `b` is merged into `a`. Either
way the children of the two, in order, stay the same, which is what `Rebalanced`
records, along with the description that is handed to the parent.
-/

namespace BTreeVec

open Prog

variable {T P : Type} {B : Nat} [TaggedPtr P] {s s' : Store T P B} {N : NodeKind}
  {a b n p : Addr} {nx : Option Addr}

namespace NodeRef

theorem siblings_of_root {E : List (Child T N)} {i : Nat} (hn : NodeAt s N n E nx)
    (hl : s.link n = some (none, i)) {Q : Option Addr × Option Addr → Store T P B → Prop} :
    Returns (siblings N n) s Q ↔ Q (none, none) s := by
  unfold siblings
  simp only [returns_bind, Node.index_spec hn hl, returns_parent hl, returns_pure]

theorem siblings_spec {E : List (Child T N)} {xs ys : List (Addr × Nat)} {m : Nat}
    (hn : NodeAt s N n E nx) (hl : s.link n = some (some p, xs.length))
    (hp : s.body p = some (.internal (xs ++ (n, m) :: ys)))
    {Q : Option Addr × Option Addr → Store T P B → Prop} :
    Returns (siblings N n) s Q
      ↔ Q (xs.getLast?.map Prod.fst, ys.head?.map Prod.fst) s := by
  have hright : (xs ++ (n, m) :: ys)[xs.length + 1]? = ys.head? := by
    rw [List.getElem?_append_right (Nat.le_add_right _ 1), Nat.add_sub_cancel_left,
      List.getElem?_cons_succ, List.head?_eq_getElem?]
  unfold siblings
  simp only [returns_bind, Node.index_spec hn hl, returns_parent hl]
  cases xs with
  | nil =>
      rw [if_neg (by simp)]
      simp only [returns_bind, returns_pure, InternalNode.childPtr_spec hp, hright,
        List.getLast?_nil, Option.map_none]
  | cons x xs =>
      have hleft : (x :: xs ++ (n, m) :: ys)[(x :: xs).length - 1]? = (x :: xs).getLast? := by
        rw [List.getElem?_append_left (by simp), List.getLast?_eq_getElem?]
      rw [if_pos (by simp)]
      simp only [returns_bind, returns_pure, InternalNode.childPtr_spec hp, hright, hleft]

end NodeRef

namespace Remove

/--
What was done to the neighbours `a` and `b`, in slots `j` and `j + 1` with the children
`E` and `F`, in order to help out `n`, which is one of the two.
-/
inductive Rebalanced (s' : Store T P B) (N : NodeKind) (a b : Addr) (E F : List (Child T N))
    (nx : Option Addr) (j : Nat) : Addr → RemovalKind → Prop where
  /-- The last child of `a` is now the first of `b`. -/
  | movedRight {E' : List (Child T N)} {x : Child T N} (hE : E = E' ++ [x])
      (half : B / 2 ≤ E'.length) (hat₁ : NodeAt s' N a E' (some b))
      (hat₂ : NodeAt s' N b (x :: F) nx) :
      Rebalanced s' N a b E F nx j b (.moved j (j + 1) (Node.itemSize N x))
  /-- The first child of `b` is now the last of `a`. -/
  | movedLeft {F' : List (Child T N)} {x : Child T N} (hF : F = x :: F')
      (half : B / 2 ≤ F'.length) (hat₁ : NodeAt s' N a (E ++ [x]) (some b))
      (hat₂ : NodeAt s' N b F' nx) :
      Rebalanced s' N a b E F nx j a (.moved (j + 1) j (Node.itemSize N x))
  /-- `a` has the children of both, which are fewer than two nodes must have. -/
  | merged {n : Addr} (hn : n = a ∨ n = b) (hE : E.length ≤ B / 2) (hF : F.length ≤ B / 2)
      (hlt : E.length + F.length < 2 * (B / 2))
      (hat₁ : NodeAt s' N a (E ++ F) nx) (hat₂ : NodeAt s' N b [] none) :
      Rebalanced s' N a b E F nx j n (.merged (j + 1) j)

/-- Two neighbours under the parent `p`. -/
structure Neighbours (s : Store T P B) (N : NodeKind) (p a b : Addr) (E F : List (Child T N))
    (nx : Option Addr) (j : Nat) : Prop where
  ne : a ≠ b
  at₁ : NodeAt s N a E (some b)
  at₂ : NodeAt s N b F nx
  link₁ : s.link a = some (some p, j)
  link₂ : s.link b = some (some p, j + 1)
  parent₁ : p ≠ a
  parent₂ : p ≠ b

namespace Neighbours

variable {E F : List (Child T N)} {j : Nat}

/-- Neither of the two is a child of one of them. -/
theorem not_mem_kids (h : Neighbours s N p a b E F nx j) {x : Addr} (hx : x = a ∨ x = b) :
    x ∉ kidsOf N (E ++ F) := by
  obtain ⟨i, hi⟩ : ∃ i, s.link x = some (some p, i) := by
    rcases hx with rfl | rfl
    · exact ⟨j, h.link₁⟩
    · exact ⟨j + 1, h.link₂⟩
  intro hmem
  rw [kidsOf_append, List.mem_append] at hmem
  rcases hmem with hmem | hmem
  · obtain ⟨k, hk⟩ := h.at₁.link_of_mem hmem
    rw [hi, Option.some.injEq, Prod.mk.injEq, Option.some.injEq] at hk
    exact h.parent₁ hk.1
  · obtain ⟨k, hk⟩ := h.at₂.link_of_mem hmem
    rw [hi, Option.some.injEq, Prod.mk.injEq, Option.some.injEq] at hk
    exact h.parent₂ hk.1

theorem link_eq (h : Neighbours s N p a b E F nx j) {G : List (Child T N)} {bs : Set Addr}
    (f : Frame s s' bs {y | y ∈ kidsOf N G}) (hG : G ⊆ E ++ F) {x : Addr} (hx : x = a ∨ x = b) :
    s'.link x = s.link x :=
  f.link x fun hmem => h.not_mem_kids hx (kidsOf_mono hG hmem)

/-- The last child of the left one goes to the right one. -/
theorem borrowLeft_spec {E : List (Child T N)} {x : Child T N}
    (h : Neighbours s N p a b (E ++ [x]) F nx j) (hlt : F.length < B) (half : B / 2 ≤ E.length) :
    Returns (do
      let moved ← Node.simpleRemove N a (← sub .underflow (← Node.length N a) 1)
      let src ← Node.index N a
      let dest ← Node.index N b
      Node.simpleInsert N b 0 moved
      return .moved src dest (Node.itemSize N moved)) s
      (fun k s' => Rebalanced s' N a b (E ++ [x]) F nx j b k
        ∧ Frame s s' {a, b} {y | y ∈ kidsOf N (E ++ [x] ++ F)}) := by
  simp only [returns_bind, Node.length_spec h.at₁, returns_sub]
  refine ⟨by simp, ?_⟩
  rw [List.length_append, List.length_singleton, Nat.add_sub_cancel]
  refine (Node.simpleRemove_spec h.at₁).mono ?_
  intro x s₁ h₁
  obtain ⟨rfl, ha₁, hx₁, f₁⟩ := h₁
  rw [List.append_nil] at ha₁
  have hG : [x] ⊆ E ++ [x] ++ F := by intro y hy; simp_all
  -- the removal relinks children of `a` only
  have hb₁ : NodeAt s₁ N b F nx := by
    refine h.at₂.frame f₁ (fun hb => h.ne hb.symm) fun y hy hmem => ?_
    exact h.at₁.not_mem_kids h.at₂ h.ne (kidsOf_mono (List.subset_append_right _ _) hmem) hy
  rw [Node.index_spec ha₁ ((h.link_eq f₁ hG (Or.inl rfl)).trans h.link₁),
    Node.index_spec hb₁ ((h.link_eq f₁ hG (Or.inr rfl)).trans h.link₂)]
  -- the child goes to the front of `b`
  refine (Node.simpleInsert_spec (show NodeAt s₁ N b ([] ++ F) nx from hb₁) hlt
    (hx₁.insertable hb₁)).mono ?_
  intro _ s₂ h₂
  obtain ⟨hb₂, _, f₂⟩ := h₂
  have ha₂ : NodeAt s₂ N a E (some b) := by
    refine ha₁.frame f₂ h.ne fun y hy hmem => ?_
    rcases mem_kidsOf_cons.mp hmem with hmem | hmem
    · exact (hx₁.insertable ha₁).not_mem hmem hy
    · exact ha₁.not_mem_kids hb₁ h.ne hy hmem
  refine ⟨.movedRight rfl half ha₂ hb₂, (f₁.trans f₂).mono ?_ ?_⟩
  · intro y hy; exact hy
  · intro y hy
    rcases hy with hy | hy
    · exact kidsOf_mono hG hy
    · refine kidsOf_mono ?_ hy
      intro z hz
      simp only [List.mem_cons, List.mem_append, List.not_mem_nil] at hz ⊢
      tauto

/-- The first child of the right one goes to the left one. -/
theorem borrowRight_spec {F : List (Child T N)} {x : Child T N}
    (h : Neighbours s N p a b E (x :: F) nx j) (hlt : E.length < B) (half : B / 2 ≤ F.length) :
    Returns (do
      let moved ← Node.simpleRemove N b 0
      let src ← Node.index N b
      let dest ← Node.index N a
      Node.simpleInsert N a (← Node.length N a) moved
      return .moved src dest (Node.itemSize N moved)) s
      (fun k s' => Rebalanced s' N a b E (x :: F) nx j a k
        ∧ Frame s s' {a, b} {y | y ∈ kidsOf N (E ++ x :: F)}) := by
  simp only [returns_bind]
  refine (Node.simpleRemove_spec (show NodeAt s N b ([] ++ x :: F) nx from h.at₂)).mono ?_
  intro x s₁ h₁
  obtain ⟨rfl, hb₁, hx₁, f₁⟩ := h₁
  have hG : x :: F ⊆ E ++ x :: F := List.subset_append_right _ _
  -- the removal relinks children of `b` only
  have ha₁ : NodeAt s₁ N a E (some b) := by
    refine h.at₁.frame f₁ h.ne fun y hy hmem => ?_
    exact h.at₁.not_mem_kids h.at₂ h.ne hy hmem
  rw [Node.index_spec hb₁ ((h.link_eq f₁ hG (Or.inr rfl)).trans h.link₂),
    Node.index_spec ha₁ ((h.link_eq f₁ hG (Or.inl rfl)).trans h.link₁), Node.length_spec ha₁]
  -- the child goes to the end of `a`
  rw [← List.append_nil E] at ha₁
  refine (Node.simpleInsert_spec ha₁ (by rwa [List.append_nil]) (hx₁.insertable ha₁)).mono ?_
  intro _ s₂ h₂
  obtain ⟨ha₂, _, f₂⟩ := h₂
  have hb₂ : NodeAt s₂ N b F nx := by
    refine hb₁.frame f₂ (fun hb => h.ne hb.symm) fun y hy hmem => ?_
    exact (hx₁.insertable hb₁).not_mem hmem hy
  refine ⟨.movedLeft rfl half ha₂ hb₂, (f₁.trans f₂).mono ?_ ?_⟩
  · intro y hy; exact hy.symm
  · intro y hy
    rcases hy with hy | hy
    · exact kidsOf_mono hG hy
    · refine kidsOf_mono ?_ hy
      intro z hz
      simp only [List.mem_cons, List.mem_append, List.not_mem_nil] at hz ⊢
      tauto

/-- The children of the right one all go to the left one. -/
theorem merge_spec (h : Neighbours s N p a b E F nx j) {n : Addr} (hn : n = a ∨ n = b)
    (hE : E.length ≤ B / 2) (hF : F.length ≤ B / 2) (hlt : E.length + F.length < 2 * (B / 2))
    (hk : N = .internal → E ≠ [] ∧ ∃ k, ∀ y ∈ kidsOf N (E ++ F), s.tag y = some k) :
    Returns (do
      Node.merge N a b
      return .merged (← Node.index N b) (← Node.index N a)) s
      (fun k s' => Rebalanced s' N a b E F nx j n k
        ∧ Frame s s' {a, b} {y | y ∈ kidsOf N (E ++ F)}) := by
  simp only [returns_bind, returns_pure]
  refine (Node.merge_spec h.ne h.at₁ h.at₂ hE hF hk).mono ?_
  intro _ s₁ h₁
  obtain ⟨ha₁, hb₁, f₁⟩ := h₁
  have hG : F ⊆ E ++ F := List.subset_append_right _ _
  rw [Node.index_spec hb₁ ((h.link_eq f₁ hG (Or.inr rfl)).trans h.link₂),
    Node.index_spec ha₁ ((h.link_eq f₁ hG (Or.inl rfl)).trans h.link₁)]
  exact ⟨.merged hn hE hF hlt ha₁ hb₁, f₁.mono (Set.Subset.refl _) fun y hy => kidsOf_mono hG hy⟩

end Neighbours

/-- The outcome for `n` with the children `E`: it and one of its siblings were rebalanced. -/
def Helped (s s' : Store T P B) (N : NodeKind) (p n : Addr) (E : List (Child T N))
    (left right : Option Addr) (k : RemovalKind) : Prop :=
  ∃ a b F G nx j, Neighbours s N p a b F G nx j ∧ Rebalanced s' N a b F G nx j n k
    ∧ Frame s s' {a, b} {y | y ∈ kidsOf N (F ++ G)}
    ∧ ((a ∈ left ∧ b = n ∧ G = E ∧ B / 2 ≤ F.length)
      ∨ (a = n ∧ b ∈ right ∧ F = E ∧ B / 2 ≤ G.length))

section
variable {E : List (Child T N)} {left right : Option Addr} {k : NodeKind}

theorem mergeOrBorrowRight_spec (hlen : E.length < B / 2) (hne : N = .internal → E ≠ [])
    (hl : ∀ l ∈ left, ∃ F nx j, Neighbours s N p l n F E nx j ∧ B / 2 ≤ F.length)
    (hlmax : ∀ l ∈ left, s.width l ≤ B / 2)
    (hr : ∀ r ∈ right, ∃ F nx j, Neighbours s N p n r E F nx j ∧ B / 2 ≤ F.length)
    (hsome : left ≠ none ∨ right ≠ none)
    (hk : ∀ a, a = n ∨ a ∈ left ∨ a ∈ right → ∀ y ∈ s.kids a, s.tag y = some k) :
    Returns (mergeOrBorrowRight N n left right) s (fun kind s' =>
      Helped s s' N p n E left right kind) := by
  have htag : ∀ {a b : Addr} {F G : List (Child T N)} {nx : Option Addr} {j : Nat},
      Neighbours s N p a b F G nx j → (a = n ∨ a ∈ left ∨ a ∈ right) →
      (b = n ∨ b ∈ left ∨ b ∈ right) → ∀ y ∈ kidsOf N (F ++ G), s.tag y = some k := by
    intro a b F G nx j h ha hb y hy
    rw [kidsOf_append, List.mem_append] at hy
    rcases hy with hy | hy
    · exact hk a ha y (by rw [h.at₁.kids]; exact hy)
    · exact hk b hb y (by rw [h.at₂.kids]; exact hy)
  unfold mergeOrBorrowRight
  cases right with
  | some r =>
      obtain ⟨F, nx', j, h, hmin⟩ := hr r rfl
      rw [returns_bind, Node.length_spec h.at₂, returns_ite]
      refine ⟨fun hgt => ?_, fun hgt => ?_⟩
      · -- the right sibling has more than the minimum
        have hpos := Nat.lt_of_le_of_lt (Nat.zero_le _) hgt
        obtain ⟨x, F, rfl⟩ := List.exists_cons_of_length_pos hpos
        rw [List.length_cons] at hgt
        refine (h.borrowRight_spec (by omega) (by omega)).mono ?_
        intro kind s' h'
        obtain ⟨hreb, hf⟩ := h'
        exact ⟨n, r, E, x :: F, nx', j, h, hreb, hf, Or.inr ⟨rfl, rfl, rfl, hmin⟩⟩
      · -- it has the minimum, so both fit into one node
        refine (h.merge_spec (Or.inl rfl) (by omega) (by omega) (by omega)
          fun hN => ⟨hne hN, k, ?_⟩).mono ?_
        · exact htag h (Or.inl rfl) (Or.inr (Or.inr rfl))
        · intro kind s' h'
          obtain ⟨hreb, hf⟩ := h'
          exact ⟨n, r, E, F, nx', j, h, hreb, hf, Or.inr ⟨rfl, rfl, rfl, hmin⟩⟩
  | none =>
      cases left with
      | none => exact absurd hsome (by simp)
      | some l =>
          -- no right sibling: the node is merged into the left one
          obtain ⟨F, nx', j, h, hmin⟩ := hl l rfl
          have hmax := hlmax l rfl
          rw [h.at₁.width] at hmax
          refine (h.merge_spec (Or.inr rfl) hmax (by omega) (by omega)
            fun _ => ⟨?_, k, ?_⟩).mono ?_
          · exact List.length_pos_iff.mp (by omega)
          · exact htag h (Or.inr (Or.inl rfl)) (Or.inl rfl)
          · intro kind s' h'
            obtain ⟨hreb, hf⟩ := h'
            exact ⟨l, n, F, E, nx', j, h, hreb, hf, Or.inl ⟨rfl, rfl, rfl, hmin⟩⟩

theorem rebalance_spec (hlen : E.length < B / 2) (hne : N = .internal → E ≠ [])
    (hl : ∀ l ∈ left, ∃ F nx j, Neighbours s N p l n F E nx j ∧ B / 2 ≤ F.length)
    (hr : ∀ r ∈ right, ∃ F nx j, Neighbours s N p n r E F nx j ∧ B / 2 ≤ F.length)
    (hsome : left ≠ none ∨ right ≠ none)
    (hk : ∀ a, a = n ∨ a ∈ left ∨ a ∈ right → ∀ y ∈ s.kids a, s.tag y = some k) :
    Returns (rebalance N n left right) s (fun kind s' =>
      Helped s s' N p n E left right kind) := by
  unfold rebalance
  cases left with
  | none =>
      exact mergeOrBorrowRight_spec hlen hne hl (fun l hl => nomatch hl) hr hsome hk
  | some l =>
      obtain ⟨F, nx', j, h, hmin⟩ := hl l rfl
      rw [returns_bind, Node.length_spec h.at₁, returns_ite]
      refine ⟨fun hgt => ?_, fun hgt => ?_⟩
      · -- the left sibling has a child to give
        obtain ⟨F, x, rfl⟩ : ∃ F' x, F = F' ++ [x] := by
          have hF : F ≠ [] := List.length_pos_iff.mp (by omega)
          exact ⟨F.dropLast, F.getLast hF, (List.dropLast_append_getLast hF).symm⟩
        rw [List.length_append, List.length_singleton] at hgt
        refine (h.borrowLeft_spec (by omega) (by omega)).mono ?_
        intro kind s' h'
        obtain ⟨hreb, hf⟩ := h'
        exact ⟨l, n, F ++ [x], E, nx', j, h, hreb, hf, Or.inl ⟨rfl, rfl, rfl, hmin⟩⟩
      · -- it has the minimum only
        refine mergeOrBorrowRight_spec hlen hne hl (fun l' hl' => ?_) hr hsome hk
        cases hl'
        rw [h.at₁.width]
        omega

end

end Remove

end BTreeVec
