import Mathlib.Data.List.Nodup
import Mathlib.Data.List.Perm.Subperm
import BTreeVec.Proof.NodeOps

/-!
# A tree as a stack of rows

Insertion and removal work bottom-up, one level at a time, so the proofs hold the
tree by its levels and not by its subtrees. A *row* is the list of the nodes of one
level, from left to right, and `RowAt` gives its contents: the items of all leaves,
or the entries of all internal nodes. Two rows fit if the entries of the upper one
are the nodes of the lower one with their counts, which is `Edge`.

`Below` describes a row with everything under it, `Above` with everything over it.
While an operation climbs, the row it is at has two faces: how it is, for `Below`,
and how its parents believe it to be, for `Above`.
-/

namespace BTreeVec

open Prog

variable {T P : Type} {B : Nat} [TaggedPtr P] {s s' : Store T P B} {N : NodeKind}
  {a b : Addr} {nx : Option Addr}

theorem mem_mid {α : Type} {L R : List α} {a x : α} :
    x ∈ L ++ a :: R ↔ x = a ∨ x ∈ L ∨ x ∈ R := by
  rw [List.mem_append, List.mem_cons, or_left_comm]

/-- The nodes of the row have the children `C`, and the last of them is followed by `nx`. -/
def RowAt (s : Store T P B) (N : NodeKind) : List Addr → List (Child T N) → Option Addr → Prop
  | [], C, _ => C = []
  | a :: U, C, nx => ∃ E C', C = E ++ C' ∧ NodeAt s N a E (U.head?.or nx) ∧ RowAt s N U C' nx

namespace RowAt

variable {U V L R : List Addr} {C : List (Child T N)}

theorem append : RowAt s N (U ++ V) C nx
    ↔ ∃ C₁ C₂, C = C₁ ++ C₂ ∧ RowAt s N U C₁ (V.head?.or nx) ∧ RowAt s N V C₂ nx := by
  induction U generalizing C with
  | nil =>
      constructor
      · intro h; exact ⟨[], C, rfl, rfl, h⟩
      · rintro ⟨C₁, C₂, rfl, rfl, h⟩; exact h
  | cons a U ih =>
      have hnx : (U ++ V).head?.or nx = U.head?.or (V.head?.or nx) := by
        cases U <;> rfl
      simp only [List.cons_append, RowAt, ih, hnx]
      constructor
      · intro h
        obtain ⟨E, C', rfl, hE, C₁, C₂, rfl, h1, h2⟩ := h
        exact ⟨E ++ C₁, C₂, (List.append_assoc ..).symm, ⟨E, C₁, rfl, hE, h1⟩, h2⟩
      · intro h
        obtain ⟨_, C₂, rfl, ⟨E, C₁, rfl, hE, h1⟩, h2⟩ := h
        exact ⟨E, C₁ ++ C₂, List.append_assoc .., hE, C₁, C₂, rfl, h1, h2⟩

/-- The row seen around one of its nodes. -/
theorem mid : RowAt s N (L ++ a :: R) C nx
    ↔ ∃ C₁ E C₂, C = C₁ ++ (E ++ C₂) ∧ RowAt s N L C₁ (some a)
      ∧ NodeAt s N a E (R.head?.or nx) ∧ RowAt s N R C₂ nx := by
  rw [append]
  constructor
  · intro h
    obtain ⟨C₁, _, rfl, h1, E, C₂, rfl, h2, h3⟩ := h
    exact ⟨C₁, E, C₂, rfl, h1, h2, h3⟩
  · intro h
    obtain ⟨C₁, E, C₂, rfl, h1, h2, h3⟩ := h
    exact ⟨C₁, _, rfl, h1, E, C₂, rfl, h2, h3⟩

theorem nodeAt (h : RowAt s N U C nx) (ha : a ∈ U) :
    ∃ E nx', NodeAt s N a E nx' ∧ E ⊆ C := by
  obtain ⟨L, R, rfl⟩ := List.append_of_mem ha
  obtain ⟨C₁, E, C₂, rfl, _, hE, _⟩ := mid.mp h
  refine ⟨E, _, hE, ?_⟩
  intro e he
  exact List.mem_append_right _ (List.mem_append_left _ he)

theorem lt_next (h : RowAt s N U C nx) (ha : a ∈ U) : a < s.heap.next := by
  obtain ⟨E, nx', hE, _⟩ := h.nodeAt ha
  exact hE.lt_next

/-- The row seen around one of the children. -/
theorem at_child {C₂ : List (Child T N)} {e : Child T N} :
    ∀ {A : List Addr} {C₁ : List (Child T N)}, RowAt s N A (C₁ ++ e :: C₂) nx →
      ∃ A₁ p A₂ D₁ xs ys D₂, A = A₁ ++ p :: A₂ ∧ C₁ = D₁ ++ xs ∧ C₂ = ys ++ D₂
        ∧ RowAt s N A₁ D₁ (some p) ∧ NodeAt s N p (xs ++ e :: ys) (A₂.head?.or nx)
        ∧ RowAt s N A₂ D₂ nx := by
  intro A
  induction A with
  | nil => intro C₁ h; exact absurd h (by simp [RowAt])
  | cons p A ih =>
      intro C₁ h
      obtain ⟨E, C', hC, hE, h⟩ := h
      rcases List.append_eq_append_iff.mp hC with ⟨xs, rfl, hC'⟩ | ⟨ys, rfl, hC'⟩
      · -- `e` is in `E`, unless `xs` is empty
        cases xs with
        | nil =>
            rw [List.nil_append] at hC'
            subst hC'
            obtain ⟨A₁, q, A₂, D₁, xs, ys, D₂, rfl, h1, rfl, h2, h3, h4⟩ :=
              ih (show RowAt s N A ([] ++ e :: C₂) nx from h)
            refine ⟨p :: A₁, q, A₂, C₁ ++ D₁, xs, ys, D₂, rfl, ?_, rfl, ?_, h3, h4⟩
            · rw [List.append_assoc, ← h1, List.append_nil]
            · refine ⟨C₁, D₁, rfl, ?_, h2⟩
              rw [List.append_nil] at hE
              cases A₁ <;> exact hE
        | cons x xs =>
            rw [List.cons_append, List.cons.injEq] at hC'
            obtain ⟨rfl, rfl⟩ := hC'
            exact ⟨[], p, A, [], C₁, xs, C', rfl, rfl, rfl, rfl, hE, h⟩
      · subst hC'
        obtain ⟨A₁, q, A₂, D₁, xs, zs, D₂, rfl, rfl, rfl, h2, h3, h4⟩ := ih h
        refine ⟨p :: A₁, q, A₂, E ++ D₁, xs, zs, D₂, rfl, ?_, rfl, ?_, h3, h4⟩
        · rw [List.append_assoc]
        · refine ⟨E, D₁, rfl, ?_, h2⟩
          cases A₁ <;> exact hE

theorem congr (h : RowAt s N U C nx) (hb : ∀ x ∈ U, s'.body x = s.body x)
    (hl : ∀ x ∈ kidsOf N C, s'.link x = s.link x) : RowAt s' N U C nx := by
  induction U generalizing C with
  | nil => exact h
  | cons a U ih =>
      obtain ⟨E, C', rfl, hE, h⟩ := h
      rw [kidsOf_append] at hl
      refine ⟨E, C', rfl, hE.congr (hb a List.mem_cons_self) fun x hx => ?_, ih h ?_ ?_⟩
      · exact hl x (List.mem_append_left _ hx)
      · intro x hx; exact hb x (List.mem_cons_of_mem _ hx)
      · intro x hx; exact hl x (List.mem_append_right _ hx)

/-- Every child node is linked to a node of the row. -/
theorem link_of_mem (h : RowAt s N U C nx) {x : Addr} (hx : x ∈ kidsOf N C) :
    ∃ p ∈ U, ∃ i, s.link x = some (some p, i) := by
  induction U generalizing C with
  | nil =>
      rw [show C = [] from h, kidsOf_nil] at hx
      exact absurd hx List.not_mem_nil
  | cons a U ih =>
      obtain ⟨E, C', rfl, hE, h⟩ := h
      rw [kidsOf_append, List.mem_append] at hx
      rcases hx with hx | hx
      · obtain ⟨i, hi⟩ := hE.link_of_mem hx
        exact ⟨a, List.mem_cons_self, i, hi⟩
      · obtain ⟨p, hp, i, hi⟩ := ih h hx
        exact ⟨p, List.mem_cons_of_mem _ hp, i, hi⟩

theorem total (h : RowAt s N U C nx) :
    (U.map s.total).sum = (C.map (Node.itemSize N)).sum := by
  induction U generalizing C with
  | nil => rw [show C = [] from h]; rfl
  | cons a U ih =>
      obtain ⟨E, C', rfl, hE, h⟩ := h
      rw [List.map_cons, List.sum_cons, hE.total, ih h, List.map_append, List.sum_append]

theorem kids (h : RowAt s N U C nx) : U.flatMap s.kids = kidsOf N C := by
  induction U generalizing C with
  | nil => rw [show C = [] from h, kidsOf_nil]; rfl
  | cons a U ih =>
      obtain ⟨E, C', rfl, hE, h⟩ := h
      rw [List.flatMap_cons, hE.kids, ih h, kidsOf_append]

/-- A row put together around some nodes in the middle. -/
theorem splice {M : List Addr} {C₁ E C₂ : List (Child T N)} (h₁ : RowAt s N L C₁ (some a))
    (hM : RowAt s N (a :: M) E (R.head?.or nx)) (h₂ : RowAt s N R C₂ nx) :
    RowAt s N (L ++ a :: (M ++ R)) (C₁ ++ (E ++ C₂)) nx :=
  append.mpr ⟨C₁, _, rfl, h₁, append.mpr ⟨E, C₂, rfl, hM, h₂⟩⟩

theorem map_next (h : RowAt s N U C nx) {nx' : Option Addr}
    (hnx : ∀ {c : Addr} {F : List (Child T N)}, NodeAt s N c F nx → NodeAt s N c F nx') :
    RowAt s N U C nx' := by
  induction U generalizing C with
  | nil => exact h
  | cons a U ih =>
      obtain ⟨E, C', rfl, hE, h⟩ := h
      refine ⟨E, C', rfl, ?_, ih h⟩
      cases U with
      | nil => exact hnx hE
      | cons c U => exact hE

/-- What follows an internal node does not matter. -/
theorem internal_next {C : List (Child T .internal)} (h : RowAt s .internal U C nx)
    (nx' : Option Addr) : RowAt s .internal U C nx' := h.map_next fun h => h

end RowAt

/-! ## Two rows that fit -/

/-- The nodes of a row as entries, with the counts that `cnt` says. -/
def counted (cnt : Addr → Nat) (U : List Addr) : List (Addr × Nat) := U.map fun u => (u, cnt u)

@[simp] theorem counted_append (cnt : Addr → Nat) (U V : List Addr) :
    counted cnt (U ++ V) = counted cnt U ++ counted cnt V := List.map_append

@[simp] theorem counted_cons (cnt : Addr → Nat) (u : Addr) (U : List Addr) :
    counted cnt (u :: U) = (u, cnt u) :: counted cnt U := rfl

@[simp] theorem counted_nil (cnt : Addr → Nat) : counted cnt [] = [] := rfl

@[simp] theorem map_fst_counted (cnt : Addr → Nat) (U : List Addr) :
    (counted cnt U).map Prod.fst = U := by
  rw [counted, List.map_map]
  exact List.map_id' U

@[simp] theorem map_snd_counted (cnt : Addr → Nat) (U : List Addr) :
    (counted cnt U).map Prod.snd = U.map cnt := by
  rw [counted, List.map_map]
  rfl

@[simp] theorem kidsOf_counted (cnt : Addr → Nat) (U : List Addr) :
    kidsOf (T := T) .internal (counted cnt U) = U := map_fst_counted cnt U

theorem counted_congr {cnt cnt' : Addr → Nat} {U : List Addr} (h : ∀ u ∈ U, cnt' u = cnt u) :
    counted cnt' U = counted cnt U :=
  List.map_congr_left fun u hu => by rw [h u hu]

/-- The children of the row `A` are the row `U`, with counts `cnt`, and `A` has no empty node. -/
structure Edge (s : Store T P B) (A U : List Addr) (cnt : Addr → Nat) : Prop where
  row : RowAt s .internal A (counted cnt U) none
  inner : ∀ a ∈ A, s.kids a ≠ []

/-- A node of `V` that has a sibling below the row `A` is at least half full. -/
def Occ (s : Store T P B) (A V : List Addr) : Prop :=
  ∀ a ∈ A, 2 ≤ s.width a → ∀ c ∈ s.kids a, c ∈ V → B / 2 ≤ s.width c

theorem width_congr {x : Addr} (h : s'.body x = s.body x) : s'.width x = s.width x := by
  rw [Store.width, h]; rfl

theorem kids_congr {x : Addr} (h : s'.body x = s.body x) : s'.kids x = s.kids x := by
  rw [Store.kids, h]; rfl

theorem total_congr {x : Addr} (h : s'.body x = s.body x) : s'.total x = s.total x := by
  rw [Store.total, h]; rfl

namespace Edge

variable {A U : List Addr} {cnt cnt' : Addr → Nat}

theorem congr (h : Edge s A U cnt) (hb : ∀ x ∈ A, s'.body x = s.body x)
    (hl : ∀ x ∈ U, s'.link x = s.link x) (hc : ∀ x ∈ U, cnt' x = cnt x) : Edge s' A U cnt' where
  row := by
    rw [counted_congr hc]
    exact h.row.congr hb fun x hx => hl x (by rwa [kidsOf_counted] at hx)
  inner a ha := by rw [kids_congr (hb a ha)]; exact h.inner a ha

theorem kids (h : Edge s A U cnt) : A.flatMap s.kids = U := by
  rw [h.row.kids, kidsOf_counted]

theorem lt_next (h : Edge s A U cnt) : ∀ x ∈ A, x < s.heap.next := fun _ hx => h.row.lt_next hx

theorem ne_nil (h : Edge s A U cnt) (hU : U ≠ []) : A ≠ [] := by
  intro he
  subst he
  exact hU h.kids.symm

/-- The upper row seen around the parent of a node of the lower one. -/
theorem parent {L R : List Addr} {n : Addr} (h : Edge s A (L ++ n :: R) cnt) :
    ∃ A₁ p A₂ D₁ xs ys D₂, A = A₁ ++ p :: A₂ ∧ counted cnt L = D₁ ++ xs
      ∧ counted cnt R = ys ++ D₂ ∧ RowAt s .internal A₁ D₁ (some p)
      ∧ NodeAt s .internal p (xs ++ (n, cnt n) :: ys) none ∧ RowAt s .internal A₂ D₂ none := by
  have hrow := h.row
  rw [counted_append, counted_cons] at hrow
  obtain ⟨A₁, p, A₂, D₁, xs, ys, D₂, h1, h2, h3, h4, h5, h6⟩ := hrow.at_child
  exact ⟨A₁, p, A₂, D₁, xs, ys, D₂, h1, h2, h3, h4, h5, h6⟩

end Edge

theorem Occ.congr {A V : List Addr} (h : Occ s A V) (hA : ∀ x ∈ A, s'.body x = s.body x)
    (hV : ∀ x ∈ V, s'.body x = s.body x) : Occ s' A V := by
  intro a ha hw c hc hcV
  rw [kids_congr (hA a ha)] at hc
  rw [width_congr (hA a ha)] at hw
  rw [width_congr (hV c hcV)]
  exact h a ha hw c hc hcV

/-! ## All rows below, all rows above -/

/-- The kind of the nodes in a row that has the rows `Ds` below it. -/
def rowKind : List (List Addr) → NodeKind
  | [] => .leaf
  | _ :: _ => .internal

/-- `Ds` are the rows below `U`, down to the leaves, which hold the items `l`. -/
def Below (s : Store T P B) (U : List Addr) : List (List Addr) → List T → Prop
  | [], l => RowAt s .leaf U l none
  | D :: Ds, l => Edge s U D s.total ∧ Occ s U D ∧ Below s D Ds l

/-- The row `V` is occupied as the row above it, if any, demands. -/
def OccTop (s : Store T P B) (As : List (List Addr)) (V : List Addr) : Prop :=
  ∀ A ∈ As.head?, Occ s A V

/--
`As` are the rows above a row that the lowest of them takes to be `U` with the
counts `cnt`. The topmost row is the root, which has at least two children.
-/
def Above (s : Store T P B) (U : List Addr) (cnt : Addr → Nat) : List (List Addr) → Nat → Prop
  | [], size => ∃ r, U = [r] ∧ s.link r = some (none, 0) ∧ cnt r = size
  | A :: As, size => Edge s A U cnt ∧ (As = [] → ∀ a ∈ A, 2 ≤ s.width a) ∧ OccTop s As A
      ∧ Above s A s.total As size

/-- Without rows above, the row is the root alone. -/
theorem Above.root {L R : List Addr} {n : Addr} {cnt : Addr → Nat} {size : Nat}
    (h : Above s (L ++ n :: R) cnt [] size) :
    L = [] ∧ R = [] ∧ s.link n = some (none, 0) ∧ cnt n = size := by
  obtain ⟨r, hr, hl, hs⟩ := h
  cases L with
  | nil =>
      obtain ⟨rfl, rfl⟩ := List.cons.inj hr
      exact ⟨rfl, rfl, hl, hs⟩
  | cons y L => exact absurd hr (by simp)

/-- The children of the nodes in the row above are in the row below it. -/
theorem Above.kids_mem {U A : List Addr} {As : List (List Addr)} {cnt : Addr → Nat} {size : Nat}
    (h : Above s U cnt As size) (hA : A ∈ As.head?) {x c : Addr} (hx : x ∈ A)
    (hc : c ∈ s.kids x) : c ∈ U := by
  cases As with
  | nil => cases hA
  | cons A' As =>
      cases hA
      rw [← h.1.kids]
      exact List.mem_flatMap.mpr ⟨x, hx, hc⟩

/-- The rows of a tree, the row `V` among them, hold no node twice. -/
def rowNodes (Ds : List (List Addr)) (V : List Addr) (As : List (List Addr)) : List Addr :=
  Ds.flatten ++ (V ++ As.flatten)

theorem rowNodes_perm (Ds : List (List Addr)) (V A : List Addr) (As : List (List Addr)) :
    (rowNodes Ds V (A :: As)).Perm (rowNodes (V :: Ds) A As) := by
  rw [rowNodes, rowNodes, List.flatten_cons, List.flatten_cons, ← List.append_assoc]
  exact List.Perm.append_right _ List.perm_append_comm

namespace Below

variable {U : List Addr} {Ds : List (List Addr)} {l : List T}

theorem congr (h : Below s U Ds l) (hb : ∀ x ∈ U ++ Ds.flatten, s'.body x = s.body x)
    (hl : ∀ x ∈ Ds.flatten, s'.link x = s.link x) : Below s' U Ds l := by
  induction Ds generalizing U with
  | nil =>
      exact RowAt.congr h (fun x hx => hb x (List.mem_append_left _ hx))
        fun x hx => absurd hx List.not_mem_nil
  | cons D Ds ih =>
      obtain ⟨he, ho, h⟩ := h
      simp only [List.flatten_cons, List.mem_append] at hb hl
      have hU : ∀ x ∈ U, s'.body x = s.body x := fun x hx => hb x (Or.inl hx)
      have hD : ∀ x ∈ D, s'.body x = s.body x := fun x hx => hb x (Or.inr (Or.inl hx))
      refine ⟨he.congr hU (fun x hx => hl x (Or.inl hx)) (fun x hx => total_congr (hD x hx)),
        ho.congr hU hD, ih h ?_ ?_⟩
      · intro x hx
        exact hb x (Or.inr (List.mem_append.mp hx))
      · intro x hx
        exact hl x (Or.inr hx)

theorem rowAt (h : Below s U Ds l) : ∃ C, RowAt s (rowKind Ds) U C none := by
  cases Ds with
  | nil => exact ⟨l, h⟩
  | cons D Ds => exact ⟨_, h.1.row⟩

theorem lt_next (h : Below s U Ds l) : ∀ x ∈ U ++ Ds.flatten, x < s.heap.next := by
  induction Ds generalizing U with
  | nil =>
      intro x hx
      rw [List.flatten_nil, List.append_nil] at hx
      exact RowAt.lt_next h hx
  | cons D Ds ih =>
      intro x hx
      rcases List.mem_append.mp hx with hx | hx
      · exact h.1.lt_next x hx
      · exact ih h.2.2 x hx

/-- The children of a row's nodes are in the rows below. -/
theorem kids_mem (h : Below s U Ds l) (ha : a ∈ U) {x : Addr} (hx : x ∈ s.kids a) :
    x ∈ Ds.flatten := by
  cases Ds with
  | nil =>
      obtain ⟨E, nx, hE, _⟩ := RowAt.nodeAt h ha
      rw [hE.kids] at hx
      exact absurd hx List.not_mem_nil
  | cons D Ds =>
      refine List.mem_append_left _ ?_
      rw [← h.1.kids]
      exact List.mem_flatMap.mpr ⟨a, ha, hx⟩

theorem kids_ne (h : Below s U Ds l) (hN : rowKind Ds = .internal) (ha : a ∈ U) :
    s.kids a ≠ [] := by
  cases Ds with
  | nil => cases hN
  | cons D Ds => exact h.1.inner a ha

/-- The children of a node that has two are siblings. -/
theorem kids_wide (h : Below s U Ds l) (ha : a ∈ U) (hw : 2 ≤ s.width a) {x : Addr}
    (hx : x ∈ s.kids a) : B / 2 ≤ s.width x := by
  cases Ds with
  | nil =>
      obtain ⟨E, nx, hE, _⟩ := RowAt.nodeAt h ha
      rw [hE.kids] at hx
      exact absurd hx List.not_mem_nil
  | cons D Ds =>
      refine h.2.1 a ha hw x hx ?_
      rw [← h.1.kids]
      exact List.mem_flatMap.mpr ⟨a, ha, hx⟩

/-- The children of a row's nodes are of one kind. -/
theorem kids_tag (h : Below s U Ds l) :
    ∃ k, ∀ a ∈ U, ∀ x ∈ s.kids a, s.tag x = some k := by
  cases Ds with
  | nil =>
      refine ⟨.leaf, fun a ha x hx => ?_⟩
      obtain ⟨E, nx, hE, _⟩ := RowAt.nodeAt h ha
      rw [hE.kids] at hx
      exact absurd hx List.not_mem_nil
  | cons D Ds =>
      obtain ⟨C, hrow⟩ := h.2.2.rowAt
      refine ⟨rowKind Ds, fun a ha x hx => ?_⟩
      have hxD : x ∈ D := by
        rw [← h.1.kids]
        exact List.mem_flatMap.mpr ⟨a, ha, hx⟩
      obtain ⟨E, nx, hE, _⟩ := hrow.nodeAt hxD
      exact hE.tag

/-- The counts of a row add up to the number of items. -/
theorem total (h : Below s U Ds l) : (U.map s.total).sum = l.length := by
  induction Ds generalizing U with
  | nil =>
      rw [RowAt.total h]
      show (l.map fun _ => 1).sum = l.length
      simp
  | cons D Ds ih =>
      rw [h.1.row.total, ← ih h.2.2]
      show ((counted s.total D).map Prod.snd).sum = _
      rw [map_snd_counted]

end Below

theorem OccTop.congr {As : List (List Addr)} {V : List Addr} (h : OccTop s As V)
    (hA : ∀ x ∈ As.flatten, s'.body x = s.body x) (hV : ∀ x ∈ V, s'.body x = s.body x) :
    OccTop s' As V := by
  intro A hA'
  refine (h A hA').congr (fun x hx => hA x ?_) hV
  exact List.mem_flatten.mpr ⟨A, List.mem_of_mem_head? hA', hx⟩

namespace Above

variable {U : List Addr} {cnt cnt' : Addr → Nat} {As : List (List Addr)} {size : Nat}

theorem congr (h : Above s U cnt As size) (hb : ∀ x ∈ As.flatten, s'.body x = s.body x)
    (hl : ∀ x ∈ U ++ As.flatten, s'.link x = s.link x) (hc : ∀ x ∈ U, cnt' x = cnt x) :
    Above s' U cnt' As size := by
  induction As generalizing U cnt cnt' with
  | nil =>
      obtain ⟨r, rfl, hr, hs⟩ := h
      exact ⟨r, rfl, (hl r List.mem_cons_self).trans hr, (hc r List.mem_cons_self).trans hs⟩
  | cons A As ih =>
      obtain ⟨he, hw, ho, h⟩ := h
      simp only [List.flatten_cons, List.mem_append] at hb hl
      have hA : ∀ x ∈ A, s'.body x = s.body x := fun x hx => hb x (Or.inl hx)
      have hAs : ∀ x ∈ As.flatten, s'.body x = s.body x := fun x hx => hb x (Or.inr hx)
      refine ⟨he.congr hA (fun x hx => hl x (Or.inl hx)) hc, ?_, ho.congr hAs hA,
        ih h hAs (fun x hx => hl x (Or.inr (List.mem_append.mp hx)))
          (fun x hx => total_congr (hA x hx))⟩
      intro hn a ha
      rw [width_congr (hA a ha)]
      exact hw hn a ha

theorem lt_next (h : Above s U cnt As size) : ∀ x ∈ As.flatten, x < s.heap.next := by
  induction As generalizing U cnt with
  | nil => intro x hx; exact absurd hx List.not_mem_nil
  | cons A As ih =>
      intro x hx
      rcases List.mem_append.mp (List.flatten_cons ▸ hx) with hx | hx
      · exact h.1.lt_next x hx
      · exact ih h.2.2.2 x hx

theorem link_of_mem (h : Above s U cnt As size) (ha : a ∈ U) : ∃ q i, s.link a = some (q, i) := by
  cases As with
  | nil =>
      obtain ⟨r, rfl, hr, _⟩ := h
      obtain rfl := List.mem_singleton.mp ha
      exact ⟨none, 0, hr⟩
  | cons A As =>
      obtain ⟨p, _, i, hi⟩ := h.1.row.link_of_mem (x := a) (by rwa [kidsOf_counted])
      exact ⟨some p, i, hi⟩

/-- There is at least one node to a row. -/
theorem length_le (h : Above s U cnt As size) (hU : U ≠ []) : As.length ≤ As.flatten.length := by
  induction As generalizing U cnt with
  | nil => exact Nat.le_refl 0
  | cons A As ih =>
      have hA : A ≠ [] := h.1.ne_nil hU
      have := ih h.2.2.2 hA
      have := List.length_pos_iff.mpr hA
      rw [List.flatten_cons, List.length_append, List.length_cons]
      omega

end Above

/-! ## A whole tree -/

/-- The leaves `k` levels below a node. -/
def Store.leavesUnder (s : Store T P B) : Nat → Addr → List Addr
  | 0, a => [a]
  | k + 1, a => (s.kids a).flatMap (s.leavesUnder k)

/-- A tree with the rows `Ds` below its root and the items `l`, between two operations. -/
structure Tree (s : Store T P B) (root : Addr) (Ds : List (List Addr)) (l : List T) : Prop where
  below : Below s [root] Ds l
  link : s.link root = some (none, 0)
  wide : Ds ≠ [] → 2 ≤ s.width root
  nodup : (rowNodes Ds [root] []).Nodup

/-- A tree held by its leaves `U`. -/
structure AtLeaves (s : Store T P B) (U : List Addr) (As : List (List Addr)) (l : List T) :
    Prop where
  row : RowAt s .leaf U l none
  above : Above s U s.total As l.length
  occ : OccTop s As U
  nodup : (rowNodes [] U As).Nodup

/-- Going down to the leaves, a row at a time. -/
theorem Below.descend {U : List Addr} {Ds As : List (List Addr)} {l : List T} (h : Below s U Ds l)
    (ha : Above s U s.total As l.length) (ho : OccTop s As U)
    (hw : As = [] → Ds ≠ [] → ∀ a ∈ U, 2 ≤ s.width a) (hnd : (rowNodes Ds U As).Nodup) :
    ∃ As', AtLeaves s (U.flatMap (s.leavesUnder Ds.length)) As' l
      ∧ (rowNodes [] (U.flatMap (s.leavesUnder Ds.length)) As').Perm (rowNodes Ds U As) := by
  induction Ds generalizing U As with
  | nil =>
      have hU : U.flatMap (s.leavesUnder 0) = U := List.flatMap_pure_eq_map id U ▸ List.map_id U
      rw [List.length_nil, hU]
      exact ⟨As, ⟨h, ha, ho, hnd⟩, List.Perm.refl _⟩
  | cons D Ds ih =>
      obtain ⟨he, hoD, h⟩ := h
      have hperm := rowNodes_perm Ds D U As
      have hU : U.flatMap (s.leavesUnder (Ds.length + 1))
          = D.flatMap (s.leavesUnder Ds.length) := by
        rw [← he.kids, List.flatMap_assoc]; rfl
      rw [List.length_cons, hU]
      have habove : Above s D s.total (U :: As) l.length :=
        ⟨he, fun hAs => hw hAs (List.cons_ne_nil _ _), ho, ha⟩
      obtain ⟨As', hopen, hp⟩ := ih h habove
        (fun A hA => by cases hA; exact hoD) (fun hAs => absurd hAs (List.cons_ne_nil _ _))
        (hperm.nodup_iff.mpr hnd)
      exact ⟨As', hopen, hp.trans hperm⟩

theorem Tree.total {root : Addr} {Ds : List (List Addr)} {l : List T} (h : Tree s root Ds l) :
    s.total root = l.length := by
  have := h.below.total
  rwa [List.map_singleton, List.sum_singleton] at this

theorem Tree.atLeaves {root : Addr} {Ds : List (List Addr)} {l : List T} (h : Tree s root Ds l) :
    ∃ As, AtLeaves s (s.leavesUnder Ds.length root) As l
      ∧ (rowNodes [] (s.leavesUnder Ds.length root) As).Perm (rowNodes Ds [root] []) := by
  have habove : Above s [root] s.total [] l.length := ⟨root, rfl, h.link, h.total⟩
  have := h.below.descend habove (fun A hA => nomatch hA)
    (fun _ hD a ha => by rw [List.mem_singleton.mp ha]; exact h.wide hD) h.nodup
  rwa [List.flatMap_singleton] at this

/-- Different addresses below `m` are at most `m`. -/
theorem length_le_of_nodup {l : List Addr} {m : Nat} (hnd : l.Nodup) (h : ∀ x ∈ l, x < m) :
    l.length ≤ m := by
  have hsub : l ⊆ List.range m := fun x hx => List.mem_range.mpr (h x hx)
  have := (List.subperm_of_subset hnd hsub).length_le
  rwa [List.length_range] at this

end BTreeVec
