import BTreeVec.Model.Traits
import BTreeVec.Proof.Program

/-!
# What comparisons and `Debug` see

Two vectors are compared by their items alone: trees of different shapes, which different
calls have built, are equal if the same items are in them, and no comparison ends early.
-/

set_option linter.dupNamespace false

namespace BTreeVec

open Prog

variable {T P : Type} {B : Nat} [TaggedPtr P] {s : Store T P B} {v v' : BTreeVec} {l l' : List T}
  {F F' : Set Addr} {c c' : Cursor} {ρ : Type} {x y : Nat} {acts : List (Action T)}

/-! ## On lists -/

/-- The lexicographic order that an order of the items gives, where some are incomparable. -/
def partialCompareLex (cmp : T → T → Option Ordering) : List T → List T → Option Ordering
  | [], [] => some .eq
  | [], _ :: _ => some .lt
  | _ :: _, [] => some .gt
  | x :: xs, y :: ys =>
      match cmp x y with
      | some .eq => partialCompareLex cmp xs ys
      | ord => ord

theorem compareLists_eq (itemEq : T → T → Bool) (xs ys : List T) :
    (match compareLists (fun x y => if itemEq x y then none else some ()) xs ys with
      | .inl _ => false
      | .inr ord => ord == .eq) = xs.isEqv ys itemEq := by
  induction xs generalizing ys with
  | nil => cases ys <;> rfl
  | cons x xs ih =>
      cases ys with
      | nil => rfl
      | cons y ys =>
          rw [compareLists, List.isEqv]
          cases itemEq x y with
          | true => exact ih ys
          | false => rfl

theorem compareLists_partialCmp (itemCmp : T → T → Option Ordering) (xs ys : List T) :
    (match compareLists (fun x y => if itemCmp x y = some .eq then none else some (itemCmp x y))
        xs ys with
      | .inl ord => ord
      | .inr ord => some ord) = partialCompareLex itemCmp xs ys := by
  induction xs generalizing ys with
  | nil => cases ys <;> rfl
  | cons x xs ih =>
      cases ys with
      | nil => rfl
      | cons y ys =>
          rw [compareLists, partialCompareLex]
          cases hxy : itemCmp x y with
          | none => rfl
          | some ord =>
              cases ord with
              | eq => exact ih ys
              | lt | gt => rfl

theorem compareLists_cmp (itemCmp : T → T → Ordering) (xs ys : List T) :
    (match compareLists (fun x y => if itemCmp x y = .eq then none else some (itemCmp x y))
        xs ys with
      | .inl ord => ord
      | .inr ord => ord) = List.compareLex itemCmp xs ys := by
  induction xs generalizing ys with
  | nil => cases ys <;> rfl
  | cons x xs ih =>
      cases ys with
      | nil => rfl
      | cons y ys =>
          rw [compareLists, List.compareLex_cons_cons]
          cases hxy : itemCmp x y with
          | eq => exact ih ys
          | lt | gt => rfl

/-! ## An iterator gives the rest of the list -/

/-- The items `xs` are to come. -/
def Rest (v : BTreeVec) (s : Store T P B) (l xs : List T) (c : Cursor) : Prop :=
  ∃ pos, xs = l.drop pos ∧ StandsAt v s l.length c pos

theorem Rest.next (h : VecAt s v l F) (hB : 4 ≤ B) {xs : List T} (hc : Rest v s l xs c) :
    Returns (Iter.next c) s (fun r s' => s' = s ∧ r.1 = xs.head? ∧ Rest v s l xs.tail r.2) := by
  obtain ⟨pos, rfl, hc⟩ := hc
  refine (Iter.step_gives h (h.leavesFilled hB) hc .next).mono ?_
  intro p s' hr
  obtain ⟨o, c'⟩ := p
  obtain ⟨rfl, ho, hc'⟩ := hr
  refine ⟨rfl, ho.trans List.head?_drop.symm, min (pos + 1) l.length, ?_, hc'⟩
  rw [List.tail_drop]
  by_cases hle : pos + 1 ≤ l.length
  · rw [Nat.min_eq_left hle]
  · rw [Nat.min_eq_right (by omega), List.drop_of_length_le (by omega),
      List.drop_of_length_le (Nat.le_refl _)]

theorem Iter.compareBy_spec (h : VecAt s v l F) (h' : VecAt s v' l' F') (hB : 4 ≤ B)
    (hc : StandsAt v s l.length c 0) (hc' : StandsAt v' s l'.length c' 0)
    (f : T → T → Option ρ) :
    Returns (Iter.compareBy f c c') s (fun r s' => s' = s ∧ r = compareLists f l l') := by
  refine returns_iterCompare (Rest v s l) (Rest v' s l') (fun xs c => Rest.next h hB)
    (fun xs c => Rest.next h' hB) ?_ ⟨0, rfl, hc⟩ ⟨0, rfl, hc'⟩
  rw [hc.remaining]
  omega

/-- A comparison of two vectors is one of the lists of their items. -/
theorem BTreeVec.compare_spec (h : VecAt s v l F) (h' : VecAt s v' l' F') (hB : 4 ≤ B)
    (f : T → T → Option ρ) {α : Type} (g : ρ ⊕ Ordering → α) :
    Returns (do return g (← Iter.compareBy f (← v.iter) (← v'.iter))) s
      (fun r s' => s' = s ∧ r = g (compareLists f l l')) := by
  simp only [returns_bind]
  refine (Cursor.start_at h).mono ?_
  intro c s' hr
  obtain ⟨rfl, hc⟩ := hr
  refine (Cursor.start_at h').mono ?_
  intro c' s' hr
  obtain ⟨rfl, hc'⟩ := hr
  refine (Iter.compareBy_spec h h' hB hc hc' f).mono ?_
  intro _ s' hr
  obtain ⟨rfl, rfl⟩ := hr
  exact ⟨rfl, rfl⟩

/-- `Debug` writes the items in their order. -/
theorem BTreeVec.fmt_spec (h : VecAt s v l F) (hB : 4 ≤ B) (itemFmt : T → String) :
    Returns (v.fmt itemFmt) s
      (fun r s' => s' = s ∧ r = "[" ++ ", ".intercalate (l.map itemFmt) ++ "]") := by
  unfold BTreeVec.fmt
  simp only [returns_bind]
  refine (Cursor.start_at h).mono ?_
  intro c s' hr
  obtain ⟨rfl, hc⟩ := hr
  have hfuel : l.length < v.len + 1 := by
    rw [BTreeVec.len, h.size]
    exact Nat.lt_succ_self _
  refine (returns_collect (Rest v s' l) (fun xs c => Rest.next h hB) hfuel ⟨0, rfl, hc⟩).mono ?_
  intro _ s' hr
  obtain ⟨rfl, rfl⟩ := hr
  exact ⟨rfl, rfl⟩

/--
**Comparisons and `Debug` see the items and nothing else.** Any two vectors of a program,
whatever calls have built them, compare as the lists of their items do: `==` item by item,
`partial_cmp` and `cmp` by the first difference. `Debug` writes these lists. Nothing changes.
-/
theorem comparisons_see_items (hB : 4 ≤ B) (itemEq : T → T → Bool)
    (itemPartial : T → T → Option Ordering) (itemCmp : T → T → Ordering) (itemFmt : T → String)
    (hx : (runProgram acts : _ × Env × Store T P B).2.1[x]? = some (.vec v))
    (hy : (runProgram acts : _ × Env × Store T P B).2.1[y]? = some (.vec v')) :
    let s := (runProgram acts : _ × Env × Store T P B).2.2
    Returns (v.eq itemEq v') s
        (fun r s' => s' = s ∧ r = (s.itemsOf v).isEqv (s.itemsOf v') itemEq)
      ∧ Returns (v.partialCmp itemPartial v') s
        (fun r s' => s' = s ∧ r = partialCompareLex itemPartial (s.itemsOf v) (s.itemsOf v'))
      ∧ Returns (v.cmp itemCmp v') s
        (fun r s' => s' = s ∧ r = List.compareLex itemCmp (s.itemsOf v) (s.itemsOf v'))
      ∧ Returns (v.fmt itemFmt) s (fun r s' => s' = s
        ∧ r = "[" ++ ", ".intercalate ((s.itemsOf v).map itemFmt) ++ "]") := by
  have hiter : ∀ a ∈ acts, a.Iterates → 4 ≤ B := fun _ _ _ => hB
  obtain ⟨R, hagree⟩ := (runProgram_simulates (P := P) (by omega : 3 ≤ B) hiter).2.agree
  obtain ⟨l, hv⟩ := hagree.vecAt hx
  obtain ⟨l', hv'⟩ := hagree.vecAt hy
  intro s
  rw [hv.itemsOf, hv'.itemsOf, ← compareLists_eq, ← compareLists_partialCmp, ← compareLists_cmp]
  refine ⟨?_, ?_, ?_, BTreeVec.fmt_spec hv hB itemFmt⟩
  · exact BTreeVec.compare_spec hv hv' hB _ _
  · exact BTreeVec.compare_spec hv hv' hB _ _
  · exact BTreeVec.compare_spec hv hv' hB _ _

/-- Vectors of six items on two levels and of two items in a lone leaf. -/
theorem comparisons_see_items_severalOwners : ∃ v v' : BTreeVec, v.size = 6 ∧ v'.size = 2 ∧
    let s := (runProgram severalOwners : _ × Env × Store Nat PairPtr 4).2.2
    Returns (v.eq (· == ·) v') s
        (fun r s' => s' = s ∧ r = (s.itemsOf v).isEqv (s.itemsOf v') (· == ·))
      ∧ Returns (v.partialCmp (fun x y => some (compare x y)) v') s (fun r s' => s' = s
        ∧ r = partialCompareLex (fun x y => some (compare x y)) (s.itemsOf v) (s.itemsOf v'))
      ∧ Returns (v.cmp compare v') s
        (fun r s' => s' = s ∧ r = List.compareLex compare (s.itemsOf v) (s.itemsOf v'))
      ∧ Returns (v.fmt toString) s (fun r s' => s' = s
        ∧ r = "[" ++ ", ".intercalate ((s.itemsOf v).map toString) ++ "]") := by
  have hx : (runProgram severalOwners : _ × Env × Store Nat PairPtr 4).2.1[0]?
      = some (.vec ⟨some 2, 6⟩) := by decide +kernel
  have hy : (runProgram severalOwners : _ × Env × Store Nat PairPtr 4).2.1[1]?
      = some (.vec ⟨some 3, 2⟩) := by decide +kernel
  exact ⟨_, _, rfl, rfl, comparisons_see_items (Nat.le_refl 4) (· == ·)
    (fun x y => some (compare x y)) compare toString hx hy⟩

end BTreeVec
