import Mathlib.Logic.Function.Basic
import Mathlib.Data.Set.Basic
import BTreeVec.Lib.Heap

/-!
# Regions of a heap

Several owners share a heap, each with a region of live cells that no other owner has. A
run within one region leaves the cells of all others as they are, so what its owner does
is seen by nobody else. At any time the live cells are those of the regions, and the lost
ones, which nobody owns any more and which stay for good.
-/

namespace Heap

variable {V ι : Type} {h h' h'' : Heap V} {r r' r'' : Set Nat}

/-- A run from `h` to `h'` that keeps to the region `r`, which is `r'` afterwards. -/
structure Within (h h' : Heap V) (r r' : Set Nat) : Prop where
  outside : ∀ a, a ∉ r → h.read a ≠ none → h'.read a = h.read a
  live : ∀ a, h'.read a ≠ none → a ∈ r' ∨ a ∉ r ∧ h.read a ≠ none
  owned : ∀ a ∈ r', a ∈ r ∨ h.read a = none
  held : ∀ a ∈ r', h'.read a ≠ none

namespace Within

theorem refl (hr : ∀ a ∈ r, h.read a ≠ none) : Within h h r r where
  outside _ _ _ := rfl
  live a ha := by
    by_cases hmem : a ∈ r
    · exact Or.inl hmem
    · exact Or.inr ⟨hmem, ha⟩
  owned _ ha := Or.inl ha
  held := hr

theorem trans (h₁ : Within h h' r r') (h₂ : Within h' h'' r' r'') : Within h h'' r r'' where
  outside a ha hl := by
    have hn : a ∉ r' := fun ha' => (h₁.owned a ha').elim ha hl
    have he := h₁.outside a ha hl
    rw [h₂.outside a hn (he ▸ hl), he]
  live a ha := by
    rcases h₂.live a ha with ha | ⟨hn, ha⟩
    · exact Or.inl ha
    · rcases h₁.live a ha with ha | ha
      · exact absurd ha hn
      · exact Or.inr ha
  owned a ha := by
    rcases h₂.owned a ha with ha | hd
    · exact h₁.owned a ha
    · by_cases hmem : a ∈ r
      · exact Or.inl hmem
      · refine Or.inr (Classical.byContradiction fun hl => hl ?_)
        rw [← h₁.outside a hmem hl]
        exact hd
  held := h₂.held

/-- A cell of the region is written to. -/
theorem write {b : Nat} (hb : b ∈ r) (hheld : ∀ a ∈ r, h'.read a ≠ none)
    (hother : ∀ a, a ≠ b → h'.read a = h.read a) : Within h h' r r where
  outside a ha _ := hother a fun he => ha (he ▸ hb)
  live a ha := by
    by_cases hmem : a ∈ r
    · exact Or.inl hmem
    · have hab : a ≠ b := fun he => hmem (he ▸ hb)
      exact Or.inr ⟨hmem, hother a hab ▸ ha⟩
  owned _ ha := Or.inl ha
  held := hheld

/-- The whole region is given up. -/
theorem free (hgone : ∀ a ∈ r, h'.read a = none) (hother : ∀ a, a ∉ r → h'.read a = h.read a) :
    Within h h' r ∅ where
  outside a ha _ := hother a ha
  live a ha := by
    have hr : a ∉ r := fun hr => ha (hgone a hr)
    exact Or.inr ⟨hr, hother a hr ▸ ha⟩
  owned a ha := absurd ha (Set.notMem_empty a)
  held a ha := absurd ha (Set.notMem_empty a)

end Within

/--
The live cells are those of the regions `R` of the owners and the `lost` ones, and none is in
two of these.
-/
structure Regions (h : Heap V) (R : ι → Set Nat) (lost : Set Nat) : Prop where
  apart : ∀ i j, i ≠ j → ∀ a ∈ R i, a ∉ R j
  unowned : ∀ i, ∀ a ∈ R i, a ∉ lost
  live : ∀ a, h.read a ≠ none ↔ (∃ i, a ∈ R i) ∨ a ∈ lost

namespace Regions

variable {R : ι → Set Nat} {lost : Set Nat} {i j : ι}

theorem empty : Regions (Heap.empty : Heap V) (fun _ : ι => ∅) ∅ where
  apart _ _ _ _ ha := absurd ha (Set.notMem_empty _)
  unowned _ a ha := absurd ha (Set.notMem_empty a)
  live a := by
    rw [read_empty]
    refine ⟨fun ha => absurd rfl ha, fun ha => ?_⟩
    rcases ha with ⟨_, ha⟩ | ha
    · exact absurd ha (Set.notMem_empty a)
    · exact absurd ha (Set.notMem_empty a)

theorem held (hr : Regions h R lost) : ∀ a ∈ R i, h.read a ≠ none := fun a ha =>
  (hr.live a).mpr (Or.inl ⟨i, ha⟩)

/-- The other owners see nothing of it. -/
theorem untouched (hr : Regions h R lost) (hw : Within h h' (R i) r') (hj : j ≠ i) :
    ∀ a ∈ R j, h'.read a = h.read a := fun a ha =>
  hw.outside a (hr.apart j i hj a ha) (hr.held a ha)

theorem step [DecidableEq ι] (hr : Regions h R lost) (hw : Within h h' (R i) r') :
    Regions h' (Function.update R i r') lost := by
  -- what the owner has now was its own before, or nobody's
  have hnew : ∀ j, j ≠ i → ∀ a ∈ r', a ∉ R j := by
    intro j hj a ha haj
    rcases hw.owned a ha with hai | hd
    · exact hr.apart i j hj.symm a hai haj
    · exact hr.held a haj hd
  have hlost : ∀ a ∈ r', a ∉ lost := by
    intro a ha hal
    rcases hw.owned a ha with hai | hd
    · exact hr.unowned i a hai hal
    · exact (hr.live a).mpr (Or.inr hal) hd
  refine ⟨fun j k hjk a ha => ?_, fun j a ha => ?_, fun a => ⟨fun ha => ?_, fun ha => ?_⟩⟩
  · by_cases hj : j = i
    · subst hj
      rw [Function.update_self] at ha
      rw [Function.update_of_ne hjk.symm]
      exact hnew k hjk.symm a ha
    · rw [Function.update_of_ne hj] at ha
      by_cases hk : k = i
      · subst hk
        rw [Function.update_self]
        exact fun h' => hnew j hj a h' ha
      · rw [Function.update_of_ne hk]
        exact hr.apart j k hjk a ha
  · by_cases hj : j = i
    · subst hj
      rw [Function.update_self] at ha
      exact hlost a ha
    · rw [Function.update_of_ne hj] at ha
      exact hr.unowned j a ha
  · rcases hw.live a ha with ha' | ⟨hna, hl⟩
    · exact Or.inl ⟨i, by rw [Function.update_self]; exact ha'⟩
    · rcases (hr.live a).mp hl with ⟨j, hj⟩ | hl
      · have hji : j ≠ i := fun he => hna (he ▸ hj)
        exact Or.inl ⟨j, by rw [Function.update_of_ne hji]; exact hj⟩
      · exact Or.inr hl
  · rcases ha with ⟨j, hj⟩ | hl
    · by_cases hji : j = i
      · subst hji
        rw [Function.update_self] at hj
        exact hw.held a hj
      · rw [Function.update_of_ne hji] at hj
        rw [hr.untouched hw hji a hj]
        exact hr.held a hj
    · have hlive := (hr.live a).mpr (Or.inr hl)
      rw [hw.outside a (fun ha => hr.unowned i a ha hl) hlive]
      exact hlive

/-- What is new when nothing else changed is lost, if nobody gets it. -/
theorem lose (hr : Regions h R lost) (hread : ∀ a, h.read a ≠ none → h'.read a = h.read a) :
    Regions h' R (lost ∪ {a | h.read a = none ∧ h'.read a ≠ none}) where
  apart := hr.apart
  unowned i a ha hl := hl.elim (hr.unowned i a ha) fun hl => hr.held a ha hl.1
  live a := by
    constructor
    · intro ha
      by_cases hd : h.read a = none
      · exact Or.inr (Or.inr ⟨hd, ha⟩)
      · exact ((hr.live a).mp hd).imp_right Or.inl
    · intro ha
      rcases ha with ⟨i, ha⟩ | ha | ha
      · rw [hread a (hr.held a ha)]
        exact hr.held a ha
      · have hlive := (hr.live a).mpr (Or.inr ha)
        rw [hread a hlive]
        exact hlive
      · exact ha.2

end Regions

end Heap
