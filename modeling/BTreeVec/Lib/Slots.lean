import Mathlib.Data.List.Basic

/-!
# Arrays of a fixed size

`Slots α n` is an array `[α; n]`: its length is a property of its type, and no
operation can change it. The partial operations mirror the slice methods of the
language: they give `none` exactly where the slice expression is out of bounds.

A fixed array that stores a growing sequence holds the sequence in its first
slots and leftovers in the rest, so the lemmas are stated for an array written as
`xs ++ rest`.
-/

/-- An array of `n` elements. -/
structure Slots (α : Type) (n : Nat) where
  toList : List α
  length_toList : toList.length = n
deriving DecidableEq

namespace Slots

variable {α : Type} {n : Nat}

attribute [simp] length_toList

def replicate (n : Nat) (a : α) : Slots α n := ⟨List.replicate n a, List.length_replicate⟩

/-- `self[i]`. -/
def get? (v : Slots α n) (i : Nat) : Option α := v.toList[i]?

/-- `self[i] = a`. -/
def set? (v : Slots α n) (i : Nat) (a : α) : Option (Slots α n) :=
  if i < n then some ⟨v.toList.set i a, by simp⟩ else none

/-- `self[i..j]`. -/
def slice? (v : Slots α n) (i j : Nat) : Option (List α) :=
  if i ≤ j ∧ j ≤ n then some ((v.toList.take j).drop i) else none

/-- `self[i..j].rotate_right(1)`; rotating an empty slice by one panics. -/
def rotateRight? (v : Slots α n) (i j : Nat) : Option (Slots α n) :=
  if h : i < j ∧ j ≤ n then
    some ⟨v.toList.take i ++ ((v.toList.take j).drop i).rotateRight 1 ++ v.toList.drop j, by
      simp [List.rotateRight]; split <;> simp <;> omega⟩
  else none

/-- `self[i..j].rotate_left(1)`; rotating an empty slice by one panics. -/
def rotateLeft? (v : Slots α n) (i j : Nat) : Option (Slots α n) :=
  if h : i < j ∧ j ≤ n then
    some ⟨v.toList.take i ++ ((v.toList.take j).drop i).rotateLeft 1 ++ v.toList.drop j, by
      simp [List.rotateLeft]; split <;> simp <;> omega⟩
  else none

/-- `self[i..][..xs.len()].copy_from_slice(xs)`. -/
def copyFrom? (v : Slots α n) (i : Nat) (xs : List α) : Option (Slots α n) :=
  if h : i + xs.length ≤ n then
    some ⟨v.toList.take i ++ xs ++ v.toList.drop (i + xs.length), by simp; omega⟩
  else none

@[ext] theorem ext {v w : Slots α n} (h : v.toList = w.toList) : v = w := by
  cases v; cases w; cases h; rfl

theorem length_add_of_eq {v : Slots α n} {xs rest : List α} (h : v.toList = xs ++ rest) :
    xs.length + rest.length = n := by
  have := congrArg List.length h
  simpa using this.symm

theorem set?_append {v : Slots α n} {xs rest : List α} {r : α} (a : α)
    (h : v.toList = xs ++ r :: rest) :
    ∃ w, v.set? xs.length a = some w ∧ w.toList = xs ++ a :: rest := by
  have hn := length_add_of_eq h
  rw [List.length_cons] at hn
  refine ⟨_, if_pos (by omega), ?_⟩
  simp [h]

theorem slice?_append {v : Slots α n} {xs ys zs : List α} (h : v.toList = xs ++ ys ++ zs) :
    v.slice? xs.length (xs.length + ys.length) = some ys := by
  have hn := length_add_of_eq h
  rw [List.length_append] at hn
  unfold slice?
  rw [if_pos (by omega), h, ← List.length_append, List.take_left, List.drop_left]

theorem slice?_prefix {v : Slots α n} {ys zs : List α} (h : v.toList = ys ++ zs) :
    v.slice? 0 ys.length = some ys := by
  have := slice?_append (show v.toList = [] ++ ys ++ zs from h)
  rwa [List.length_nil, Nat.zero_add] at this

theorem rotateRight?_append {v : Slots α n} {xs ys zs : List α} {a : α}
    (h : v.toList = xs ++ ys ++ a :: zs) :
    ∃ w, v.rotateRight? xs.length (xs.length + ys.length + 1) = some w
      ∧ w.toList = xs ++ a :: ys ++ zs := by
  have hn := length_add_of_eq h
  simp only [List.length_append, List.length_cons] at hn
  have h' : v.toList = xs ++ (ys ++ [a]) ++ zs := by simp [h]
  refine ⟨_, dif_pos (by omega), ?_⟩
  have htake : (v.toList.take (xs.length + ys.length + 1)).drop xs.length = ys ++ [a] := by
    rw [h', show xs.length + ys.length + 1 = (xs ++ (ys ++ [a])).length by simp; omega,
      List.take_left, List.drop_left]
  have hdrop : v.toList.drop (xs.length + ys.length + 1) = zs := by
    rw [h', show xs.length + ys.length + 1 = (xs ++ (ys ++ [a])).length by simp; omega,
      List.drop_left]
  have hrot : (ys ++ [a]).rotateRight 1 = a :: ys := by
    cases ys with
    | nil => rfl
    | cons y ys => simp [List.rotateRight]
  simp only [htake, hdrop, hrot]
  simp [h]

theorem rotateLeft?_append {v : Slots α n} {xs ys zs : List α} {a : α}
    (h : v.toList = xs ++ a :: ys ++ zs) :
    ∃ w, v.rotateLeft? xs.length (xs.length + ys.length + 1) = some w
      ∧ w.toList = xs ++ ys ++ a :: zs := by
  have hn := length_add_of_eq h
  simp only [List.length_append, List.length_cons] at hn
  have h' : v.toList = xs ++ (a :: ys) ++ zs := by simp [h]
  refine ⟨_, dif_pos (by omega), ?_⟩
  have htake : (v.toList.take (xs.length + ys.length + 1)).drop xs.length = a :: ys := by
    rw [h', show xs.length + ys.length + 1 = (xs ++ a :: ys).length by simp; omega,
      List.take_left, List.drop_left]
  have hdrop : v.toList.drop (xs.length + ys.length + 1) = zs := by
    rw [h', show xs.length + ys.length + 1 = (xs ++ a :: ys).length by simp; omega,
      List.drop_left]
  have hrot : (a :: ys).rotateLeft 1 = ys ++ [a] := by
    cases ys with
    | nil => rfl
    | cons y ys => simp [List.rotateLeft]
  simp only [htake, hdrop, hrot]
  simp [h]

theorem copyFrom?_append {v : Slots α n} {xs ys zs : List α} (cs : List α)
    (h : v.toList = xs ++ ys ++ zs) (hl : cs.length = ys.length) :
    ∃ w, v.copyFrom? xs.length cs = some w ∧ w.toList = xs ++ cs ++ zs := by
  have hn := length_add_of_eq h
  rw [List.length_append] at hn
  refine ⟨_, dif_pos (by omega), ?_⟩
  simp only [hl]
  rw [h, ← List.length_append, List.drop_left, List.append_assoc xs ys, List.take_left]

theorem get?_append_left {v : Slots α n} {xs zs : List α} {a : α} {i : Nat}
    (h : v.toList = xs ++ zs) (hi : xs[i]? = some a) : v.get? i = some a := by
  have hlt := (List.getElem?_eq_some_iff.mp hi).1
  rw [get?, h, List.getElem?_append_left hlt, hi]

theorem get?_append {v : Slots α n} {xs zs : List α} {a : α} (h : v.toList = xs ++ a :: zs) :
    v.get? xs.length = some a := by
  simp [get?, h]

end Slots
