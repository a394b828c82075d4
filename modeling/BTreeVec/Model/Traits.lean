import BTreeVec.Model.Iter

/-!
# Comparing and showing vectors

The implementations of `PartialEq`, `PartialOrd`, `Ord` and `Debug` in `lib.rs`. They hand
the iterators to the standard library, which stops at the first difference.
-/

set_option linter.dupNamespace false

namespace BTreeVec

open Prog

variable {T P : Type} {B : Nat} [TaggedPtr P]

namespace Iter

/-- A comparison of two iterators; there are never more turns than items and the last one. -/
def compareBy {ρ : Type} (f : T → T → Option ρ) (self other : Iter) :
    Exec T P B (ρ ⊕ Ordering) :=
  iterCompare .outOfFuel f next next (self.remaining + 1) (self, other)

/-- `Iterator::eq`, for items that are compared by `itemEq`. -/
def eqBy (itemEq : T → T → Bool) (self other : Iter) : Exec T P B Bool := do
  let r ← compareBy (fun x y => if itemEq x y then none else some ()) self other
  return match r with
    | .inl _ => false
    | .inr ord => ord == .eq

/-- `Iterator::partial_cmp`. -/
def partialCmpBy (itemCmp : T → T → Option Ordering) (self other : Iter) :
    Exec T P B (Option Ordering) := do
  let r ← compareBy (fun x y => if itemCmp x y = some .eq then none else some (itemCmp x y))
    self other
  return match r with
    | .inl ord => ord
    | .inr ord => some ord

/-- `Iterator::cmp`. -/
def cmpBy (itemCmp : T → T → Ordering) (self other : Iter) : Exec T P B Ordering := do
  let r ← compareBy (fun x y => if itemCmp x y = .eq then none else some (itemCmp x y)) self other
  return match r with
    | .inl ord => ord
    | .inr ord => ord

end Iter

namespace BTreeVec

def eq (itemEq : T → T → Bool) (self other : BTreeVec) : Exec T P B Bool := do
  Iter.eqBy itemEq (← self.iter) (← other.iter)

def partialCmp (itemCmp : T → T → Option Ordering) (self other : BTreeVec) :
    Exec T P B (Option Ordering) := do
  Iter.partialCmpBy itemCmp (← self.iter) (← other.iter)

def cmp (itemCmp : T → T → Ordering) (self other : BTreeVec) : Exec T P B Ordering := do
  Iter.cmpBy itemCmp (← self.iter) (← other.iter)

/-- `Debug`: the items as `debug_list` writes them on one line. -/
def fmt (itemFmt : T → String) (self : BTreeVec) : Exec T P B String := do
  let items ← collect .outOfFuel Iter.next (self.len + 1) ([], ← self.iter)
  return "[" ++ ", ".intercalate (items.map itemFmt) ++ "]"

end BTreeVec

end BTreeVec
