import Mathlib.Data.List.Nodup
import Mathlib.Data.List.Infix

/-!
# Numbers in the order of the first visit

Values are visited one after the other, and each gets the next number when it is visited
for the first time. So a value keeps its number whatever is visited later, and no two
values have the same one.
-/

namespace Numbering

variable {α : Type} [DecidableEq α] {ks ks' as bs : List α} {a b : α}

end Numbering
