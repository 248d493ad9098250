import Mathlib.Data.List.Basic
import Mathlib.Tactic.Common

/-!
## Filling slots

A list of slots, of which those that hold a distinguished value count as empty. Slots are written
one after the other, or only where they are empty.
-/

namespace Slots

variable {α : Type} (empty : α)

variable [DecidableEq α]

/-- What a slot holds. -/
def held (w : List α) (i : Nat) : Option α :=
  if w.getD i empty = empty then none else some (w.getD i empty)

variable {empty}

end Slots
