import Mathlib.Data.List.Find
import Tonic.BindingSound
import Tonic.LinkVerified
import Tonic.QuickCalls

/-!
## Quickened calls bind the same arguments

The guard of a quickened call site implies that the generic binder would accept the arguments, and
that it would put them where the simple frame, or the plan of an inlined call, puts them.
-/

namespace Tonic

open Effect Outcome Heap Slots

namespace CodeObject

variable {p : Program} {symbols : List String} {code : CodeObject} {site : CallSite}
  {front : Nat} {materialize : Bool} {defaults : List Value}

/-! ### Verified code -/

variable {receiver : Option Value} {values : Nat → Value} {slot : Nat}

end CodeObject

/-! ### The plan of an inlined call -/

namespace Interpreter

/-- The value an inlined call takes from the registers of the caller, for a single argument. -/
def DirectArgument.value (receiver : Option Value) (values : Nat → Value) : DirectArgument → Option Value
  | .caller offset => some (values offset)
  | .methodReceiver => receiver
  | .default value => some value
  | .variadicTuple _ _ | .variadicDict _ => none

open CodeObject

variable {s : Interpreter} {site : CallSite} {code : CodeObject} {materialize : Bool}
  {defaults : List Value} {receiver : Option Value} {values : Nat → Value} {slot : Nat}

theorem length_of_mapM {α β : Type} {f : α → Option β} {xs : List α} {ys : List β}
    (run : xs.mapM f = some ys) : ys.length = xs.length := by
  induction xs generalizing ys with
  | nil =>
    cases run
    rfl
  | cons x xs ih =>
    rw [List.mapM_cons] at run
    simp only [Option.bind_eq_bind, Option.pure_def, Option.bind_eq_some_iff, Option.some.injEq] at run
    obtain ⟨y, -, ys, rest, rfl⟩ := run
    rw [List.length_cons, List.length_cons, ih rest]

end Interpreter

end Tonic
