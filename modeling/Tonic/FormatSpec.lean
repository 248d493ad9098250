import Tonic.Value
import Tonic.Library.Numeral

/-!
## Format specifications

What stands behind the colon of a replacement field, and how an integer is written under it. The
presentations of a float are a parameter.
-/

namespace Tonic

open Numeral

/-! ### The source -/

structure Presentation where
  radix : Nat
  basePrefix : List Char
  upper : Bool
  group : Nat
  deriving DecidableEq, Repr

/-- The digits of a number, without a zero before them and with the letters of one case. -/
def Shows (shown : Presentation) (n : Nat) (digits : List Char) : Prop :=
  natural shown.radix digits = some n ∧ (digits.head? = some '0' → digits = ['0']) ∧
    ∀ c ∈ digits, if shown.upper then c.toUpper = c else c.toLower = c

end Tonic
