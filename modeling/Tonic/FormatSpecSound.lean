import Tonic.FormatSpec
import Tonic.Library.Outcome

/-!
## Integers as texts

The text of an integer is the one the language gives it, unless zeros fill the width of grouped
digits and run over the first group: the groups are made before the width is filled.
-/

namespace Tonic

open Numeral

variable {value : Int} {spec : FormatSpec} {shown : Presentation} {mark : Char} {group : Nat}
  {text digits head body : List Char}

/-! ### Groups -/

section Text

variable {formatFloat : Int → List Char → Except Fault (List Char)} {source : List Char}

end Text

end Tonic
