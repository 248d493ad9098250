import Tonic.Frames

/-!
## Quickened calls

A call site that was seen with one function often enough skips the passes of the generic binder.
The guard looks at the function and at the call site when the site is specialised; afterwards the
site only compares the callee.
-/

namespace Tonic

open Effect

namespace CodeObject

/-! ### Variadic parameters that nothing reads -/

section Guard

variable (code : CodeObject) (site : CallSite) (front : Nat) (materialize : Bool)

/-- The slot a keyword symbol names. -/
def symbolSlot (keyword : Nat) : Option Nat :=
  code.keywordSlots.find? (code.locals.getD · 0 = keyword)

end Guard

end CodeObject

namespace Interpreter

variable (s : Interpreter)

/-- Where an inlined call takes the value of a parameter from. -/
inductive DirectArgument where
  | caller (offset : Nat)
  | methodReceiver
  | default (value : Value)
  | variadicTuple (first count : Nat)
  | variadicDict (items : List (Nat × Nat))
deriving DecidableEq, Repr

def variadicTuple (code : CodeObject) (site : CallSite) : DirectArgument :=
  .variadicTuple (site.first + code.signature.positional) (site.count - code.signature.positional)

def variadicDict (code : CodeObject) (site : CallSite) : DirectArgument :=
  .variadicDict ((site.keywords.zipIdx.filter fun keyword => (code.symbolSlot keyword.1).isNone).map
    fun keyword => (keyword.1, site.first + site.count + keyword.2))

end Interpreter

end Tonic
