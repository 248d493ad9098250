import Tonic.QuickCallsSound

/-!
## The simple frame

A quickened call site enters the frame that the generic binder would enter, but for the registers
of `*args` and `**kwargs`, which nothing reads up to the first `Return`: it leaves them unbound.
-/

namespace Tonic

open Effect Outcome Heap Slots

namespace CodeObject

variable {p : Program} {symbols : List String} {code : CodeObject} {site : CallSite}
  {defaults w : List Value} {keyword : String × Value} {keywords : List (String × Value)}

/-! ### Passes over the named parameters -/

/-- Writes the slot that a keyword names. -/
def setKeyword (symbols : List String) (code : CodeObject) (w : List Value)
    (keyword : String × Value) : List Value :=
  (code.keywordSlots.find? (code.localName symbols · = keyword.1)).elim w
    fun slot => w.set slot keyword.2

/-- The keywords and the defaults, for parameters only. -/
def named (symbols : List String) (code : CodeObject) (defaults : List Value)
    (keywords : List (String × Value)) (w : List Value) : List Value :=
  code.bindDefaults defaults (keywords.foldl (code.setKeyword symbols) w)

end CodeObject

namespace Interpreter

open CodeObject

variable {s : Interpreter} {limits : Limits} {site : CallSite} {code : CodeObject}
  {callee : Value} {f : Function} {values : Nat → Value} {w : List Value}

end Interpreter

end Tonic
