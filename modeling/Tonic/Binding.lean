import Tonic.DictRep
import Tonic.Frames
import Tonic.Library.Slots

/-!
## Argument binding

What the arguments of a call give to each parameter, and the four ways a call is refused.
-/

namespace Tonic

namespace CodeObject

variable (symbols : List String) (code : CodeObject) (defaults : List Value) (list : ArgumentList)

/-- The argument that names a parameter; positional-only parameters cannot be named. -/
def keywordFor (keywords : List (String × Value)) (slot : Nat) : Option Value :=
  if code.signature.posonly ≤ slot then
    (keywords.find? (·.1 = code.localName symbols slot)).map (·.2)
  else none

def defaultFor (slot : Nat) : Option Value :=
  ((code.signature.defaults.zip defaults).find? (·.1 = slot)).map (·.2)

/-- The value of a parameter: its position comes first, then its name, then its default. -/
def argumentFor (slot : Nat) : Option Value :=
  (((list.positional.take code.signature.positional)[slot]?).or
    (code.keywordFor symbols list.keywords slot)).or (code.defaultFor defaults slot)

/-- Whether a parameter can be named so. -/
def names (name : String) : Bool := code.keywordSlots.any (code.localName symbols · = name)

/-- The keywords that go to `**kwargs`. -/
def extraKeywords (keywords : List (String × Value)) : List (String × Value) :=
  keywords.filter fun keyword => !code.names symbols keyword.1

/-- Why the arguments do not fit the parameters. -/
inductive Refused : Prop
  | surplus : code.signature.positional < list.positional.length →
      code.signature.vararg = none → Refused
  | twice {slot : Nat} {value : Value} : slot < list.positional.length →
      slot < code.signature.positional → slot ∈ code.keywordSlots →
      (code.localName symbols slot, value) ∈ list.keywords → Refused
  | unknown : code.signature.kwarg = none → code.extraKeywords symbols list.keywords ≠ [] → Refused
  | missing {slot : Nat} : slot < code.signature.named →
      code.argumentFor symbols defaults list slot = none → Refused

end CodeObject

/-! ### What a frame holds -/

namespace Window

variable (h : Heap) (code : CodeObject) (w : Window)

/-- The value of a parameter, which may have moved into a cell. -/
def parameter (slot : Nat) : Option Value :=
  match code.cellLocals.idxOf? slot with
  | none => w.registers[slot]?
  | some i =>
    match (w.cells[i]?).bind h.tryGet with
    | some (.cell value) => some value
    | _ => none

/-- A dictionary with just these string keys, in this order. -/
def Holds (d : Value) (keywords : List (String × Value)) : Prop :=
  ∃ dict, h.tryGet d = some (.dict dict) ∧ dict.Rep ∧
    dict.materials = keywords.map (fun keyword => Key.str keyword.1) ∧
    dict.entries.map (·.2) = keywords.map (·.2)

end Window

end Tonic
