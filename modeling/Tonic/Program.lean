import Tonic.Bytecode
import Tonic.Float

/-!
## Programs

Code objects with their tables. An operand is a register, a symbol, a jump target or the index of a
table, as its opcode says.
-/

namespace Tonic

inductive Constant where
  | none
  | ellipsis
  | bool (value : Bool)
  | int (digits : String)
  | float (value : F64)
  | str (text : String)
  | bytes (data : List UInt8)

/-- A call with its register window; the keyword values follow the positional ones. -/
structure CallSite where
  first : Nat
  count : Nat
  keywords : List Nat

structure FunctionSite where
  code : Nat
  captures : List Nat
  defaults : List Nat
  annotations : List (Nat × Nat)
  typeParams : List Nat

inductive AdvisoryScalar where
  | int | float | bool | none | intOrNone | boolOrNone | floatOrNone | intOrFloat
  | intOrFloatOrNone | boolOrFloat | boolOrFloatOrNone | intOrBoolOrFloat
  | intOrBoolOrFloatOrNone | intOrBool | intOrBoolOrNone

structure AdvisoryResult where
  pc : Nat
  result : AdvisoryScalar

structure Signature where
  positional : Nat
  posonly : Nat
  keywordOnly : Nat
  vararg : Option Nat
  kwarg : Option Nat
  /-- Parameter slots in the order the defaults are evaluated in. -/
  defaults : List Nat

structure CodeObject where
  classBody : Bool
  generator : Bool
  coroutine : Bool
  name : String
  params : Nat
  signature : Signature
  locals : List Nat
  typeParams : List (Nat × Option Nat)
  registers : Nat
  instructions : List Instr
  spans : List Span
  constants : List Constant
  calls : List CallSite
  cellLocals : List Nat
  freeVars : List Nat
  functions : List FunctionSite
  advisoryResults : List AdvisoryResult
  exceptionRegions : List ExceptionRegion

structure ModuleInfo where
  name : String
  filename : String
  code : Nat
  codeCount : Nat
  globals : List Nat

def bytecodeVersion : Nat := 41

structure Program where
  version : Nat
  symbols : List String
  code : List CodeObject
  modules : List ModuleInfo

def maxU16 : Nat := 65535

namespace CodeObject

def cellCount (code : CodeObject) : Nat := code.cellLocals.length + code.freeVars.length

end CodeObject

end Tonic
