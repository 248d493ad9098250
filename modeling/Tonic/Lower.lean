import Tonic.Ast
import Tonic.Value

/-!
## Lowering

Syntax trees become instructions in one pass. A jump forward is emitted without its target and
patched when the target is known.
-/

namespace Tonic

/-- `op as u16`. -/
def Op.toNat : Op → Nat
  | .const => 1 | .move => 2 | .loadGlobal => 3 | .storeGlobal => 4 | .loadCell => 5
  | .storeCell => 6 | .add => 10 | .sub => 11 | .mul => 12 | .floorDiv => 13 | .mod => 14
  | .div => 15 | .neg => 16 | .pos => 17 | .not => 18 | .inplaceAdd => 19 | .eq => 20 | .ne => 21
  | .lt => 22 | .le => 23 | .gt => 24 | .ge => 25 | .jump => 30 | .jumpFalse => 31
  | .jumpTrue => 32 | .call => 40 | .ret => 41 | .function => 42 | .beginArgs => 43 | .argPos => 44
  | .argStar => 45 | .argNamed => 46 | .argMapping => 47 | .callExpanded => 48 | .tuple => 50
  | .list => 51 | .item => 52 | .unpack => 53 | .iter => 54 | .next => 55 | .dict => 56
  | .setItem => 57 | .dictMerge => 58 | .importFrom => 59 | .importName => 60 | .attr => 61
  | .setAttr => 62 | .cls => 63 | .loadName => 64 | .storeName => 65 | .classDeref => 66
  | .slice => 67 | .delAttr => 68 | .delItem => 69 | .raise => 70 | .exceptionMatch => 71
  | .clearException => 72 | .clearBinding => 73 | .pushException => 74 | .contextEnter => 75
  | .contextExit => 76 | .yield => 77 | .yieldFrom => 78 | .getAwaitable => 79 | .pow => 80
  | .bitOr => 81 | .bitXor => 82 | .bitAnd => 83 | .leftShift => 84 | .rightShift => 85
  | .invert => 86 | .inplaceSub => 87 | .inplaceMul => 88 | .inplaceDiv => 89
  | .inplaceFloorDiv => 90 | .inplaceMod => 91 | .inplacePow => 92 | .inplaceBitOr => 93
  | .inplaceBitXor => 94 | .inplaceBitAnd => 95 | .inplaceLeftShift => 96
  | .inplaceRightShift => 97 | .getAIter => 98 | .getANext => 99 | .endAsyncFor => 100
  | .asyncContextEnter => 101 | .asyncContextExit => 102 | .asyncYield => 103 | .is => 104
  | .isNot => 105 | .contains => 106 | .notContains => 107 | .listAppend => 108 | .set => 109
  | .setAdd => 110 | .matchSequence => 111 | .matchMapping => 112 | .matchKey => 113
  | .matchClass => 114 | .matchAttr => 115 | .matchArgs => 116 | .matchClassItem => 117
  | .matchUnique => 118 | .convert => 119 | .formatValue => 120 | .typeParam => 121
  | .typeAlias => 122 | .matMul => 123 | .inplaceMatMul => 124 | .typeParamDefault => 125

@[simp] theorem Op.ofNat?_toNat (op : Op) : Op.ofNat? op.toNat = some op := by
  cases op <;> rfl

namespace BinaryOp

def op : BinaryOp → Op
  | add => .add | subtract => .sub | multiply => .mul | matrixMultiply => .matMul | power => .pow
  | bitOr => .bitOr | bitXor => .bitXor | bitAnd => .bitAnd | leftShift => .leftShift
  | rightShift => .rightShift | floorDivide => .floorDiv | modulo => .mod | divide => .div

def inplaceOp : BinaryOp → Op
  | add => .inplaceAdd | subtract => .inplaceSub | multiply => .inplaceMul
  | matrixMultiply => .inplaceMatMul | power => .inplacePow | bitOr => .inplaceBitOr
  | bitXor => .inplaceBitXor | bitAnd => .inplaceBitAnd | leftShift => .inplaceLeftShift
  | rightShift => .inplaceRightShift | floorDivide => .inplaceFloorDiv | modulo => .inplaceMod
  | divide => .inplaceDiv

end BinaryOp

def UnaryOp.op : UnaryOp → Op
  | negative => .neg | positive => .pos | invert => .invert | not => .not

def CompareOp.op : CompareOp → Op
  | equal => .eq | notEqual => .ne | less => .lt | lessEqual => .le | greater => .gt
  | greaterEqual => .ge | is => .is | isNot => .isNot | mem => .contains | notMem => .notContains

/-! ### Names -/

structure Scope where
  classBody : Bool
  generator : Bool
  coroutine : Bool
  activeTypeParams : List Nat
  globals : List Nat
  nonlocals : List Nat
  locals : List Nat
  cells : List Nat
  free : List Nat

/-- Where a name is bound. -/
inductive Place where
  | register (slot : Nat)
  | cell (index : Nat)
  | global (symbol : Nat)
  | name (symbol : Nat)
  | deref (symbol cell : Nat)
deriving DecidableEq

namespace Scope

variable (scope : Scope) (n : Nat)

def localSlot : Option Nat := scope.locals.idxOf? n

def cell : Option Nat := (scope.cells ++ scope.free).idxOf? n

/-- Where `load` finds a name. -/
def loadPlace : Except Fault Place :=
  if n ∈ scope.activeTypeParams then
    match scope.cell n, scope.localSlot n with
    | some cell, _ => .ok (.cell cell)
    | none, some slot => .ok (.register slot)
    | none, none => .error (.panicked "active type parameter")
  else if n ∈ scope.globals then .ok (.global n)
  else if scope.classBody ∧ n ∉ scope.nonlocals then
    match scope.localSlot n, scope.cell n with
    | none, some cell => .ok (.deref n cell)
    | _, _ => .ok (.name n)
  else
    match scope.cell n, scope.localSlot n with
    | some cell, _ => .ok (.cell cell)
    | none, some slot => .ok (.register slot)
    | none, none => .ok (.global n)

/-- Where `store` and `clear` find it. -/
def storePlace : Place :=
  if n ∈ scope.globals then .global n
  else if scope.classBody ∧ n ∉ scope.nonlocals then .name n
  else
    match scope.cell n, scope.localSlot n with
    | some cell, _ => .cell cell
    | none, some slot => .register slot
    | none, none => .global n

end Scope

/-! ### The state -/

structure Loop where
  start : Nat
  breaks : List Nat
  cleanupDepth : Nat

structure FinallyBypass where
  start : Nat
  stop : Nat
  exception : Nat

/-- What the lowering of one code object has come to; the innermost loop is the first. -/
structure Lower where
  next : Nat
  high : Nat
  instructions : List Instr
  constants : List Constant
  calls : List CallSite
  exceptionRegions : List ExceptionRegion
  loops : List Loop
  finallyBypasses : List (List FinallyBypass)
  withBypasses : List (List FinallyBypass)

abbrev LowerM := StateT Lower (Except Fault)

namespace Lower

def limit : Fault :=
  .raise "ResourceError" "bootstrap bytecode limit exceeded (16-bit indices)"

def index (n : Nat) : LowerM Nat := if n ≤ maxU16 then pure n else throw limit

def alloc (count : Nat) : LowerM Nat := do
  let s ← get
  if s.next + count ≤ maxU16 then
    set { s with next := s.next + count, high := max s.high (s.next + count) }
    return s.next
  else throw limit

def pc : LowerM Nat := do
  let s ← get
  index s.instructions.length

def emit (op : Op) (a b c : Nat) : LowerM Nat := do
  let s ← get
  if s.instructions.length < maxU16 then
    set { s with instructions := s.instructions ++ [Instr.mk op.toNat a b c] }
    return s.instructions.length
  else throw limit

end Lower

def Instr.patched (i : Instr) (target : Nat) : Option Instr :=
  (Op.ofNat? i.opcode).map fun op =>
    match op with
    | .jump => { i with a := target }
    | .next | .yieldFrom => { i with c := target }
    | _ => { i with b := target }

namespace Lower

def patch (pc target : Nat) : LowerM Unit := do
  let s ← get
  match s.instructions[pc]? with
  | none => throw (.panicked "index out of bounds")
  | some i =>
    match i.patched target with
    | none => throw (.panicked "compiler opcode")
    | some i => set { s with instructions := s.instructions.set pc i }

def patchAll (pcs : List Nat) (target : Nat) : LowerM Unit := pcs.forM (patch · target)

def constant (c : Constant) : LowerM Nat := do
  let r ← alloc 1
  let s ← get
  let id ← index s.constants.length
  set { s with constants := s.constants ++ [c] }
  let _ ← emit .const r id 0
  return r

/-- The suspensions of a delegation: `YieldFrom` asks the iterator until it is exhausted. -/
def delegate (iterator : Nat) : LowerM Nat := do
  let result ← constant .none
  let start ← pc
  let exhausted ← emit .yieldFrom result iterator 0
  let _ ← emit .yield result result 0
  let _ ← emit .jump start 0 0
  let stop ← pc
  patch exhausted stop
  return result

def awaitValue (source : Nat) : LowerM Nat := do
  let awaitable ← alloc 1
  let _ ← emit .getAwaitable awaitable source 0
  delegate awaitable

section Names

variable (scope : Scope) (n : Nat)

def load : LowerM Nat := do
  let r ← alloc 1
  let place ← scope.loadPlace n
  let _ ← match place with
    | .register slot => emit .move r slot 0
    | .cell cell => emit .loadCell r cell 0
    | .global symbol => emit .loadGlobal r symbol 0
    | .name symbol => emit .loadName r symbol 0
    | .deref symbol cell => emit .classDeref r symbol cell
  return r

def store (r : Nat) : LowerM Unit := do
  let _ ← match scope.storePlace n with
    | .register slot => emit .move slot r 0
    | .cell cell => emit .storeCell r cell 0
    | .global symbol => emit .storeGlobal r symbol 0
    | .name symbol | .deref symbol _ => emit .storeName r symbol 0

def clear : LowerM Unit := do
  let _ ← match scope.storePlace n with
    | .register slot => emit .clearBinding 0 slot 0
    | .global symbol => emit .clearBinding 1 symbol 0
    | .cell cell => emit .clearBinding 2 cell 0
    | .name symbol | .deref symbol _ => emit .clearBinding 3 symbol 0

end Names

/-! ### Expressions -/

def convert (conversion : FormatConversion) (value : Nat) : LowerM Nat :=
  match conversion with
  | .none => return value
  | .str => converted 1
  | .repr => converted 2
  | .ascii => converted 3
where
  converted (kind : Nat) : LowerM Nat := do
    let r ← alloc 1
    let _ ← emit .convert r value kind
    return r

/-- Values that stand in registers are added to the arguments under their names. -/
def nameArguments (named : List (Nat × Nat)) : LowerM Unit :=
  named.forM fun (name, r) => do
    let _ ← emit .argNamed r name 0

def setItems (r : Nat) (pairs : List (Nat × Nat)) : LowerM Unit :=
  pairs.forM fun (key, value) => do
    let _ ← emit .setItem r key value

variable (scope : Scope)

mutual

def expr : Expr → LowerM Nat
  | .constant c => constant c
  | .name n => load scope n
  | .yield value => do
    let value ← optional .none value
    let result ← alloc 1
    let _ ← emit (if scope.generator && scope.coroutine then .asyncYield else .yield) result value 0
    return result
  | .yieldFrom value => do
    let source ← expr value
    let iterator ← alloc 1
    let _ ← emit .iter iterator source 0
    delegate iterator
  | .await value => do
    let source ← expr value
    awaitValue source
  | .joinedString [] => constant (.str "")
  | .joinedString (first :: rest) => do
    let result ← expr first
    joins result rest
  | .formattedValue value conversion formatSpec => do
    let value ← expr value
    let value ← convert conversion value
    let spec ← optional (.str "") formatSpec
    let result ← alloc 1
    let _ ← emit .formatValue result value spec
    return result
  | .binary a op b => do
    let a ← expr a
    let b ← expr b
    let r ← alloc 1
    let _ ← emit op.op r a b
    return r
  | .unary op e => do
    let v ← expr e
    let r ← alloc 1
    let _ ← emit op.op r v 0
    return r
  | .bool conjunction values => do
    let r ← alloc 1
    let ends ← boolValues (if conjunction then .jumpFalse else .jumpTrue) r values
    let stop ← pc
    patchAll ends stop
    return r
  | .compare left pairs => do
    let left ← expr left
    let r ← alloc 1
    let ends ← comparisons r left pairs
    let stop ← pc
    patchAll ends stop
    return r
  | .call callee positional keywords => do
    let callee ← expr callee
    if positional.any (·.1) || keywords.any (·.1.isNone) then
      let _ ← emit .beginArgs 0 0 0
      arguments (positional.length == 1) positional
      keywordArguments [] keywords
      let r ← alloc 1
      let _ ← emit .callExpanded r callee 0
      return r
    else
      let total ← index (positional.length + keywords.length)
      let first ← alloc total
      positionalWindow first positional
      keywordWindow (first + positional.length) keywords
      let s : Lower ← get
      let site ← index s.calls.length
      set { s with
        calls := s.calls ++ [CallSite.mk first positional.length (keywords.filterMap Prod.fst)] }
      let r ← alloc 1
      let _ ← emit .call r callee site
      return r
  | .dict items => do
    let r ← alloc 1
    let _ ← emit .dict r 0 0
    dictItems r [] items
    return r
  | .set values => do
    let result ← alloc 1
    let _ ← emit .set result 0 0
    setValues result values
    return result
  | .tuple values => do
    let count ← index values.length
    let first ← alloc count
    window first values
    let r ← alloc 1
    let _ ← emit .tuple r first count
    return r
  | .list values => do
    let count ← index values.length
    let first ← alloc count
    window first values
    let r ← alloc 1
    let _ ← emit .list r first count
    return r
  | .attr value name => do
    let value ← expr value
    let r ← alloc 1
    let _ ← emit .attr r value name
    return r
  | .subscript value item => do
    let value ← expr value
    let item ← expr item
    let r ← alloc 1
    let _ ← emit .item r value item
    return r
  | .slice start stop step => do
    let first ← alloc 3
    let value ← optional .none start
    let _ ← emit .move first value 0
    let value ← optional .none stop
    let _ ← emit .move (first + 1) value 0
    let value ← optional .none step
    let _ ← emit .move (first + 2) value 0
    let result ← alloc 1
    let _ ← emit .slice result first 0
    return result
  | .conditional test yes no => do
    let test ← expr test
    let r ← alloc 1
    let branch ← emit .jumpFalse test 0 0
    let yes ← expr yes
    let _ ← emit .move r yes 0
    let stop ← emit .jump 0 0 0
    patch branch (← pc)
    let no ← expr no
    let _ ← emit .move r no 0
    patch stop (← pc)
    return r

/-- An expression that may be left out. -/
def optional (default : Constant) : Option Expr → LowerM Nat
  | none => constant default
  | some e => expr e

/-- Values are moved into a window of registers. -/
def window (base : Nat) : List Expr → LowerM Unit
  | [] => return
  | e :: rest => do
    let r ← expr e
    let _ ← emit .move base r 0
    window (base + 1) rest

def positionalWindow (base : Nat) : List (Bool × Expr) → LowerM Unit
  | [] => return
  | (_, e) :: rest => do
    let r ← expr e
    let _ ← emit .move base r 0
    positionalWindow (base + 1) rest

def keywordWindow (base : Nat) : List (Option Nat × Expr) → LowerM Unit
  | [] => return
  | (_, e) :: rest => do
    let r ← expr e
    let _ ← emit .move base r 0
    keywordWindow (base + 1) rest

def arguments (alone : Bool) : List (Bool × Expr) → LowerM Unit
  | [] => return
  | (star, e) :: rest => do
    let r ← expr e
    let _ ← emit (if star then .argStar else .argPos) r 0 (star && alone).toNat
    arguments alone rest

/-- The named arguments up to a mapping are evaluated before they are added. -/
def keywordArguments (named : List (Nat × Nat)) : List (Option Nat × Expr) → LowerM Unit
  | [] => nameArguments named
  | (some name, e) :: rest => do
    let r ← expr e
    keywordArguments (named ++ [(name, r)]) rest
  | (none, e) :: rest => do
    nameArguments named
    let r ← expr e
    let _ ← emit .argMapping r 0 0
    keywordArguments [] rest

/-- The items up to one that is merged are evaluated before they are set. -/
def dictItems (r : Nat) (pairs : List (Nat × Nat)) : List (Option Expr × Expr) → LowerM Unit
  | [] => setItems r pairs
  | (some key, value) :: rest => do
    let key ← expr key
    let value ← expr value
    dictItems r (pairs ++ [(key, value)]) rest
  | (none, value) :: rest => do
    setItems r pairs
    let value ← expr value
    let _ ← emit .dictMerge r value 0
    dictItems r [] rest

def setValues (result : Nat) : List Expr → LowerM Unit
  | [] => return
  | e :: rest => do
    let value ← expr e
    let _ ← emit .setAdd result value 0
    setValues result rest

/-- The jumps to the end, in the order they are emitted. -/
def boolValues (op : Op) (r : Nat) : List Expr → LowerM (List Nat)
  | [] => return []
  | e :: rest => do
    let v ← expr e
    let _ ← emit .move r v 0
    match rest with
    | [] => return []
    | _ :: _ =>
      let jump ← emit op r 0 0
      let ends ← boolValues op r rest
      return jump :: ends

def comparisons (r left : Nat) : List (CompareOp × Expr) → LowerM (List Nat)
  | [] => return []
  | (op, e) :: rest => do
    let right ← expr e
    let _ ← emit op.op r left right
    match rest with
    | [] => return []
    | _ :: _ =>
      let jump ← emit .jumpFalse r 0 0
      let ends ← comparisons r right rest
      return jump :: ends

def joins (result : Nat) : List Expr → LowerM Nat
  | [] => return result
  | e :: rest => do
    let value ← expr e
    let joined ← alloc 1
    let _ ← emit .add joined result value
    joins joined rest

end

end Lower

end Tonic
