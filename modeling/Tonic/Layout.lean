import Tonic.Execution
import Tonic.Library.Choice

/-!
## Where the code of an expression lies

The code of an expression, as it stands in the finished code object: the lowering again, as a program
that reads instructions instead of writing them and guesses where its jumps go.
-/

namespace Tonic

open Choice

/-- How far the lowering has come, in instructions and in registers. -/
structure Point where
  pc : Nat
  next : Nat

namespace Layout

variable (code : CodeObject) (scope : Scope)

def alloc (count : Nat) : Choice Point Nat :=
  fun s r t => r = s.next ∧ t = { s with next := s.next + count }

/-- The instruction at a program counter. -/
def At (pc : Nat) (op : Op) (a b c : Nat) : Prop :=
  code.instructions[pc]? = some ⟨op.toNat, a, b, c⟩

def emit (op : Op) (a b c : Nat) : Choice Point Unit :=
  fun s _ t => At code s.pc op a b c ∧ t = { s with pc := s.pc + 1 }

def here : Choice Point Nat := fun s pc t => pc = s.pc ∧ t = s

/-- A guessed target is where the program stands. -/
def reach (target : Nat) : Choice Point Unit := check fun s => s.pc = target

def constant (c : Constant) : Choice Point Nat := do
  let r ← alloc 1
  let id ← guess
  check fun _ => code.constants[id]? = some c
  emit code .const r id 0
  return r

def delegate (iterator : Nat) : Choice Point Nat := do
  let result ← constant code .none
  let start ← here
  let stop ← guess
  emit code .yieldFrom result iterator stop
  emit code .yield result result 0
  emit code .jump start 0 0
  reach stop
  return result

def place (p : Place) (r : Nat) : Choice Point Unit :=
  match p with
  | .register slot => emit code .move r slot 0
  | .cell cell => emit code .loadCell r cell 0
  | .global symbol => emit code .loadGlobal r symbol 0
  | .name symbol => emit code .loadName r symbol 0
  | .deref symbol cell => emit code .classDeref r symbol cell

def load (n : Nat) : Choice Point Nat := do
  let r ← alloc 1
  let p ← guess
  check fun _ => scope.loadPlace n = .ok p
  place code p r
  return r

/-- An instruction whose result goes into a register of its own. -/
def compute (op : Op) (b c : Nat) : Choice Point Nat := do
  let r ← alloc 1
  emit code op r b c
  return r

def convert (conversion : FormatConversion) (value : Nat) : Choice Point Nat :=
  match conversion with
  | .none => return value
  | .str => compute code .convert value 1
  | .repr => compute code .convert value 2
  | .ascii => compute code .convert value 3

def nameArguments : List (Nat × Nat) → Choice Point Unit
  | [] => return
  | (name, r) :: rest => do
    emit code .argNamed r name 0
    nameArguments rest

def setItems (d : Nat) : List (Nat × Nat) → Choice Point Unit
  | [] => return
  | (key, value) :: rest => do
    emit code .setItem d key value
    setItems d rest

mutual

def expr : Expr → Choice Point Nat
  | .constant c => constant code c
  | .name n => load code scope n
  | .yield value => do
    let value ← optional .none value
    compute code (if scope.generator && scope.coroutine then .asyncYield else .yield) value 0
  | .yieldFrom value => do
    let source ← expr value
    let iterator ← compute code .iter source 0
    delegate code iterator
  | .await value => do
    let source ← expr value
    let awaitable ← compute code .getAwaitable source 0
    delegate code awaitable
  | .joinedString [] => constant code (.str "")
  | .joinedString (first :: rest) => do
    let result ← expr first
    joins result rest
  | .formattedValue value conversion formatSpec => do
    let value ← expr value
    let value ← convert code conversion value
    let spec ← optional (.str "") formatSpec
    compute code .formatValue value spec
  | .binary a op b => do
    let a ← expr a
    let b ← expr b
    compute code op.op a b
  | .unary op e => do
    let v ← expr e
    compute code op.op v 0
  | .bool conjunction values => do
    let r ← alloc 1
    let stop ← guess
    boolValues (if conjunction then .jumpFalse else .jumpTrue) r stop values
    reach stop
    return r
  | .compare left pairs => do
    let left ← expr left
    let r ← alloc 1
    let stop ← guess
    comparisons r left stop pairs
    reach stop
    return r
  | .call callee positional keywords => do
    let callee ← expr callee
    if positional.any (·.1) || keywords.any (·.1.isNone) then
      emit code .beginArgs 0 0 0
      arguments (positional.length == 1) positional
      keywordArguments [] keywords
      compute code .callExpanded callee 0
    else
      let first ← alloc (positional.length + keywords.length)
      positionalWindow first positional
      keywordWindow (first + positional.length) keywords
      let site ← guess
      check fun _ =>
        code.calls[site]? = some ⟨first, positional.length, keywords.filterMap Prod.fst⟩
      compute code .call callee site
  | .dict items => do
    let r ← compute code .dict 0 0
    dictItems r [] items
    return r
  | .set values => do
    let result ← compute code .set 0 0
    setValues result values
    return result
  | .tuple values => do
    let first ← alloc values.length
    window first values
    compute code .tuple first values.length
  | .list values => do
    let first ← alloc values.length
    window first values
    compute code .list first values.length
  | .attr value name => do
    let value ← expr value
    compute code .attr value name
  | .subscript value item => do
    let value ← expr value
    let item ← expr item
    compute code .item value item
  | .slice start stop step => do
    let first ← alloc 3
    let value ← optional .none start
    emit code .move first value 0
    let value ← optional .none stop
    emit code .move (first + 1) value 0
    let value ← optional .none step
    emit code .move (first + 2) value 0
    compute code .slice first 0
  | .conditional test yes no => do
    let test ← expr test
    let r ← alloc 1
    let otherwise ← guess
    emit code .jumpFalse test otherwise 0
    let yes ← expr yes
    emit code .move r yes 0
    let stop ← guess
    emit code .jump stop 0 0
    reach otherwise
    let no ← expr no
    emit code .move r no 0
    reach stop
    return r

def optional (default : Constant) : Option Expr → Choice Point Nat
  | none => constant code default
  | some e => expr e

def window (base : Nat) : List Expr → Choice Point Unit
  | [] => return
  | e :: rest => do
    let r ← expr e
    emit code .move base r 0
    window (base + 1) rest

def positionalWindow (base : Nat) : List (Bool × Expr) → Choice Point Unit
  | [] => return
  | (_, e) :: rest => do
    let r ← expr e
    emit code .move base r 0
    positionalWindow (base + 1) rest

def keywordWindow (base : Nat) : List (Option Nat × Expr) → Choice Point Unit
  | [] => return
  | (_, e) :: rest => do
    let r ← expr e
    emit code .move base r 0
    keywordWindow (base + 1) rest

def arguments (alone : Bool) : List (Bool × Expr) → Choice Point Unit
  | [] => return
  | (star, e) :: rest => do
    let r ← expr e
    emit code (if star then .argStar else .argPos) r 0 (star && alone).toNat
    arguments alone rest

def keywordArguments (named : List (Nat × Nat)) : List (Option Nat × Expr) → Choice Point Unit
  | [] => nameArguments code named
  | (some name, e) :: rest => do
    let r ← expr e
    keywordArguments (named ++ [(name, r)]) rest
  | (none, e) :: rest => do
    nameArguments code named
    let r ← expr e
    emit code .argMapping r 0 0
    keywordArguments [] rest

def dictItems (r : Nat) (pairs : List (Nat × Nat)) : List (Option Expr × Expr) → Choice Point Unit
  | [] => setItems code r pairs
  | (some key, value) :: rest => do
    let key ← expr key
    let value ← expr value
    dictItems r (pairs ++ [(key, value)]) rest
  | (none, value) :: rest => do
    setItems code r pairs
    let value ← expr value
    emit code .dictMerge r value 0
    dictItems r [] rest

def setValues (result : Nat) : List Expr → Choice Point Unit
  | [] => return
  | e :: rest => do
    let value ← expr e
    emit code .setAdd result value 0
    setValues result rest

def boolValues (op : Op) (r stop : Nat) : List Expr → Choice Point Unit
  | [] => return
  | e :: rest => do
    let v ← expr e
    emit code .move r v 0
    match rest with
    | [] => return
    | _ :: _ =>
      emit code op r stop 0
      boolValues op r stop rest

def comparisons (r left stop : Nat) : List (CompareOp × Expr) → Choice Point Unit
  | [] => return
  | (op, e) :: rest => do
    let right ← expr e
    emit code op.op r left right
    match rest with
    | [] => return
    | _ :: _ =>
      emit code .jumpFalse r stop 0
      comparisons r right stop rest

def joins (result : Nat) : List Expr → Choice Point Nat
  | [] => return result
  | e :: rest => do
    let value ← expr e
    let joined ← compute code .add result value
    joins joined rest

end

end Layout

end Tonic
