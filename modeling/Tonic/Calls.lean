import Tonic.Arguments
import Tonic.Classes

/-!
## Calls

A call follows its callee through bound methods, static methods, generic aliases and instances that
can be called, until it reaches an object that takes the arguments. What that object does with them
depends on the list of the arguments only; the call is followed up to there.
-/

namespace Tonic

/-- The builtin types a class may keep the value of, and the exceptions. -/
inductive RuntimeTypeKind where
  | int | bool | float | str | bytes | list | tuple | dict | range | exception
deriving DecidableEq, Repr

def Builtin.nativeNewKind : Builtin → Option RuntimeTypeKind
  | .intNew => some .int
  | .boolNew => some .bool
  | .floatNew => some .float
  | .strNew => some .str
  | .bytesNew => some .bytes
  | .listNew => some .list
  | .tupleNew => some .tuple
  | .dictNew => some .dict
  | .rangeNew => some .range
  | _ => none

/-! ### Builtin types -/

namespace RuntimeTypes

variable (types : RuntimeTypes Value)

def forKind : RuntimeTypeKind → Except Fault Value
  | .int => .ok types.int
  | .bool => .ok types.bool
  | .float => .ok types.float
  | .str => .ok types.str
  | .bytes => .ok types.bytes
  | .list => .ok types.list
  | .tuple => .ok types.tuple
  | .dict => .ok types.dict
  | .range => .ok types.range
  | .exception => .error (.panicked "kind has no native subclass storage")

def builtinKinds : List (Value × RuntimeTypeKind) :=
  [(types.int, .int), (types.bool, .bool), (types.float, .float), (types.str, .str),
    (types.bytes, .bytes), (types.list, .list), (types.tuple, .tuple), (types.dict, .dict),
    (types.range, .range)] ++
  ([types.baseException, types.exception, types.typeError, types.valueError, types.runtimeError,
    types.stopIteration, types.stopAsyncIteration] ++ types.otherExceptions.map (·.2)).map
      (·, .exception)

def builtinTypeKind (cls : Value) : Option RuntimeTypeKind :=
  (types.builtinKinds.find? (·.1 = cls)).map (·.2)

def storageKinds : List (Value × RuntimeTypeKind) :=
  [(types.int, .int), (types.float, .float), (types.str, .str), (types.bytes, .bytes),
    (types.list, .list), (types.tuple, .tuple), (types.dict, .dict)]

end RuntimeTypes

/-! ### The interpreter of a call -/

structure Interpreter where
  heap : Heap
  vm : Vm Value
  program : Program
  /-- Functions of an earlier execution of the module cannot be called. -/
  execution : Nat

/-- The object a call ends in, with the arguments it is given. -/
structure Invocation where
  target : Value
  arguments : ArgumentList

namespace Interpreter

variable (s : Interpreter)

abbrev types : RuntimeTypes Value := s.vm.runtimeTypes

def list (args : Arguments) : ArgumentList := args.list s.program.symbols s.vm.registers

def prepend (front : List Value) (args : Arguments) : Arguments :=
  args.prepend s.program.symbols s.vm.registers front

def subclassOf (cls base : Value) : Except Fault Bool :=
  instanceCheck s.vm.objectClass s.types s.heap cls true 101 base

def builtinSubclassKind (cls : Value) : Option RuntimeTypeKind :=
  match s.heap.classOf cls with
  | .ok c => (s.types.storageKinds.find? (·.1 ∈ c.mro)).map (·.2)
  | .error _ => none

/-! ### Redirections -/

def notCallable : Fault := typeError "object is not callable"

/-- The call that stands for a call of `callee`; none for an object that takes arguments itself. -/
def redirect (callee : Value) : Except Fault (Option DescriptorCall) := do
  match ← s.heap.get callee with
  | .genericAlias _ origin _ =>
    match s.heap.tryGet origin with
    | some (.classObject _) => return some ⟨origin, none⟩
    | _ => throw notCallable
  | .staticMethod function => return some ⟨function, none⟩
  | .boundMethod function receiver => return some ⟨function, some receiver⟩
  | object =>
    if object.instanceClass.isSome then
      match ← s.heap.specialMethodCall callee "__call__" with
      | some call => return some call
      | none => throw notCallable
    else return none

def chainTooDeep : Fault := .raise "RecursionError" "callable protocol chain is too deep"

def bindCall (args : Arguments) : Option Value → Except Fault Arguments
  | some receiver => args.bind receiver
  | none => .ok args

/-- Follows the redirections of a callee; `room` more are allowed. -/
def follow : Nat → Value → Arguments → Except Fault (Value × Arguments)
  | room, callee, args =>
    match s.redirect callee with
    | .error e => .error e
    | .ok none => .ok (callee, args)
    | .ok (some call) =>
      match room with
      | 0 => .error chainTooDeep
      | room + 1 =>
        match bindCall args call.receiver with
        | .error e => .error e
        | .ok args => follow room call.callable args

/-! ### The objects that take arguments -/

def validateNativeNewClass (cls : Value) (kind : RuntimeTypeKind) : Except Fault Bool := do
  let _ ← s.heap.classOf cls
  let exact ← s.types.forKind kind
  if cls = exact then return true
  else if (s.types.builtinTypeKind cls).isSome ∨ s.builtinSubclassKind cls ≠ some kind then
    throw (typeError "builtin __new__ received an incompatible class")
  else return false

/-- The arguments are taken over into a list of their own, which must not have a receiver. -/
def invokeNativeNew (target : Value) (kind : RuntimeTypeKind) (args : Arguments) :
    Except Fault Invocation := do
  if args.count = 0 then throw (typeError "builtin __new__ expects a class argument")
  else
    let _ ← s.validateNativeNewClass (args.positional s.vm.registers 0) kind
    let arguments := args.owned s.program.symbols s.vm.registers
    if arguments.receiver.isSome ∨ arguments.positional = [] then
      throw (typeError "invalid builtin __new__ call")
    else return ⟨target, s.list (.expanded arguments)⟩

def invokeClass (cls : Value) (args : Arguments) : Except Fault Invocation := do
  if cls = s.vm.typeClass ∨ (s.types.builtinTypeKind cls).isSome then
    return ⟨cls, s.list args⟩
  else if ← s.subclassOf cls s.types.baseException then
    let arguments := args.owned s.program.symbols s.vm.registers
    if arguments.receiver.isSome then throw (bytecodeError "bound exception class call")
    else return ⟨cls, s.list (.expanded arguments)⟩
  else if ← s.subclassOf cls s.vm.typeClass then
    throw (.raise "UnsupportedFeature"
      "direct custom metaclass calls require metaclass __new__/__init__ support")
  else
    let arguments := args.owned s.program.symbols s.vm.registers
    if arguments.receiver.isSome then throw (bytecodeError "bound class call")
    else return ⟨cls, s.list (.expanded arguments)⟩

def invokeFunction (target : Value) (f : Function) (args : Arguments) :
    Except Fault Invocation := do
  if f.execution ≠ s.execution then
    throw (runtimeError "callable belongs to a previous module execution")
  else if (s.program.code[f.code]?).any (·.classBody) then
    throw (bytecodeError "class body cannot be called directly")
  else return ⟨target, s.list args⟩

def invokeObject (target : Value) (args : Arguments) : Except Fault Invocation := do
  match ← s.heap.get target with
  | .propertyDeleter _ | .propertySetter _ | .native _ => return ⟨target, s.list args⟩
  | .classObject _ => s.invokeClass target args
  | .function f => s.invokeFunction target f args
  | .builtin b =>
    match b.nativeNewKind with
    | some kind => s.invokeNativeNew target kind args
    | none => return ⟨target, s.list args⟩
  | _ => throw notCallable

def invokeTarget (callee : Value) (args : Arguments) : Except Fault Invocation :=
  if args.invalidKeywords ≠ [] then throw (typeError "keywords must be strings")
  else
    match s.follow 100 callee args with
    | .error e => .error e
    | .ok (target, args) => s.invokeObject target args

end Interpreter

end Tonic
