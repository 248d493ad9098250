import Mathlib.Data.List.AList
import Tonic.Float
import Tonic.Value

/-!
## Managed objects

The payloads of the heap, field by field, and the edges the collector follows out of them.
Allocation statistics (capacities, estimated bytes) are left out: nothing here reads them.
-/

namespace Tonic

/-- A `HashMap<String, Value>`. -/
abbrev StringMap := AList fun _ : String => Value

namespace StringMap

def values (m : StringMap) : List Value := m.entries.map (·.2)

end StringMap

structure TracebackEntry where
  function : String
  span : Span
deriving DecidableEq, Repr

inductive GeneratorState where
  | created | suspended | running | completed
deriving DecidableEq, Repr

inductive GeneratorKind where
  | generator | coroutine | asyncGenerator
deriving DecidableEq, Repr

inductive AsyncGeneratorOperation where
  | send (value : Value)
  | throw (exception : Value) (traceback : Option Value)
  | close
deriving DecidableEq, Repr

def AsyncGeneratorOperation.trace : AsyncGeneratorOperation → List Value
  | send value => [value]
  | throw exception traceback => exception :: traceback.toList
  | close => []

inductive AsyncGeneratorAwaitState where
  | created | running | completed
deriving DecidableEq, Repr

inductive AsyncState where
  | pending
  | finished (value : Value)
  | failed (value : Value)
  | cancelled (value : Value)
deriving DecidableEq, Repr

def AsyncState.trace : AsyncState → List Value
  | pending => []
  | finished value | failed value | cancelled value => [value]

structure AsyncFuture where
  cls : Value
  state : AsyncState
  waiters : List Value
  callbacks : List Value
  dueTick : Option Nat
  timerResult : Value
deriving DecidableEq, Repr

structure AsyncTask where
  cls : Value
  coroutine : Value
  state : AsyncState
  waiters : List Value
  callbacks : List Value
  waitingOn : Option Value
  cancelRequested : Bool
deriving DecidableEq, Repr

structure GeneratorFrame where
  cls : Value
  kind : GeneratorKind
  execution : Nat
  code : Nat
  ip : Nat
  registers : List Value
  cells : List Value
  exceptionStack : List Value
  resumeRegister : Option Nat
  yieldFrom : Option Value
  asyncDriver : Option Value
  returnValue : Value
  state : GeneratorState
deriving DecidableEq, Repr

inductive Builtin where
  | print | len | iter | next | callIteratorIter | callIteratorNext | sequenceIteratorIter
  | sequenceIteratorNext | generatorIter | generatorNext | generatorSend | generatorThrow
  | generatorClose | coroutineAwait | asyncGeneratorIter | asyncGeneratorNext
  | asyncGeneratorSend | asyncGeneratorThrow | asyncGeneratorClose | asyncGeneratorAwait
  | asyncGeneratorAwaitNext | asyncGeneratorAwaitSend | asyncGeneratorAwaitThrow
  | asyncGeneratorAwaitClose | asyncioRun | asyncioCreateTask | asyncioCurrentTask
  | asyncioGetRunningLoop | asyncioSleep | asyncioFutureNew | asyncioFutureAwait
  | asyncioFutureNext | asyncioFutureSend | asyncioFutureDone | asyncioFutureCancelled
  | asyncioFutureCancel | asyncioFutureResult | asyncioFutureException | asyncioFutureSetResult
  | asyncioFutureSetException | asyncioFutureAddDoneCallback | asyncioTaskDone
  | asyncioTaskCancelled | asyncioTaskCancel | asyncioTaskResult | asyncioTaskException
  | asyncioTaskAddDoneCallback | hash | abs | divMod | pow | round | repr | ascii | format | sum
  | any | all | min | max | intRound | floatRound | isInstance | isSubclass | getAttr | setAttr
  | delAttr | hasAttr | staticMethod | classMethod | property | super | sysUnraisableHook
  | objectNew | objectInit | objectHash | intHash | floatHash | strHash | bytesHash | tupleHash
  | rangeHash | intNew | boolNew | floatNew | strNew | bytesNew | listNew | listInit | tupleNew
  | dictNew | dictInit | rangeNew | objectGetAttribute | objectSetAttr | objectDelAttr | typeNew
  | typeGetAttribute | typeSetAttr | typeDelAttr | typeOr | typeRor
deriving DecidableEq, Repr

inductive TypeParameterKind where
  | typeVar | paramSpec | typeVarTuple
deriving DecidableEq, Repr

inductive TypingFormKind where
  | literal | callable
deriving DecidableEq, Repr

inductive ExactTypePlan where
  | noneType | bool | int | float | str | bytes | list | tuple | dict | set
deriving DecidableEq, Repr

inductive LiteralTypePlan where
  | none
  | bool (value : Bool)
  | int (text : String)
  | str (text : String)
  | bytes (value : List UInt8)
  | ellipsis
deriving DecidableEq, Repr

structure BufferTypePlan where
  rank : Option Nat
  /-- `none` accepts both, `some w` only buffers that are (not) writable. -/
  writable : Option Bool
deriving DecidableEq, Repr

inductive TypePlan where
  | none
  | exact (plan : ExactTypePlan)
  | list (item : TypePlan)
  | dict (key value : TypePlan)
  | set (item : TypePlan)
  | fixedTuple (items : List TypePlan)
  | variadicTuple (item : TypePlan)
  | literal (items : List LiteralTypePlan)
  /-- `parameters = none` is the ellipsis form. -/
  | callable (parameters : Option (List TypePlan)) (result : TypePlan)
  | buffer (plan : BufferTypePlan)
  | union (members : List TypePlan)
  | cls (typeId version : Nat)

inductive TypePlanRejection where
  | unsupportedValue | unsupportedGenericOrigin | invalidGenericArity | typeParameter
  | recursiveAlias | recursionLimit | nonStringAnnotationKey | unsupportedBufferDType
  | invalidBufferRank | invalidBufferMutability
deriving DecidableEq, Repr

structure ClassPlanDependency where
  cls : Value
  typeId : Nat
  version : Nat
deriving DecidableEq, Repr

/-- The cached plan of a function's annotations. It guards compiled code by comparing class
identities and versions, and holds no managed edge. -/
structure FunctionTypePlan where
  annotationVersion : Nat
  canonicalHash : Nat
  annotations : List (String × Except TypePlanRejection TypePlan)
  classDependencies : List ClassPlanDependency

/-- Instance attributes: a shared shape with one value a slot, or an own dictionary. -/
inductive Attributes where
  | slots (shape : Nat) (values : List Value)
  | dictionary (values : StringMap)

def Attributes.empty : Attributes := .slots 0 []

def Attributes.trace : Attributes → List Value
  | slots _ values => values
  | dictionary values => values.values

inductive ClassDictionaryKey where
  | string (name : String)
  | other (key : Value)
deriving DecidableEq, Repr

/-- A class, or the namespace of a class body that is still running. -/
structure Class where
  root : Bool
  id : Nat
  version : Nat
  name : String
  metaclass : Value
  namespaceMapping : Option Value
  attributes : List (String × Value)
  extraAttributes : List (Value × Value)
  dictionaryOrder : List ClassDictionaryKey
  bases : List Value
  /-- C3 ancestors, excluding the class itself. -/
  mro : List Value
  /-- Weak descendant handles, used only to invalidate caches. -/
  dependents : List Value

def pairs (entries : List (Value × Value)) : List Value :=
  entries.flatMap fun entry => [entry.1, entry.2]

namespace Class

def trace (c : Class) : List Value :=
  c.metaclass :: (c.namespaceMapping.toList ++ c.attributes.map (·.2) ++
    pairs c.extraAttributes ++ c.bases ++ c.mro)

def dictionaryLen (c : Class) : Nat := c.dictionaryOrder.length

def dictionaryEntry (c : Class) (index : Nat) : Option (ClassDictionaryKey × Value) := do
  let key ← c.dictionaryOrder[index]?
  let value ← match key with
    | .string name => (c.attributes.find? (·.1 = name)).map (·.2)
    | .other k => (c.extraAttributes.find? (·.1 = k)).map (·.2)
  pure (key, value)

end Class

/-- The hashable material of a dictionary key: equal material is an equal key. -/
inductive Key where
  | none
  | notImplemented
  | ellipsis
  | smallInt (n : Int)
  | int (n : Int)
  | float (bits : Nat)
  | nan (identity : Nat)
  | str (text : String)
  | bytes (value : List UInt8)
  | tuple (items : List Key)
  | slice (items : List Key)
  | range (length : Int) (start step : Option Int)
  | identity (raw : Nat)
  | method (function receiver : Key)
  | genericAlias (origin args : Key)
  | literalAlias (origin : Key) (items : List LiteralTypePlan)
  | callableAlias (origin : Key) (parameters : Option (List Key)) (result : Key)
  | union (members : List Key)

/-- An insertion-ordered dictionary or set: entries with their key material and hash, and an
index from hash to entry positions. -/
structure Dict where
  entries : List (Value × Value)
  materials : List Key
  hashes : List Nat
  index : AList fun _ : Nat => List Nat
  version : Nat
  mutationVersion : Nat

def Dict.empty : Dict := ⟨[], [], [], ∅, 0, 0⟩

structure BufferMutationState where
  version : Nat
  writableExports : Nat
  nativeAccessDisabled : Bool
deriving DecidableEq, Repr

structure Buffer where
  data : List F64
  origin : Nat
  elements : Nat
  shape : List Nat
  strides : List Int
  writable : Bool
  mutation : BufferMutationState
deriving DecidableEq, Repr

/-- A foreign payload: `hasTrace` and `destroy` are the callbacks of its vtable, `payload` and
the handles are opaque words. -/
structure ForeignObject where
  adapterId : Nat
  payload : Nat
  owned : Bool
  hasTrace : Bool
  destroy : Option Nat
  references : List Value
  referenceHandles : List Nat
  borrowedHandles : List Nat
  active : Bool
deriving DecidableEq, Repr

structure PendingForeign where
  payload : Nat
  owned : Bool
  destroy : Option Nat
  referenceHandles : List Nat
deriving DecidableEq, Repr

/-- The deferred destruction of a payload whose wrapper is reclaimed. -/
def ForeignObject.takeFinalizer (f : ForeignObject) : PendingForeign :=
  ⟨f.payload, f.active && f.owned, f.destroy, f.referenceHandles⟩

structure Exception where
  cls : Value
  message : String
  arguments : List Value
  stopIterationValue : Option Value
  attributes : Attributes
  cause : Option Value
  context : Option Value
  suppressContext : Bool
  traceback : Option Value

structure Function where
  code : Nat
  execution : Nat
  jitCompileRequested : Bool
  captures : List Value
  defaults : List Value
  annotations : Option Value
  annotationPlan : Option FunctionTypePlan
  typeParams : Option Value

inductive Object where
  | classObject (c : Class)
  | namespaceObject (c : Class)
  | mappingProxy (cls : Value)
  | instanceObject (cls : Value) (attributes : Attributes) (native : Option Value)
  | boundMethod (function receiver : Value)
  | staticMethod (function : Value)
  | classMethod (function : Value)
  | property (getter setter deleter : Option Value)
  | propertySetter (property : Value)
  | propertyDeleter (property : Value)
  | super (startClass receiver : Value)
  | int (n : Int)
  | float (x : F64)
  | buffer (b : Buffer)
  | foreign (f : ForeignObject)
  | str (text : String)
  | bytes (value : List UInt8)
  | tuple (values : List Value)
  | list (values : List Value)
  | slice (start stop step : Value)
  | dict (d : Dict)
  | set (d : Dict)
  | exception (e : Exception)
  | traceback (entries : List TracebackEntry)
  | function (f : Function)
  | typeParam (name : String) (kind : TypeParameterKind) (bound : Option Value) (default : Value)
  | typeNoDefault
  | typingForm (cls : Value) (kind : TypingFormKind)
  | typeUnpack (value : Value)
  | typeAlias (name moduleName : String) (typeParams value : Value)
  | genericAlias (cls origin args : Value)
  | unionType (cls : Value) (members : List Value)
  | generator (frame : GeneratorFrame)
  | coroutineIterator (cls coroutine : Value)
  | asyncGeneratorAwaitable (cls generator : Value) (operation : AsyncGeneratorOperation)
      (state : AsyncGeneratorAwaitState)
  | asyncFuture (future : AsyncFuture)
  | asyncTask (task : AsyncTask)
  | asyncFutureIterator (cls source : Value)
  | asyncEventLoop (cls : Value) (generation : Nat)
  | cell (value : Value)
  | builtin (b : Builtin)
  | native (index : Nat)
  | moduleObject (members : List (String × Value))
  | range (start stop step : Int)
  | iterator (source : Value) (index : Nat)
  | callIterator (cls callable sentinel : Value) (exhausted : Bool)
  | sequenceIterator (cls source : Value) (index : Int) (exhausted : Bool)
  | dictIterator (source : Value) (index version : Nat)
  | mappingProxyIterator (cls : Value) (index size : Nat)
  | rangeIterator (next stop step : Int)

namespace Object

def instanceClass : Object → Option Value
  | instanceObject cls _ _ => some cls
  | exception e => some e.cls
  | generator frame => some frame.cls
  | coroutineIterator cls _ => some cls
  | asyncGeneratorAwaitable cls _ _ _ => some cls
  | asyncFuture future => some future.cls
  | asyncTask task => some task.cls
  | asyncFutureIterator cls _ => some cls
  | asyncEventLoop cls _ => some cls
  | callIterator cls _ _ _ => some cls
  | sequenceIterator cls _ _ _ => some cls
  | typingForm cls _ => some cls
  | genericAlias cls _ _ => some cls
  | unionType cls _ => some cls
  | _ => none

/-- `Object::trace`: every managed edge of the payload, in the order it is visited. -/
def trace : Object → List Value
  | classObject c | namespaceObject c => c.trace
  | mappingProxy cls | mappingProxyIterator cls _ _ => [cls]
  | instanceObject cls attributes backing => cls :: (attributes.trace ++ backing.toList)
  | exception e =>
    e.cls :: (e.attributes.trace ++ e.arguments ++ e.cause.toList ++ e.context.toList ++
      e.traceback.toList ++ e.stopIterationValue.toList)
  | boundMethod callee receiver => [callee, receiver]
  | staticMethod callee | classMethod callee => [callee]
  | property getter setter deleter => getter.toList ++ setter.toList ++ deleter.toList
  | propertySetter source | propertyDeleter source => [source]
  | super startClass receiver => [startClass, receiver]
  | tuple values | list values => values
  | slice start stop step => [start, stop, step]
  | moduleObject members => members.map (·.2)
  | iterator source _ => [source]
  | callIterator cls callable sentinel _ => [cls, callable, sentinel]
  | sequenceIterator cls source _ _ => [cls, source]
  | function f => f.captures ++ f.defaults ++ f.annotations.toList ++ f.typeParams.toList
  | typeParam _ _ bound default => bound.toList ++ [default]
  | typingForm cls _ => [cls]
  | typeUnpack value => [value]
  | typeAlias _ _ typeParams value => [typeParams, value]
  | genericAlias cls origin args => [cls, origin, args]
  | unionType cls members => cls :: members
  | generator frame =>
    frame.cls :: frame.returnValue :: (frame.registers ++ frame.cells ++ frame.exceptionStack ++
      frame.yieldFrom.toList ++ frame.asyncDriver.toList)
  | coroutineIterator cls coroutine => [cls, coroutine]
  | asyncGeneratorAwaitable cls source operation _ => cls :: source :: operation.trace
  | asyncFuture future =>
    future.cls :: future.timerResult :: (future.state.trace ++ future.waiters ++ future.callbacks)
  | asyncTask task =>
    task.cls :: task.coroutine :: (task.state.trace ++ task.waiters ++ task.callbacks ++
      task.waitingOn.toList)
  | asyncFutureIterator cls source => [cls, source]
  | asyncEventLoop cls _ => [cls]
  | dict d => pairs d.entries
  | set d => d.entries.map (·.1)
  | dictIterator source _ _ => [source]
  | cell value => [value]
  | foreign f => f.references
  | int _ | float _ | buffer _ | str _ | bytes _ | traceback _ | typeNoDefault | builtin _
  | native _ | range _ _ _ | rangeIterator _ _ _ => []

/-- The classes a class object names as its ancestors. -/
def ancestors : Object → List Value
  | classObject c | namespaceObject c => c.bases ++ c.mro
  | _ => []

theorem ancestors_traced {o : Object} {v : Value} (h : v ∈ o.ancestors) : v ∈ o.trace := by
  cases o <;> simp_all [ancestors, trace, Class.trace]

end Object

end Tonic
