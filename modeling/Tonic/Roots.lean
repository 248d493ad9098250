import Tonic.Collection
import Tonic.Continuations
import Tonic.Library.Occurrence

/-!
## Roots

The state of the interpreter, as far as it holds values, and the roots a collection starts from.
-/

namespace Tonic

open Effect Occurrence

variable {μ ν : Type}

/-! ### The state -/

/-- The builtin classes the interpreter refers to. -/
structure RuntimeTypes (ν : Type) where
  none : ν
  notImplemented : ν
  ellipsis : ν
  noDefault : ν
  typingForm : ν
  literal : ν
  callable : ν
  buffer : ν
  int : ν
  bool : ν
  float : ν
  str : ν
  bytes : ν
  list : ν
  tuple : ν
  dict : ν
  set : ν
  range : ν
  function : ν
  genericAlias : ν
  unionType : ν
  callIterator : ν
  sequenceIterator : ν
  generator : ν
  coroutine : ν
  coroutineWrapper : ν
  asyncGenerator : ν
  asyncGeneratorAsend : ν
  asyncGeneratorAthrow : ν
  asyncFuture : ν
  asyncTask : ν
  asyncFutureIterator : ν
  asyncEventLoop : ν
  unraisableHookArgs : ν
  baseException : ν
  exception : ν
  typeError : ν
  valueError : ν
  runtimeError : ν
  stopIteration : ν
  stopAsyncIteration : ν
  generatorExit : ν
  cancelledError : ν
  invalidStateError : ν
  otherExceptions : List (String × ν)
deriving Inhabited

structure Frame (ν : Type) where
  ns : Option ν
  action : ReturnAction ν
  code : Nat
  ip : Nat
  base : Nat
  destination : Option Nat
  cellBase : Nat
  argumentBase : Nat
  pendingClassBase : Nat
  callable : Option ν
  generator : Option ν
  yieldFrom : Option ν
  injectedException : Option ν
  exceptionStack : List ν
  jitAttempted : Bool
  jitResume : Bool
  jitExpandedResumeDepth : Option Nat

inductive AsyncWake (ν : Type) where
  | value (v : ν)
  | exception (v : ν)

inductive EventLoopReady (ν : Type) where
  | task (task : ν) (wake : AsyncWake ν)
  | callback (callback future : ν)

structure EventLoopState (ν : Type) where
  object : ν
  tick : Nat
  currentTask : Option ν
  mainTask : ν
  ready : List (EventLoopReady ν)
  timers : List ν
  tasks : List ν

structure PendingClass (ν : Type) where
  state : ClassHookState ν
  finalized : Bool

inductive HandleKind where
  | locals
  | persistent
  | bufferOwner (writable : Bool)
  | foreignReference
deriving DecidableEq, Repr

structure HandleEntry (ν : Type) where
  token : Nat
  value : Option ν
  kind : HandleKind

structure CallCacheEntry (ν : Type) where
  callee : ν
  code : Nat

structure AttrCacheEntry (ν : Type) where
  cls : ν
  shape : Nat
  slot : Nat
  epoch : Nat
deriving DecidableEq

inductive AdaptiveState (ν : Type) where
  | generic
  | observedInt (count : Nat)
  | intBinary
  | observedCall (entry : CallCacheEntry ν) (count : Nat)
  | tonicCall (entry : CallCacheEntry ν)
  | tonicCallPic (index : Nat)
  | observedAttr (entry : AttrCacheEntry ν) (count : Nat)
  | attrSlot (entry : AttrCacheEntry ν)
  | attrSlotPic (index : Nat)

/-- The guard of code compiled for an annotated function: itself, its annotations and the classes
it was specialised to. -/
structure AnnotationGuard (ν : Type) where
  function : ν
  annotations : ν
  classes : List ν
  callees : List (ν × ν)

/-- Inline caches and profiles. They hold handles only to compare them with current ones, so a
collection may leave them stale. -/
structure Caches (ν : Type) where
  adaptiveSites : List (List (AdaptiveState ν))
  callPics : List (CallCacheEntry ν × CallCacheEntry ν)
  attrPics : List (AttrCacheEntry ν × AttrCacheEntry ν)
  methodProfiles : List (List (Option ν))
  expandedCallProfiles : List (List (Option (CallCacheEntry ν)))
  floatCallProfiles : List (List (Option ν))
  annotationGuards : List (AnnotationGuard ν)
deriving Inhabited

def Caches.empty : Caches ν := ⟨[], [], [], [], [], [], []⟩

structure Vm (ν : Type) where
  objectClass : ν
  typeClass : ν
  runtimeTypes : RuntimeTypes ν
  /-- The builtin functions, by name. -/
  functions : List (String × ν)
  handles : List (HandleEntry ν)
  modules : List (String × ν)
  nativeGlobals : List ((Nat × Nat) × ν)
  /-- The module objects of the source modules that have one. -/
  sourceModules : List (Option ν)
  globals : List ν
  constants : List (List ν)
  registers : List ν
  cells : List ν
  arguments : List (ExpandedArgs ν)
  frames : List (Frame ν)
  pendingClasses : List (PendingClass ν)
  pendingException : Option ν
  eventLoop : Option (EventLoopState ν)
  finalizerRoots : List ν
  caches : Caches ν
deriving Inhabited

/-! ### Rewriting every value -/

section Map

variable (f : μ → ν)

def RuntimeTypes.map (s : RuntimeTypes μ) : RuntimeTypes ν :=
  ⟨
    f s.none, f s.notImplemented, f s.ellipsis, f s.noDefault, f s.typingForm, f s.literal,
    f s.callable, f s.buffer, f s.int, f s.bool, f s.float, f s.str, f s.bytes, f s.list,
    f s.tuple, f s.dict, f s.set, f s.range, f s.function, f s.genericAlias, f s.unionType,
    f s.callIterator, f s.sequenceIterator, f s.generator, f s.coroutine, f s.coroutineWrapper,
    f s.asyncGenerator, f s.asyncGeneratorAsend, f s.asyncGeneratorAthrow, f s.asyncFuture,
    f s.asyncTask, f s.asyncFutureIterator, f s.asyncEventLoop, f s.unraisableHookArgs,
    f s.baseException, f s.exception, f s.typeError, f s.valueError, f s.runtimeError,
    f s.stopIteration, f s.stopAsyncIteration, f s.generatorExit, f s.cancelledError,
    f s.invalidStateError, s.otherExceptions.map fun e => (e.1, f e.2)⟩

def Frame.map (s : Frame μ) : Frame ν :=
  { s with
    ns := s.ns.map f
    action := s.action.map f
    callable := s.callable.map f
    generator := s.generator.map f
    yieldFrom := s.yieldFrom.map f
    injectedException := s.injectedException.map f
    exceptionStack := s.exceptionStack.map f }

def AsyncWake.map : AsyncWake μ → AsyncWake ν
  | .value v => .value (f v)
  | .exception v => .exception (f v)

def EventLoopReady.map : EventLoopReady μ → EventLoopReady ν
  | .task t wake => .task (f t) (wake.map f)
  | .callback c future => .callback (f c) (f future)

def EventLoopState.map (s : EventLoopState μ) : EventLoopState ν where
  object := f s.object
  tick := s.tick
  currentTask := s.currentTask.map f
  mainTask := f s.mainTask
  ready := s.ready.map (·.map f)
  timers := s.timers.map f
  tasks := s.tasks.map f

def PendingClass.map (s : PendingClass μ) : PendingClass ν := ⟨s.state.map f, s.finalized⟩

def HandleEntry.map (s : HandleEntry μ) : HandleEntry ν := ⟨s.token, s.value.map f, s.kind⟩

def CallCacheEntry.map (s : CallCacheEntry μ) : CallCacheEntry ν := ⟨f s.callee, s.code⟩

def AttrCacheEntry.map (s : AttrCacheEntry μ) : AttrCacheEntry ν :=
  { s with cls := f s.cls }

def AdaptiveState.map : AdaptiveState μ → AdaptiveState ν
  | .generic => .generic
  | .observedInt count => .observedInt count
  | .intBinary => .intBinary
  | .observedCall entry count => .observedCall (entry.map f) count
  | .tonicCall entry => .tonicCall (entry.map f)
  | .tonicCallPic index => .tonicCallPic index
  | .observedAttr entry count => .observedAttr (entry.map f) count
  | .attrSlot entry => .attrSlot (entry.map f)
  | .attrSlotPic index => .attrSlotPic index

def AnnotationGuard.map (s : AnnotationGuard μ) : AnnotationGuard ν :=
  ⟨f s.function, f s.annotations, s.classes.map f, mapPairs f s.callees⟩

def Caches.map (s : Caches μ) : Caches ν where
  adaptiveSites := s.adaptiveSites.map (·.map (·.map f))
  callPics := s.callPics.map fun p => (p.1.map f, p.2.map f)
  attrPics := s.attrPics.map fun p => (p.1.map f, p.2.map f)
  methodProfiles := s.methodProfiles.map (·.map (·.map f))
  expandedCallProfiles := s.expandedCallProfiles.map (·.map (·.map (·.map f)))
  floatCallProfiles := s.floatCallProfiles.map (·.map (·.map f))
  annotationGuards := s.annotationGuards.map (·.map f)

def Vm.map (s : Vm μ) : Vm ν where
  objectClass := f s.objectClass
  typeClass := f s.typeClass
  runtimeTypes := s.runtimeTypes.map f
  functions := s.functions.map fun e => (e.1, f e.2)
  handles := s.handles.map (·.map f)
  modules := s.modules.map fun e => (e.1, f e.2)
  nativeGlobals := s.nativeGlobals.map fun e => (e.1, f e.2)
  sourceModules := s.sourceModules.map (·.map f)
  globals := s.globals.map f
  constants := s.constants.map (·.map f)
  registers := s.registers.map f
  cells := s.cells.map f
  arguments := s.arguments.map (·.map f)
  frames := s.frames.map (·.map f)
  pendingClasses := s.pendingClasses.map (·.map f)
  pendingException := s.pendingException.map f
  eventLoop := s.eventLoop.map (·.map f)
  finalizerRoots := s.finalizerRoots.map f
  caches := s.caches.map f

end Map

/-! ### The roots of a collection -/

def RuntimeTypes.roots (s : RuntimeTypes Value) : List Value :=
  [
    s.none, s.notImplemented, s.ellipsis, s.noDefault, s.typingForm, s.literal, s.callable,
    s.buffer, s.int, s.bool, s.float, s.str, s.list, s.tuple, s.dict, s.set, s.range, s.function,
    s.genericAlias, s.unionType, s.callIterator, s.sequenceIterator, s.generator, s.coroutine,
    s.coroutineWrapper, s.asyncGenerator, s.asyncGeneratorAsend, s.asyncGeneratorAthrow,
    s.asyncFuture, s.asyncTask, s.asyncFutureIterator, s.asyncEventLoop, s.unraisableHookArgs,
    s.baseException, s.exception, s.typeError, s.valueError, s.runtimeError, s.stopIteration,
    s.stopAsyncIteration, s.generatorExit, s.cancelledError, s.invalidStateError] ++
    s.otherExceptions.map (·.2)

def EventLoopReady.trace : EventLoopReady Value → List Value
  | .task t (.value v) | .task t (.exception v) => [t, v]
  | .callback c future => [c, future]

def EventLoopState.trace (s : EventLoopState Value) : List Value :=
  s.object :: s.mainTask :: (s.currentTask.toList ++ s.ready.flatMap (·.trace) ++ s.timers ++
    s.tasks)

/-- A foreign reference is not a root: its wrapper traces it. -/
def HandleEntry.roots (s : HandleEntry Value) : List Value :=
  if s.kind = .foreignReference then [] else s.value.toList

namespace Vm

/-- The builtins as a new interpreter installs them. They stay as they are until shutdown. -/
def builtins (s : Vm Value) : List (String × Value) :=
  let t := s.runtimeTypes
  s.functions ++
    [("object", s.objectClass), ("type", s.typeClass), ("int", t.int), ("bool", t.bool),
      ("float", t.float), ("str", t.str), ("bytes", t.bytes), ("list", t.list),
      ("tuple", t.tuple), ("dict", t.dict), ("range", t.range),
      ("NotImplemented", .notImplemented), ("Ellipsis", .ellipsis),
      ("BaseException", t.baseException), ("Exception", t.exception),
      ("TypeError", t.typeError), ("ValueError", t.valueError),
      ("RuntimeError", t.runtimeError), ("StopIteration", t.stopIteration),
      ("StopAsyncIteration", t.stopAsyncIteration), ("GeneratorExit", t.generatorExit)] ++
    t.otherExceptions

/-- The roots that no safepoint leaves out. -/
def fixedRoots (s : Vm Value) : List (List Value) :=
  [s.cells, s.globals, s.constants.flatten, s.modules.map (·.2), s.nativeGlobals.map (·.2),
    s.sourceModules.flatMap (·.toList), s.builtins.map (·.2), s.runtimeTypes.roots,
    s.pendingException.toList, s.finalizerRoots, s.frames.flatMap (·.callable.toList),
    s.frames.flatMap (·.ns.toList), s.frames.flatMap (·.generator.toList),
    s.frames.flatMap (·.yieldFrom.toList), s.frames.flatMap (·.injectedException.toList),
    s.frames.flatMap (·.exceptionStack), s.frames.flatMap (·.action.trace),
    s.arguments.flatMap (·.trace), s.pendingClasses.flatMap (·.state.trace),
    s.eventLoop.elim [] (·.trace)]

/-- Compiled code works on a copy of its register window, which is left out for it. -/
def appendGcRoots (s : Vm Value) (excludedRegisters : Option (Nat × Nat)) (includeHandles : Bool) :
    List Value :=
  (match excludedRegisters with
    | some (base, stop) => s.registers.take base ++ s.registers.drop stop
    | none => s.registers) ++
  s.fixedRoots.flatten ++
  if includeHandles then s.handles.flatMap (·.roots) else []

end Vm

/-! ### Classes of values -/

section RuntimeClass

variable (objectClass : Value) (types : RuntimeTypes Value)

def runtimeClass (h : Heap) : Value → Except Fault Value
  | .bool _ => .ok types.bool
  | .none => .ok types.none
  | .notImplemented => .ok types.notImplemented
  | .ellipsis => .ok types.ellipsis
  | .small _ => .ok types.int
  | v => (h.get v).map fun
    | .classObject c => if c.metaclass = .unbound then objectClass else c.metaclass
    | .int _ => types.int
    | .float _ => types.float
    | .str _ => types.str
    | .bytes _ => types.bytes
    | .list _ => types.list
    | .tuple _ => types.tuple
    | .dict _ => types.dict
    | .set _ => types.set
    | .buffer _ => types.buffer
    | .range _ _ _ => types.range
    | .function _ => types.function
    | o => o.instanceClass.getD objectClass

/-- `fuel` is how much deeper a tuple or a union of classes may nest. -/
def instanceCheck (h : Heap) (value : Value) (subclass : Bool) :
    Nat → Value → Except Fault Bool
  | 0, _ => .error (.raise "RecursionError" "classinfo nesting limit")
  | fuel + 1, target =>
    match h.tryGet target with
    | some (.tuple targets) | some (.unionType _ targets) =>
      targets.anyM (instanceCheck h value subclass fuel)
    | _ => do
      let _ ← h.classOf target
      let actual ← if subclass then (do let _ ← h.classOf value; pure value)
        else runtimeClass objectClass types h value
      return actual = target || match h.classOf actual with
        | .ok c => c.mro.contains target
        | .error _ => false

end RuntimeClass

end Tonic
