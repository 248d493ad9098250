import Tonic.Heap

/-!
## Modules, cells, exceptions, tasks and generators

The mutation boundary of the remaining object kinds. Each store of a value into an object that
may be old runs the write barrier with that object as the owner.
-/

namespace Tonic

open Effect

/-- Replaces the first member of the name, or adds one. -/
def setMember (name : String) (value : Value) : List (String × Value) → List (String × Value)
  | [] => [(name, value)]
  | (n, v) :: rest => if n = name then (n, value) :: rest else (n, v) :: setMember name value rest

def addModuleMember (owner : Value) (name : String) (value : Value) : HeapM Unit := do
  writeBarrier owner value
  let .moduleObject members ← getObject owner | throw (typeError "expected module")
  setObject owner (.moduleObject (setMember name value members))

def deleteModuleMember (owner : Value) (name : String) : HeapM Unit := do
  let .moduleObject members ← getObject owner | throw (typeError "expected module")
  if members.any (·.1 = name) then
    setObject owner (.moduleObject (members.eraseP (·.1 = name)))
  else throw (.raise "AttributeError" ("module has no attribute '" ++ name ++ "'"))

def resetModuleMembers (owner : Value) : HeapM Unit := do
  let .moduleObject members ← getObject owner | throw (typeError "expected module")
  setObject owner
    (.moduleObject (members.filter fun m => m.1 = "__name__" || m.1 = "__file__"))

def storeCell (owner value : Value) : HeapM Unit := do
  writeBarrier owner value
  let .cell _ ← getObject owner | throw (bytecodeError "expected closure cell")
  setObject owner (.cell value)

def storeTypeParamDefault (parameter default : Value) : HeapM Unit := do
  writeBarrier parameter default
  let .typeParam name kind bound _ ← getObject parameter
    | throw (bytecodeError "type parameter default target is not a type parameter")
  setObject parameter (.typeParam name kind bound default)

/-- The default of a type parameter, unpacked for a starred one. -/
def setTypeParamDefault (parameter default : Value) (unpack : Bool) : HeapM Unit :=
  if unpack then do
    let default ← alloc (.typeUnpack default)
    storeTypeParamDefault parameter default
  else storeTypeParamDefault parameter default

/-! ### Exceptions -/

def expectException (owner : Value) : HeapM Exception := do
  let .exception e ← getObject owner | throw (typeError "expected exception instance")
  return e

def barrierSome (owner : Value) : Option Value → HeapM Unit
  | some value => writeBarrier owner value
  | none => pure ()

def setExceptionCause (owner : Value) (cause : Option Value) (suppressContext : Bool) :
    HeapM Unit := do
  barrierSome owner cause
  let e ← expectException owner
  setObject owner (.exception { e with cause, suppressContext })

/-- A context is only ever set once. -/
def setExceptionContext (owner context : Value) : HeapM Unit := do
  writeBarrier owner context
  let e ← expectException owner
  if e.context.isNone then setObject owner (.exception { e with context := some context })

def setExceptionTraceback (owner : Value) (traceback : Option Value) : HeapM Unit := do
  barrierSome owner traceback
  let e ← expectException owner
  setObject owner (.exception { e with traceback })

/-- Appends entries, each once in a row. -/
def extendTrace (entries : List TracebackEntry) : List TracebackEntry → List TracebackEntry
  | [] => entries
  | entry :: rest =>
    extendTrace (if entries.getLast? = some entry then entries else entries ++ [entry]) rest

/-- The traceback object of an exception, made on first use. -/
def ensureTraceback (owner : Value) (e : Exception) : HeapM Value :=
  match e.traceback with
  | some traceback => pure traceback
  | none => do
    let traceback ← alloc (.traceback [])
    writeBarrier owner traceback
    let .exception e ← getObject owner | throw (.panicked "validated exception changed kind")
    setObject owner (.exception { e with traceback := some traceback })
    return traceback

def recordExceptionTrace (owner : Value) (entries : List TracebackEntry) : HeapM Unit := do
  if entries = [] then return
  let e ← expectException owner
  let traceback ← ensureTraceback owner e
  let .traceback recorded ← getObject traceback
    | throw (runtimeError "invalid traceback object")
  setObject traceback (.traceback (extendTrace recorded entries))

/-! ### Futures and tasks -/

def notDone : Fault := typeError "object is not a future"

def requestTaskCancel (task : Value) : HeapM (Bool × Option Value) := do
  let .asyncTask t ← getObject task | throw (typeError "object is not a task")
  if t.state ≠ .pending ∨ t.cancelRequested then return (false, none)
  setObject task (.asyncTask { t with cancelRequested := true, waitingOn := none })
  return (true, t.waitingOn)

def clearTaskCancelRequest (task : Value) : HeapM Unit := do
  let .asyncTask t ← getObject task | throw (typeError "object is not a task")
  setObject task (.asyncTask { t with cancelRequested := false })

def removeAsyncWaiter (source task : Value) : HeapM Unit := do
  match ← getObject source with
  | .asyncFuture f => setObject source (.asyncFuture { f with waiters := f.waiters.filter (· ≠ task) })
  | .asyncTask t => setObject source (.asyncTask { t with waiters := t.waiters.filter (· ≠ task) })
  | _ => throw notDone

/-- A finished source takes no waiter, and no task waits twice. -/
def addAsyncWaiter (source task : Value) : HeapM Unit := do
  writeBarrier source task
  match ← getObject source with
  | .asyncFuture f =>
    if f.state = .pending ∧ task ∉ f.waiters then
      setObject source (.asyncFuture { f with waiters := f.waiters ++ [task] })
  | .asyncTask t =>
    if t.state = .pending ∧ task ∉ t.waiters then
      setObject source (.asyncTask { t with waiters := t.waiters ++ [task] })
  | _ => throw (typeError "object is not awaitable")

/-- Whether the callback was kept; a finished source leaves it to the caller. -/
def addAsyncCallback (source callback : Value) : HeapM Bool := do
  writeBarrier source callback
  match ← getObject source with
  | .asyncFuture f =>
    if f.state = .pending then
      setObject source (.asyncFuture { f with callbacks := f.callbacks ++ [callback] })
      return true
    else return false
  | .asyncTask t =>
    if t.state = .pending then
      setObject source (.asyncTask { t with callbacks := t.callbacks ++ [callback] })
      return true
    else return false
  | _ => throw notDone

def settleAsync (source : Value) (state : AsyncState) : HeapM (List Value × List Value) := do
  match ← getObject source with
  | .asyncFuture f =>
    if f.state ≠ .pending then throw (.raise "InvalidStateError" "future is already done")
    setObject source
      (.asyncFuture { f with state, dueTick := none, waiters := [], callbacks := [] })
    return (f.waiters, f.callbacks)
  | .asyncTask t =>
    if t.state ≠ .pending then throw (.raise "InvalidStateError" "task is already done")
    setObject source
      (.asyncTask { t with state, waitingOn := none, waiters := [], callbacks := [] })
    return (t.waiters, t.callbacks)
  | _ => throw notDone

/-- Settles a pending source and hands its waiters and callbacks to the caller. -/
def completeAsync (source : Value) (state : AsyncState) : HeapM (List Value × List Value) :=
  match state with
  | .pending => throw (runtimeError "future completion state must be terminal")
  | .finished value | .failed value | .cancelled value => do
    writeBarrier source value
    settleAsync source state

def setTaskWaiting (task : Value) (source : Option Value) : HeapM Unit := do
  barrierSome task source
  let .asyncTask t ← getObject task | throw (typeError "object is not a task")
  setObject task (.asyncTask { t with waitingOn := source })

/-! ### Generators -/

def expectGenerator (owner : Value) : HeapM GeneratorFrame := do
  let .generator frame ← getObject owner | throw (typeError "object is not a generator")
  return frame

def setAsyncGeneratorAwaitState (owner : Value) (state : AsyncGeneratorAwaitState) :
    HeapM Unit := do
  let .asyncGeneratorAwaitable cls source operation _ ← getObject owner
    | throw (typeError "object is not an async-generator awaitable")
  setObject owner (.asyncGeneratorAwaitable cls source operation state)

def claimAsyncGeneratorDriver (owner awaitable : Value) : HeapM Unit := do
  writeBarrier owner awaitable
  let .generator frame ← getObject owner
    | throw (typeError "object is not an async generator")
  if frame.kind ≠ .asyncGenerator then throw (typeError "object is not an async generator")
  if frame.asyncDriver.any (· ≠ awaitable) then
    throw (runtimeError "asynchronous generator is already running")
  setObject owner (.generator { frame with asyncDriver := some awaitable })

def releaseAsyncGeneratorDriver (owner awaitable : Value) : HeapM Unit := do
  let .generator frame ← getObject owner
    | throw (typeError "object is not an async generator")
  if frame.asyncDriver = some awaitable then
    setObject owner (.generator { frame with asyncDriver := none })

structure ResumedGenerator where
  code : Nat
  ip : Nat
  registers : List Value
  cells : List Value
  exceptionStack : List Value
  resumeRegister : Option Nat
  yieldFrom : Option Value

/-- Takes the saved frame out of a generator that is not running. -/
def resumeGenerator (owner : Value) (execution : Nat) : HeapM ResumedGenerator := do
  let frame ← expectGenerator owner
  if frame.execution ≠ execution then
    throw (runtimeError "generator belongs to a previous module execution")
  match frame.state with
  | .completed => throw (.raise "StopIteration" "")
  | .running => throw (.raise "ValueError" "generator already executing")
  | .created | .suspended =>
    setObject owner (.generator { frame with
      state := .running, registers := [], cells := [], exceptionStack := [],
      resumeRegister := none, yieldFrom := none })
    return ⟨frame.code, frame.ip, frame.registers, frame.cells, frame.exceptionStack,
      frame.resumeRegister, frame.yieldFrom⟩

structure SuspendedGenerator where
  ip : Nat
  registers : List Value
  cells : List Value
  exceptionStack : List Value
  resumeRegister : Nat
  yieldFrom : Option Value

def SuspendedGenerator.values (s : SuspendedGenerator) : List Value :=
  s.registers ++ s.cells ++ s.exceptionStack ++ s.yieldFrom.toList

def suspendGenerator (owner : Value) (s : SuspendedGenerator) : HeapM Unit := do
  s.values.forM (writeBarrier owner)
  let frame ← expectGenerator owner
  if frame.state ≠ .running then throw (runtimeError "generator is not running")
  setObject owner (.generator { frame with
    ip := s.ip, registers := s.registers, cells := s.cells, exceptionStack := s.exceptionStack,
    resumeRegister := some s.resumeRegister, yieldFrom := s.yieldFrom, state := .suspended })

def completeGeneratorWithValue (owner value : Value) : HeapM Unit := do
  writeBarrier owner value
  let frame ← expectGenerator owner
  setObject owner (.generator { frame with
    registers := [], cells := [], exceptionStack := [], yieldFrom := none, asyncDriver := none,
    returnValue := value, state := .completed })

def completeGenerator (owner : Value) : HeapM Unit := completeGeneratorWithValue owner .none

/-! ### Finalizer queues -/

/-- Pops the generator queued last. -/
def popGeneratorFinalizer : HeapM (Option Value) := do
  let h ← get
  set { h with pendingGenerators := h.pendingGenerators.dropLast }
  return h.pendingGenerators.getLast?

def popObjectFinalizer : HeapM (Option Value) := do
  let h ← get
  set { h with pendingFinalizers := h.pendingFinalizers.dropLast }
  return h.pendingFinalizers.getLast?

end Tonic
