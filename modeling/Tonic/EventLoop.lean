import Tonic.Library.Wakeup
import Tonic.Mutators
import Tonic.Roots

/-!
## The event loop

`asyncio.run`, and the builtins that create, await, cancel and complete tasks and futures. The
loop runs one thing at a time: between two turns it pops its queue, and a task or a callback
runs until it suspends or returns.
-/

namespace Tonic

open Effect

/-! ### Classes of values -/

section Instances

variable (objectClass : Value) (types : RuntimeTypes Value)

def exceptionClass (kind : String) : Value :=
  match kind with
  | "TypeError" => types.typeError
  | "ValueError" => types.valueError
  | "StopIteration" => types.stopIteration
  | "StopAsyncIteration" => types.stopAsyncIteration
  | "GeneratorExit" => types.generatorExit
  | "CancelledError" => types.cancelledError
  | "InvalidStateError" => types.invalidStateError
  | "RuntimeError" => types.runtimeError
  | name => ((types.otherExceptions.find? (·.1 = name)).map (·.2)).getD types.runtimeError

/-- A `StopIteration` without a message has no arguments. -/
def exceptionArguments (cls : Value) (message : String) : HeapM (List Value) :=
  if cls = types.stopIteration ∧ message = "" then return []
  else return [← alloc (.str message)]

def exceptionFromDiagnostic (error : Diagnostic) : HeapM Value := do
  let cls := exceptionClass types error.kind
  let arguments ← exceptionArguments types cls error.message
  alloc (.exception
    { cls, message := error.message, arguments
      stopIterationValue :=
        if cls = types.stopIteration then some (arguments.head?.getD .none) else none
      attributes := .empty, cause := none, context := none, suppressContext := false
      traceback := none })

end Instances

namespace Heap

def asyncState (h : Heap) (v : Value) : Option AsyncState :=
  match h.tryGet v with
  | some (.asyncFuture f) => some f.state
  | some (.asyncTask t) => some t.state
  | _ => none

def asyncFutureTimer (h : Heap) (v : Value) : Option (Nat × Value) :=
  match h.tryGet v with
  | some (.asyncFuture f) =>
    if f.state = .pending then f.dueTick.map fun tick => (tick, f.timerResult) else none
  | _ => none

def asyncTaskCoroutine (h : Heap) (v : Value) : Option Value :=
  match h.tryGet v with
  | some (.asyncTask t) => some t.coroutine
  | _ => none

def isCoroutine (h : Heap) (v : Value) : Bool :=
  match h.tryGet v with
  | some (.generator frame) => frame.kind = .coroutine
  | _ => false

def stopIterationValue (h : Heap) (v : Value) : Option Value :=
  match h.tryGet v with
  | some (.exception e) => e.stopIterationValue
  | _ => none

def generatorReturnValue (h : Heap) (v : Value) : Option Value :=
  match h.tryGet v with
  | some (.generator frame) => if frame.state = .completed then some frame.returnValue else none
  | _ => none

end Heap

/-! ### The loop and its queue -/

abbrev LoopEvent := Wakeup.Event Value AsyncState (AsyncWake Value)

/-- What the event loop works on. The events record what happened; nothing reads them. -/
structure AsyncVm where
  heap : Heap
  objectClass : Value
  types : RuntimeTypes Value
  eventLoop : Option (EventLoopState Value)
  nextGeneration : Nat
  events : List LoopEvent

abbrev AsyncM := EStateM Fault AsyncVm

def onHeap {α : Type} (m : HeapM α) : AsyncM α := fun s =>
  match m s.heap with
  | .ok a heap => .ok a { s with heap }
  | .error e heap => .error e { s with heap }

def record (event : LoopEvent) : AsyncM Unit :=
  modify fun s => { s with events := event :: s.events }

def runningLoop : AsyncM (EventLoopState Value) :=
  reading fun s =>
    match s.eventLoop with
    | some loop => .ok loop
    | none => .error (runtimeError "no running event loop")

def updateLoop (f : EventLoopState Value → EventLoopState Value) : AsyncM Unit :=
  modify fun s => { s with eventLoop := s.eventLoop.map f }

def maxTick : Nat := 2 ^ 64 - 1

def scheduleAsyncTask (task : Value) (wake : AsyncWake Value) : AsyncM Unit := do
  let _ ← runningLoop
  updateLoop fun loop => { loop with ready := loop.ready ++ [.task task wake] }

def scheduleAsyncCallback (callback future : Value) : AsyncM Unit := do
  let _ ← runningLoop
  updateLoop fun loop => { loop with ready := loop.ready ++ [.callback callback future] }

/-- What the waiters of a finished source are given. Nothing is pending when it is used. -/
def AsyncState.wake : AsyncState → AsyncWake Value
  | finished value => .value value
  | failed exception | cancelled exception => .exception exception
  | pending => .value .none

def completeAsyncSource (source : Value) (state : AsyncState) : AsyncM Unit := do
  let (waiters, callbacks) ← onHeap (completeAsync source state)
  record (.completed source state)
  callbacks.forM (scheduleAsyncCallback · source)
  waiters.forM (scheduleAsyncTask · state.wake)

/-- Completes the timer if it is due; a timer that is due later is kept. -/
def matureAsyncTimer (tick : Nat) (future : Value) : AsyncM (List Value) := do
  match (← get).heap.asyncFutureTimer future with
  | some (dueTick, result) =>
    if dueTick ≤ tick then
      completeAsyncSource future (.finished result)
      return []
    else return [future]
  | none => return []

def matureTimers (tick : Nat) : List Value → AsyncM (List Value)
  | [] => return []
  | future :: rest => do
    let kept ← matureAsyncTimer tick future
    return kept ++ (← matureTimers tick rest)

def matureAsyncTimers : AsyncM Unit := do
  let loop ← runningLoop
  updateLoop fun loop => { loop with timers := [] }
  let pending ← matureTimers loop.tick loop.timers
  updateLoop fun loop => { loop with timers := loop.timers ++ pending }

def createAsyncTask (coroutine : Value) : AsyncM Value := do
  let _ ← runningLoop
  let s ← get
  if s.heap.isCoroutine coroutine then
    let task ← onHeap (alloc (.asyncTask
      { cls := s.types.asyncTask, coroutine, state := .pending, waiters := [], callbacks := []
        waitingOn := none, cancelRequested := false }))
    updateLoop fun loop => { loop with
      tasks := loop.tasks ++ [task], ready := loop.ready ++ [.task task (.value .none)] }
    record (.spawned task)
    return task
  else throw (typeError "a coroutine was expected")

/-! ### The builtins -/

/-- `require_async_receiver`. -/
def requireAsync (source : Value) (method : String) : AsyncM AsyncState :=
  reading fun s =>
    match s.heap.asyncState source with
    | some state => .ok state
    | none => .error (typeError (method ++ " descriptor requires a Future"))

def requireTask (source : Value) (message : String) : AsyncM Unit :=
  reading fun s =>
    match s.heap.tryGet source with
    | some (.asyncTask _) => .ok ()
    | _ => .error (typeError message)

def requireFuture (source : Value) (message : String) : AsyncM Unit :=
  reading fun s =>
    match s.heap.tryGet source with
    | some (.asyncFuture _) => .ok ()
    | _ => .error (typeError message)

def newFuture (dueTick : Option Nat) (timerResult : Value) : AsyncM Value := do
  let s ← get
  onHeap (alloc (.asyncFuture
    { cls := s.types.asyncFuture, state := .pending, waiters := [], callbacks := []
      dueTick, timerResult }))

def cancelledError : AsyncM Value := do
  let s ← get
  onHeap (exceptionFromDiagnostic s.types ⟨"CancelledError", ""⟩)

def asyncioCreateTask (coroutine : Value) : AsyncM Value := createAsyncTask coroutine

/-- `delay` is the number of ticks that `async_delay_ticks` reads off the argument. -/
def asyncioSleep (delay : Nat) (result : Value) : AsyncM Value := do
  let loop ← runningLoop
  let future ← newFuture (some (min maxTick (loop.tick + max delay 1))) result
  updateLoop fun loop => { loop with timers := loop.timers ++ [future] }
  return future

def asyncioFutureNew : AsyncM Value := do
  let _ ← runningLoop
  newFuture none .none

def asyncioFutureCancel (source : Value) : AsyncM Value := do
  let state ← requireAsync source "cancel"
  requireFuture source "Future.cancel descriptor does not accept Task"
  if state = .pending then
    let exception ← cancelledError
    completeAsyncSource source (.cancelled exception)
    return .bool true
  else return .bool false

/-- A task that is waiting leaves its source. -/
def leaveSource (task : Value) : Option Value → AsyncM Unit
  | some waitingOn => onHeap (removeAsyncWaiter waitingOn task)
  | none => pure ()

/-- The cancellation goes to the front of the queue and replaces what was queued for the task. -/
def requeueCancelled (task exception : Value) : AsyncM Unit := do
  let _ ← runningLoop
  updateLoop fun loop => { loop with
    ready := .task task (.exception exception) :: loop.ready.filter fun
      | .task queued _ => queued ≠ task
      | .callback _ _ => true }
  record (.cancelled task (.exception exception))

def asyncioTaskCancel (task : Value) : AsyncM Value := do
  let _ ← requireAsync task "cancel"
  requireTask task "Task.cancel descriptor requires a Task"
  let (cancelled, waitingOn) ← onHeap (requestTaskCancel task)
  if cancelled then
    let exception ← cancelledError
    leaveSource task waitingOn
    requeueCancelled task exception
  return .bool cancelled

def asyncioFutureSetResult (source value : Value) : AsyncM Value := do
  requireFuture source "Future.set_result descriptor requires a Future"
  completeAsyncSource source (.finished value)
  return .none

/-- `exception` is what `normalize_raised_exception` makes of the argument. -/
def asyncioFutureSetException (source exception : Value) : AsyncM Value := do
  requireFuture source "Future.set_exception descriptor requires a Future"
  completeAsyncSource source (.failed exception)
  return .none

def asyncioAddDoneCallback (source callback : Value) : AsyncM Value := do
  let _ ← requireAsync source "add_done_callback"
  let kept ← onHeap (addAsyncCallback source callback)
  if kept then record (.registered source callback)
  else
    scheduleAsyncCallback callback source
    record (.registered source callback)
  return .none

/-! ### Turns of the loop -/

/-- An error of the loop itself ends it. -/
def closing {α : Type} (m : AsyncM α) : AsyncM α := fun s =>
  match m s with
  | .ok a t => .ok a t
  | .error e t => .error e { t with eventLoop := none }

def EventLoopState.start (object : Value) : EventLoopState Value where
  object
  tick := 0
  currentTask := none
  mainTask := .unbound
  ready := []
  timers := []
  tasks := []

/-- The first half of `run_async_event_loop`: the loop exists and its main task is queued. -/
def openEventLoop (coroutine : Value) : AsyncM Unit := do
  let s ← get
  if s.eventLoop.isSome then
    throw (runtimeError "asyncio.run cannot be called from a running event loop")
  if s.heap.isCoroutine coroutine then
    modify fun s => { s with nextGeneration := min maxTick (s.nextGeneration + 1) }
    let object ← onHeap (alloc (.asyncEventLoop s.types.asyncEventLoop s.nextGeneration))
    modify fun s => { s with eventLoop := some (.start object) }
    let t ← get
    record (.opened fun v => match t.heap.tryGet v with
      | some (.asyncFuture f) => f.callbacks
      | some (.asyncTask t) => t.callbacks
      | _ => [])
    closing (do
      let mainTask ← createAsyncTask coroutine
      updateLoop fun loop => { loop with mainTask })
  else throw (typeError "asyncio.run expects a coroutine")

/-- How the loop goes on after the head of an iteration. -/
inductive Turn where
  | returned (value : Value)
  | raised (exception : Value)
  | again
  | step (task : Value) (wake : AsyncWake Value)
  | call (callback future : Value)

/-- The earliest tick at which a timer is due. -/
def nextTick (h : Heap) (timers : List Value) : Option Nat :=
  (timers.filterMap fun future => (h.asyncFutureTimer future).map (·.1)).min?

/-- Nothing is ready: the clock moves to the next timer, if there is one. -/
def awaitTimer : AsyncM Turn := do
  let loop ← runningLoop
  match nextTick (← get).heap loop.timers with
  | some tick =>
    updateLoop fun loop => { loop with tick }
    matureAsyncTimers
    return .again
  | none => throw (runtimeError "event loop stopped before the main task completed")

/-- A task that has finished meanwhile is passed over. -/
def takeReady : EventLoopReady Value → AsyncM Turn
  | .task task wake => do
    if (← get).heap.asyncState task = some .pending then
      updateLoop fun loop => { loop with currentTask := some task }
      return .step task wake
    else return .again
  | .callback callback future => do
    record (.called future callback)
    return .call callback future

def popReady : AsyncM Turn := do
  let loop ← runningLoop
  match loop.ready with
  | [] => awaitTimer
  | ready :: rest =>
    updateLoop fun loop => { loop with ready := rest }
    takeReady ready

def turn : AsyncM Turn := do
  updateLoop fun loop => { loop with tick := min maxTick (loop.tick + 1) }
  matureAsyncTimers
  popReady

def endLoop : AsyncM Unit := modify fun s => { s with eventLoop := none }

/-- The head of an iteration of `run_async_event_loop`. -/
def iterate : AsyncM Turn := closing do
  let loop ← runningLoop
  match (← get).heap.asyncState loop.mainTask with
  | none => throw (.panicked "main task")
  | some .pending => turn
  | some (.finished value) =>
    endLoop
    return .returned value
  | some (.failed exception) | some (.cancelled exception) =>
    endLoop
    return .raised exception

def isCancelled (exception : Value) : AsyncM Bool :=
  reading fun s =>
    instanceCheck s.objectClass s.types s.heap exception false 101 s.types.cancelledError

/-- A cancellation that is about to be delivered makes room for the next one. -/
def clearCancelled (task : Value) : AsyncWake Value → AsyncM Unit
  | .exception exception => do
    if ← isCancelled exception then onHeap (clearTaskCancelRequest task)
  | .value _ => pure ()

/-- The beginning of `step_async_task`, up to the resumption of the coroutine. -/
def beginStep (task : Value) (wake : AsyncWake Value) : AsyncM Value := do
  let coroutine ← reading fun s =>
    match s.heap.asyncTaskCoroutine task with
    | some coroutine => .ok coroutine
    | none => .error (typeError "object is not a task")
  onHeap (setTaskWaiting task none)
  clearCancelled task wake
  return coroutine

/-- The task suspends on what its coroutine has yielded. -/
def suspendTask (task yielded : Value) : AsyncM Unit := do
  if yielded = .none then
    scheduleAsyncTask task (.value .none)
    record (.suspended task none)
  else
    match (← get).heap.asyncState yielded with
    | some .pending =>
      onHeap (addAsyncWaiter yielded task)
      onHeap (setTaskWaiting task (some yielded))
      record (.suspended task (some yielded))
    | some state =>
      scheduleAsyncTask task state.wake
      record (.suspended task (some yielded))
    | none =>
      let s ← get
      let exception ← onHeap (exceptionFromDiagnostic s.types
        ⟨"RuntimeError", "Task received an unsupported yield"⟩)
      completeAsyncSource task (.failed exception)

/-- The exception a task ends with. -/
def stepException (error : Diagnostic) : Option Value → AsyncM Value
  | some exception => pure exception
  | none => do
    let s ← get
    onHeap (exceptionFromDiagnostic s.types error)

/-- The end of `step_async_task`: `result` is what the coroutine yielded or how it stopped, and
`taskException` the exception that was pending then. -/
def endStep (task coroutine : Value) (result : Except Diagnostic Value)
    (taskException : Option Value) : AsyncM Unit :=
  match result with
  | .ok yielded => suspendTask task yielded
  | .error error =>
    if error.kind = "StopIteration" then do
      let h := (← get).heap
      let value := ((taskException.bind h.stopIterationValue).or
        (h.generatorReturnValue coroutine)).getD .none
      completeAsyncSource task (.finished value)
    else do
      let exception ← stepException error taskException
      let cancelled ← isCancelled exception
      completeAsyncSource task (if cancelled then .cancelled exception else .failed exception)

/-- The step is over, and so is the loop if the step could not be brought to an end. -/
def finishStep (task coroutine : Value) (result : Except Diagnostic Value)
    (taskException : Option Value) : AsyncM Unit :=
  closing do
    endStep task coroutine result taskException
    updateLoop fun loop => { loop with currentTask := none }

/-- A builtin that the program can call. -/
inductive AsyncCall where
  | createTask (coroutine : Value)
  | sleep (delay : Nat) (result : Value)
  | futureNew
  | futureCancel (source : Value)
  | taskCancel (task : Value)
  | setResult (source value : Value)
  | setException (source exception : Value)
  | addDoneCallback (source callback : Value)

def AsyncCall.run : AsyncCall → AsyncM Value
  | createTask coroutine => asyncioCreateTask coroutine
  | sleep delay result => asyncioSleep delay result
  | futureNew => asyncioFutureNew
  | futureCancel source => asyncioFutureCancel source
  | taskCancel task => asyncioTaskCancel task
  | setResult source value => asyncioFutureSetResult source value
  | setException source exception => asyncioFutureSetException source exception
  | addDoneCallback source callback => asyncioAddDoneCallback source callback

end Tonic
