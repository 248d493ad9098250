import Tonic.BindingSound
import Tonic.Consumers
import Tonic.IntegerSound
import Tonic.OperatorsSound

/-!
## Sums

`sum` keeps a machine integer as long as the items allow it, and hands the total over to the `+`
operator at the first item that does not. Both the iterator and the methods of `+` may run in frames
of their own; what is left to do waits in the actions of these frames.
-/

namespace Tonic

open Effect FixedWidth

/-- The classes of the interpreter, and what is left to the host: sums and products of floats, true
division and powers, and the items that `+=` takes from an iterable. -/
structure SumHost where
  objectClass : Value
  types : RuntimeTypes Value
  bool_ne_int : types.bool ≠ types.int
  bool_ne_float : types.bool ≠ types.float
  floatStart : Heap → Value → Except Fault (SumTotal Value)
  floatAfterInt : Int → Heap → Value → Except Fault (SumTotal Value)
  addFloat : Nat → Nat → Heap → Value → Except Fault (Option (SumTotal Value))
  floatValue : Nat → Nat → HeapM Value
  divide : Int → Int → HeapM Value
  floats : Op → F64 → F64 → HeapM Value
  extend : Value → Value → HeapM Unit
  powMod : Value → Value → Value → HeapM Value

section Totals

variable (host : SumHost)

def sumStartTotal (h : Heap) (value : Value) : Except Fault (SumTotal Value) :=
  match h.tryGet (h.nativeValue value) with
  | some (.str _) => throw (typeError "sum() can't sum strings [use ''.join(seq) instead]")
  | _ => do
    let cls ← runtimeClass host.objectClass host.types h value
    if cls = host.types.int then
      return match checked 64 (← h.integer value) with
        | some n => .int n
        | none => .generic value
    else if cls = host.types.float then host.floatStart h value
    else return .generic value

def materializeSumTotal : SumTotal Value → HeapM Value
  | .int n => allocInt n
  | .float high low => host.floatValue high low
  | .generic value => pure value

/-- An item as a machine integer. -/
def sumItemInteger (h : Heap) (item : Value) : Except Fault (Option Int) :=
  match item.asBool, item.integer with
  | some b, _ => return some (if b then 1 else 0)
  | none, some n => return some n
  | none, none => return checked 64 (← h.integer item)

/-- The total after an item that is added without the `+` operator. -/
def quickSumTotal (h : Heap) (total : SumTotal Value) (item : Value) :
    Except Fault (Option (SumTotal Value)) := do
  let cls ← runtimeClass host.objectClass host.types h item
  match total with
  | .int total =>
    if cls = host.types.int ∨ cls = host.types.bool then
      return ((← sumItemInteger h item).bind (checkedAdd 64 total)).map .int
    else if cls = host.types.float then return some (← host.floatAfterInt total h item)
    else return none
  | .float high low => host.addFloat high low h item
  | .generic _ => return none

end Totals

/-! ### The machine -/

/-- What has failed. The program does not record it. -/
inductive SumFailure where
  | start | iterator | addition | result
deriving DecidableEq, Repr

inductive SumTurn where
  | starting (source start : Value)
  /-- `__iter__` was called. -/
  | opening (start : Value)
  | summing (state : SumState Value)
  /-- The iterator was asked, and answers in a call. -/
  | waiting (state : SumState Value)
  /-- The methods of `+` are being called. -/
  | adding (iterator : Value) (answered : List (BinaryCandidate Value × Value))
    (turn : DispatchTurn)
  | finished
  | failed (failure : SumFailure) (fault : Fault)

/-- An item that is added to a total. -/
structure SumItem where
  heap : Heap
  total : SumTotal Value
  item : Value

structure Addition extends SumItem where
  after : Heap
  result : SumTotal Value

/-- A sum under way. The program does not record what was asked for and added. -/
structure Summing where
  heap : Heap
  registers : List Value
  destination : Nat
  turn : SumTurn
  requests : Nat
  /-- The heap in which the iterator was found to be exhausted. -/
  exhausted : Option Heap
  /-- The heap in which the start value was looked at, and the total it made. -/
  startHeap : Option Heap
  first : Option (SumTotal Value)
  sums : List Addition
  pending : Option SumItem

namespace Summing

/-- Runs a computation on the heap; a fault ends the sum. -/
def on {α : Type} (s : Summing) (failure : SumFailure) (m : HeapM α) (k : α → Summing → Summing) :
    Summing :=
  match m s.heap with
  | .ok a heap => k a { s with heap }
  | .error fault heap => { s with heap, turn := .failed failure fault }

def store (s : Summing) (value : Value) : Summing :=
  { s with registers := s.registers.set s.destination value }

/-- The item is added, and the next one is asked for. -/
def added (s : Summing) (iterator : Value) (result : SumTotal Value) : Summing :=
  { s with
    sums := s.sums ++ s.pending.toList.map fun p => ⟨p, s.heap, result⟩
    pending := none
    turn := .summing ⟨iterator, result⟩ }

section Step

variable (host : SumHost)

/-- The iterator is exhausted. -/
def exhaust (s : Summing) (total : SumTotal Value) : Summing :=
  { s with exhausted := some s.heap }.on .result (materializeSumTotal host total) fun value s =>
    { s.store value with turn := .finished }

def starts (s : Summing) (iterator start : Value) : Summing :=
  match sumStartTotal host s.heap start with
  | .ok total =>
    { s with startHeap := some s.heap, first := some total, turn := .summing ⟨iterator, total⟩ }
  | .error fault => { s with startHeap := some s.heap, turn := .failed .start fault }

/-- `invoke_sum` -/
def begin (s : Summing) (source start : Value) : Summing :=
  s.on .iterator (beginIteration host.types source) fun iterator s =>
    match iterator with
    | some iterator => s.starts host iterator start
    | none => { s with turn := .opening start }

/-- `__iter__` has returned. -/
def opened (s : Summing) (start iterator : Value) : Summing :=
  (s.store iterator).on .iterator (reading (·.validateIterator iterator)) fun _ s =>
    s.starts host iterator start

variable [HostLibrary] [FloatLibrary]

/-- The `+` operator is applied to the total and the item. -/
def operate (s : Summing) (iterator left item : Value) : Summing :=
  match s.heap.binaryProtocol host.objectClass host.types .add left item with
  | .error fault => { s with turn := .failed .addition fault }
  | .ok (some protocol) =>
    { s with turn := .adding iterator [] (.ready { protocol with completion := .sum iterator }) }
  | .ok none =>
    s.on .addition (binaryValues host.divide host.floats .add left item) fun value s =>
      s.added iterator (.generic value)

/-- `add_sum_item` -/
def addItem (s : Summing) (state : SumState Value) (item : Value) : Summing :=
  let s := { s with pending := some ⟨s.heap, state.total, item⟩ }
  match quickSumTotal host s.heap state.total item with
  | .error fault => { s with turn := .failed .addition fault }
  | .ok (some total) => s.added state.iterator total
  | .ok none =>
    s.on .addition (materializeSumTotal host state.total) fun left s =>
      s.operate host state.iterator left item

/-- One pass through the loop of `continue_sum`. -/
def ask (s : Summing) (state : SumState Value) : Summing :=
  { s with requests := s.requests + 1 }.on .iterator (askIterator state.iterator) fun asked s =>
    match asked with
    | .item value => s.addItem host state value
    | .exhausted => s.exhaust host state.total
    | .called => { s with turn := .waiting state }

/-- What happens next; the reply is what a call ends with that is being waited for. The methods of
`+` are called one after the other, and this goes on when they are through. -/
def step (s : Summing) (reply : Reply) : Summing :=
  match s.turn with
  | .starting source start => s.begin host source start
  | .opening start =>
    match reply with
    | .value heap iterator => { s with heap }.opened host start iterator
    | .raises heap fault _ => { s with heap, turn := .failed .iterator fault }
  | .summing state => s.ask host state
  | .waiting state =>
    match reply with
    | .value heap item =>
      ({ s with heap }.store item).addItem host state item
    | .raises heap fault stops =>
      if stops then { s with heap }.exhaust host state.total
      else { s with heap, turn := .failed .iterator fault }
  | .adding iterator _ (.value value _) => (s.store value).added iterator (.generic value)
  | .adding _ _ (.failed fault) => { s with turn := .failed .addition fault }
  | .adding _ _ _ | .finished | .failed _ _ => s

inductive Step : Summing → Summing → Prop where
  | moves {s : Summing} (reply : Reply) :
    Step s (s.step host reply)
  | operator {s : Summing} {iterator : Value} {answered : List (BinaryCandidate Value × Value)}
    {turn : DispatchTurn} {d : Dispatch} (adding : s.turn = .adding iterator answered turn)
    (step : DispatchStep host.divide host.floats host.extend host.powMod
      ⟨s.heap, answered, turn⟩ d) :
    Step s { s with heap := d.heap, turn := .adding iterator d.answered d.turn }

end Step

/-- The beginning of `sum(source, start)`. -/
def sum (heap : Heap) (registers : List Value) (destination : Nat) (source start : Value) :
    Summing where
  heap
  registers
  destination
  turn := .starting source start
  requests := 0
  exhausted := none
  startHeap := none
  first := none
  sums := []
  pending := none

end Summing

end Tonic
