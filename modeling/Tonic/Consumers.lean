import Tonic.Membership
import Tonic.Roots

/-!
## Consumers of iterables

Unpacking and the constructors ask an iterator for one item after the other until it is exhausted.
A generator, and an iterator with a `__next__` of its own, answers in a frame; what was collected so
far waits in the action of that frame.
-/

namespace Tonic

open Effect

/-! ### Asking for items -/

namespace Heap

variable (h : Heap)

/-- `iterator_resumable`: the items are asked of a suspended frame. -/
def iteratorResumable (v : Value) : Bool := (h.tryGet v).any resumable

def isGenerator (v : Value) : Bool :=
  match h.tryGet v with
  | some (.generator frame) => frame.kind = .generator
  | _ => false

def validateIterator (v : Value) : Except Fault Unit := do
  if (h.tryGet v).any isIterator || h.isGenerator v then return ()
  if (← h.operatorMethodCall v "__next__").isSome then return ()
  throw (typeError "__iter__ returned a non-iterator")

end Heap

variable (types : RuntimeTypes Value)

/-- An explicit `__iter__` decides; successive items are the way out where there is none. -/
def sequenceFallback (source : Value) (error : Fault) : HeapM Value := do
  if (← reading (·.operatorMethodCall source "__iter__")).isSome then throw error
  if (← reading (·.operatorMethodCall source "__getitem__")).isNone then throw error
  alloc (.sequenceIterator types.sequenceIterator source 0 false)

def Fault.isTypeError : Fault → Bool
  | .raised error => error.kind = "TypeError"
  | .panicked _ => false

def iteratorWithSequenceFallback (source : Value) : HeapM Value := fun h =>
  match iterator source h with
  | .ok it t => .ok it t
  | .error e t => if e.isTypeError then sequenceFallback types source e t else .error e t

/-- The iterator of a source, or nothing where its `__iter__` has to be called. -/
def beginIteration (source : Value) : HeapM (Option Value) := fun h =>
  match iteratorWithSequenceFallback types source h with
  | .ok it t => .ok (some it) t
  | .error e t =>
    if e.isTypeError then
      match t.operatorMethodCall source "__iter__" with
      | .ok (some _) => .ok none t
      | .ok none => .error (typeError "value is not iterable") t
      | .error e => .error e t
    else .error e t

inductive Asked where
  | item (value : Value)
  | exhausted
  /-- A frame was resumed or `__next__` was called. -/
  | called
deriving DecidableEq

def askIterator (it : Value) : HeapM Asked := do
  let h ← get
  if h.iteratorResumable it then return .called
  else if (h.tryGet it).any isIterator then
    match ← iteratorNext it with
    | some value => return .item value
    | none => return .exhausted
  else
    if (← reading (·.operatorMethodCall it "__next__")).isNone then
      throw (typeError "object is not an iterator")
    return .called

/-- How a call ends. It may leave any heap behind. -/
inductive Reply where
  | value (heap : Heap) (value : Value)
  /-- An exception leaves the call; `stops` where it is a `StopIteration`. -/
  | raises (heap : Heap) (fault : Fault) (stops : Bool)

/-! ### Collecting -/

/-- `to_u8` -/
def byteOf (v : Value) : HeapM UInt8 := do
  let n ← reading (·.integer v)
  if 0 ≤ n ∧ n < 256 then return UInt8.ofNat n.toNat
  else throw (.raise "ValueError" "bytes must be in range(0, 256)")

inductive CollectTurn where
  | starting (kind : IterableCollectionKind Value) (source : Value)
  /-- `__iter__` was called. -/
  | opening (kind : IterableCollectionKind Value)
  | collecting (state : IterableCollection Value)
  /-- The iterator was asked, and answers in a call. -/
  | waiting (state : IterableCollection Value)
  | finished
  | failed (fault : Fault)

/-- A collection under way. What the iterator was asked for is not recorded by the program. -/
structure Collect where
  heap : Heap
  registers : List Value
  destination : Nat
  turn : CollectTurn
  requests : Nat
  given : List Value
  exhausted : Bool

namespace Collect

/-- Runs a computation on the heap; a fault ends the collection. -/
def on {α : Type} (s : Collect) (m : HeapM α) (k : α → Collect → Collect) : Collect :=
  match m s.heap with
  | .ok a heap => k a { s with heap }
  | .error fault heap => { s with heap, turn := .failed fault }

def store (s : Collect) (value : Value) : Collect :=
  { s with registers := s.registers.set s.destination value }

def returns (s : Collect) : Collect := { s with turn := .finished }

def starts (s : Collect) (kind : IterableCollectionKind Value) (iterator : Value) : Collect :=
  { s with turn := .collecting ⟨kind, iterator, []⟩ }

/-- The items of a list that is being initialized go to the list at once. -/
def add (state : IterableCollection Value) (item : Value) : HeapM (IterableCollection Value) :=
  match state.kind with
  | .listInit owner _ => do
    appendList owner item
    return state
  | _ => return { state with items := state.items ++ [item] }

/-- The object a constructor makes of the items. -/
def build (s : Collect) (object : HeapM Object) (finish : Value → HeapM Value) : Collect :=
  s.on (do finish (← alloc (← object))) fun value s => (s.store value).returns

def unpackError (count items : Nat) : Fault :=
  if items < count then .raise "ValueError"
    ("not enough values to unpack (expected " ++ toString count ++ ", got " ++ toString items ++ ")")
  else .raise "ValueError" ("too many values to unpack (expected " ++ toString count ++ ")")

/-- `copy_from_slice` -/
def copyInto (registers : List Value) (first : Nat) (items : List Value) : List Value :=
  registers.mapIdx fun i old => if first ≤ i then items[i - first]?.getD old else old

/-- `finish_iterable_collection`; instances of subclasses of the containers are made by
`finish_builtin_value`. -/
def finish (native : NativeSubclassFinish Value → Value → HeapM Value) (s : Collect)
    (state : IterableCollection Value) : Collect :=
  match state.kind with
  | .list => s.build (return .list state.items) pure
  | .tuple => s.build (return .tuple state.items) pure
  | .bytes => s.build (return .bytes (← state.items.mapM byteOf)) pure
  | .nativeList f => s.build (return .list state.items) (native f)
  | .nativeTuple f => s.build (return .tuple state.items) (native f)
  | .nativeBytes f => s.build (return .bytes (← state.items.mapM byteOf)) (native f)
  | .listInit _ result => (s.store result).returns
  | .unpack first count =>
    if state.items.length = count then
      { s with registers := copyInto s.registers first state.items }.returns
    else { s with turn := .failed (unpackError count state.items.length) }

/-- An item is added, and the next one is asked for. -/
def receive (s : Collect) (state : IterableCollection Value) (item : Value) : Collect :=
  { s with given := s.given ++ [item] }.on (add state item) fun state s =>
    { s with turn := .collecting state }

section Step

variable (native : NativeSubclassFinish Value → Value → HeapM Value)

def exhaust (s : Collect) (state : IterableCollection Value) : Collect :=
  finish native { s with exhausted := true } state

/-- One pass through the loop of `continue_iterable_collection`. -/
def ask (s : Collect) (state : IterableCollection Value) : Collect :=
  { s with requests := s.requests + 1 }.on (askIterator state.iterator) fun asked s =>
    match asked with
    | .item value => s.receive state value
    | .exhausted => s.exhaust native state
    | .called => { s with turn := .waiting state }

/-- `invoke_iterable_collection` -/
def begin (s : Collect) (kind : IterableCollectionKind Value) (source : Value) : Collect :=
  s.on (beginIteration types source) fun iterator s =>
    match iterator with
    | some iterator => s.starts kind iterator
    | none => { s with turn := .opening kind }

/-- `__iter__` has returned. -/
def opened (s : Collect) (kind : IterableCollectionKind Value) (iterator : Value) : Collect :=
  (s.store iterator).on (reading (·.validateIterator iterator)) fun _ s => s.starts kind iterator

/-- What happens next; the reply is what a call ends with that is being waited for. The result of a
call is stored in the destination before anything else is done with it. -/
def step (s : Collect) (reply : Reply) : Collect :=
  match s.turn with
  | .starting kind source => s.begin types kind source
  | .opening kind =>
    match reply with
    | .value heap iterator => { s with heap }.opened kind iterator
    | .raises heap fault _ => { s with heap, turn := .failed fault }
  | .collecting state => s.ask native state
  | .waiting state =>
    match reply with
    | .value heap item => ({ s with heap }.store item).receive state item
    | .raises heap fault stops =>
      if stops then { s with heap }.exhaust native state
      else { s with heap, turn := .failed fault }
  | .finished | .failed _ => s

def run (s : Collect) (replies : List Reply) : Collect := replies.foldl (step types native) s

end Step

/-- `UNPACK`: the items go to as many registers, the first of which takes the results of calls. -/
def unpack (heap : Heap) (registers : List Value) (source : Value) (first count : Nat) : Collect where
  heap
  registers
  destination := first
  turn := .starting (.unpack first count) source
  requests := 0
  given := []
  exhausted := false

end Collect

/-! ### Unpacking -/

namespace Collect

variable {types : RuntimeTypes Value} {first count : Nat} {s : Collect}
  {native : NativeSubclassFinish Value → Value → HeapM Value}

/-- Nothing is compared with the number of targets until the iterator is exhausted. -/
def Books (first count : Nat) (s : Collect) : Prop :=
  match s.turn with
  | .starting kind _ | .opening kind =>
    kind = .unpack first count ∧ s.exhausted = false ∧ s.requests = 0 ∧ s.given = []
  | .collecting state =>
    state.kind = .unpack first count ∧ s.exhausted = false ∧ s.requests = s.given.length ∧
      state.items = s.given
  | .waiting state =>
    state.kind = .unpack first count ∧ s.exhausted = false ∧ s.requests = s.given.length + 1 ∧
      state.items = s.given
  | .finished =>
    s.exhausted = true ∧ s.requests = s.given.length + 1 ∧ s.given.length = count ∧
      ∀ i < count, first + i < s.registers.length → s.registers[first + i]? = s.given[i]?
  | .failed fault =>
    if s.exhausted then s.requests = s.given.length + 1 ∧ s.given.length ≠ count ∧
      fault = unpackError count s.given.length
    else s.given.length ≤ s.requests ∧ s.requests ≤ s.given.length + 1

theorem copyInto_get {registers items : List Value} {i : Nat} (item : i < items.length)
    (target : first + i < registers.length) :
    (copyInto registers first items)[first + i]? = items[i]? := by
  rw [copyInto, List.getElem?_mapIdx, List.getElem?_eq_getElem target, Option.map_some,
    if_pos (Nat.le_add_right _ _), Nat.add_sub_cancel_left, List.getElem?_eq_getElem item]
  rfl

theorem length_copyInto (registers items : List Value) :
    (copyInto registers first items).length = registers.length := List.length_mapIdx

/-- Asking has failed. -/
theorem failed_books (fresh : s.exhausted = false) (low : s.given.length ≤ s.requests)
    (high : s.requests ≤ s.given.length + 1) (fault : Fault) (heap : Heap) :
    Books first count { s with heap, turn := .failed fault } := by
  rw [Books]
  dsimp only
  rw [if_neg (by rw [fresh]; exact Bool.false_ne_true)]
  exact ⟨low, high⟩

theorem starts_books {kind : IterableCollectionKind Value} (unpacks : kind = .unpack first count)
    (fresh : s.exhausted = false) (requests : s.requests = 0) (given : s.given = [])
    (iterator : Value) : (s.starts kind iterator).Books first count := by
  refine ⟨unpacks, fresh, ?_, given.symm⟩
  change s.requests = s.given.length
  rw [requests, given]
  rfl

theorem exhaust_books {state : IterableCollection Value} (kind : state.kind = .unpack first count)
    (requests : s.requests = s.given.length + 1) (items : state.items = s.given) :
    (s.exhaust native state).Books first count := by
  rw [exhaust, finish, kind, items]
  dsimp only
  split
  · next right =>
    refine ⟨rfl, requests, right, fun i low target => ?_⟩
    have target : first + i < s.registers.length := by
      rw [← length_copyInto s.registers s.given]
      exact target
    exact copyInto_get (right ▸ low) target
  · next wrong => exact ⟨requests, wrong, rfl⟩

theorem receive_books {state : IterableCollection Value} {item : Value}
    (kind : state.kind = .unpack first count) (fresh : s.exhausted = false)
    (requests : s.requests = s.given.length + 1) (items : state.items = s.given) :
    (s.receive state item).Books first count := by
  have added : add state item = pure { state with items := state.items ++ [item] } := by
    rw [add, kind]
  rw [receive, added, on]
  refine ⟨kind, fresh, ?_, ?_⟩
  · change s.requests = (s.given ++ [item]).length
    rw [requests, List.length_append]
    rfl
  · change state.items ++ [item] = s.given ++ [item]
    rw [items]

theorem ask_books {state : IterableCollection Value} (kind : state.kind = .unpack first count)
    (fresh : s.exhausted = false) (requests : s.requests = s.given.length)
    (items : state.items = s.given) : (s.ask native state).Books first count := by
  have counted : s.requests + 1 = s.given.length + 1 := congrArg (· + 1) requests
  unfold ask on
  split
  · next asked heap _ =>
    cases asked with
    | item value => exact receive_books kind fresh counted items
    | exhausted => exact exhaust_books kind counted items
    | called => exact ⟨kind, fresh, counted, items⟩
  · refine failed_books (s := { s with requests := s.requests + 1 }) fresh ?_ ?_ _ _
    · exact Nat.le_succ_of_le requests.ge
    · exact Nat.succ_le_succ requests.le

/-- One step. -/
theorem step_books (books : s.Books first count) (reply : Reply) :
    (s.step types native reply).Books first count := by
  have unfolded := books
  unfold Books at unfolded
  unfold step
  cases turn : s.turn with
  | starting kind source =>
    rw [turn] at unfolded
    obtain ⟨unpacks, fresh, requests, given⟩ := unfolded
    dsimp only
    unfold begin on
    split
    · next iterator heap _ =>
      cases iterator with
      | some iterator => exact starts_books unpacks fresh requests given iterator
      | none => exact ⟨unpacks, fresh, requests, given⟩
    · refine failed_books fresh ?_ ?_ _ _
      · rw [given]
        exact Nat.zero_le _
      · rw [requests]
        exact Nat.zero_le _
  | opening kind =>
    rw [turn] at unfolded
    obtain ⟨unpacks, fresh, requests, given⟩ := unfolded
    have low : s.given.length ≤ s.requests := by
      rw [given]
      exact Nat.zero_le _
    have high : s.requests ≤ s.given.length + 1 := by
      rw [requests]
      exact Nat.zero_le _
    cases reply with
    | value heap iterator =>
      simp only [opened, on]
      split
      · exact starts_books unpacks fresh requests given iterator
      · exact failed_books (s := Collect.store { s with heap } iterator) fresh low high _ _
    | raises heap fault stops => exact failed_books fresh low high _ _
  | collecting state =>
    rw [turn] at unfolded
    obtain ⟨kind, fresh, requests, items⟩ := unfolded
    exact ask_books kind fresh requests items
  | waiting state =>
    rw [turn] at unfolded
    obtain ⟨kind, fresh, requests, items⟩ := unfolded
    cases reply with
    | value heap item => exact receive_books kind fresh requests items
    | raises heap fault stops =>
      dsimp only
      split
      · exact exhaust_books kind requests items
      · exact failed_books fresh (by omega) requests.le _ _
  | finished => exact books
  | failed fault => exact books

/-- What unpacking does, however it is answered. -/
structure Unpacks (first count : Nat) (s : Collect) : Prop where
  /-- Each request but the last has given an item. -/
  asked : s.given.length ≤ s.requests ∧ s.requests ≤ s.given.length + 1
  /-- It is over when the iterator is exhausted, and then the targets hold the items. -/
  finished : s.turn = .finished → s.exhausted = true ∧ s.given.length = count ∧
    ∀ i < count, first + i < s.registers.length → s.registers[first + i]? = s.given[i]?
  exhausted : s.exhausted = true → s.requests = s.given.length + 1 ∧
    if s.given.length = count then s.turn = .finished
    else s.turn = .failed (unpackError count s.given.length)

theorem Books.unpacks (books : s.Books first count) : s.Unpacks first count := by
  unfold Books at books
  cases turn : s.turn with
  | starting kind source | opening kind =>
    rw [turn] at books
    obtain ⟨-, fresh, requests, given⟩ := books
    refine ⟨?_, fun ended => (by rw [turn] at ended; cases ended), fun ended => ?_⟩
    · rw [requests, given]
      exact ⟨Nat.le_refl _, Nat.zero_le _⟩
    · rw [fresh] at ended
      cases ended
  | collecting state | waiting state =>
    rw [turn] at books
    obtain ⟨-, fresh, requests, -⟩ := books
    refine ⟨by omega, fun ended => (by rw [turn] at ended; cases ended), fun ended => ?_⟩
    rw [fresh] at ended
    cases ended
  | finished =>
    rw [turn] at books
    obtain ⟨exhausted, requests, right, targets⟩ := books
    refine ⟨by omega, fun _ => ⟨exhausted, right, targets⟩, fun _ => ⟨requests, ?_⟩⟩
    rw [if_pos right, turn]
  | failed fault =>
    rw [turn] at books
    dsimp only at books
    split at books
    · obtain ⟨requests, wrong, rfl⟩ := books
      refine ⟨by omega, fun ended => (by rw [turn] at ended; cases ended), fun _ => ⟨requests, ?_⟩⟩
      rw [if_neg wrong, turn]
    · next fresh =>
      exact ⟨books, fun ended => (by rw [turn] at ended; cases ended), fun ended => absurd ended fresh⟩

end Collect

section Greedy

end Greedy

end Tonic
