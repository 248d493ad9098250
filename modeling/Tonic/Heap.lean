import Mathlib.Data.Finset.Insert
import Tonic.Library.Effect
import Tonic.Shapes

/-!
## The generational heap

Logical slots carry a generation and point into compactable object storage. A collection only
happens at explicit safepoints, never during an allocation or a mutation.
-/

namespace Tonic

open Effect

structure Slot where
  generation : Nat
  location : Option Nat
deriving DecidableEq, Repr

structure HeapObject where
  object : Object
  slot : Nat
  young : Bool

structure Heap where
  shapes : Shapes
  nextType : Nat
  objects : List HeapObject
  slots : List Slot
  /-- The stack of reusable slots, its top first. -/
  free : List Nat
  remembered : Finset Nat
  externalFields : AList fun _ : Value × Nat => Value
  pendingForeign : List PendingForeign
  pendingGenerators : List Value
  pendingFinalizers : List Value
  finalizedObjects : List Value

abbrev HeapM := EStateM Fault Heap

def invalidValue : Value → Fault
  | .heap _ _ => .raise "HandleError" "stale or invalid internal heap handle"
  | _ => typeError "expected a heap object"

namespace Heap

def empty : Heap :=
  ⟨.empty, 0, [], [], [], ∅, ∅, [], [], [], []⟩

/-- Where the object of a handle is stored, if the handle is not stale. -/
def location (h : Heap) : Value → Option Nat
  | .heap index generation =>
    match h.slots[index]? with
    | some slot => if slot.generation = generation then slot.location else none
    | none => none
  | _ => none

def entry (h : Heap) (v : Value) : Option HeapObject :=
  (h.location v).bind fun l => h.objects[l]?

def tryGet (h : Heap) (v : Value) : Option Object := (h.entry v).map (·.object)

def get (h : Heap) (v : Value) : Except Fault Object :=
  match h.tryGet v with
  | some o => .ok o
  | none => .error (invalidValue v)

def isYoung (h : Heap) (v : Value) : Bool := (h.entry v).any (·.young)

/-- The exact builtin value behind an instance of a builtin subclass. -/
def nativeValue (h : Heap) (v : Value) : Value :=
  match h.tryGet v with
  | some (.instanceObject _ _ (some backing)) => backing
  | _ => v

/-- `Heap::class`. -/
def classOf (h : Heap) (v : Value) : Except Fault Class :=
  match h.get v with
  | .ok (.classObject c) => .ok c
  | .ok _ => .error (typeError "expected a Tonic class")
  | .error e => .error e

/-- The current handle of the object in a storage entry. -/
def handle (h : Heap) (e : HeapObject) : Value :=
  .heap e.slot ((h.slots[e.slot]?).elim 0 (·.generation))

def externalEdges (h : Heap) (owner : Value) : List Value :=
  (h.externalFields.entries.filter (·.1.1 = owner)).map (·.2)

/-- Every edge out of a stored object: what its payload traces and its external fields. -/
def edges (h : Heap) (e : HeapObject) : List Value :=
  e.object.trace ++ h.externalEdges (h.handle e)

end Heap

/-! ### Primitive operations -/

def getObject (v : Value) : HeapM Object := reading (·.get v)

def tryGetObject (v : Value) : HeapM (Option Object) := reading fun h => .ok (h.tryGet v)

def nativeValue (v : Value) : HeapM Value := reading fun h => .ok (h.nativeValue v)

def classOf (v : Value) : HeapM Class := reading (·.classOf v)

/-- Stores a payload through `get_mut`. -/
def setObject (v : Value) (object : Object) : HeapM Unit := do
  let h ← get
  match h.location v with
  | none => throw (invalidValue v)
  | some l => set { h with objects := h.objects.modify l fun e => { e with object } }

/-- The slot an allocation uses: the last one freed, else a new one. -/
def allocSlot : HeapM Nat := do
  let h ← get
  match h.free with
  | slot :: free =>
    set { h with free }
    pure slot
  | [] =>
    if h.slots.length < 2 ^ 32 then
      set { h with slots := h.slots ++ [Slot.mk 1 none] }
      pure h.slots.length
    else throw (.raise "MemoryError" "heap handle capacity exhausted")

def alloc (object : Object) : HeapM Value := do
  let slot ← allocSlot
  let h ← get
  match h.slots[slot]? with
  | none => throw (.panicked "index out of bounds")
  | some s =>
    set { h with
      slots := h.slots.set slot { s with location := some h.objects.length }
      objects := h.objects ++ [HeapObject.mk object slot true] }
    pure (.heap slot s.generation)

/-- Remembers an old owner before it receives a young value. -/
def Heap.writeBarrier (owner value : Value) (h : Heap) : Heap :=
  match h.entry owner, h.entry value with
  | some o, some v =>
    if !o.young && v.young then { h with remembered := insert o.slot h.remembered } else h
  | _, _ => h

def writeBarrier (owner value : Value) : HeapM Unit := modify (Heap.writeBarrier owner value)

def writeBarrierPair (owner first second : Value) : HeapM Unit := do
  writeBarrier owner first
  writeBarrier owner second

def insertExternalField (owner : Value) (field : Nat) (value : Value) : HeapM Unit := do
  writeBarrier owner value
  modify fun h => { h with externalFields := h.externalFields.insert (owner, field) value }

/-- Sets or removes a field a native extension keeps on a managed object. -/
def storeExternalField (owner : Value) (field : Nat) (value : Option Value) : HeapM Unit := do
  if field = 0 then throw (.raise "HandleError" "native field token cannot be zero")
  let _ ← getObject owner
  match value with
  | some value =>
    if value.heapIndex.isSome then
      let _ ← getObject value
    insertExternalField owner field value
  | none => modify fun h => { h with externalFields := h.externalFields.erase (owner, field) }

end Tonic
