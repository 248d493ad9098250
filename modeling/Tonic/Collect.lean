import Mathlib.Data.Finset.Sort
import Tonic.Classes
import Tonic.Library.Marking

/-!
## Collection

Minor collections trace the nursery from the roots and the remembered owners, major ones the full
heap. Marking is complete before any slot changes; then the storage is compacted in place.
-/

namespace Tonic

open Effect Marking

structure CollectionStats where
  reclaimed : Nat := 0
  youngReclaimed : Nat := 0
  survivors : Nat := 0
  promoted : Nat := 0
  moved : Nat := 0
  major : Bool := false
deriving DecidableEq, Repr

namespace Heap

/-- How the marker treats a value: immediates are skipped, a stale handle is refused, and a minor
collection does not enter old objects. -/
def look (h : Heap) (youngOnly : Bool) (v : Value) : Look Fault :=
  if v.heapIndex.isNone then .skip
  else match h.location v with
    | none => .invalid (invalidValue v)
    | some l => if youngOnly && !h.isYoung v then .skip else .node l

/-- The object graph the marker walks: payload edges first, then external fields. -/
def graph (h : Heap) (youngOnly : Bool) : Marking.Graph Value Fault where
  look := h.look youngOnly
  succ l := (h.objects[l]?).elim [] h.edges

/-- The edges of the remembered owners, where a minor collection starts. -/
def rememberedEdges (h : Heap) : List Value :=
  (h.remembered.sort).flatMap fun i =>
    match (h.slots[i]?).bind (·.location) with
    | some l => (h.objects[l]?).elim [] h.edges
    | none => []

def markRoots (h : Heap) (youngOnly : Bool) (roots : List Value) : Except Fault (List Bool) :=
  let work := roots ++ h.pendingGenerators ++ h.pendingFinalizers ++
    (if youngOnly then h.rememberedEdges else [])
  mark (h.graph youngOnly) (List.replicate h.objects.length false) work.reverse

def isSuspendedGenerator : Object → Bool
  | .generator frame => frame.state = .suspended
  | _ => false

def isFinalizable : Object → Bool
  | .instanceObject _ _ _ | .exception _ => true
  | _ => false

/-- The objects a collection would drop that satisfy `p`, by location. -/
def candidate (h : Heap) (youngOnly : Bool) (p : Object → Bool) (marked : List Bool) (l : Nat) :
    Option HeapObject :=
  (h.objects[l]?).filter fun e =>
    !((marked[l]?).getD false) && !(youngOnly && !e.young) && p e.object

end Heap

/-- Keeps an object, and all it leads to, through the collection under way. -/
def resurrect (marked : List Bool) (v : Value) : HeapM (List Bool) :=
  reading fun h => mark (h.graph false) marked [v]

def enqueueGenerator (v : Value) : HeapM Unit := do
  let h ← get
  if v ∉ h.pendingGenerators then
    set { h with pendingGenerators := h.pendingGenerators ++ [v] }

/-- Queues the suspended generators that are about to be dropped, so that they can be closed. -/
def queueUnreachableGenerators (youngOnly : Bool) : List Nat → List Bool → HeapM (List Bool)
  | [], marked => pure marked
  | l :: rest, marked => do
    let h ← get
    match h.candidate youngOnly Heap.isSuspendedGenerator marked l with
    | none => queueUnreachableGenerators youngOnly rest marked
    | some e =>
      let v := h.handle e
      enqueueGenerator v
      let marked ← resurrect marked v
      queueUnreachableGenerators youngOnly rest marked

/-- Whether the object was queued: it has a finalizer that has not been queued before. -/
def queueObjectFinalizer (v : Value) : HeapM Bool := do
  let h ← get
  if v ∈ h.finalizedObjects ∨ v ∈ h.pendingFinalizers then return false
  let finalizer ← reading (·.specialMethodCall v "__del__")
  if finalizer.isNone then return false
  set { h with
    finalizedObjects := h.finalizedObjects ++ [v]
    pendingFinalizers := h.pendingFinalizers ++ [v] }
  return true

def queueFinalizers : List Value → List Bool → HeapM (List Bool)
  | [], marked => pure marked
  | v :: rest, marked => do
    let queued ← queueObjectFinalizer v
    let marked ← if queued then resurrect marked v else pure marked
    queueFinalizers rest marked

def queueUnreachableObjectFinalizers (youngOnly : Bool) (marked : List Bool) :
    HeapM (List Bool) := do
  let h ← get
  let candidates := (List.range h.objects.length).filterMap
    (h.candidate youngOnly Heap.isFinalizable marked)
  queueFinalizers (candidates.map h.handle) marked

/-! ### Sweeping -/

structure SweepState where
  kept : List HeapObject
  slots : List Slot
  free : List Nat
  pendingForeign : List PendingForeign
  stats : CollectionStats

/-- An exhausted slot is retired for good, so a generation never wraps. -/
def Slot.retire (s : Slot) : Slot :=
  ⟨if s.generation < Value.maxGeneration then s.generation + 1 else s.generation, none⟩

namespace SweepState

def keep (s : SweepState) (old : Nat) (e : HeapObject) : SweepState :=
  { s with
    kept := s.kept ++ [{ e with young := false }]
    slots := s.slots.modify e.slot fun slot => { slot with location := some s.kept.length }
    stats := { s.stats with
      survivors := s.stats.survivors + 1
      promoted := s.stats.promoted + e.young.toNat
      moved := s.stats.moved + (decide (old ≠ s.kept.length)).toNat } }

def drop (s : SweepState) (e : HeapObject) : SweepState :=
  { s with
    slots := s.slots.modify e.slot Slot.retire
    free :=
      if (s.slots[e.slot]?).any (·.generation < Value.maxGeneration) then e.slot :: s.free
      else s.free
    pendingForeign := match e.object with
      | .foreign f => s.pendingForeign ++ [f.takeFinalizer]
      | _ => s.pendingForeign
    stats := { s.stats with
      reclaimed := s.stats.reclaimed + 1
      youngReclaimed := s.stats.youngReclaimed + e.young.toNat } }

end SweepState

def isLive (youngOnly : Bool) (marked : List Bool) (l : Nat) (e : HeapObject) : Bool :=
  (!e.young && youngOnly) || (marked[l]?).getD false

/-- Sweeps the objects from location `l` on: the kept ones move down to the next free place. -/
def sweepObjects (youngOnly : Bool) (marked : List Bool) :
    Nat → List HeapObject → SweepState → SweepState
  | _, [], s => s
  | l, e :: rest, s =>
    sweepObjects youngOnly marked (l + 1) rest
      (if isLive youngOnly marked l e then s.keep l e else s.drop e)

namespace Heap

def resolves (h : Heap) (v : Value) : Bool := (h.location v).isSome

/-- A class forgets the dead among its weak descendants. -/
def pruneDependents (alive : Value → Bool) : Object → Object
  | .classObject c => .classObject { c with dependents := c.dependents.filter alive }
  | o => o

def filterFields (fields : AList fun _ : Value × Nat => Value) (alive : Value → Bool) :
    AList fun _ : Value × Nat => Value :=
  ⟨fields.entries.filter fun x => alive x.1.1, fields.nodupKeys.sublist List.filter_sublist⟩

def sweep (h : Heap) (youngOnly : Bool) (marked : List Bool) : CollectionStats × Heap :=
  let s := sweepObjects youngOnly marked 0 h.objects
    ⟨[], h.slots, h.free, h.pendingForeign, { major := !youngOnly }⟩
  let t := { h with
    objects := s.kept, slots := s.slots, free := s.free, pendingForeign := s.pendingForeign
    remembered := ∅ }
  (s.stats, { t with
    finalizedObjects := t.finalizedObjects.filter t.resolves
    externalFields := filterFields t.externalFields t.resolves
    objects := t.objects.map fun e => { e with object := pruneDependents t.resolves e.object } })

end Heap

/-- `collect` and, with `youngOnly`, `collect_young`. -/
def collectWith (youngOnly : Bool) (roots : List Value) : HeapM CollectionStats := do
  let marked ← reading fun h => h.markRoots youngOnly roots
  let h ← get
  let marked ← queueUnreachableGenerators youngOnly (List.range h.objects.length) marked
  let marked ← queueUnreachableObjectFinalizers youngOnly marked
  let h ← get
  let (stats, h) := h.sweep youngOnly marked
  set h
  return stats

def collect (roots : List Value) : HeapM CollectionStats := collectWith false roots

def collectYoung (roots : List Value) : HeapM CollectionStats := collectWith true roots

end Tonic
