import Tonic.Equality
import Tonic.Iterators
import Tonic.Library.Progression

/-!
## Lengths, items and slices

The sequences are the tuples, the lists, the strings, which count in characters, and the bytes. A
range has a length and items, but no slices.
-/

namespace Tonic

open Effect

def rangeLen (start stop step : Int) : Int :=
  if 0 < step then
    if stop ≤ start then 0 else (stop - start - 1) / step + 1
  else if start ≤ stop then 0
  else (start - stop - 1) / -step + 1

/-! ### The positions of a slice -/

def minI128 : Int := -2 ^ 127
def maxI128 : Int := 2 ^ 127 - 1

/-- `to_i128`, where a number that does not fit becomes the limit on its side. -/
def saturateI128 (n : Int) : Int :=
  if fitsI128 n then n else if n < 0 then minI128 else maxI128

def saturatingAdd (x y : Int) : Int := max minI128 (min maxI128 (x + y))

/-- `i128::clamp`. -/
def clamp (n low high : Int) : Int := if n < low then low else if high < n then high else n

/-- `as usize`. -/
def asUsize (n : Int) : Nat := (n % 2 ^ 64).toNat

/-- The loop of `slice_indices` for a positive step. -/
def ascending (stop step : Int) (positive : 0 < step) (current : Int) : List Nat :=
  if current < stop then
    asUsize current ::
      if fitsI128 (current + step) then ascending stop step positive (current + step) else []
  else []
termination_by (stop - current).toNat

/-- The loop for a negative step. -/
def descending (stop step : Int) (negative : step < 0) (current : Int) : List Nat :=
  if stop < current then
    asUsize current ::
      if fitsI128 (current + step) then descending stop step negative (current + step) else []
  else []
termination_by (current - stop).toNat

def sliceIndices (length : Nat) (start stop : Option Int) (step : Int) : List Nat :=
  let shift (n : Int) := if n < 0 then saturatingAdd n length else n
  if positive : 0 < step then
    let normalize n := clamp (shift n) 0 length
    ascending ((stop.map normalize).getD length) step positive ((start.map normalize).getD 0)
  else if negative : step < 0 then
    let upper : Int := length - 1
    let normalize n := clamp (shift n) (-1) upper
    descending ((stop.map normalize).getD (-1)) step negative ((start.map normalize).getD upper)
  -- the caller rejects this step
  else []

namespace Heap

variable (h : Heap)

def sliceComponent (v : Value) : Except Fault (Option Int) :=
  if v = .none then .ok none
  else
    match h.integer v with
    | .ok n => .ok (some (saturateI128 n))
    | .error _ => .error (typeError "slice indices must be integers or None")

def notSubscriptable : Fault := typeError "object is not subscriptable"

/-- The elements at the positions of a slice; one outside the sequence is a panic. -/
def gather {α : Type} (items : List α) (indices : List Nat) : Except Fault (List α) :=
  indices.mapM fun i =>
    match items[i]? with
    | some x => .ok x
    | none => .error (.panicked "index out of bounds")

/-- `Heap::slice`, up to the allocation of the result. -/
def sliced (source : Value) (components : Value × Value × Value) : Except Fault Object := do
  let source := h.nativeValue source
  let start ← h.sliceComponent components.1
  let stop ← h.sliceComponent components.2.1
  let step := (← h.sliceComponent components.2.2).getD 1
  if step = 0 then throw (.raise "ValueError" "slice step cannot be zero")
  match ← h.get source with
  | .list values => return .list (← gather values (sliceIndices values.length start stop step))
  | .tuple values => return .tuple (← gather values (sliceIndices values.length start stop step))
  | .str text =>
    let characters := text.toList
    let kept ← gather characters (sliceIndices characters.length start stop step)
    return .str (String.ofList kept)
  | .bytes items => return .bytes (← gather items (sliceIndices items.length start stop step))
  | _ => throw notSubscriptable

/-- `Heap::length`, before the number becomes a value. -/
def lengthOf (v : Value) : Except Fault Int := do
  match ← h.get (h.nativeValue v) with
  | .str text => return text.length
  | .bytes items => return items.length
  | .tuple values | .list values => return values.length
  | .buffer b => return b.elements
  | .dict d | .set d => return d.entries.length
  | .mappingProxy cls => return (← h.classOf cls).dictionaryLen
  | .range start stop step => return rangeLen start stop step
  | _ => throw (typeError "object has no len()")

end Heap

def slice (source : Value) (components : Value × Value × Value) : HeapM Value := do
  alloc (← reading (·.sliced source components))

def length (v : Value) : HeapM Value := do allocInt (← reading (·.lengthOf v))

/-! ### Subscription -/

def outOfRange : Fault := .raise "IndexError" "index out of range"

/-- How many items an index can name. -/
def Object.subscripts : Object → Option Int
  | .tuple values | .list values => some values.length
  | .str text => some text.length
  | .bytes items => some items.length
  | .range start stop step => some (rangeLen start stop step)
  | _ => none

/-- The item at a position that was checked. -/
def itemAt (i : Int) : Object → HeapM Value
  | .range start _ step => allocInt (start + i * step)
  | o => do
    match ← sequenceItem i.toNat o with
    | some v => return v
    | none => throw (.panicked "index out of bounds")

/-- A negative index counts from the end. -/
def fromEnd (count i : Int) : Int := if i < 0 then count + i else i

def indexedItem (o : Object) (raw : Int) : HeapM Value :=
  if !fitsI128 raw then throw outOfRange
  else
    match o.subscripts with
    | none => throw Heap.notSubscriptable
    | some count =>
      let i := fromEnd count raw
      if i < 0 ∨ count ≤ i then throw outOfRange else itemAt i o

variable [HostLibrary]

def missingKey (key : Value) : HeapM Value := do
  let text ← reading fun h => .ok ((h.format key true).toOption.getD "missing key")
  throw (.raise "KeyError" text)

/-- A class dictionary is asked for a name first, and for another key by its material. -/
def Heap.classItem (h : Heap) (c : Class) (key : Value) : Except Fault (Option Value) :=
  let named : Option Value := match h.tryGet key with
    | some (.str name) => (c.attributes.find? (·.1 = name)).map (·.2)
    | _ => none
  match named with
  | some v => .ok (some v)
  | none => do
    let found ← c.extraAttributes.findM? fun entry => h.dictKeysEqual entry.1 key
    return found.map (·.2)

/-- `Heap::item`. -/
def item (v index : Value) : HeapM Value := do
  let v ← nativeValue v
  match ← getObject v with
  | .dict _ =>
    match ← reading (·.dictGet v index) with
    | some found => return found
    | none => missingKey index
  | .mappingProxy cls =>
    let c ← classOf cls
    match ← reading (·.classItem c index) with
    | some found => return found
    | none => missingKey index
  | .buffer b =>
    let i ← reading (·.bufferIndex b index)
    match b.data[i]? with
    | some x => alloc (.float x)
    | none => throw (.panicked "index out of bounds")
  | o =>
    match ← tryGetObject index with
    | some (.slice start stop step) => slice v (start, stop, step)
    | _ => indexedItem o (← reading (·.integer index))

/-! ### Sequence patterns -/

/-- The loop of `MatchSequence` over a range. -/
def rangeItems (stop step next : Int) (items : List Value) : HeapM (List Value) := do
  if _more : Progression.Before step stop next then
    let v ← allocInt next
    if FixedWidth.Fits 64 (next + step) then rangeItems stop step (next + step) (items ++ [v])
    else throw (.raise "OverflowError" "range pattern overflow")
  else return items
termination_by (if 0 < step then stop - next else next - stop).toNat
decreasing_by
  rcases _more with ⟨up, before⟩ | ⟨down, before⟩
  · simp only [up, if_true]
    omega
  · have flat : ¬ 0 < step := by omega
    simp only [flat, if_false]
    omega

/-- The operand of a pattern holds its number of items, and a flag where it has a starred one. -/
def admits (operand count : Nat) : Bool :=
  let minimum := operand &&& 0x7fff
  let starred := operand &&& 0x8000 ≠ 0
  if starred then decide (minimum ≤ count) else decide (count = minimum)

/-- `Op::MatchSequence`: the value for the register. -/
def matchSequence (operand : Nat) (source : Value) : HeapM Value := do
  let storage ← nativeValue source
  let values ← match ← getObject storage with
    | .tuple values | .list values => pure (some values)
    | .range start stop step => some <$> rangeItems stop step start []
    | _ => pure none
  match values with
  | some values => if admits operand values.length then alloc (.list values) else return .none
  | none => return .none

end Tonic
