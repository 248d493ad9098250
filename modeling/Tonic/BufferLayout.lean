import Tonic.Buffer
import Tonic.Library.Strided

/-!
## Buffer layouts

How a buffer is built from its backing storage, a shape and byte strides (`buffer.rs`), and what it
adds up.
-/

namespace Tonic

namespace Buffer

def layoutError (message : String) : Fault := .raise "BufferError" message

def rangeOverflows : Fault := layoutError "buffer stride range overflows"

/-- Goes on with the number if the checked operation has one. -/
def orElse {α : Type} (fault : Fault) : Option α → Except Fault α
  | some a => .ok a
  | none => .error fault

/-- The strides of a row-major layout, and the byte stride that the next dimension would have. -/
def contiguousLayout : List Nat → Except Fault (List Int × Nat)
  | [] => .ok ([], itemSize)
  | dimension :: shape => do
    let (strides, stride) ← contiguousLayout shape
    if 2 ^ 63 ≤ stride then throw (layoutError "buffer stride does not fit isize")
    let next ← orElse (layoutError "buffer byte length overflows usize")
      (checkedUsize (stride * dimension))
    return (stride :: strides, next)

def contiguousStrides (shape : List Nat) : Except Fault (List Int) :=
  return (← contiguousLayout shape).1

/-- One dimension reaches below the origin or above it. -/
def reach (range : Int × Int) (axis : Nat × Int) : Except Fault (Int × Int) := do
  let extent ← orElse rangeOverflows (checkedI128 ((axis.1 - 1 : Nat) * axis.2.tdiv itemSize))
  if extent < 0 then return (← orElse rangeOverflows (checkedI128 (range.1 + extent)), range.2)
  else return (range.1, ← orElse rangeOverflows (checkedI128 (range.2 + extent)))

/-- The last part of `validate_layout`: both ends of the layout are compared with the storage. -/
def validateReach (backing origin : Nat) (axes : List (Nat × Int)) : Except Fault Unit := do
  let (minimum, maximum) ← axes.foldlM reach (0, 0)
  let first ← orElse rangeOverflows (checkedI128 (origin + minimum))
  let last ← orElse rangeOverflows (checkedI128 (origin + maximum))
  if first < 0 ∨ (backing : Int) ≤ last then
    throw (layoutError "buffer shape, strides, and origin escape the backing allocation")

def validateLayout (backing : Nat) (shape : List Nat) (strides : List Int) (origin elements : Nat) :
    Except Fault Unit :=
  if backing < origin then .error (layoutError "buffer origin is outside its backing allocation")
  else if strides.any fun stride => stride.tmod itemSize ≠ 0 then
    .error (layoutError "buffer strides must be aligned to the f64 item size")
  else if elements = 0 then .ok ()
  else validateReach backing origin (shape.zip strides)

def countElements (shape : List Nat) : Except Fault Nat :=
  shape.foldlM (fun product dimension =>
    orElse (layoutError "buffer shape element count overflows usize")
      (checkedUsize (product * dimension))) 1

def f64Strided (values : List F64) (shape : List Nat) (strides : List Int) (origin : Nat)
    (writable : Bool) : Except Fault Buffer :=
  if 2 ^ 32 ≤ shape.length then .error (layoutError "buffer rank exceeds u32")
  else if strides.length ≠ shape.length then
    .error (layoutError ("buffer rank is " ++ toString shape.length ++ ", but " ++
      toString strides.length ++ " strides were provided"))
  else do
    let elements ← countElements shape
    let _ ← orElse (layoutError "buffer byte length overflows usize")
      (checkedUsize (elements * itemSize))
    validateLayout values.length shape strides origin elements
    return { data := values, origin, elements, shape, strides, writable, mutation := ⟨0, 0, false⟩ }

def f64 (values : List F64) (shape : List Nat) (writable : Bool) : Except Fault Buffer := do
  let strides ← contiguousStrides shape
  let buffer ← f64Strided values shape strides 0 writable
  if buffer.elements ≠ values.length then
    throw (layoutError ("buffer shape describes " ++ toString buffer.elements ++ " elements, got " ++
      toString values.length))
  return buffer

/-- The cells that are added up. -/
def logicalCells (b : Buffer) : Except Fault (List F64) :=
  if b.isCContiguous then do
    let stop ← orElse (.panicked "validated contiguous buffer range")
      (checkedUsize (b.origin + b.elements))
    if b.data.length < stop then throw (.panicked "range end index out of range for slice")
    return (b.data.take stop).drop b.origin
  else
    (List.range b.elements).mapM fun index => do
      let storage ← orElse (.panicked "validated buffer layout produces valid offsets")
        (b.flatStorageIndex index)
      orElse (.panicked "index out of bounds") b.data[storage]?

/-- `logical_sum`, where `sum` adds up floats one after the other. -/
def logicalSum (sum : List F64 → F64) (b : Buffer) : Except Fault F64 :=
  return sum (← b.logicalCells)

end Buffer

end Tonic
