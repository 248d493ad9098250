import Tonic.Hashing

namespace Tonic

def fitsI128 (n : Int) : Bool := decide (-(2 ^ 127) ≤ n) && decide (n < 2 ^ 127)

def checkedI128 (n : Int) : Option Int := if fitsI128 n then some n else none

def checkedUsize (n : Nat) : Option Nat := if n < 2 ^ 64 then some n else none

namespace Buffer

def itemSize : Nat := 8

/-- Whether the elements lie in row-major order: the expected stride grows from the last
dimension to the first. -/
def isCContiguous (b : Buffer) : Bool :=
  let rec go (expected : Nat) : List (Nat × Int) → Bool
    | [] => true
    | (dimension, stride) :: rest =>
      if 1 < dimension ∧ ((expected : Int) ≠ stride ∨ 2 ^ 63 ≤ expected) then false
      else
        let next := expected * max dimension 1
        if next < 2 ^ 64 then go next rest else false
  b.elements = 0 || go itemSize (b.shape.zip b.strides).reverse

/-- The offset of a coordinate vector, in elements. -/
def offset (start : Int) (steps : List (Nat × Int)) : Option Int :=
  steps.foldlM (fun offset (index, stride) => do
    checkedI128 (offset + (← checkedI128 (index * stride.tdiv itemSize)))) start

def inBacking (b : Buffer) (offset : Int) : Option Nat :=
  if 0 ≤ offset ∧ offset < b.data.length then some offset.toNat else none

def storageIndex (b : Buffer) (indices : List Nat) : Option Nat :=
  if indices.length = b.shape.length ∧ (indices.zip b.shape).all (fun (i, d) => i < d) then
    (offset b.origin (indices.zip b.strides)).bind b.inBacking
  else none

/-- The coordinates of a row-major element number, the last dimension first. -/
def coordinates : Nat → List Nat → List Nat
  | _, [] => []
  | index, dimension :: rest => index % dimension :: coordinates (index / dimension) rest

def flatStorageIndex (b : Buffer) (index : Nat) : Option Nat :=
  if b.elements ≤ index then none
  else if b.isCContiguous then checkedUsize (b.origin + index)
  else
    (offset b.origin ((coordinates index b.shape.reverse).zip b.strides.reverse)).bind b.inBacking

def setF64 (b : Buffer) (index : Nat) (value : F64) : Except Fault Buffer :=
  if !b.writable then .error (typeError "buffer is read-only")
  else if b.data.length ≤ index then .error (.raise "IndexError" "buffer index out of range")
  else if b.mutation.version + 1 < 2 ^ 64 then
    .ok { b with
      data := b.data.set index value
      mutation := { b.mutation with version := b.mutation.version + 1 } }
  else .error (runtimeError "buffer mutation version exhausted")

end Buffer

namespace Heap

variable (h : Heap)

/-- `Heap::integer`: the exact integer of an int, a bool or an instance of an int subclass. -/
def integer (v : Value) : Except Fault Int :=
  let v := h.nativeValue v
  match v.integer with
  | some n => .ok n
  | none => do
    match ← h.get v with
    | .int n => return n
    | _ => throw (typeError "expected integer")

def float (v : Value) : Except Fault F64 :=
  let v := h.nativeValue v
  match v.integer with
  | some n => .ok (F64.ofInt n)
  | none => do
    match ← h.get v with
    | .int n =>
      if (F64.ofInt n).isFinite then return F64.ofInt n
      else throw (.raise "OverflowError" "integer too large to convert to float")
    | .float x => return x
    | _ => throw (typeError "expected number")

/-- An index that may count from the end, as a position below `length`. -/
def normalizeIndex (message : String) (raw : Int) (length : Nat) : Except Fault Nat :=
  let i := if raw < 0 then length + raw else raw
  if fitsI128 raw ∧ 0 ≤ i ∧ i < length then .ok i.toNat else .error (.raise "IndexError" message)

def bufferIndex (b : Buffer) (index : Value) : Except Fault Nat := do
  let outOfRange := "buffer index out of range"
  let found ← match h.tryGet (h.nativeValue index) with
    | some (.tuple indices) =>
      if indices.length ≠ b.shape.length then
        throw (.raise "IndexError" ("buffer expects " ++ toString b.shape.length ++
          " indices, got " ++ toString indices.length))
      let indices ← (indices.zip b.shape).mapM fun (index, dimension) => do
        normalizeIndex outOfRange (← h.integer index) dimension
      pure (b.storageIndex indices)
    | _ => do
      let i ← normalizeIndex outOfRange (← h.integer index) b.elements
      pure (b.flatStorageIndex i)
  match found with
  | some i => return i
  | none => throw (runtimeError "validated buffer layout produced an invalid index")

end Heap

end Tonic
