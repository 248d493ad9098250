import Mathlib.Data.Nat.Log
import Tonic.Buffer
import Tonic.Bytecode
import Tonic.Library.FixedWidth

/-!
## Integer arithmetic

A binary operator first works on 64-bit words, when both operands are immediate, and goes over to
big integers when that gives no immediate result.
-/

namespace Tonic

open Effect FixedWidth

/-- What the host does with floats. -/
class FloatLibrary where
  powf : F64 → F64 → F64

def unsupported : Fault := typeError "unsupported operand types"
def divisionByZero : Fault := .raise "ZeroDivisionError" "division or modulo by zero"
def negativeShift : Fault := .raise "ValueError" "negative shift count"
def shiftTooLarge : Fault := .raise "MemoryError" "shift count is too large"
def exponentTooLarge : Fault := .raise "MemoryError" "exponent is too large"

def maxIntegerResultBits : Nat := 2 ^ 26

namespace F64

def isZero (x : F64) : Bool := x.exponent = 0 && x.fraction = 0

/-- `x < 0.0`. -/
def belowZero (x : F64) : Bool := x.negative && !x.isZero && !x.isNaN

end F64

namespace Heap

def isInteger (h : Heap) (v : Value) : Bool :=
  let v := h.nativeValue v
  v.integer.isSome || match h.tryGet v with
    | some (.int _) => true
    | _ => false

end Heap

/-- `Heap::int`. -/
def allocInt (n : Int) : HeapM Value :=
  match (checked 64 n).bind Value.int with
  | some v => return v
  | none => alloc (.int n)

/-- `BigInt::bits`. -/
def bigBits (n : Int) : Nat := if n = 0 then 0 else Nat.log 2 n.natAbs + 1

def maxU64 : Nat := 2 ^ 64 - 1

def floatPower [FloatLibrary] (base exponent : F64) : HeapM Value := do
  if base.isZero ∧ exponent.belowZero then throw divisionByZero
  -- the fraction of an infinite exponent is no number
  if base.belowZero ∧ exponent.integral? = none then
    throw (typeError "complex power results are not supported")
  let result := FloatLibrary.powf base exponent
  if ¬ result.isFinite ∧ ¬ result.isNaN ∧ base.isFinite ∧ exponent.isFinite then
    throw (.raise "OverflowError" "numeric result out of range")
  alloc (.float result)

/-! ### The fast path -/

/-- The loop of the power operator. -/
def checkedPow (result base : Int) (remaining : Nat) : Option Int :=
  if zero : remaining = 0 then some result
  else
    (if remaining % 2 ≠ 0 then checkedMul 64 result base else some result).bind fun result =>
      (if remaining / 2 ≠ 0 then checkedMul 64 base base else some base).bind fun base =>
        checkedPow result base (remaining / 2)
termination_by remaining
decreasing_by omega

/-- Floor division and modulo from the truncating ones. -/
def floorDivMod (x y : Int) : Int × Int :=
  let q := x.tdiv y
  let r := x.tmod y
  if r ≠ 0 ∧ (decide (r < 0) ≠ decide (y < 0)) then (q - 1, r + y) else (q, r)

def boolBinary (op : Op) (a b : Value) : Option Value :=
  match a.asBool, b.asBool with
  | some x, some y =>
    match op with
    | .bitOr => some (.bool (x || y))
    | .bitXor => some (.bool (x != y))
    | .bitAnd => some (.bool (x && y))
    | _ => none
  | _, _ => none

/-- The arithmetic on words: the result, if there is one, or an error. The power is not negative. -/
def wordBinary (op : Op) (x y : Int) : Except Fault (Option Int) :=
  match op with
  | .add => .ok (checkedAdd 64 x y)
  | .sub => .ok (checkedSub 64 x y)
  | .mul => .ok (checkedMul 64 x y)
  | .bitOr => .ok (some (bitOr 64 x y))
  | .bitXor => .ok (some (bitXor 64 x y))
  | .bitAnd => .ok (some (bitAnd 64 x y))
  | .leftShift | .rightShift =>
    if y < 0 then .error negativeShift
    else if 2 ^ 32 ≤ y then .ok none
    else if op = .leftShift then .ok (checkedShl 64 x y.toNat)
    else .ok ((checkedShr 64 x y.toNat).or (some (if x < 0 then -1 else 0)))
  | .pow => .ok (if 2 ^ 32 ≤ y then none else checkedPow 1 x y.toNat)
  | .floorDiv | .mod =>
    if y = 0 then .error divisionByZero
    else .ok (some (if op = .floorDiv then (floorDivMod x y).1 else (floorDivMod x y).2))
  | _ => .ok none

/-! ### Big integers -/

/-- A power that is not negative, of a base other than 0, 1 and -1. -/
def bigPow (x y : Int) : HeapM Value :=
  if 2 ^ 32 ≤ y then throw exponentTooLarge
  else if maxIntegerResultBits < min maxU64 (bigBits x * y.toNat) then throw exponentTooLarge
  else allocInt (x ^ y.toNat)

def bigShift (op : Op) (x y : Int) : HeapM Value :=
  if y < 0 then throw negativeShift
  else if op = .leftShift ∧ x = 0 then allocInt 0
  else if 2 ^ 64 ≤ y then
    if op = .rightShift then allocInt (if x < 0 then -1 else 0) else throw shiftTooLarge
  else if op = .leftShift ∧ maxIntegerResultBits < min maxU64 (bigBits x + y.toNat) then
    throw shiftTooLarge
  else allocInt (if op = .leftShift then x * 2 ^ y.toNat else x / 2 ^ y.toNat)

section Binary

variable [FloatLibrary]

/-- `rest` is true division. -/
def bigInteger (rest : HeapM Value) (op : Op) (x y : Int) : HeapM Value :=
  match op with
  | .add => allocInt (x + y)
  | .sub => allocInt (x - y)
  | .mul => allocInt (x * y)
  | .bitOr => allocInt (x.lor y)
  | .bitXor => allocInt (x.xor y)
  | .bitAnd => allocInt (x.land y)
  | .leftShift | .rightShift => bigShift op x y
  | .pow =>
    if x = 0 then
      if y < 0 then throw divisionByZero else allocInt (if y = 0 then 1 else 0)
    else if x = 1 then if y < 0 then alloc (.float (.ofInt 1)) else allocInt 1
    else if x = -1 then
      let result := if y.land 1 ≠ 0 then -1 else 1
      if y < 0 then alloc (.float (.ofInt result)) else allocInt result
    else if y < 0 then floatPower (.ofInt x) (.ofInt y)
    else bigPow x y
  | .floorDiv | .mod =>
    if y = 0 then throw divisionByZero
    else allocInt (if op = .floorDiv then (floorDivMod x y).1 else (floorDivMod x y).2)
  | .div => rest
  | _ => throw unsupported

/-- The second half of `Heap::binary`: big integers, and in `rest` true division and everything
that is no integer. -/
def bigBinary (rest : HeapM Value) (op : Op) (a b : Value) : HeapM Value := do
  let h ← get
  if h.isInteger a && h.isInteger b then
    let x ← reading (·.integer a)
    let y ← reading (·.integer b)
    bigInteger rest op x y
  else rest

/-- `Heap::binary`. -/
def binary (rest : HeapM Value) (op : Op) (a b : Value) : HeapM Value :=
  match boolBinary op a b with
  | some v => return v
  | none =>
    match a.integer, b.integer with
    | some x, some y =>
      if op = .pow ∧ y < 0 then
        if x = 0 then throw divisionByZero else floatPower (.ofInt x) (.ofInt y)
      else if op = .div then rest
      else
        match wordBinary op x y with
        | .error e => throw e
        | .ok n =>
          match n.bind Value.int with
          | some v => return v
          | none => bigBinary rest op a b
    | _, _ => bigBinary rest op a b

end Binary

/-- The shortcut of the interpreter and of compiled code. -/
def immediateBinary (op : Op) (left right : Value) : Option Value :=
  left.integer.bind fun left => right.integer.bind fun right =>
    (match op with
      | .add | .inplaceAdd => checkedAdd 64 left right
      | .sub => checkedSub 64 left right
      | .mul => checkedMul 64 left right
      | _ => none).bind Value.int

def baseBinaryOp : Op → Op
  | .inplaceAdd => .add
  | .inplaceSub => .sub
  | .inplaceMul => .mul
  | .inplaceDiv => .div
  | .inplaceFloorDiv => .floorDiv
  | .inplaceMod => .mod
  | .inplacePow => .pow
  | .inplaceBitOr => .bitOr
  | .inplaceBitXor => .bitXor
  | .inplaceBitAnd => .bitAnd
  | .inplaceLeftShift => .leftShift
  | .inplaceRightShift => .rightShift
  | .inplaceMatMul => .matMul
  | op => op

end Tonic
