import Mathlib.Data.Nat.Size
import Tonic.Integer
import Tonic.Library.Rounding

/-!
## Correctly rounded numbers

The quotient of two integers as a float, and integers and floats rounded at a decimal digit
(`number.rs`). None of them rounds an operand first.
-/

namespace Tonic

open Rounding

namespace F64

/-! ### Arithmetic of the floats -/

def neg (x : F64) : F64 := if x.negative then ofBits (x.bits - 2 ^ 63) else ofBits (x.bits + 2 ^ 63)

def zero (negative : Bool) : F64 := ofBits (if negative then 2 ^ 63 else 0)

def infinity (negative : Bool) : F64 := ofBits ((if negative then 2 ^ 63 else 0) + 2047 * 2 ^ 52)

def nan : F64 := ofBits 0x7ff8000000000000

/-- The float `± m * 2 ^ unit`. A mantissa of `2 ^ 53` carries into the exponent, and a number
beyond the largest one is infinite. -/
def encode (negative : Bool) (m : Nat) (unit : Int) : F64 :=
  ofBits ((if negative then 2 ^ 63 else 0) +
    min ((unit + 1074).toNat * 2 ^ 52 + m) (2047 * 2 ^ 52))

/-- The float nearest to `± m * 2 ^ e`, ties to even. -/
def nearest (negative : Bool) (m : Nat) (e : Int) : F64 :=
  if m = 0 then zero negative
  else
    let unit := max ((m.size : Int) + e - 53) (-1074)
    if unit ≤ e then encode negative (m * 2 ^ (e - unit).toNat) unit
    else encode negative (halfEven m (2 ^ (unit - e).toNat)) unit

/-- The product of two floats. -/
def mul (x y : F64) : F64 :=
  let negative := x.negative != y.negative
  if x.isNaN || y.isNaN then nan
  else if !x.isFinite || !y.isFinite then
    if x.scaled.1 = 0 ∨ y.scaled.1 = 0 then nan else infinity negative
  else nearest negative (x.scaled.1 * y.scaled.1) (x.scaled.2 + y.scaled.2 - 2150)

/-- `copysign` of a zero -/
def zeroLike (x : F64) : F64 := zero x.negative

end F64

/-! ### The quotient of two integers -/

def divisionOverflow : Fault :=
  .raise "OverflowError" "integer division result too large for float"

/-- The exponent of the leading bit of a quotient. -/
def leading (x y : Nat) : Int :=
  let exponent := (bigBits x : Int) - bigBits y
  if 0 ≤ exponent then if x < y * 2 ^ exponent.toNat then exponent - 1 else exponent
  else if x * 2 ^ (-exponent).toNat < y then exponent - 1 else exponent

/-- The integer that is the quotient of the shifted operands. -/
def shiftedQuotient (x y : Nat) (shift : Int) : Nat :=
  if 0 ≤ shift then halfEven (x * 2 ^ shift.toNat) y else halfEven x (y * 2 ^ (-shift).toNat)

def powerOfTwo (scale : Int) : F64 :=
  if -1022 ≤ scale then F64.ofBits ((scale + 1023).toNat * 2 ^ 52)
  else F64.ofBits (2 ^ (scale + 1074).toNat)

def ratio (x y : Int) : Except Fault F64 :=
  if y = 0 then .error (.raise "ZeroDivisionError" "division by zero")
  else
    let negative := decide (x < 0) != decide (y < 0)
    let signed := fun f : F64 => if negative then f.neg else f
    if x = 0 then .ok (signed (F64.zero false))
    else
      let exponent := leading x.natAbs y.natAbs
      if 1023 < exponent then .error divisionOverflow
      else if exponent < -1075 then .ok (signed (F64.zero false))
      else
        let shift := if exponent < -1022 then 1074 else 52 - exponent
        let q := shiftedQuotient x.natAbs y.natAbs shift
        if 2 ^ 64 ≤ q then .error divisionOverflow
        else
          let result := (F64.ofInt q).mul (powerOfTwo (-shift))
          if result.isFinite then .ok (signed result) else .error divisionOverflow

/-! ### Rounding at a decimal digit -/

def roundRatio (numerator : Int) (denominator : Nat) : Int :=
  let quotient := halfEven numerator.natAbs denominator
  if numerator < 0 then -quotient else quotient

/-- The integer ratio of a finite float. -/
def floatRatio (value : F64) : Int × Nat :=
  let (significand, exponent) := value.scaled
  let binaryExponent : Int := exponent - 1075
  if 0 ≤ binaryExponent then (value.signed (significand * 2 ^ binaryExponent.toNat), 1)
  else (value.signed significand, 2 ^ (-binaryExponent).toNat)

def roundFloatToInteger (value : F64) : Except Fault Int :=
  if value.isNaN then .error (.raise "ValueError" "cannot convert float NaN to integer")
  else if !value.isFinite then
    .error (.raise "OverflowError" "cannot convert float infinity to integer")
  else
    let (numerator, denominator) := floatRatio value
    .ok (roundRatio numerator denominator)

def roundFloat (value : F64) (ndigits : Int) : Except Fault F64 :=
  if !value.isFinite then .ok value
  else if 323 < ndigits then .ok value
  else if ndigits < -308 then .ok value.zeroLike
  else
    let (numerator, denominator) := floatRatio value
    if 0 ≤ ndigits then
      let scale := 10 ^ ndigits.toNat
      let rounded := roundRatio (numerator * scale) denominator
      if rounded = 0 then .ok value.zeroLike else ratio rounded scale
    else
      let scale := 10 ^ (-ndigits).toNat
      let rounded := roundRatio numerator (denominator * scale)
      if rounded = 0 then .ok value.zeroLike else ratio (rounded * scale) 1

/-- `round_integer`, apart from the object that holds the result. -/
def roundInteger (value : Int) (ndigits : Option Int) : Except Fault Int :=
  match ndigits with
  | none => .ok value
  | some ndigits =>
    if 0 ≤ ndigits ∨ value = 0 then .ok value
    else
      let places := -ndigits
      if (bigBits value : Int) + 1 < places then .ok 0
      else if 2 ^ 32 ≤ places then .error (.raise "MemoryError" "round precision is too large")
      else
        let scale := 10 ^ places.toNat
        .ok (roundRatio value scale * scale)

end Tonic
