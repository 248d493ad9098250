import Mathlib.Algebra.Order.Ring.Int
import Mathlib.Algebra.Order.Ring.Nat
import Mathlib.Data.Nat.Log

namespace Tonic

/-- An IEEE double, by its 64 bits. -/
structure F64 where
  bits : Nat
  width : bits < 2 ^ 64
deriving DecidableEq, Repr

namespace F64

def ofBits (bits : Nat) : F64 := ⟨bits % 2 ^ 64, Nat.mod_lt _ (by decide)⟩

instance : Inhabited F64 := ⟨ofBits 0⟩

def negative (x : F64) : Bool := decide (2 ^ 63 ≤ x.bits)
def exponent (x : F64) : Nat := x.bits / 2 ^ 52 % 2 ^ 11
def fraction (x : F64) : Nat := x.bits % 2 ^ 52

def isNaN (x : F64) : Bool := x.exponent = 2047 && x.fraction ≠ 0
def isFinite (x : F64) : Bool := x.exponent ≠ 2047

/-- The integer `m` and exponent `e` with `x = ± m * 2 ^ (e - 1075)` for a finite `x`. -/
def scaled (x : F64) : Nat × Nat :=
  if x.exponent = 0 then (x.fraction, 1) else (2 ^ 52 + x.fraction, x.exponent)

def signed (x : F64) (magnitude : Nat) : Int :=
  if x.negative then -(magnitude : Int) else magnitude

/-- `BigInt::from_f64` where the float is finite with a zero `fract()`, otherwise `none`. -/
def integral? (x : F64) : Option Int :=
  let (m, e) := x.scaled
  if !x.isFinite then none
  else if 1075 ≤ e then some (x.signed (m * 2 ^ (e - 1075)))
  else if m % 2 ^ (1075 - e) = 0 then some (x.signed (m / 2 ^ (1075 - e)))
  else none

/-- The 53 leading bits of `m`, rounded to nearest with ties to even, as a fraction that may
carry into the exponent. `m` has `length` bits, at least 54. -/
def roundedFraction (m length : Nat) : Nat :=
  let shift := length - 53
  let q := m / 2 ^ shift
  let r := m % 2 ^ shift
  let half := 2 ^ (shift - 1)
  let up := if half < r ∨ (r = half ∧ q % 2 = 1) then 1 else 0
  q - 2 ^ 52 + up

/-- `n as f64`: the nearest double, infinite from the overflow threshold on. -/
def ofInt (n : Int) : F64 :=
  let m := n.natAbs
  let sign := if n < 0 then 2 ^ 63 else 0
  if m = 0 then ofBits 0
  else
    let length := Nat.log 2 m + 1
    let exponent := length + 1022
    let magnitude :=
      if length ≤ 53 then exponent * 2 ^ 52 + (m * 2 ^ (53 - length) - 2 ^ 52)
      else exponent * 2 ^ 52 + roundedFraction m length
    if 2047 * 2 ^ 52 ≤ magnitude then ofBits (sign + 2047 * 2 ^ 52)
    else ofBits (sign + magnitude)

example : (ofInt (-3)).bits = 0xc008000000000000 := by decide +kernel
example : (ofInt (2 ^ 53 + 3)).bits = 0x4340000000000002 := by decide +kernel

end F64

end Tonic
