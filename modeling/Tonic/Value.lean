import Mathlib.Algebra.Order.Ring.Int
import Mathlib.Algebra.Order.Ring.Nat
import Mathlib.Data.List.Basic

namespace Tonic

/-- UTF-8 byte offsets, kept from the syntax tree to run-time errors. -/
structure Span where
  start : Nat := 0
  stop : Nat := 0
deriving DecidableEq, Repr, Inhabited

structure Diagnostic where
  kind : String
  message : String
deriving DecidableEq, Repr, Inhabited

/-- How a call can fail: a `Diagnostic` that the caller sees as an `Err`, or a panic of the
runtime itself (an `expect`, an `unreachable!`, an index out of bounds). -/
inductive Fault where
  | raised (diagnostic : Diagnostic)
  | panicked (reason : String)
deriving DecidableEq, Repr, Inhabited

def Fault.raise (kind message : String) : Fault := .raised ⟨kind, message⟩

def typeError (message : String) : Fault := .raise "TypeError" message
def runtimeError (message : String) : Fault := .raise "RuntimeError" message
def bytecodeError (message : String) : Fault := .raise "BytecodeError" message

def minInt : Int := -(2 ^ 60)
def maxInt : Int := 2 ^ 60 - 1

/-- The payload of an immediate integer: 61 bits, so the range is part of the type. -/
@[ext] structure SmallInt where
  val : Int
  lower : minInt ≤ val
  upper : val ≤ maxInt
deriving DecidableEq, Repr

instance : Inhabited SmallInt := ⟨⟨0, by decide, by decide⟩⟩

/-- A managed value. The runtime packs it into 64 bits (`raw`); a heap handle names a slot and
the generation the slot had when the handle was made. -/
inductive Value where
  | none
  | unbound
  | notImplemented
  | ellipsis
  | bool (b : Bool)
  | small (n : SmallInt)
  | heap (index generation : Nat)
deriving DecidableEq, Repr, Inhabited

namespace Value

def maxGeneration : Nat := 2 ^ 29 - 1

def int (n : Int) : Option Value :=
  if h : minInt ≤ n ∧ n ≤ maxInt then some (small ⟨n, h.1, h.2⟩) else Option.none

def asInt : Value → Option Int
  | small n => some n.val
  | _ => Option.none

def asBool : Value → Option Bool
  | bool b => some b
  | _ => Option.none

def heapIndex : Value → Option Nat
  | heap index _ => some index
  | _ => Option.none

/-- `Value::integer`: an immediate integer or a bool. -/
def integer : Value → Option Int
  | small n => some n.val
  | bool b => some b.toInt
  | _ => Option.none

/-- The 64-bit word of a value. -/
def raw : Value → Nat
  | none => 4
  | unbound => 5
  | notImplemented => 6
  | ellipsis => 7
  | bool false => 2
  | bool true => 3
  | small n => ((n.val % 2 ^ 61).toNat * 8 + 1) % 2 ^ 64
  | heap index generation => generation * 2 ^ 35 + index * 8

/-- The handles that fit the word: a 32-bit slot and a non-zero 29-bit generation. -/
def Encodable : Value → Prop
  | heap index generation => index < 2 ^ 32 ∧ 0 < generation ∧ generation ≤ maxGeneration
  | _ => True

/-- The packed word determines the value, so comparing words compares values. -/
theorem raw_injective {v w : Value} (hv : v.Encodable) (hw : w.Encodable)
    (same : v.raw = w.raw) : v = w := by
  rcases v with _ | _ | _ | _ | (_ | _) | n | ⟨i, g⟩ <;>
    rcases w with _ | _ | _ | _ | (_ | _) | m | ⟨j, k⟩ <;>
    simp only [raw, Encodable, maxGeneration] at same hv hw
  -- the low three bits tell the constructors apart
  any_goals rfl
  any_goals (simp at same; done)
  any_goals (exfalso; omega)
  · have hn := n.lower; have hn' := n.upper; have hm := m.lower; have hm' := m.upper
    simp only [minInt, maxInt] at hn hn' hm hm'
    congr 1; ext; omega
  · congr 1 <;> omega

theorem int_eq_some {n : Int} {v : Value} (h : int n = some v) : v.asInt = some n := by
  unfold int at h
  split at h
  · cases h; rfl
  · cases h

end Value

end Tonic
