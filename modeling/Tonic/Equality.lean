import Tonic.Classes
import Tonic.Integer

/-!
## Equality and hashing of values

Values are compared by the heap alone (`ops.rs`) or by the interpreter's protocols (`calls.rs`),
which call special methods and nest. The protocols are followed here up to the first method of the
program that they call.
-/

namespace Tonic

namespace F64

/-- `BigInt::from_f64` of a finite float: towards zero. -/
def trunc (x : F64) : Int :=
  let (m, e) := x.scaled
  x.signed (if 1075 ≤ e then m * 2 ^ (e - 1075) else m / 2 ^ (1075 - e))

/-- `fract()` of a finite float is not zero; it has the sign of the float. -/
def fractional (x : F64) : Bool :=
  let (m, e) := x.scaled
  decide (e < 1075) && decide (m % 2 ^ (1075 - e) ≠ 0)

/-- The floats that are no NaN lie in the order of these integers; both zeros are 0. -/
def rank (x : F64) : Int := x.signed (x.bits % 2 ^ 63)

def partialCmp (x y : F64) : Option Ordering :=
  if x.isNaN || y.isNaN then none else some (compare x.rank y.rank)

end F64

/-- How an integer compares with a float, without rounding the integer. -/
def integerFloatOrder (i : Int) (f : F64) : Option Ordering :=
  if f.isNaN then none
  else if !f.isFinite then some (if f.negative then .gt else .lt)
  else
    let order := compare i f.trunc
    if order = .eq ∧ f.fractional then some (if f.negative then .gt else .lt) else some order

namespace Heap

variable (h : Heap)

def isFloat (v : Value) : Bool :=
  match h.tryGet (h.nativeValue v) with
  | some (.float _) => true
  | _ => false

def numeric (v : Value) : Bool := h.isInteger v || h.isFloat v

def numberOrder (a b : Value) : Except Fault (Option Ordering) :=
  match a.integer, b.integer with
  | some x, some y => .ok (some (compare x y))
  | _, _ =>
    if h.isInteger a && h.isInteger b then do
      return some (compare (← h.integer a) (← h.integer b))
    else if h.isFloat a && h.isFloat b then do
      return (← h.float a).partialCmp (← h.float b)
    else do
      let reverse := h.isFloat a
      let i ← h.integer (if reverse then b else a)
      let f ← h.float (if reverse then a else b)
      return (integerFloatOrder i f).map fun c => if reverse then c.swap else c

/-- `*a == *b || self.equal(*a, *b)`: the same value is not asked. -/
def sameOr {ε : Type} (equal : Value → Value → Except ε Bool) (a b : Value) : Except ε Bool :=
  if a = b then .ok true else equal a b

/-- All pairs up to the first that differs; lists of different lengths are told apart first. -/
def pairwise {ε : Type} (equal : Value → Value → Except ε Bool) (as bs : List Value) :
    Except ε Bool :=
  if as.length ≠ bs.length then .ok false
  else (as.zip bs).foldr (fun (a, b) rest => do if ← equal a b then rest else return false)
    (.ok true)

/-- Whether some value of the list is equal to `a`. -/
def anyEqual {ε : Type} (equal : Value → Value → Except ε Bool) (a : Value) :
    List Value → Except ε Bool
  | [] => .ok false
  | b :: bs => do if ← sameOr equal a b then return true else anyEqual equal a bs

section Structural

variable [HostLibrary]

def dictGet (owner key : Value) : Except Fault (Option Value) := do
  let material ← h.dictKey key
  match ← h.get (h.nativeValue owner) with
  | .dict d => return (d.find material).bind fun i => (d.entries[i]?).map (·.2)
  | _ => throw (typeError "expected dict")

def dictKeysEqual (a b : Value) : Except Fault Bool := do
  return (← h.dictKey a).compare (← h.dictKey b) == .eq

/-- `structural_hash`, read as a signed number. -/
def structuralHash (v : Value) : Except Fault Int := do return (← h.dictKey v).hash

/-- `Heap::equal`; the first argument is the nesting that is still allowed. -/
def equalAt : Nat → Value → Value → Except Fault Bool
  | 0, _, _ => throw (.raise "RecursionError" "comparison nesting limit")
  | room + 1, a, b =>
    let equal := equalAt room
    if h.numeric a && h.numeric b then do return (← h.numberOrder a b) == some .eq
    else if a = b then .ok true
    else
      match h.tryGet (h.nativeValue a), h.tryGet (h.nativeValue b) with
      | some (.boundMethod f x), some (.boundMethod g y) => do
        if ← sameOr equal f g then sameOr equal x y else return false
      | some (.dict x), some (.dict y) =>
        if x.entries.length ≠ y.entries.length then .ok false
        else x.entries.foldr (fun (key, value) rest => do
          match ← h.dictGet b key with
          | none => return false
          | some other => if ← sameOr equal value other then rest else return false) (.ok true)
      | some (.str x), some (.str y) => .ok (x == y)
      | some (.bytes x), some (.bytes y) => .ok (x == y)
      | some (.tuple xs), some (.tuple ys) | some (.list xs), some (.list ys) =>
        pairwise (sameOr equal) xs ys
      | some (.genericAlias _ origin args), some (.genericAlias _ origin' args') => do
        if ← equal origin origin' then
          match h.tryGet origin with
          | some (.typingForm _ .literal) =>
            match h.canonicalLiteralArguments args, h.canonicalLiteralArguments args' with
            | .ok left, .ok right => return left == right
            | _, _ => equal args args'
          | _ => equal args args'
        else return false
      | some (.unionType _ xs), some (.unionType _ ys) =>
        if xs.length ≠ ys.length then .ok false
        else xs.foldr (fun x rest => do if ← anyEqual equal x ys then rest else return false)
          (.ok true)
      | some (.range a b c), some (.range x y z) =>
        let n := rangeLength a b c
        .ok (n == rangeLength x y z && (n == 0 || (a == x && (n == 1 || c == z))))
      | _, _ => .ok false

/-- `Heap::equal(a, b, depth)`. -/
def equal (a b : Value) (depth : Nat) : Except Fault Bool := h.equalAt (101 - depth) a b

end Structural

def metaclassMethodCall (owner : Value) (name : String) : Except Fault (Option DescriptorCall) := do
  let metaclass := (← h.classOf owner).metaclass
  if metaclass = .unbound then return none
  match ← h.classLookup metaclass name with
  | none => return none
  | some callable => return some (h.descriptorCallable callable owner metaclass)

/-- A special method of a class object is looked up on its metaclass. -/
def operatorMethodCall (v : Value) (name : String) : Except Fault (Option DescriptorCall) :=
  match h.tryGet v with
  | some (.classObject _) => h.metaclassMethodCall v name
  | _ => h.specialMethodCall v name

end Heap

/-! ### The protocols -/

/-- Why a protocol does not end in a result of its own: it fails, it goes on in a special method
of the program, or it goes on by looking up the keys of one container in another. -/
inductive Stop where
  | fails (fault : Fault)
  | leaves
  | enters (left right : Value)
deriving DecidableEq, Repr

def Stop.lift {α : Type} (result : Except Fault α) : Except Stop α := result.mapError .fails

def protocolNestingLimit : Nat := 32

namespace Heap

variable [HostLibrary] (h : Heap)

/-- `native_hash_kind`, with the test that the receiver is of that kind. -/
def nativeHashAccepts (v : Value) : Builtin → Option Bool
  | .intHash => some (h.isInteger v)
  | .floatHash => some (h.isFloat v)
  | .strHash => some (h.tryGet (h.nativeValue v) matches some (.str _))
  | .bytesHash => some (h.tryGet (h.nativeValue v) matches some (.bytes _))
  | .tupleHash => some (h.tryGet (h.nativeValue v) matches some (.tuple _))
  | .rangeHash => some (h.tryGet (h.nativeValue v) matches some (.range _ _ _))
  | _ => none

def hashRange (start stop step : Int) : Int :=
  let length := rangeLength start stop step
  hashRangeParts length (if length ≠ 0 then some start else none)
    (if 1 < length then some step else none)

def unhashable : Fault := typeError "unhashable type"

/-- `invoke_native_hash`; `item` is the protocol for the items of a sequence. -/
def nativeHash (item : Value → Except Stop Int) (v : Value) : Except Stop Int :=
  let v := h.nativeValue v
  let sequence (values : List Value) : Except Stop Int := do
    return sequenceFinish (sequenceSteps sequenceStart (← values.mapM item)) values.length
  match v with
  | .none => .ok 0x421
  | .notImplemented => .ok 0x422
  | .ellipsis => .ok 0x423
  | .unbound => throw (.fails (typeError "internal value is not hashable"))
  | .small n => .ok (normalizeI64 n.val)
  | .bool b => .ok (normalizeI64 b.toInt)
  | v => do
    match ← Stop.lift (h.get v) with
    | .int n => return normalizeBigint n
    | .float x =>
      if x.isNaN then return hashU64 v.raw
      match x.integral? with
      | some n => return normalizeBigint n
      | none => return hashU64 x.bits
    | .str text => return hashString text
    | .bytes bytes => return hashBytes bytes
    | .range start stop step => return hashRange start stop step
    | .tuple values => sequence values
    | .slice start stop step => sequence [start, stop, step]
    | .boundMethod f receiver => sequence [f, receiver]
    | .list _ | .dict _ | .buffer _ | .mappingProxy _ => throw (.fails unhashable)
    | _ => return hashU64 v.raw

/-- `invoke_hash_protocol_at`; the first argument is the nesting that is still allowed. -/
def hashAt : Nat → Value → Except Stop Int
  | 0, _ => throw (.fails (.raise "RecursionError" "hash nesting limit exceeded"))
  | room + 1, v =>
    match h.tryGet v with
    | some (.genericAlias _ _ _) | some (.unionType _ _) => Stop.lift (h.structuralHash v)
    | _ => do
      match ← Stop.lift (h.operatorMethodCall v "__hash__") with
      | none => h.nativeHash (hashAt room) v
      | some call =>
        if call.callable = .none then throw (.fails unhashable)
        match h.tryGet call.callable with
        | some (.builtin .objectHash) => return hashU64 v.raw
        | some (.builtin b) =>
          match h.nativeHashAccepts v b with
          | some true => h.nativeHash (hashAt room) (h.nativeValue v)
          | some false => throw (.fails (typeError "hash descriptor received an incompatible object"))
          | none => throw .leaves
        | _ => throw .leaves

/-- `invoke_hash_protocol`. -/
def hashProtocol (v : Value) : Except Stop Int := h.hashAt (protocolNestingLimit + 1) v

/-- Whether `binary_protocol` finds a method for `==`; no builtin class has one. The source does not
ask the right operand where both have one class: it would find nothing else there. -/
def overloadsEquality (left right : Value) : Except Fault Bool := do
  let direct ← h.operatorMethodCall left "__eq__"
  let reflected ← h.operatorMethodCall right "__eq__"
  return direct.isSome || reflected.isSome

/-- `invoke_equality`: `sequence` compares the items of two sequences, and `depth` is how many
sequences are open. -/
def equalityStep (sequence : List Value → List Value → Except Stop Bool) (depth : Nat)
    (left right : Value) : Except Stop Bool :=
  if left = right then .ok true
  else do
    if ← Stop.lift (h.overloadsEquality left right) then throw .leaves
    if h.numeric left || h.numeric right then Stop.lift (h.equal left right 0)
    else
      let native := (h.nativeValue left, h.nativeValue right)
      match h.tryGet native.1, h.tryGet native.2 with
      | some (.str x), some (.str y) => return x == y
      | some (.bytes x), some (.bytes y) => return x == y
      | some (.range _ _ _), some (.range _ _ _) => Stop.lift (h.equal native.1 native.2 0)
      | some (.genericAlias _ _ _), some (.genericAlias _ _ _)
      | some (.unionType _ _), some (.unionType _ _) =>
        Stop.lift (h.equal native.1 native.2 (depth + 1))
      | some (.tuple xs), some (.tuple ys) | some (.list xs), some (.list ys) => sequence xs ys
      | some (.slice a b c), some (.slice x y z) => sequence [a, b, c] [x, y, z]
      | some (.boundMethod f x), some (.boundMethod g y) => sequence [f, x] [g, y]
      | some (.dict _), some (.dict _) | some (.set _), some (.set _) =>
        throw (.enters native.1 native.2)
      | _, _ => return false

/-- The first argument is the nesting of sequences that is still allowed. -/
def equalityAt : Nat → Value → Value → Except Stop Bool
  | 0 => h.equalityStep
      (fun _ _ => throw (.fails (.raise "RecursionError" "comparison nesting limit exceeded")))
      protocolNestingLimit
  | room + 1 => h.equalityStep (pairwise (equalityAt room)) (protocolNestingLimit - (room + 1))

/-- `a == b`, and the comparison with a candidate key. -/
def equalityProtocol (left right : Value) : Except Stop Bool :=
  h.equalityAt protocolNestingLimit left right

end Heap

end Tonic
