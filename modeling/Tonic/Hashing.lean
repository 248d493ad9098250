import Tonic.Format

/-!
## Hash material of dictionary keys

`hashing.rs` and the key half of `dict.rs`. Hashes are signed 64-bit numbers, as `hash()`
shows them; a bucket is found by the same bits read as unsigned.
-/

namespace Tonic

def hashModulus : Int := 2 ^ 61 - 1

def fitsI64 (n : Int) : Bool := decide (-(2 ^ 63) ≤ n) && decide (n < 2 ^ 63)

def asU64 (n : Int) : Nat := (n % 2 ^ 64).toNat

def normalizeI64 (n : Int) : Int := if n = -1 then -2 else n

/-- Large integers are reduced with the remainder that keeps their sign. -/
def normalizeBigint (n : Int) : Int :=
  if fitsI64 n then normalizeI64 n else normalizeI64 (n.tmod hashModulus)

def hashU64 (n : Nat) : Int := normalizeI64 (n % hashModulus)

def hashString [HostLibrary] (s : String) : Int := hashU64 (HostLibrary.hashString s % 2 ^ 64)

def hashBytes [HostLibrary] (s : List UInt8) : Int := hashU64 (HostLibrary.hashBytes s % 2 ^ 64)

def sequenceStart : Int := 0x345678

def sequenceStep (accumulator item : Int) : Int := (accumulator * 1000003 + item) % hashModulus

def sequenceFinish (accumulator : Int) (length : Nat) : Int :=
  normalizeI64 ((accumulator + length) % hashModulus)

/-- The accumulated hash of a sequence of items, from an accumulator. -/
def sequenceSteps (accumulator : Int) (items : List Int) : Int :=
  items.foldl sequenceStep accumulator

def rangeLength (start stop step : Int) : Int :=
  if 0 < step then
    if stop ≤ start then 0 else 1 + (stop - 1 - start) / step
  else if start ≤ stop then 0
  else 1 + (start - 1 - stop) / -step

def hashRangeParts (length : Int) (start step : Option Int) : Int :=
  let items := normalizeBigint length :: (start.toList ++ step.toList).map normalizeI64
  sequenceFinish (sequenceSteps sequenceStart items)
    (if length = 0 then 1 else if length = 1 then 2 else 3)

/-- The bitwise exclusive or of two signed 64-bit numbers. -/
def xorI64 (a b : Int) : Int := (BitVec.ofInt 64 a ^^^ BitVec.ofInt 64 b).toInt

def literalHash [HostLibrary] : LiteralTypePlan → Int
  | .none => 0x501
  | .bool value => 0x510 + value.toInt
  | .int text => xorI64 (hashString text) 0x520
  | .str text => xorI64 (hashString text) 0x530
  | .bytes value => xorI64 (hashBytes value) 0x540
  | .ellipsis => 0x550

mutual

/-- `key_hash`, before it is read as unsigned. -/
def Key.hash [HostLibrary] : Key → Int
  | .none => 0x421
  | .notImplemented => 0x422
  | .ellipsis => 0x423
  | .smallInt n => normalizeI64 n
  | .int n => normalizeBigint n
  | .float bits => hashU64 bits
  | .nan raw | .identity raw => hashU64 raw
  | .str text => hashString text
  | .bytes value => hashBytes value
  | .tuple items | .slice items | .union items =>
    sequenceFinish (sequenceSteps sequenceStart (Key.hashes items)) items.length
  | .range length start step => hashRangeParts length start step
  | .method a b | .genericAlias a b =>
    sequenceFinish (sequenceSteps sequenceStart [a.hash, b.hash]) 2
  | .literalAlias origin items =>
    sequenceFinish (sequenceSteps sequenceStart (origin.hash :: items.map literalHash))
      (items.length + 1)
  | .callableAlias origin .none result =>
    sequenceFinish (sequenceSteps sequenceStart [origin.hash, 0x601, result.hash]) 2
  | .callableAlias origin (.some parameters) result =>
    sequenceFinish
      (sequenceSteps sequenceStart
        (origin.hash :: 0x602 :: Key.hashes parameters ++ [result.hash]))
      (parameters.length + 2)

def Key.hashes [HostLibrary] : List Key → List Int
  | [] => []
  | key :: keys => key.hash :: Key.hashes keys

end

def compareLists {α : Type} (compare : α → α → Ordering) : List α → List α → Ordering
  | [], [] => .eq
  | [], _ :: _ => .lt
  | _ :: _, [] => .gt
  | a :: as, b :: bs => (compare a b).then (compareLists compare as bs)

def LiteralTypePlan.rank : LiteralTypePlan → Nat
  | none => 0 | bool _ => 1 | int _ => 2 | str _ => 3 | bytes _ => 4 | ellipsis => 5

/-- The derived order: first the variants in the order they are declared, then the payloads. -/
def LiteralTypePlan.compare : LiteralTypePlan → LiteralTypePlan → Ordering
  | bool a, bool b => Ord.compare a b
  | int a, int b | str a, str b => Ord.compare a b
  | bytes a, bytes b => compareLists Ord.compare a b
  | a, b => Ord.compare a.rank b.rank

def Key.rank : Key → Nat
  | none => 0 | notImplemented => 1 | ellipsis => 2 | smallInt _ => 3 | int _ => 4
  | float _ => 5 | nan _ => 6 | str _ => 7 | bytes _ => 8 | tuple _ => 9 | slice _ => 10
  | range _ _ _ => 11 | identity _ => 12 | method _ _ => 13 | genericAlias _ _ => 14
  | literalAlias _ _ => 15 | callableAlias _ _ _ => 16 | union _ => 17

mutual

/-- The derived order on keys, which also decides their equality. -/
def Key.compare : Key → Key → Ordering
  | .smallInt a, .smallInt b => Ord.compare a b
  | .int a, .int b => Ord.compare a b
  | .float a, .float b => Ord.compare a b
  | .nan a, .nan b => Ord.compare a b
  | .identity a, .identity b => Ord.compare a b
  | .str a, .str b => Ord.compare a b
  | .bytes a, .bytes b => compareLists Ord.compare a b
  | .tuple a, .tuple b => Key.compareKeys a b
  | .slice a, .slice b => Key.compareKeys a b
  | .union a, .union b => Key.compareKeys a b
  | .range l a s, .range l' a' s' =>
    (Ord.compare l l').then ((Ord.compare a a').then (Ord.compare s s'))
  | .method a b, .method a' b' => (a.compare a').then (b.compare b')
  | .genericAlias a b, .genericAlias a' b' => (a.compare a').then (b.compare b')
  | .literalAlias a items, .literalAlias a' items' =>
    (a.compare a').then (compareLists LiteralTypePlan.compare items items')
  | .callableAlias a ps r, .callableAlias a' ps' r' =>
    (a.compare a').then ((Key.compareParameters ps ps').then (r.compare r'))
  | a, b => Ord.compare a.rank b.rank

def Key.compareKeys : List Key → List Key → Ordering
  | [], [] => .eq
  | [], _ :: _ => .lt
  | _ :: _, [] => .gt
  | a :: as, b :: bs => (a.compare b).then (Key.compareKeys as bs)

def Key.compareParameters : Option (List Key) → Option (List Key) → Ordering
  | .none, .none => .eq
  | .none, .some _ => .lt
  | .some _, .none => .gt
  | .some a, .some b => Key.compareKeys a b

end

namespace Heap

variable [HostLibrary]

def maxTypePlanDepth : Nat := 32

def literalTypePlan (h : Heap) (v : Value) : Except TypePlanRejection LiteralTypePlan :=
  match v with
  | .none => .ok .none
  | .bool b => .ok (.bool b)
  | .small n => .ok (.int (toString n.val))
  | .ellipsis => .ok .ellipsis
  | _ =>
    match h.get v with
    | .ok (.int n) => .ok (.int (toString n))
    | .ok (.str text) => .ok (.str text)
    | .ok (.bytes value) => .ok (.bytes value)
    | _ => .error .unsupportedValue

/-- The arguments of a literal form: a nested literal form contributes its own arguments. -/
def literalArguments (h : Heap) : Nat → Value → Except TypePlanRejection (List LiteralTypePlan)
  | 0, _ => .error .recursionLimit
  | depth + 1, args =>
    match h.get args with
    | .ok (.tuple (a :: as)) => do
      let items ← (a :: as).mapM fun argument =>
        let nested := match h.get argument with
          | .ok (.genericAlias _ origin args) =>
            match h.get origin with
            | .ok (.typingForm _ .literal) => some args
            | _ => none
          | _ => none
        match nested with
        | some args => h.literalArguments depth args
        | none => do return [← h.literalTypePlan argument]
      return items.flatten
    | _ => .error .invalidGenericArity

def dedupAdjacent : List LiteralTypePlan → List LiteralTypePlan
  | a :: b :: rest => if a = b then dedupAdjacent (b :: rest) else a :: dedupAdjacent (b :: rest)
  | items => items

def canonicalLiteralArguments (h : Heap) (args : Value) :
    Except TypePlanRejection (List LiteralTypePlan) := do
  let items ← h.literalArguments maxTypePlanDepth args
  return dedupAdjacent (items.mergeSort fun a b => a.compare b != .gt)

/-- The material of a float: the integer it equals, or its bits. A NaN only equals itself. -/
def floatKey (identity : Value) (x : F64) : Key :=
  if x.isNaN then .nan identity.raw
  else match x.integral? with
    | some n => if fitsI64 n then .smallInt n else .int n
    | none => .float x.bits

/-- `dict_key`; the first argument is the nesting that is still allowed. -/
def dictKeyAt (h : Heap) : Nat → Value → Except Fault Key
  | 0, _ => throw (.raise "RecursionError" "dictionary key nesting limit")
  | depth + 1, value => do
    let identity := value
    let value := h.nativeValue value
    match value with
    | .none => return .none
    | .notImplemented => return .notImplemented
    | .ellipsis => return .ellipsis
    | .small n => return .smallInt n.val
    | .bool b => return .smallInt b.toInt
    | _ =>
    match ← h.get value with
    | .int n => return if fitsI64 n then .smallInt n else .int n
    | .float x => return floatKey identity x
    | .str text => return .str text
    | .bytes bytes => return .bytes bytes
    | .tuple values => return .tuple (← values.mapM (h.dictKeyAt depth))
    | .slice start stop step => return .slice (← [start, stop, step].mapM (h.dictKeyAt depth))
    | .range start stop step =>
      let length := rangeLength start stop step
      return .range length (if length ≠ 0 then some start else none)
        (if 1 < length then some step else none)
    | .genericAlias _ origin args =>
      let originKey ← h.dictKeyAt depth origin
      match h.get origin with
      | .ok (.typingForm _ .literal) =>
        match h.canonicalLiteralArguments args with
        | .ok items => return .literalAlias originKey items
        | .error _ => return .genericAlias originKey (← h.dictKeyAt depth args)
      | .ok (.typingForm _ .callable) =>
        let .tuple [first, result] ← h.get args
          | throw (typeError "invalid Callable arguments")
        let parameters ←
          if first = .ellipsis then pure none
          else match ← h.get first with
            | .list values | .tuple values => some <$> values.mapM (h.dictKeyAt depth)
            | _ => throw (typeError "invalid Callable parameters")
        return .callableAlias originKey parameters (← h.dictKeyAt depth result)
      | _ => return .genericAlias originKey (← h.dictKeyAt depth args)
    | .unionType _ members =>
      let members ← members.mapM (h.dictKeyAt depth)
      return .union (members.mergeSort fun a b => a.compare b != .gt)
    | .function _ | .builtin _ | .native _ | .typingForm _ _ | .classObject _
    | .instanceObject _ _ _ | .exception _ | .staticMethod _ | .classMethod _
    | .property _ _ _ | .propertySetter _ => return .identity value.raw
    | .boundMethod callee receiver =>
      return .method (← h.dictKeyAt depth callee) (← h.dictKeyAt depth receiver)
    | _ => throw (typeError "unhashable dictionary key")

omit [HostLibrary] in
theorem dictKeyAt_zero (h : Heap) (value : Value) :
    h.dictKeyAt 0 value = .error (.raise "RecursionError" "dictionary key nesting limit") := by
  simp only [dictKeyAt]
  rfl

/-- `dict_key(value, 0)`: keys may nest a hundred levels deep. -/
def dictKey (h : Heap) (value : Value) : Except Fault Key := h.dictKeyAt 101 value

end Heap

end Tonic
