import Tonic.Hashing
import Tonic.Library.Canonical
import Tonic.Library.Coding

/-!
## Type plans

Annotations are values of the heap. A plan is what is left of an annotation when aliases are
followed, unions are flattened and sorted, and classes are named by identity and version. The plans
of a function are hashed through a byte stream that spells every constructor out.
-/

namespace Tonic

structure TypePlanBuiltins where
  noneType : Value
  bool : Value
  int : Value
  float : Value
  str : Value
  bytes : Value
  list : Value
  tuple : Value
  dict : Value
  set : Value
  buffer : Value
  literal : Value
  callable : Value

namespace TypePlanBuiltins

def classes (b : TypePlanBuiltins) : List (Value × ExactTypePlan) :=
  [(b.noneType, .noneType), (b.bool, .bool), (b.int, .int), (b.float, .float), (b.str, .str),
    (b.bytes, .bytes), (b.list, .list), (b.tuple, .tuple), (b.dict, .dict), (b.set, .set)]

def exact (b : TypePlanBuiltins) ( annotation : Value) : Option ExactTypePlan :=
  (b.classes.find? (·.1 = annotation)).map (·.2)

end TypePlanBuiltins

/-! ### The derived order -/

def ExactTypePlan.rank : ExactTypePlan → Nat
  | noneType => 0 | bool => 1 | int => 2 | float => 3 | str => 4 | bytes => 5 | list => 6
  | tuple => 7 | dict => 8 | set => 9

def BufferTypePlan.compare (a b : BufferTypePlan) : Ordering :=
  (Ord.compare a.rank b.rank).then (Ord.compare a.writable b.writable)

namespace TypePlan

def rank : TypePlan → Nat
  | none => 0 | exact _ => 1 | list _ => 2 | dict _ _ => 3 | set _ => 4 | fixedTuple _ => 5
  | variadicTuple _ => 6 | literal _ => 7 | callable _ _ => 8 | buffer _ => 9 | union _ => 10
  | cls _ _ => 11

mutual

def compare : TypePlan → TypePlan → Ordering
  | .exact a, .exact b => Ord.compare a.rank b.rank
  | .list a, .list b | .set a, .set b | .variadicTuple a, .variadicTuple b => compare a b
  | .dict k v, .dict k' v' => (compare k k').then (compare v v')
  | .fixedTuple a, .fixedTuple b | .union a, .union b => comparePlans a b
  | .literal a, .literal b => compareLists LiteralTypePlan.compare a b
  | .callable ps r, .callable ps' r' => (compareParameters ps ps').then (compare r r')
  | .buffer a, .buffer b => a.compare b
  | .cls t v, .cls t' v' => (Ord.compare t t').then (Ord.compare v v')
  | a, b => Ord.compare a.rank b.rank

def comparePlans : List TypePlan → List TypePlan → Ordering
  | [], [] => .eq
  | [], _ :: _ => .lt
  | _ :: _, [] => .gt
  | a :: as, b :: bs => (compare a b).then (comparePlans as bs)

def compareParameters : Option (List TypePlan) → Option (List TypePlan) → Ordering
  | .none, .none => .eq
  | .none, .some _ => .lt
  | .some _, .none => .gt
  | .some a, .some b => comparePlans a b

end

/-- What a member contributes to a union. -/
def unionMembers : TypePlan → List TypePlan
  | union nested => nested
  | exact .noneType => [none]
  | plan => [plan]

end TypePlan

/-! ### Resolving an annotation -/

/-- The class dependencies grow while a plan is resolved, and stay when it is rejected. -/
abbrev PlanM := EStateM TypePlanRejection (List ClassPlanDependency)

namespace Heap

variable (h : Heap) (b : TypePlanBuiltins)

def bufferRank : Option Value → Except TypePlanRejection (Option Nat)
  | none | some .ellipsis => .ok none
  | some rank =>
    let checked (n : Int) : Except TypePlanRejection (Option Nat) :=
      if 0 ≤ n ∧ n < 2 ^ 32 then .ok (some n.toNat) else .error .invalidBufferRank
    match rank.asInt with
    | some n => checked n
    | none =>
      match h.get rank with
      | .ok (.int n) => checked n
      | _ => .error .invalidBufferRank

def bufferMutability : Option Value → Except TypePlanRejection (Option Bool)
  | none | some .ellipsis => .ok none
  | some mutability =>
    match mutability.asBool with
    | some writable => .ok (some writable)
    | none => .error .invalidBufferMutability

/-- The item of a tuple of any length. -/
def variadicItem : List Value → Option Value
  | [item, .ellipsis] => some item
  | _ => none

/-- `resolve` resolves the arguments. -/
def resolveGenericAlias (resolve : Value → PlanM TypePlan) (origin args : Value) :
    PlanM TypePlan := do
  let .ok (.tuple arguments) := h.get args | throw .invalidGenericArity
  if origin = b.literal then
    match h.canonicalLiteralArguments args with
    | .ok items => return .literal items
    | .error why => throw why
  else if origin = b.callable then
    let [parameters, result] := arguments | throw .invalidGenericArity
    let parameters ←
      if parameters = .ellipsis then pure none
      else match h.get parameters with
        | .ok (.list values) | .ok (.tuple values) => some <$> values.mapM resolve
        | _ => throw .invalidGenericArity
    return .callable parameters (← resolve result)
  else if origin = b.buffer then
    let dtype :: options := arguments | throw .invalidGenericArity
    if 2 < options.length then throw .invalidGenericArity
    else if dtype ≠ b.float then throw .unsupportedBufferDType
    else match h.bufferRank options[0]?, bufferMutability options[1]? with
      | .error why, _ | .ok _, .error why => throw why
      | .ok rank, .ok writable => return .buffer ⟨rank, writable⟩
  else if origin = b.list ∨ origin = b.set then
    let [item] := arguments | throw .invalidGenericArity
    let item ← resolve item
    return if origin = b.list then .list item else .set item
  else if origin = b.dict then
    let [key, value] := arguments | throw .invalidGenericArity
    let key ← resolve key
    return .dict key (← resolve value)
  else if origin = b.tuple then
    match variadicItem arguments with
    | some item => return .variadicTuple (← resolve item)
    | none =>
      if .ellipsis ∈ arguments then throw .invalidGenericArity
      else return .fixedTuple (← arguments.mapM resolve)
  else throw .unsupportedGenericOrigin

def unionPlan (plans : List TypePlan) : PlanM TypePlan :=
  match Canonical.canonical TypePlan.compare (plans.flatMap TypePlan.unionMembers) with
  | [] => throw .invalidGenericArity
  | [plan] => return plan
  | plans => return .union plans

/-- The first argument is the nesting that is still allowed; `visiting` has the annotations that
are being resolved. -/
def resolveTypePlan : Nat → List Value → Value → PlanM TypePlan
  | 0, _, _ => throw .recursionLimit
  | depth + 1, visiting, annotation =>
    if annotation = .none then pure .none
    else match b.exact annotation with
      | some kind => pure (.exact kind)
      | none =>
        if annotation = b.buffer then pure (.buffer ⟨none, none⟩)
        else if annotation ∈ visiting then throw .recursiveAlias
        else
          let resolve := resolveTypePlan depth ( annotation :: visiting)
          match h.get annotation with
          | .ok (.classObject c) => do
            modify fun dependencies =>
              if dependencies.any (·.cls = annotation) then dependencies
              else dependencies ++ [⟨ annotation, c.id, c.version⟩]
            return .cls c.id c.version
          | .ok (.typeParam _ _ _ _) | .ok (.typeUnpack _) => throw .typeParameter
          | .ok (.typeAlias _ _ _ value) => resolve value
          | .ok (.genericAlias _ origin args) => h.resolveGenericAlias b resolve origin args
          | .ok (.unionType _ members) => do unionPlan (← members.mapM resolve)
          | _ => throw .unsupportedValue

/-! ### The plans of a function -/

def annotationName (key : Value) : Option String :=
  match h.get key with
  | .ok (.str name) => some name
  | _ => none

end Heap

/-! ### The canonical hash -/

namespace CanonicalHash

open Coding (littleEndian)

/-- The hash after more bytes. -/
def bytes (hash : UInt64) (bytes : List UInt8) : UInt64 :=
  bytes.foldl (fun hash byte => (hash ^^^ byte.toUInt64) * 0x100000001b3) hash

def new : UInt64 := 0xcbf29ce484222325

/-! What is fed to the hash. -/

def u8 (value : Nat) : List UInt8 := [UInt8.ofNat value]
def u16 (value : Nat) : List UInt8 := littleEndian 2 value
def u32 (value : Nat) : List UInt8 := littleEndian 4 value
def u64 (value : Nat) : List UInt8 := littleEndian 8 value

def utf8 (text : String) : List UInt8 := text.toByteArray.data.toList

def string (text : String) : List UInt8 := u64 (utf8 text).length ++ utf8 text

def literal : LiteralTypePlan → List UInt8
  | .none => u8 0
  | .bool value => u8 1 ++ u8 value.toNat
  | .int text => u8 2 ++ string text
  | .str text => u8 3 ++ string text
  | .bytes value => u8 4 ++ u64 value.length ++ value
  | .ellipsis => u8 5

def mutability : Option Bool → Nat
  | none => 0
  | some false => 1
  | some true => 2

/-- Only one element type is planned for. -/
def buffer (plan : BufferTypePlan) : List UInt8 :=
  u8 0 ++ (match plan.rank with
    | some rank => u8 1 ++ u32 rank
    | none => u8 0) ++ u8 (mutability plan.writable)

mutual

def plan : TypePlan → List UInt8
  | .none => u8 0
  | .exact kind => u8 1 ++ u8 kind.rank
  | .list item => u8 2 ++ plan item
  | .dict key value => u8 3 ++ plan key ++ plan value
  | .set item => u8 4 ++ plan item
  | .fixedTuple items => u8 5 ++ u64 items.length ++ plans items
  | .cls typeId version => u8 6 ++ u32 typeId ++ u64 version
  | .union items => u8 7 ++ u64 items.length ++ plans items
  | .variadicTuple item => u8 8 ++ plan item
  | .literal items => u8 9 ++ u64 items.length ++ items.flatMap literal
  | .callable parameters result => u8 10 ++ callableParameters parameters ++ plan result
  | .buffer kind => u8 11 ++ buffer kind

def plans : List TypePlan → List UInt8
  | [] => []
  | item :: items => plan item ++ plans items

def callableParameters : Option (List TypePlan) → List UInt8
  | .none => u8 0
  | .some items => u8 1 ++ u64 items.length ++ plans items

end

def rejection : TypePlanRejection → Nat
  | .unsupportedValue => 0 | .unsupportedGenericOrigin => 1 | .invalidGenericArity => 2
  | .typeParameter => 3 | .recursiveAlias => 4 | .recursionLimit => 5
  | .nonStringAnnotationKey => 6 | .unsupportedBufferDType => 7 | .invalidBufferRank => 8
  | .invalidBufferMutability => 9

def result : Except TypePlanRejection TypePlan → List UInt8
  | .ok value => u8 0 ++ plan value
  | .error reason => u8 1 ++ u8 (rejection reason)

end CanonicalHash

namespace FunctionTypePlan

def schemaVersion : Nat := 8

def sortByName (annotations : List (String × Except TypePlanRejection TypePlan)) :
    List (String × Except TypePlanRejection TypePlan) :=
  annotations.mergeSort fun left right => Ord.compare left.1 right.1 != .gt

/-- The byte stream of sorted annotations. -/
def stream (annotations : List (String × Except TypePlanRejection TypePlan)) : List UInt8 :=
  CanonicalHash.u16 schemaVersion ++ annotations.flatMap fun annotation =>
    CanonicalHash.string annotation.1 ++ CanonicalHash.result annotation.2

def new (annotationVersion : Nat)
    (annotations : List (String × Except TypePlanRejection TypePlan))
    (classDependencies : List ClassPlanDependency) : FunctionTypePlan where
  annotationVersion
  canonicalHash :=
    (CanonicalHash.bytes CanonicalHash.new (stream (sortByName annotations))).toNat
  annotations := sortByName annotations
  classDependencies

def dependenciesCurrent (plan : FunctionTypePlan) (h : Heap) : Bool :=
  plan.classDependencies.all fun dependency =>
    match h.classOf dependency.cls with
    | .ok c => c.id = dependency.typeId ∧ c.version = dependency.version
    | .error _ => false

end FunctionTypePlan

namespace Heap

end Heap

end Tonic
