import Tonic.Equality
import Tonic.Roots

/-!
## Operators

A binary operator on instances calls special methods one after the other, until one does not return
`NotImplemented`; after the last the operator of the builtin types decides. A method may run in a
frame of its own, so the methods that are left are kept in the action of that frame.
-/

namespace Tonic

open Effect

/-! ### Method names -/

structure OperatorMethods where
  inplace : Option String
  direct : String
  reflected : String
deriving DecidableEq, Repr

/-- The methods of a binary operator; the other opcodes have none. -/
def Op.methods : Op → Option OperatorMethods
  | .add => some ⟨none, "__add__", "__radd__"⟩
  | .inplaceAdd => some ⟨some "__iadd__", "__add__", "__radd__"⟩
  | .sub => some ⟨none, "__sub__", "__rsub__"⟩
  | .inplaceSub => some ⟨some "__isub__", "__sub__", "__rsub__"⟩
  | .mul => some ⟨none, "__mul__", "__rmul__"⟩
  | .inplaceMul => some ⟨some "__imul__", "__mul__", "__rmul__"⟩
  | .matMul => some ⟨none, "__matmul__", "__rmatmul__"⟩
  | .inplaceMatMul => some ⟨some "__imatmul__", "__matmul__", "__rmatmul__"⟩
  | .div => some ⟨none, "__truediv__", "__rtruediv__"⟩
  | .inplaceDiv => some ⟨some "__itruediv__", "__truediv__", "__rtruediv__"⟩
  | .floorDiv => some ⟨none, "__floordiv__", "__rfloordiv__"⟩
  | .inplaceFloorDiv => some ⟨some "__ifloordiv__", "__floordiv__", "__rfloordiv__"⟩
  | .mod => some ⟨none, "__mod__", "__rmod__"⟩
  | .inplaceMod => some ⟨some "__imod__", "__mod__", "__rmod__"⟩
  | .pow => some ⟨none, "__pow__", "__rpow__"⟩
  | .inplacePow => some ⟨some "__ipow__", "__pow__", "__rpow__"⟩
  | .bitOr => some ⟨none, "__or__", "__ror__"⟩
  | .inplaceBitOr => some ⟨some "__ior__", "__or__", "__ror__"⟩
  | .bitXor => some ⟨none, "__xor__", "__rxor__"⟩
  | .inplaceBitXor => some ⟨some "__ixor__", "__xor__", "__rxor__"⟩
  | .bitAnd => some ⟨none, "__and__", "__rand__"⟩
  | .inplaceBitAnd => some ⟨some "__iand__", "__and__", "__rand__"⟩
  | .leftShift => some ⟨none, "__lshift__", "__rlshift__"⟩
  | .inplaceLeftShift => some ⟨some "__ilshift__", "__lshift__", "__rlshift__"⟩
  | .rightShift => some ⟨none, "__rshift__", "__rrshift__"⟩
  | .inplaceRightShift => some ⟨some "__irshift__", "__rshift__", "__rrshift__"⟩
  | .eq => some ⟨none, "__eq__", "__eq__"⟩
  | .ne => some ⟨none, "__ne__", "__ne__"⟩
  | .lt => some ⟨none, "__lt__", "__gt__"⟩
  | .le => some ⟨none, "__le__", "__ge__"⟩
  | .gt => some ⟨none, "__gt__", "__lt__"⟩
  | .ge => some ⟨none, "__ge__", "__le__"⟩
  | _ => none

/-! ### Candidates -/

/-- The call of a method that was found; `extra` is the third argument of `pow`. -/
def binaryCandidate (argument : Value) (extra : Option Value) (negate : Bool) :
    Option DescriptorCall → List (BinaryCandidate Value)
  | none => []
  | some call => [⟨⟨call.callable, call.receiver⟩, argument :: extra.toList, negate⟩]

def BinaryProtocolKind.isNe : BinaryProtocolKind Value → Bool
  | .opcode .ne => true
  | _ => false

namespace Heap

variable (h : Heap)

def operatorProtocolCapable (v : Value) : Bool :=
  match h.tryGet v with
  | some (.classObject _) => true
  | some object => object.instanceClass.isSome
  | none => false

section Candidates

variable (objectClass : Value) (types : RuntimeTypes Value)

/-- `mro.contains` of a class that is told apart from the other one before. -/
def inherits (cls ancestor : Value) : Bool :=
  match h.classOf cls with
  | .ok c => decide (ancestor ∈ c.mro)
  | .error _ => false

/-- Operands of one class do not try the reflected method. -/
def reflectedCall (leftClass rightClass right : Value) (name : String) :
    Except Fault (Option DescriptorCall) :=
  if leftClass = rightClass then .ok none else h.operatorMethodCall right name

def inplaceCandidates (left right : Value) :
    Option String → Except Fault (List (BinaryCandidate Value))
  | some name => (h.operatorMethodCall left name).map (binaryCandidate right none false)
  | none => .ok []

def binaryProtocolCandidates (kind : BinaryProtocolKind Value) (left right : Value)
    (extra : Option Value) (methods : OperatorMethods) :
    Except Fault (Option (BinaryProtocol Value)) := do
  let inplace ← h.inplaceCandidates left right methods.inplace
  let leftCall ← h.operatorMethodCall left methods.direct
  let leftClass ← runtimeClass objectClass types h left
  let rightClass ← runtimeClass objectClass types h right
  let rightCall ← h.reflectedCall leftClass rightClass right methods.reflected
  let rightIsSubclass := leftClass ≠ rightClass && h.inherits rightClass leftClass
  let inOrder (negate : Bool) (leftCall rightCall : Option DescriptorCall) :=
    let forward := binaryCandidate right extra negate leftCall
    let backward := binaryCandidate left extra negate rightCall
    if rightIsSubclass then backward ++ forward else forward ++ backward
  let unequal : Except Fault (List (BinaryCandidate Value)) :=
    if kind.isNe then do
      let leftEq ← h.operatorMethodCall left "__eq__"
      let rightEq ← h.reflectedCall leftClass rightClass right "__eq__"
      return inOrder true leftEq rightEq
    else .ok []
  let candidates := inplace ++ inOrder false leftCall rightCall ++ (← unequal)
  return if candidates.isEmpty then none
    else some ⟨kind, left, right, candidates, 0, false, .value⟩

def binaryProtocol (op : Op) (left right : Value) : Except Fault (Option (BinaryProtocol Value)) :=
  if !h.operatorProtocolCapable left && !h.operatorProtocolCapable right then return none
  else
    match op.methods with
    | none => return none
    | some methods =>
      h.binaryProtocolCandidates objectClass types (.opcode op) left right none methods

end Candidates

end Heap

/-! ### The operator of the builtin types -/

namespace Heap

section Compare

variable (h : Heap) [HostLibrary]

/-- `Heap::order`; the first argument is the nesting that is still allowed. -/
def orderAt : Nat → Value → Value → Except Fault (Option Ordering)
  | 0, _, _ => throw (.raise "RecursionError" "comparison nesting limit")
  | room + 1, a, b =>
    if h.numeric a && h.numeric b then h.numberOrder a b
    else
      match h.tryGet (h.nativeValue a), h.tryGet (h.nativeValue b) with
      | some (.str x), some (.str y) => .ok (some (compare x y))
      | some (.bytes x), some (.bytes y) => .ok (some (compareLists compare x y))
      | some (.tuple xs), some (.tuple ys) | some (.list xs), some (.list ys) =>
        (xs.zip ys).foldr (fun (a, b) rest => do
          if a ≠ b && !(← h.equalAt room a b) then orderAt room a b else rest)
          (.ok (some (compare xs.length ys.length)))
      | _, _ => throw unsupported

def order (a b : Value) (depth : Nat) : Except Fault (Option Ordering) := h.orderAt (101 - depth) a b

/-- `Heap::compare`. -/
def compareValues (op : Op) (a b : Value) : Except Fault Value :=
  match op with
  | .eq => do return .bool (← h.equal a b 0)
  | .ne => do return .bool !(← h.equal a b 0)
  | op => do
    let ordering ← h.order a b 0
    return .bool (match op with
      | .lt => ordering == some .lt
      | .le => ordering == some .lt || ordering == some .eq
      | .gt => ordering == some .gt
      | .ge => ordering == some .gt || ordering == some .eq
      | _ => false)

end Compare

end Heap

section Fallback

/- True division of integers, arithmetic of floats, and the items that `+=` takes from an iterable,
are left to the host. -/
variable [HostLibrary] (divide : Int → Int → HeapM Value) (floats : Op → F64 → F64 → HeapM Value)
  (extend : Value → Value → HeapM Unit) (powMod : Value → Value → Value → HeapM Value)

def repeatBytes (a b : Value) : HeapM Value := do
  let h ← get
  let repeated (bytes : List UInt8) (count : Int) : HeapM Value := do
    if count ≤ 0 || bytes = [] then alloc (.bytes [])
    else if maxU64 < count ∨ maxU64 < bytes.length * count.toNat then
      throw (.raise "MemoryError" "repeated bytes are too long")
    else alloc (.bytes (List.replicate count.toNat bytes).flatten)
  let bytesOf (v : Value) : Option (List UInt8) := match h.tryGet (h.nativeValue v) with
    | some (.bytes bytes) => some bytes
    | _ => none
  match bytesOf a, h.isInteger b, bytesOf b, h.isInteger a with
  | some bytes, true, _, _ => repeated bytes (← reading (·.integer b))
  | _, _, some bytes, true => repeated bytes (← reading (·.integer a))
  | _, _, _, _ => throw unsupported

def concatenate (a b : Value) : HeapM Value := do
  let h ← get
  match h.tryGet (h.nativeValue a), h.tryGet (h.nativeValue b) with
  | some (.str x), some (.str y) => alloc (.str (x ++ y))
  | some (.bytes x), some (.bytes y) => alloc (.bytes (x ++ y))
  | some (.list x), some (.list y) => alloc (.list (x ++ y))
  | some (.tuple x), some (.tuple y) => alloc (.tuple (x ++ y))
  | _, _ => throw unsupported

/-- What follows the integers in `Heap::binary`. -/
def otherBinary (op : Op) (a b : Value) : HeapM Value := do
  let h ← get
  if h.isInteger a && h.isInteger b then
    let x ← reading (·.integer a)
    let y ← reading (·.integer b)
    if y = 0 then throw divisionByZero else divide x y
  else if h.numeric a && h.numeric b then
    floats op (← reading (·.float a)) (← reading (·.float b))
  else if op = .mul then repeatBytes a b
  else if op = .add then concatenate a b
  else throw unsupported

variable [FloatLibrary]

def binaryValues (op : Op) (a b : Value) : HeapM Value :=
  binary (otherBinary divide floats op a b) op a b

def inplaceAdd (a b : Value) : HeapM Value := do
  let h ← get
  match h.tryGet (h.nativeValue a) with
  | some (.list _) => do
    extend a b
    return a
  | _ => binaryValues divide floats .add a b

/-- All candidates declined. -/
def BinaryProtocol.fallback (s : BinaryProtocol Value) : HeapM Value :=
  match s.kind with
  | .opcode .inplaceAdd => inplaceAdd divide floats extend s.left s.right
  | .opcode op =>
    match op with
    | .eq | .ne | .lt | .le | .gt | .ge => reading (·.compareValues op s.left s.right)
    | op => binaryValues divide floats (baseBinaryOp op) s.left s.right
  | .divMod => do
    let quotient ← binaryValues divide floats .floorDiv s.left s.right
    let remainder ← binaryValues divide floats .mod s.left s.right
    alloc (.tuple [quotient, remainder])
  | .powMod modulus => powMod s.left s.right modulus

end Fallback

/-! ### Calling the candidates -/

inductive DispatchTurn where
  | ready (state : BinaryProtocol Value)
  /-- A candidate was called, in a frame of its own or not. -/
  | waiting (candidate : BinaryCandidate Value) (state : BinaryProtocol Value)
  | value (result : Value) (negate : Bool)
  | failed (fault : Fault)

/-- An operator under way, with the methods that returned so far and what they returned. -/
structure Dispatch where
  heap : Heap
  answered : List (BinaryCandidate Value × Value)
  turn : DispatchTurn

section Step

variable [HostLibrary] [FloatLibrary] (divide : Int → Int → HeapM Value)
  (floats : Op → F64 → F64 → HeapM Value) (extend : Value → Value → HeapM Unit)
  (powMod : Value → Value → Value → HeapM Value)

/-- `continue_binary_protocol`, and what a returning frame does with the rest of the protocol. A
method may leave any heap behind. -/
inductive DispatchStep : Dispatch → Dispatch → Prop where
  | call {h answered s c s'} (next : s.attempt = some (c, s')) :
      DispatchStep ⟨h, answered, .ready s⟩ ⟨h, answered, .waiting c s'⟩
  | decline {h answered c s} (h' : Heap) :
      DispatchStep ⟨h, answered, .waiting c s⟩
        ⟨h', answered ++ [(c, .notImplemented)], .ready s⟩
  | answer {h answered c s} (h' : Heap) (v : Value) (accepts : v ≠ .notImplemented) :
      DispatchStep ⟨h, answered, .waiting c s⟩
        ⟨h', answered ++ [(c, v)], .value v s.negateResult⟩
  | raise {h answered c s} (h' : Heap) (fault : Fault) :
      DispatchStep ⟨h, answered, .waiting c s⟩ ⟨h', answered, .failed fault⟩
  | fallback {h answered s v h'} (none : s.attempt = none)
      (run : s.fallback divide floats extend powMod h = .ok v h') :
      DispatchStep ⟨h, answered, .ready s⟩ ⟨h', answered, .value v false⟩
  | refuse {h answered s fault h'} (none : s.attempt = none)
      (run : s.fallback divide floats extend powMod h = .error fault h') :
      DispatchStep ⟨h, answered, .ready s⟩ ⟨h', answered, .failed fault⟩

end Step

end Tonic
