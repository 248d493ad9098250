import Tonic.Sequences

/-!
## Membership

`in` asks a method of the container, looks into strings and bytes, and goes through the items of
everything else. It is followed up to the first method of the program that is called.
-/

namespace Tonic

open Effect

/-- Computations on the heap that may go on in a method of the program. -/
abbrev ProtocolM := EStateM Stop Heap

def Stop.within {α : Type} (m : HeapM α) : ProtocolM α := EStateM.adaptExcept .fails m

variable [HostLibrary]

/-- Whether an item is asked of a frame of its own and not of the heap. -/
def resumable : Object → Bool
  | .generator frame => frame.kind = .generator
  | .coroutineIterator _ _ => true
  | _ => false

def isIterator : Object → Bool
  | .iterator _ _ | .rangeIterator _ _ _ | .dictIterator _ _ _ | .mappingProxyIterator _ _ _
  | .coroutineIterator _ _ => true
  | _ => false

/-- `continue_membership`; no result where the items outlast the first argument. -/
def continueMembership (needle it : Value) : Nat → ProtocolM (Option Bool)
  | 0 => return none
  | items + 1 => do
    let o ← Stop.within (tryGetObject it)
    if o.any resumable then throw .leaves
    if o.any isIterator then
      match ← Stop.within (iteratorNext it) with
      | none => return some false
      | some item =>
        if ← reading (·.equalityProtocol item needle) then return some true
        continueMembership needle it items
    else
      match ← Stop.within (reading (·.operatorMethodCall it "__next__")) with
      | some _ => throw .leaves
      | none => throw (.fails (typeError "object is not an iterator"))

/-- `iterator_with_sequence_fallback`, and what `invoke_membership` does where it fails. -/
def membershipIterator (container : Value) : ProtocolM Value := fun h =>
  match iterator container h with
  | .ok it t => .ok it t
  | .error fault t =>
    match fault with
    | .raised ⟨"TypeError", _⟩ =>
      match t.operatorMethodCall container "__iter__" with
      | .error e => .error (.fails e) t
      | .ok (some _) => .error .leaves t
      | .ok none =>
        match t.operatorMethodCall container "__getitem__" with
        | .error e => .error (.fails e) t
        | .ok (some _) => .error .leaves t
        | .ok none => .error (.fails (typeError "right operand is not iterable")) t
    | _ => .error (.fails fault) t

/-- `invoke_membership` -/
def membership (needle container : Value) (items : Nat) : ProtocolM (Option Bool) := do
  if (← Stop.within (reading (·.operatorMethodCall container "__contains__"))).isSome then
    throw .leaves
  let native ← Stop.within (nativeValue container)
  let nativeNeedle ← Stop.within (nativeValue needle)
  match ← Stop.within (tryGetObject native) with
  | some (.str text) =>
    match ← Stop.within (tryGetObject nativeNeedle) with
    | some (.str fragment) => return some (decide (fragment.toList <:+: text.toList))
    | _ => throw (.fails (typeError "string membership requires a string left operand"))
  | some (.bytes bytes) =>
    if (← get).isInteger needle then
      let n ← Stop.within (reading (·.integer needle))
      if 0 ≤ n ∧ n < 256 then return some (bytes.contains (UInt8.ofNat n.toNat))
      else throw (.fails (.raise "ValueError" "byte must be in range(0, 256)"))
    else
      match ← Stop.within (getObject nativeNeedle) with
      | .bytes fragment => return some (decide (fragment <:+: bytes))
      | _ => throw (.fails
          (typeError "bytes membership requires an integer or bytes left operand"))
  | some (.dict _) | some (.set _) => throw (.enters native needle)
  | _ => continueMembership needle (← membershipIterator container) items

end Tonic
