import Tonic.Integer
import Tonic.MutatorsSound
import Tonic.DictOps

/-!
## Native iterators

An iterator holds its container and a position in it. Whether it is exhausted is not recorded, but
worked out from the position and the container each time.
-/

namespace Tonic

open Effect

def notIterable : Fault := typeError "object is not iterable"

def iterator (v : Value) : HeapM Value := do
  let v ← nativeValue v
  match ← getObject v with
  | .range start stop step => alloc (.rangeIterator start stop step)
  | .tuple _ | .list _ | .str _ | .bytes _ => alloc (.iterator v 0)
  | .dict d | .set d => alloc (.dictIterator v 0 d.version)
  | .mappingProxy cls =>
    let c ← classOf cls
    alloc (.mappingProxyIterator cls 0 c.dictionaryLen)
  | .iterator _ _ | .callIterator _ _ _ _ | .sequenceIterator _ _ _ _ | .rangeIterator _ _ _
  | .dictIterator _ _ _ | .mappingProxyIterator _ _ _ | .coroutineIterator _ _ => return v
  | .generator frame => if frame.kind = .generator then return v else throw notIterable
  | _ => throw notIterable

/-- `*index += 1`, in an iterator with an index. -/
def Object.advanced : Object → Object
  | .iterator source index => .iterator source (index + 1)
  | .dictIterator source index version => .dictIterator source (index + 1) version
  | .mappingProxyIterator cls index size => .mappingProxyIterator cls (index + 1) size
  | o => o

def advance (v : Value) : HeapM Unit := do
  let o ← getObject v
  setObject v o.advanced

/-- The item of a sequence at a position. -/
def sequenceItem (i : Nat) : Object → HeapM (Option Value)
  | .tuple values | .list values => return values[i]?
  | .str text =>
    match text.toList[i]? with
    | some c => some <$> alloc (.str c.toString)
    | none => return none
  | .bytes bytes =>
    match bytes[i]? with
    | some byte =>
      match Value.int byte.toNat with
      | some v => return some v
      | none => throw (.panicked "byte is immediate")
    | none => return none
  | _ => throw unsupported

def classKey : ClassDictionaryKey → HeapM Value
  | .string name => alloc (.str name)
  | .other key => return key

/-- `Heap::next`. -/
def iteratorNext (v : Value) : HeapM (Option Value) := do
  match ← getObject v with
  | .dictIterator source index version =>
    let some (d, _) := (← getObject source).hashed | throw (.panicked "unreachable")
    if d.version ≠ version then
      throw (runtimeError "container changed size during iteration")
    match d.entries[index]? with
    | some (key, _) =>
      advance v
      return some key
    | none => return none
  | .mappingProxyIterator cls index size =>
    let c ← classOf cls
    if c.dictionaryLen ≠ size then
      throw (runtimeError "dictionary changed size during iteration")
    match c.dictionaryEntry index with
    | some (key, _) =>
      advance v
      some <$> classKey key
    | none => return none
  | .rangeIterator next stop step =>
    if 0 < step ∧ stop ≤ next ∨ step < 0 ∧ next ≤ stop then return none
    setObject v (.rangeIterator (next + step) stop step)
    some <$> allocInt next
  | .iterator source index =>
    let item ← sequenceItem index (← getObject source)
    if item.isSome then advance v
    return item
  | .coroutineIterator _ _ => throw (runtimeError "coroutine iterator requires VM resume")
  | _ => throw (typeError "object is not an iterator")

end Tonic
