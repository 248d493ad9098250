import Tonic.Buffer

/-!
## Dictionary and item mutation

The structural operations find an entry by the material of its key; the hashed ones are told the
hash and the matching entry by a caller that has run user-defined `__hash__` and `__eq__`.
-/

namespace Tonic

open Effect

variable [HostLibrary]

namespace Dict

def hashKey (material : Key) : Nat := asU64 material.hash

/-- `find_material`: the first entry of the bucket with equal material. -/
def find (d : Dict) (material : Key) : Option Nat :=
  ((d.index.lookup (hashKey material)).getD []).find? fun i =>
    (d.materials[i]?).any fun m => m.compare material == .eq

def replaceValue (d : Dict) (i : Nat) (value : Value) : Dict :=
  { d with entries := d.entries.modify i fun entry => (entry.1, value) }

def append (d : Dict) (hash : Nat) (material : Key) (key value : Value) : Dict :=
  { d with
    entries := d.entries ++ [(key, value)]
    materials := d.materials ++ [material]
    hashes := d.hashes ++ [hash]
    index := d.index.insert hash ((d.index.lookup hash).getD [] ++ [d.entries.length]) }

/-- The index after the entry at `i` is gone: every later entry moves down by one. -/
def shiftIndex (index : AList fun _ : Nat => List Nat) (i : Nat) : AList fun _ : Nat => List Nat :=
  ⟨index.entries.map fun x => ⟨x.1, x.2.map fun slot => if i < slot then slot - 1 else slot⟩, by
    have := index.nodupKeys
    simpa [List.NodupKeys, List.keys, Function.comp_def] using this⟩

def removeAt (d : Dict) (i : Nat) : Except Fault Dict := do
  let some hash := d.hashes[i]? | throw (.panicked "index out of bounds")
  let some bucket := d.index.lookup hash
    | throw (.panicked "located material has a hash bucket")
  if i ∉ bucket then throw (.panicked "located material is present in its hash bucket")
  let bucket := bucket.erase i
  let index := if bucket = [] then d.index.erase hash else d.index.insert hash bucket
  return { d with
    entries := d.entries.eraseIdx i
    materials := d.materials.eraseIdx i
    hashes := d.hashes.eraseIdx i
    index := shiftIndex index i }

end Dict

/-- `checked_add(1)` of a 64-bit epoch. -/
def nextEpoch (name : String) (n : Nat) : HeapM Nat :=
  if n + 1 < 2 ^ 64 then pure (n + 1) else throw (runtimeError (name ++ " exhausted"))

def expectDict (owner : Value) : HeapM Dict := do
  let .dict d ← getObject owner | throw (typeError "expected dict")
  return d

def dictSet (owner key value : Value) : HeapM Unit := do
  let owner ← nativeValue owner
  let material ← reading (·.dictKey key)
  writeBarrierPair owner key value
  let d ← expectDict owner
  let mutationVersion ← nextEpoch "dict mutation version" d.mutationVersion
  match d.find material with
  | some i => setObject owner (.dict { d.replaceValue i value with mutationVersion })
  | none =>
    let version ← nextEpoch "dict version" d.version
    setObject owner
      (.dict { d.append (Dict.hashKey material) material key value with version, mutationVersion })

def dictSetStr (owner : Value) (name : String) (value : Value) : HeapM Unit := do
  let key ← alloc (.str name)
  dictSet owner key value

/-- Stores a shrunk dictionary and moves both epochs on; an exhausted epoch is only noticed
after the entries have changed. -/
def commitRemoval (owner : Value) (d : Dict) : HeapM Unit := do
  setObject owner (.dict d)
  let version ← nextEpoch "dict version" d.version
  setObject owner (.dict { d with version })
  let mutationVersion ← nextEpoch "dict mutation version" d.mutationVersion
  setObject owner (.dict { d with version, mutationVersion })

def dictDelete (owner key : Value) : HeapM Unit := do
  let owner ← nativeValue owner
  let material ← reading (·.dictKey key)
  let d ← expectDict owner
  match d.find material with
  | none =>
    let text ← reading fun h => .ok ((h.format key true).toOption.getD "missing key")
    throw (.raise "KeyError" text)
  | some i =>
    let d ← reading fun _ => d.removeAt i
    commitRemoval owner d

def dictDeleteAt (owner : Value) (i : Nat) : HeapM Unit := do
  let owner ← nativeValue owner
  let d ← expectDict owner
  if d.entries.length ≤ i then throw (runtimeError "stale dictionary candidate")
  let d ← reading fun _ => d.removeAt i
  commitRemoval owner d

def dictClear (owner : Value) : HeapM Unit := do
  let owner ← nativeValue owner
  let d ← expectDict owner
  commitRemoval owner { d with entries := [], materials := [], hashes := [], index := ∅ }

def dictMerge (owner other : Value) : HeapM Unit := do
  let owner ← nativeValue owner
  let other ← nativeValue other
  let .dict d ← getObject other | throw (typeError "dictionary unpacking requires a mapping")
  if owner = other then return
  (List.range d.entries.length).forM fun i => do
    let .dict d ← getObject other | throw (.panicked "unreachable")
    let some (key, value) := d.entries[i]? | throw (.panicked "index out of bounds")
    dictSet owner key value

/-- The hashed storage of a dictionary or a set, and how to store it back. -/
def Object.hashed : Object → Option (Dict × (Dict → Object))
  | .dict d => some (d, .dict)
  | .set d => some (d, .set)
  | _ => none

def hashSetHashed (owner key value : Value) (hash : Int) (found : Option Nat) : HeapM Unit := do
  let owner ← nativeValue owner
  let material ← reading (·.dictKey key)
  writeBarrierPair owner key value
  let some (d, wrap) := (← getObject owner).hashed | throw (typeError "expected hashed container")
  let mutationVersion ← nextEpoch "dict mutation version" d.mutationVersion
  match found with
  | some i =>
    if d.entries.length ≤ i then throw (runtimeError "stale hash candidate")
    setObject owner (wrap { d.replaceValue i value with mutationVersion })
  | none =>
    let version ← nextEpoch "dict version" d.version
    setObject owner
      (wrap { d.append (asU64 hash) material key value with version, mutationVersion })

def setItem (owner key value : Value) : HeapM Unit := do
  let owner ← nativeValue owner
  match ← getObject owner with
  | .dict _ => dictSet owner key value
  | .mappingProxy _ => throw (typeError "mappingproxy does not support item assignment")
  | .buffer b =>
    if !b.writable then throw (typeError "buffer is read-only")
    let i ← reading (·.bufferIndex b key)
    let x ← reading (·.float value)
    let b ← reading fun _ => b.setF64 i x
    setObject owner (.buffer b)
  | o =>
    let raw ← reading (·.integer key)
    if !fitsI128 raw then throw (.raise "IndexError" "list index out of range")
    let .list values := o | throw (typeError "object does not support item assignment")
    let i ← reading fun _ => Heap.normalizeIndex "list index out of range" raw values.length
    writeBarrier owner value
    setObject owner (.list (values.set i value))

def deleteItem (owner key : Value) : HeapM Unit := do
  let owner ← nativeValue owner
  match ← getObject owner with
  | .dict _ => dictDelete owner key
  | .mappingProxy _ => throw (typeError "mappingproxy does not support item deletion")
  | o =>
    let raw ← reading (·.integer key)
    if !fitsI128 raw then throw (.raise "IndexError" "list assignment index out of range")
    let .list values := o | throw (typeError "object does not support item deletion")
    let i ← reading fun _ =>
      Heap.normalizeIndex "list assignment index out of range" raw values.length
    setObject owner (.list (values.eraseIdx i))

def appendList (owner value : Value) : HeapM Unit := do
  let owner ← nativeValue owner
  writeBarrier owner value
  let .list values ← getObject owner | throw (typeError "expected list")
  setObject owner (.list (values ++ [value]))

def replaceList (owner : Value) (values : List Value) : HeapM Unit := do
  let owner ← nativeValue owner
  let .list _ ← getObject owner | throw (typeError "expected list")
  values.forM (writeBarrier owner)
  setObject owner (.list values)

end Tonic
