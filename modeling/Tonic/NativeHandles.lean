import Mathlib.Logic.Function.Basic
import Tonic.Buffer
import Tonic.Roots

/-!
## Native handles

Native code names managed values by opaque words: the slot of a table entry, and a token that no
table ever uses twice. Tables belong to one runtime each and share the counter of the tokens.
-/

namespace Tonic

open Effect

/-- A handle as native code passes it around: any 64-bit word. -/
@[ext] structure Handle where
  raw : Nat
  bound : raw < 2 ^ 64

instance : DecidableEq Handle := fun _ _ => decidable_of_iff _ Handle.ext_iff.symm

namespace Handle

def token (h : Handle) : Nat := h.raw / 2 ^ 32

def slot (h : Handle) : Nat := h.raw % 2 ^ 32

def pack (token slot : Nat) : Handle := ⟨token % 2 ^ 32 * 2 ^ 32 + slot % 2 ^ 32, by omega⟩

theorem token_pack {token slot : Nat} (bound : token < 2 ^ 32) :
    (pack token slot).token = token := by
  simp only [pack, Handle.token]
  omega

theorem slot_pack {token slot : Nat} (bound : slot < 2 ^ 32) : (pack token slot).slot = slot := by
  simp only [pack, Handle.slot]
  omega

theorem eq_of_parts {a b : Handle} (token : a.token = b.token) (slot : a.slot = b.slot) :
    a = b := by
  simp only [Handle.token, Handle.slot] at token slot
  ext
  omega

end Handle

structure HandleTable where
  entries : List (HandleEntry Value)
  /-- The stack of empty slots, its top first. -/
  free : List Nat

def invalidHandle : Fault := .raise "HandleError" "stale, released, or foreign-runtime handle"

namespace HandleTable

def empty : HandleTable := ⟨[], []⟩

variable (t : HandleTable)

def entry (h : Handle) : Except Fault (HandleEntry Value) :=
  match t.entries[h.slot]? with
  | none => .error invalidHandle
  | some e => if e.token ≠ h.token ∨ e.value = none then .error invalidHandle else .ok e

/-- The value of an entry of a kind that the caller accepts. -/
def lookup (accepts : HandleKind → Bool) (h : Handle) : Except Fault Value := do
  let e ← t.entry h
  if !accepts e.kind then throw invalidHandle
  match e.value with
  | some v => return v
  | none => throw invalidHandle

def resolve (h : Handle) : Except Fault Value :=
  t.lookup (fun kind => kind = .locals ∨ kind = .persistent) h

def resolvePersistent (h : Handle) : Except Fault Value :=
  t.lookup (fun kind => kind = .persistent) h

def resolveForeignReference (h : Handle) : Except Fault Value :=
  t.lookup (fun kind => kind = .foreignReference) h

def roots : List Value := t.entries.flatMap (·.roots)

def invalidateAll : HandleTable where
  entries := t.entries.map fun e => { e with value := none }
  free := ((List.range t.entries.length).filter fun i => i < 2 ^ 32).reverse

end HandleTable

namespace Buffer

def beginExport (b : Buffer) (writable : Bool) : Except Fault Buffer :=
  if !writable then .ok b
  else if b.mutation.writableExports + 1 < 2 ^ 32 then
    .ok { b with mutation := { b.mutation with writableExports := b.mutation.writableExports + 1 } }
  else .error (.raise "BufferError" "writable export count exhausted")

def hasActiveWritableExports (b : Buffer) : Bool := decide (b.mutation.writableExports ≠ 0)

/-- An external writer may have changed the storage: its version moves on, or native access to it
ends. -/
def endExport (b : Buffer) (writable : Bool) : Buffer :=
  if !writable then b
  else
    let m := { b.mutation with writableExports := b.mutation.writableExports - 1 }
    { b with mutation :=
        if m.version + 1 < 2 ^ 64 then { m with version := m.version + 1 }
        else { m with nativeAccessDisabled := true } }

end Buffer

/-- The local scope of one native call. -/
structure NativeContext where
  runtime : Nat
  locals : List Handle

/-- Any number of runtimes, each with its heap and its table, and the scopes that are open. -/
structure Runtimes where
  nextToken : Nat
  tables : Nat → HandleTable
  heaps : Nat → Heap
  contexts : Nat → Option NativeContext

abbrev NativeM := EStateM Fault Runtimes

namespace Runtimes

def start : Runtimes := ⟨1, fun _ => .empty, fun _ => .empty, fun _ => none⟩

def setTable (s : Runtimes) (r : Nat) (t : HandleTable) : Runtimes :=
  { s with tables := Function.update s.tables r t }

def setHeap (s : Runtimes) (r : Nat) (h : Heap) : Runtimes :=
  { s with heaps := Function.update s.heaps r h }

def setContext (s : Runtimes) (c : Nat) (context : Option NativeContext) : Runtimes :=
  { s with contexts := Function.update s.contexts c context }

def runtimeOf (s : Runtimes) (c : Nat) : Nat := (s.contexts c).elim 0 (·.runtime)

end Runtimes

/-! ### The table -/

/-- `NEXT_TOKEN`: tokens are never wrapped or used again. -/
def takeToken : NativeM Nat := do
  let s ← get
  if s.nextToken + 1 < 2 ^ 32 then
    set { s with nextToken := s.nextToken + 1 }
    return s.nextToken
  else throw (.raise "HandleError" "handle token space exhausted")

def takeSlot (r : Nat) : NativeM Nat := do
  let s ← get
  let t := s.tables r
  match t.free with
  | slot :: free =>
    set (s.setTable r { t with free })
    return slot
  | [] =>
    if t.entries.length < 2 ^ 32 then
      set (s.setTable r { t with entries := t.entries ++ [⟨0, none, .locals⟩] })
      return t.entries.length
    else throw (.raise "HandleError" "handle table exhausted")

/-- `HandleTable::insert` in the table of the runtime `r`. -/
def insertHandle (r : Nat) (value : Value) (kind : HandleKind) : NativeM Handle := do
  let token ← takeToken
  let slot ← takeSlot r
  let s ← get
  let t := s.tables r
  if slot < t.entries.length then
    set (s.setTable r { t with entries := t.entries.set slot ⟨token, some value, kind⟩ })
    return .pack token slot
  else throw (.panicked "index out of bounds")

def releaseHandle (r : Nat) (h : Handle) (kind : HandleKind) : NativeM Unit := do
  let s ← get
  let t := s.tables r
  match t.entry h with
  | .error e => throw e
  | .ok e =>
    if e.kind ≠ kind then throw invalidHandle
    set (s.setTable r
      { entries := t.entries.modify h.slot fun e => { e with value := none }
        free := h.slot :: t.free })

def persistValue (r : Nat) (value : Value) : NativeM Handle := insertHandle r value .persistent

def releasePersistent (r : Nat) (h : Handle) : NativeM Unit := releaseHandle r h .persistent

def insertForeignReference (r : Nat) (value : Value) : NativeM Handle :=
  insertHandle r value .foreignReference

def promoteForeignReference (r : Nat) (h : Handle) : NativeM Handle := do
  let value ← reading fun s => (s.tables r).resolveForeignReference h
  persistValue r value

def releaseForeignReference (r : Nat) (h : Handle) : NativeM Unit :=
  releaseHandle r h .foreignReference

def invalidateAll (r : Nat) : NativeM Unit :=
  modify fun s => s.setTable r (s.tables r).invalidateAll

/-! ### Scopes -/

namespace NativeContext

/-- A scope is named by native code only while it is open. -/
def current (c : Nat) : NativeM NativeContext :=
  reading fun s => (s.contexts c).elim (.error (.panicked "the scope is closed")) .ok

def pushLocal (c : Nat) (h : Handle) : NativeM Unit := modify fun s =>
  s.setContext c ((s.contexts c).map fun context => { context with locals := context.locals ++ [h] })

/-- `Context::local`. -/
def localHandle (c : Nat) (value : Value) : NativeM Handle := do
  let context ← current c
  let h ← insertHandle context.runtime value .locals
  pushLocal c h
  return h

/-- `Context::resolve`, the way of every accessor that reads a value. -/
def resolve (c : Nat) (h : Handle) : NativeM Value := do
  let context ← current c
  reading fun s => (s.tables context.runtime).resolve h

def persist (c : Nat) (h : Handle) : NativeM Handle := do
  let context ← current c
  let value ← resolve c h
  persistValue context.runtime value

def borrowPersistent (c : Nat) (h : Handle) : NativeM Handle := do
  let context ← current c
  let value ← reading fun s => (s.tables context.runtime).resolve h
  localHandle c value

def createForeignReference (c : Nat) (h : Handle) : NativeM Handle := do
  let context ← current c
  let value ← resolve c h
  insertForeignReference context.runtime value

def borrowForeignReference (c : Nat) (h : Handle) : NativeM Handle := do
  let context ← current c
  let value ← reading fun s => (s.tables context.runtime).resolveForeignReference h
  localHandle c value

/-- Stores the counters of an exported buffer. -/
def setBuffer (r : Nat) (v : Value) (b : Buffer) : NativeM Unit := modify fun s =>
  s.setHeap r (final (setObject v (.buffer b)) (s.heaps r))

def exportF64Buffer (c : Nat) (h : Handle) (writable requireCContiguous : Bool) :
    NativeM Handle := do
  let r := (← current c).runtime
  let value ← resolve c h
  match ← reading fun s => (s.heaps r).get value with
  | .buffer b =>
    if writable && !b.writable then throw (.raise "BufferError" "buffer is read-only")
    if requireCContiguous && !b.isCContiguous then
      throw (.raise "BufferError" "buffer is not C-contiguous")
    let owner ← insertHandle r value (.bufferOwner writable)
    match b.beginExport writable with
    | .ok b =>
      setBuffer r value b
      pushLocal c owner
      return owner
    | .error e =>
      releaseHandle r owner (.bufferOwner writable)
      throw e
  | _ => throw (typeError "expected f64 buffer")

def releaseBufferOwner (r : Nat) (h : Handle) : NativeM Unit := do
  let e ← reading fun s => (s.tables r).entry h
  match e.kind, e.value with
  | .bufferOwner writable, some value =>
    match ← reading fun s => (s.heaps r).get value with
    | .buffer b =>
      setBuffer r value (b.endExport writable)
      releaseHandle r h (.bufferOwner writable)
    | _ => throw (runtimeError "buffer owner no longer refers to a buffer")
  | _, _ => throw invalidHandle

/-- Runs a call for its effects: its error is dropped. -/
def ignoring (m : NativeM Unit) : NativeM Unit := modify (final m)

def releaseLocal (r : Nat) (h : Handle) : NativeM Unit := do
  let s ← get
  match (s.tables r).entry h with
  | .ok ⟨_, _, .locals⟩ => ignoring (releaseHandle r h .locals)
  | .ok ⟨_, _, .bufferOwner _⟩ => ignoring (releaseBufferOwner r h)
  | _ => pure ()

/-- `Drop for Context`. -/
def drop (c : Nat) : NativeM Unit := do
  let context ← current c
  modify (·.setContext c (some { context with locals := [] }))
  context.locals.forM (releaseLocal context.runtime)
  modify (·.setContext c none)

end NativeContext

end Tonic
