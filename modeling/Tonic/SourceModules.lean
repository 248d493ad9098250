import Mathlib.Logic.Function.Basic
import Tonic.AttributeGet
import Tonic.Program

/-!
## Source modules

A module of the program keeps its globals twice: in the slots its own code reads, and as members of
the module object that other code reads. A slot without a binding holds the builtin of its name.
-/

namespace Tonic

open Effect

inductive SourceModuleState where
  | uninitialized | initializing | loaded
deriving DecidableEq

structure SourceModuleRuntime where
  object : Option Value
  state : SourceModuleState
  version : Nat

/-- The part of the machine that modules change. -/
structure ModuleVm where
  heap : Heap
  globals : Nat → Value
  globalDefined : Nat → Bool
  sourceModules : Nat → SourceModuleRuntime

abbrev ModuleM := EStateM Fault ModuleVm

/-- What a run leaves as it is: the program, the builtins and the native modules. -/
structure Installed where
  program : Program
  builtins : List (String × Value)
  modules : List (String × Value)

/-- The text before the last dot and the text after it. -/
def rsplitOnce (name : String) : Option (String × String) :=
  let backwards := name.toList.reverse
  match backwards.dropWhile (· ≠ '.') with
  | [] => none
  | _ :: front =>
    some (String.ofList front.reverse, String.ofList (backwards.takeWhile (· ≠ '.')).reverse)

example : rsplitOnce "a.b.c" = some ("a.b", "c") := by decide

namespace Installed

variable (w : Installed)

def symbol (index : Nat) : String := w.program.symbols.getD index ""

def info (m : Nat) : ModuleInfo := w.program.modules.getD m ⟨"", "", 0, 0, []⟩

/-- The slots of a module. -/
def slots (m : Nat) : List Nat := (w.info m).globals

def slot (m : Nat) (name : String) : Option Nat := (w.slots m).find? (w.symbol · = name)

/-- `source_module_names`; the modules of a program have different names. -/
def named (name : String) : Option Nat := w.program.modules.findIdx? (·.name = name)

/-- `global_owners`; no slot has two owners. -/
def owner (index : Nat) : Option Nat := w.program.modules.findIdx? (index ∈ ·.globals)

/-- What a slot holds that is not bound. -/
def fallback (name : String) : Value := (findMember name w.builtins).getD .unbound

/-- The source module of an object. -/
def moduleOf (s : ModuleVm) (object : Value) : Option Nat :=
  (List.range w.program.modules.length).find? fun m => (s.sourceModules m).object = some object

/-- The names a module is given before its body runs. -/
def isMetadata (name : String) : Bool := name = "__name__" || name = "__file__"

end Installed

/-! ### State -/

def inHeap {α : Type} (m : HeapM α) : ModuleM α := fun s =>
  match m s.heap with
  | .ok a heap => .ok a { s with heap }
  | .error e heap => .error e { s with heap }

def setGlobal (index : Nat) (value : Value) (defined : Bool) : ModuleM Unit :=
  modify fun s => { s with
    globals := Function.update s.globals index value
    globalDefined := Function.update s.globalDefined index defined }

def setModule (m : Nat) (module : SourceModuleRuntime) : ModuleM Unit :=
  modify fun s => { s with sourceModules := Function.update s.sourceModules m module }

def setModuleState (m : Nat) (state : SourceModuleState) : ModuleM Unit := do
  let s ← get
  setModule m { s.sourceModules m with state }

def bumpModuleVersion (m : Nat) : ModuleM Unit := do
  let s ← get
  let module := s.sourceModules m
  if module.version + 1 < 2 ^ 64 then setModule m { module with version := module.version + 1 }
  else throw (runtimeError "module global version exhausted")

/-- Runs a heap operation on the object of a module that has one. -/
def withObject (object : Option Value) (f : Value → HeapM Unit) : ModuleM Unit :=
  match object with
  | some object => inHeap (f object)
  | none => return

namespace Installed

variable (w : Installed)

/-! ### Globals -/

def loadGlobal (index : Nat) : ModuleM Value :=
  reading fun s =>
    if s.globals index = .unbound then
      .error (.raise "NameError" ("name '" ++ w.symbol index ++ "' is not defined"))
    else .ok (s.globals index)

def storeGlobal (index : Nat) (value : Value) : ModuleM Unit := do
  setGlobal index value true
  match w.owner index with
  | none => return
  | some m =>
    let s ← get
    withObject (s.sourceModules m).object fun object =>
      addModuleMember object (w.symbol index) value
    bumpModuleVersion m

def deleteIfPresent (name : String) (object : Value) : HeapM Unit := do
  match ← attempt (attr object name) with
  | .ok _ => deleteModuleMember object name
  | .error _ => return

/-- `clear_global`: the slot is left unbound, whatever it held before the binding. -/
def clearGlobal (index : Nat) : ModuleM Unit := do
  setGlobal index .unbound false
  match w.owner index with
  | none => return
  | some m =>
    let s ← get
    withObject (s.sourceModules m).object (deleteIfPresent (w.symbol index))
    bumpModuleVersion m

/-! ### Attributes of module objects -/

/-- `store_module_attribute`: whether the owner is a source module. -/
def storeModuleAttribute (object : Value) (name : String) (value : Value) : ModuleM Bool := do
  let s ← get
  match w.moduleOf s object with
  | none => return false
  | some m =>
    match w.slot m name with
    | some index => w.storeGlobal index value
    | none =>
      inHeap (addModuleMember object name value)
      bumpModuleVersion m
    return true

def deleteModuleAttribute (object : Value) (name : String) : ModuleM Bool := do
  let s ← get
  match w.moduleOf s object with
  | none => return false
  | some m =>
    match w.slot m name with
    | some index => w.clearGlobal index
    | none =>
      inHeap (deleteModuleMember object name)
      bumpModuleVersion m
    return true

/-! ### Imports -/

/-- The value of a metadata slot, or a new string. -/
def metadataValue (m : Nat) (name text : String) : ModuleM Value := do
  let s ← get
  match ((w.slot m name).map s.globals).filter (· ≠ .unbound) with
  | some value => return value
  | none => inHeap (alloc (.str text))

/-- Gives the module object the binding of one slot. -/
def copyMember (object : Value) (index : Nat) : ModuleM Unit := do
  let s ← get
  let value := s.globals index
  if s.globalDefined index && value ≠ .unbound && !isMetadata (w.symbol index) then
    inHeap (addModuleMember object (w.symbol index) value)

def ensureSourceModuleObject (m : Nat) : ModuleM Value := do
  let s ← get
  match (s.sourceModules m).object with
  | some object => return object
  | none =>
    let object ← inHeap (alloc (.moduleObject []))
    setModule m { s.sourceModules m with object := some object }
    let name ← w.metadataValue m "__name__" (w.info m).name
    inHeap (addModuleMember object "__name__" name)
    let filename ← w.metadataValue m "__file__" (w.info m).filename
    inHeap (addModuleMember object "__file__" filename)
    (w.slots m).forM (w.copyMember object)
    return object

/-- The object an imported module is attached to, and its source module if it is one. -/
def importParent (name : String) : ModuleM (Option (Value × Option Nat)) := do
  match w.named name with
  | some m => return some (← w.ensureSourceModuleObject m, some m)
  | none => return (findMember name w.modules).map (·, none)

def isAttribute (object : Value) (name : String) (value : Value) : HeapM Bool := do
  match ← attempt (attr object name) with
  | .ok found => return found = value
  | .error _ => return false

def attachImportedModule (name : String) (object : Value) : ModuleM Unit :=
  match rsplitOnce name with
  | none => return
  | some (parentName, childName) => do
    match ← w.importParent parentName with
    | none => return
    | some (parent, sourceParent) =>
      if ← inHeap (isAttribute parent childName object) then return
      inHeap (addModuleMember parent childName object)
      match sourceParent with
      | none => return
      | some m =>
        bumpModuleVersion m
        match w.slot m childName with
        | some index => setGlobal index object true
        | none => return

/-- `invoke_import`, which ends with the module or has entered the frame of its body; `enter` is
how entering the frame ends. -/
def invokeImport (name : String) (enter : Except Fault Unit) : ModuleM (Option Value) := do
  match w.named name with
  | some m =>
    let object ← w.ensureSourceModuleObject m
    let s ← get
    match (s.sourceModules m).state with
    | .initializing | .loaded =>
      w.attachImportedModule name object
      return some object
    | .uninitialized =>
      setModuleState m .initializing
      match enter with
      | .ok () => return none
      | .error e =>
        setModuleState m .uninitialized
        throw e
  | none =>
    match findMember name w.modules with
    | none => throw (.raise "ModuleNotFoundError" ("no module named '" ++ name ++ "'"))
    | some object =>
      w.attachImportedModule name object
      return some object

/-- The name of a module, by its object. -/
def baseName (s : ModuleVm) (object : Value) : Option String :=
  match w.moduleOf s object with
  | some m => some (w.info m).name
  | none => (w.modules.find? (·.2 = object)).map (·.1)

def invokeImportFrom (object : Value) (name : String) (enter : Except Fault Unit) :
    ModuleM (Option Value) := do
  match ← inHeap (attempt (attr object name)) with
  | .ok value => return some value
  | .error e =>
    if !e.isAttributeError then throw e
    let s ← get
    match w.baseName s object with
    | none => throw (.raise "ImportError" "import source is not a module")
    | some base =>
      let child := base ++ "." ++ name
      if (w.named child).isNone && (findMember child w.modules).isNone then
        throw (.raise "ImportError" ("cannot import name '" ++ name ++ "' from '" ++ base ++ "'"))
      w.invokeImport child enter

/-- The return from the body of an imported module. -/
def finishImport (m : Nat) : ModuleM Value := do
  let s ← get
  match (s.sourceModules m).object with
  | none => throw (.panicked "imported module object")
  | some object =>
    setModuleState m .loaded
    w.attachImportedModule (w.info m).name object
    return object

/-! ### Failed imports -/

/-- The object of the parent, as long as it has one. -/
def attachedTo (s : ModuleVm) (parentName : String) : Option Value :=
  ((w.named parentName).bind fun m => (s.sourceModules m).object).or
    (findMember parentName w.modules)

def detachModule (name : String) (object : Value) : ModuleM Unit :=
  match rsplitOnce name with
  | none => return
  | some (parentName, childName) => do
    let s ← get
    match w.attachedTo s parentName with
    | none => return
    | some parent =>
      if !(← inHeap (isAttribute parent childName object)) then return
      inHeap (deleteModuleMember parent childName)
      match w.named parentName with
      | none => return
      | some m =>
        match w.slot m childName with
        | some index => setGlobal index .unbound false
        | none => pure ()
        bumpModuleVersion m

/-- The value a rolled back module keeps under the name of its metadata. -/
def resetMetadata (object : Option Value) (name text : String) : ModuleM Value :=
  match object with
  | some object => inHeap (attr object name)
  | none => inHeap (alloc (.str text))

def resetSlot (m : Nat) (object : Option Value) (index : Nat) : ModuleM Unit := do
  let name := w.symbol index
  let value ←
    if name = "__name__" then resetMetadata object name (w.info m).name
    else if name = "__file__" then resetMetadata object name (w.info m).filename
    else pure (w.fallback name)
  setGlobal index value (isMetadata name)

def resetSourceModule (m : Nat) : ModuleM Unit := do
  let s ← get
  let object := (s.sourceModules m).object
  match object with
  | some object => w.detachModule (w.info m).name object
  | none => pure ()
  withObject object resetModuleMembers
  (w.slots m).forM (w.resetSlot m object)
  setModuleState m .uninitialized
  bumpModuleVersion m

/-! ### Installation -/

/-- The machine before its program is installed, over the heap of the builtins. -/
def fresh (heap : Heap) : ModuleVm where
  heap
  globals index := w.fallback (w.symbol index)
  globalDefined _ := false
  sourceModules m := ⟨none, if m = 0 then .initializing else .uninitialized, 0⟩

def installSlot (module : ModuleInfo) (index : Nat) : ModuleM Unit := do
  if w.symbol index = "__name__" then
    setGlobal index (← inHeap (alloc (.str module.name))) true
  else if w.symbol index = "__file__" then
    setGlobal index (← inHeap (alloc (.str module.filename))) true

def install : ModuleM Unit :=
  w.program.modules.forM fun module => do
    if (findMember module.name w.modules).isSome then
      throw (.raise "ImportError"
        ("source module '" ++ module.name ++ "' conflicts with a native module"))
    module.globals.forM (w.installSlot module)

end Installed

end Tonic
