import Mathlib.Algebra.Order.BigOperators.Group.List
import Mathlib.Algebra.Order.Ring.Nat
import Tonic.Dict
import Tonic.Mutators

/-!
## Classes and attributes

The state-changing half of `classes.rs`: class bodies, class completion, attribute stores and
deletes, and the lookups they need.
-/

namespace Tonic

open Effect

def missing (name : String) : Fault :=
  .raise "AttributeError" ("object has no attribute '" ++ name ++ "'")

/-- The double-underscore names a class may define. -/
def supportedHooks : List String :=
  ["__init__", "__new__", "__del__", "__call__", "__len__", "__bool__", "__get__", "__getattr__",
   "__getattribute__", "__setattr__", "__delattr__", "__iter__", "__next__", "__enter__",
   "__exit__", "__set__", "__set_name__", "__prepare__", "__getitem__", "__class_getitem__",
   "__setitem__", "__delitem__", "__delete__", "__add__", "__radd__", "__iadd__", "__sub__",
   "__rsub__", "__isub__", "__mul__", "__rmul__", "__imul__", "__matmul__", "__rmatmul__",
   "__imatmul__", "__truediv__", "__rtruediv__", "__itruediv__", "__floordiv__", "__rfloordiv__",
   "__ifloordiv__", "__mod__", "__rmod__", "__imod__", "__divmod__", "__rdivmod__", "__pow__",
   "__rpow__", "__ipow__", "__or__", "__ror__", "__ior__", "__xor__", "__rxor__", "__ixor__",
   "__and__", "__rand__", "__iand__", "__lshift__", "__rlshift__", "__ilshift__", "__rshift__",
   "__rrshift__", "__irshift__", "__eq__", "__hash__", "__ne__", "__lt__", "__le__", "__gt__",
   "__ge__", "__contains__", "__neg__", "__pos__", "__abs__", "__round__", "__invert__",
   "__int__", "__float__", "__index__", "__await__", "__aiter__", "__anext__", "__aenter__",
   "__aexit__", "__module__", "__qualname__", "__doc__", "__name__", "__annotations__",
   "__type_params__", "__value__", "__bound__", "__constraints__", "__match_args__", "__str__",
   "__repr__", "__format__"]

def unsupportedHook (name : String) : Except Fault Unit :=
  if name.startsWith "__" && name.endsWith "__" && !supportedHooks.contains name then
    .error (.raise "UnsupportedFeature" ("class protocol '" ++ name ++ "' is not implemented yet"))
  else .ok ()

/-- An implicit call of a special method: the callable and the receiver it is given. -/
structure DescriptorCall where
  callable : Value
  receiver : Option Value
deriving DecidableEq, Repr

/-- The builtins that bind their receiver like a function does. -/
def Builtin.bindsReceiver : Builtin → Bool
  | objectGetAttribute | objectSetAttr | objectDelAttr | typeGetAttribute | typeSetAttr
  | typeDelAttr | typeOr | typeRor | objectInit | objectHash | intHash | floatHash | strHash
  | tupleHash | rangeHash | intRound | floatRound | listInit | dictInit | callIteratorIter
  | callIteratorNext | sequenceIteratorIter | sequenceIteratorNext | generatorIter
  | generatorNext | generatorSend | generatorThrow | generatorClose | coroutineAwait
  | asyncGeneratorIter | asyncGeneratorNext | asyncGeneratorSend | asyncGeneratorThrow
  | asyncGeneratorClose | asyncGeneratorAwait | asyncGeneratorAwaitNext
  | asyncGeneratorAwaitSend | asyncGeneratorAwaitThrow | asyncGeneratorAwaitClose
  | asyncioFutureAwait | asyncioFutureNext | asyncioFutureSend | asyncioFutureDone
  | asyncioFutureCancelled | asyncioFutureCancel | asyncioFutureResult
  | asyncioFutureException | asyncioFutureSetResult | asyncioFutureSetException
  | asyncioFutureAddDoneCallback | asyncioTaskDone | asyncioTaskCancelled | asyncioTaskCancel
  | asyncioTaskResult | asyncioTaskException | asyncioTaskAddDoneCallback => true
  | _ => false

def findMember (name : String) (members : List (String × Value)) : Option Value :=
  (members.find? (·.1 = name)).map (·.2)

namespace Heap

variable (h : Heap)

/-- The first class in the list that has the attribute. -/
def firstAttribute (name : String) : List Value → Except Fault (Option Value)
  | [] => .ok none
  | cls :: rest => do
    match findMember name (← h.classOf cls).attributes with
    | some value => return some value
    | none => firstAttribute name rest

def classLookup (owner : Value) (name : String) : Except Fault (Option Value) := do
  let c ← h.classOf owner
  h.firstAttribute name (owner :: c.mro)

def descriptorCallable (value descriptor descriptorClass : Value) : DescriptorCall :=
  match h.tryGet value with
  | some (.staticMethod f) => ⟨f, none⟩
  | some (.classMethod f) => ⟨f, some descriptorClass⟩
  | some (.function _) => ⟨value, some descriptor⟩
  | some (.builtin b) => ⟨value, if b.bindsReceiver then some descriptor else none⟩
  | _ => ⟨value, none⟩

/-- A special method is looked up on the class, never on the instance. -/
def specialMethodCall (v : Value) (name : String) : Except Fault (Option DescriptorCall) :=
  match (h.tryGet v).bind (·.instanceClass) with
  | none => .ok none
  | some cls => do
    match ← h.classLookup cls name with
    | none => return none
    | some callable => return some (h.descriptorCallable callable v cls)

def dictGetStr [HostLibrary] (owner : Value) (name : String) : Except Fault (Option Value) := do
  match ← h.get (h.nativeValue owner) with
  | .dict d => return (d.find (.str name)).bind fun i => (d.entries[i]?).map (·.2)
  | _ => throw (typeError "expected dict")

def customMapping : Fault := bytecodeError "custom class mapping requires VM protocol dispatch"

def namespaceGet [HostLibrary] (ns : Value) (name : String) : Except Fault (Option Value) := do
  match ← h.get ns with
  | .namespaceObject c =>
    match c.namespaceMapping with
    | none => return findMember name c.attributes
    | some mapping =>
      match ← h.get mapping with
      | .dict _ => h.dictGetStr mapping name
      | _ => throw customMapping
  | _ => throw (bytecodeError "missing class namespace")

end Heap

/-! ### Method resolution order -/

/-- The next C3 head: the first candidate that no sequence has in its tail. -/
def mergeHead (sequences : List (List Value)) : Option Value :=
  (sequences.filterMap List.head?).find? fun candidate =>
    !sequences.any fun s => s.tail.contains candidate

def dropHead (head : Value) (s : List Value) : List Value :=
  if s.head? = some head then s.tail else s

theorem sum_dropHead_lt {sequences : List (List Value)} {head : Value}
    (h : ∃ s ∈ sequences, s.head? = some head) :
    ((sequences.map (dropHead head)).map List.length).sum <
      (sequences.map List.length).sum := by
  have le (s : List Value) : (dropHead head s).length ≤ s.length := by
    unfold dropHead
    split <;> simp
  induction sequences with
  | nil => simp at h
  | cons s rest ih =>
    simp only [List.map_cons, List.sum_cons]
    obtain ⟨t, ht, eq⟩ := h
    rcases List.mem_cons.mp ht with rfl | ht
    · have drop : (dropHead head t).length < t.length := by
        cases t with
        | nil => simp at eq
        | cons a t => simp [dropHead, eq]
      have rest : ((rest.map (dropHead head)).map List.length).sum ≤
          (rest.map List.length).sum := by
        rw [List.map_map]
        exact List.sum_le_sum fun s _ => le s
      omega
    · have := ih ⟨t, ht, eq⟩
      have := le s
      omega

theorem mergeHead_mem {sequences : List (List Value)} {head : Value}
    (h : mergeHead sequences = some head) : ∃ s ∈ sequences, s.head? = some head := by
  have := List.mem_of_find?_eq_some h
  simpa [List.mem_filterMap] using this

/-- The C3 merge of the base lineages and the list of bases. -/
def c3Merge (sequences : List (List Value)) : Except Fault (List Value) :=
  if sequences.all List.isEmpty then .ok []
  else
    match _h : mergeHead sequences with
    | none => .error (typeError "cannot create a consistent method resolution order")
    | some head => (c3Merge (sequences.map (dropHead head))).map (head :: ·)
termination_by (sequences.map List.length).sum
decreasing_by
  simpa only [List.map_subtype, List.unattach_attach] using sum_dropHead_lt (mergeHead_mem _h)

/-! ### Class bodies -/

def shortName (qualname : String) : String := ((qualname.splitOn ".").getLast?).getD qualname

def namespaceWithMetaclass (qualname : String) (bases : List Value) (metaclass : Value) :
    HeapM Value := do
  let moduleName ← alloc (.str "__main__")
  let qualified ← alloc (.str qualname)
  let attributes := [("__module__", moduleName), ("__qualname__", qualified), ("__doc__", .none)]
  alloc (.namespaceObject
    { root := false, id := 0, version := 0, name := shortName qualname, metaclass
      namespaceMapping := none, attributes, extraAttributes := []
      dictionaryOrder := attributes.map fun m => .string m.1
      bases, mro := [], dependents := [] })

def namespaceFromMapping (qualname : String) (bases : List Value) (metaclass mapping : Value) :
    HeapM Value :=
  alloc (.namespaceObject
    { root := false, id := 0, version := 0, name := shortName qualname, metaclass
      namespaceMapping := some mapping, attributes := [], extraAttributes := []
      dictionaryOrder := [], bases, mro := [], dependents := [] })

def expectNamespace (ns : Value) : HeapM Class := do
  let .namespaceObject c ← getObject ns | throw (bytecodeError "missing class namespace")
  return c

variable [HostLibrary]

/-- A store into the body's own attribute list. -/
def namespaceStore (ns : Value) (name : String) (value : Value) : HeapM Unit := do
  writeBarrier ns value
  let c ← expectNamespace ns
  let dictionaryOrder :=
    if c.attributes.any (·.1 = name) then c.dictionaryOrder
    else c.dictionaryOrder ++ [.string name]
  setObject ns
    (.namespaceObject { c with attributes := setMember name value c.attributes, dictionaryOrder })

def namespaceSet (ns : Value) (name : String) (value : Value) : HeapM Unit := do
  let c ← expectNamespace ns
  match c.namespaceMapping with
  | none => namespaceStore ns name value
  | some mapping =>
    let .dict _ ← getObject mapping | throw Heap.customMapping
    dictSetStr mapping name value

def namespaceDelete (ns : Value) (name : String) : HeapM Unit := do
  let c ← expectNamespace ns
  match c.namespaceMapping with
  | some mapping => do
    let key ← alloc (.str name)
    dictDelete mapping key
  | none =>
    if !c.attributes.any (·.1 = name) then
      throw (.raise "NameError" ("name '" ++ name ++ "' is not defined"))
    setObject ns (.namespaceObject { c with
      attributes := c.attributes.eraseP (·.1 = name)
      dictionaryOrder := c.dictionaryOrder.eraseP (· = .string name) })

/-- The mapping a metaclass hook sees: made from the attribute list on first use. -/
def namespaceMapping (ns : Value) : HeapM Value := do
  let c ← expectNamespace ns
  match c.namespaceMapping with
  | some mapping => return mapping
  | none =>
    let mapping ← alloc (.dict .empty)
    c.attributes.forM fun m => dictSetStr mapping m.1 m.2
    writeBarrier ns mapping
    let .namespaceObject c ← getObject ns | throw (.panicked "validated namespace changed kind")
    setObject ns (.namespaceObject { c with namespaceMapping := some mapping })
    return mapping

def namespaceUseMapping (ns mapping : Value) : HeapM Unit := do
  let .dict _ ← getObject mapping | throw (typeError "type.__new__() argument 3 must be a dict")
  writeBarrier ns mapping
  let c ← expectNamespace ns
  setObject ns (.namespaceObject { c with namespaceMapping := some mapping })

/-! ### Class completion -/

/-- The class dictionary of a mapping: string keys are attributes, the others are kept aside. -/
def classDictionary (h : Heap) (entries : List (Value × Value)) :
    List (String × Value) × List (Value × Value) × List ClassDictionaryKey :=
  let named (entry : Value × Value) : Option String :=
    match h.tryGet entry.1 with
    | some (.str name) => some name
    | _ => none
  (entries.filterMap fun entry => (named entry).map (·, entry.2),
    entries.filter fun entry => (named entry).isNone,
    entries.map fun entry => ((named entry).map .string).getD (.other entry.1))

def materializeMapping (ns mapping : Value) : HeapM Unit := do
  let .dict _ ← getObject mapping | throw (typeError "type.__new__() argument 3 must be a dict")
  let mapping ← nativeValue mapping
  let d ← expectDict mapping
  (pairs d.entries).forM (writeBarrier ns)
  let h ← get
  let (attributes, extraAttributes, dictionaryOrder) := classDictionary h d.entries
  let .namespaceObject c ← getObject ns | throw (.panicked "unreachable")
  setObject ns (.namespaceObject
    { c with attributes, extraAttributes, dictionaryOrder, namespaceMapping := none })

/-- A plain function under `__new__` is a static method. -/
def wrapNew (ns : Value) : HeapM Unit := do
  match ← reading (·.namespaceGet ns "__new__") with
  | none => return
  | some f =>
    match ← tryGetObject f with
    | some (.function _) => do
      let wrapper ← alloc (.staticMethod f)
      namespaceSet ns "__new__" wrapper
    | _ => return

/-- A class that defines equality but no hash is unhashable. -/
def clearHash (ns : Value) : HeapM Unit := do
  let equal ← reading (·.namespaceGet ns "__eq__")
  if equal.isSome then
    let hash ← reading (·.namespaceGet ns "__hash__")
    if hash.isNone then namespaceSet ns "__hash__" .none

/-- The lineages of the bases: each base with its own ancestors, a base named once. -/
def lineages (h : Heap) (seen : List Value) : List Value → Except Fault (List (List Value))
  | [] => .ok []
  | base :: rest => do
    if base ∈ seen then throw (typeError "duplicate base class")
    let c ← h.classOf base
    return (base :: c.mro) :: (← lineages h (seen ++ [base]) rest)

def linearize (h : Heap) (bases : List Value) : Except Fault (List Value) := do
  c3Merge ((← lineages h [] bases) ++ [bases])

def checkNames (h : Heap) (c : Class) : Except Fault Unit := do
  c.attributes.forM fun m => unsupportedHook m.1
  match findMember "__qualname__" c.attributes with
  | none => return
  | some v =>
    match h.tryGet v with
    | some (.str _) => return
    | _ => throw (typeError "__qualname__ must be a string")

def nextTypeId : HeapM Nat := do
  let h ← get
  let id := h.nextType + 1
  if 2 ^ 32 ≤ id then throw (.raise "ResourceError" "type identity space exhausted")
  set { h with nextType := id }
  return id

def addDependent (ns ancestor : Value) : HeapM Unit := do
  let .classObject a ← getObject ancestor
    | throw (.panicked "validated MRO ancestor changed kind")
  setObject ancestor (.classObject { a with dependents := a.dependents ++ [ns] })

/-- Turns the namespace into a class. -/
def installClass (ns : Value) : HeapM Unit := do
  let .namespaceObject c ← getObject ns | throw (bytecodeError "invalid class completion")
  reading fun h => checkNames h c
  let mro ← reading fun h => linearize h c.bases
  let id ← nextTypeId
  setObject ns (.classObject { c with id, version := 1, mro })
  mro.forM (addDependent ns)

def finishClass (ns : Value) : HeapM Unit := do
  let .namespaceObject c ← getObject ns | throw (bytecodeError "invalid class completion")
  match c.namespaceMapping with
  | some mapping => materializeMapping ns mapping
  | none => pure ()
  wrapNew ns
  clearHash ns
  installClass ns

def setClassMetaclass (cls metaclass : Value) : HeapM Unit := do
  let _ ← classOf metaclass
  writeBarrier cls metaclass
  let .classObject c ← getObject cls | throw (typeError "expected a Tonic class")
  setObject cls (.classObject { c with metaclass })

/-! ### Attributes -/

def nextClassVersion (c : Class) : Except Fault Nat :=
  if c.version + 1 < 2 ^ 64 then .ok (c.version + 1)
  else .error (.raise "ResourceError" "class version exhausted")

/-- The live classes whose caches a change of the owner invalidates. -/
def classInvalidationTargets (h : Heap) (owner : Value) : Except Fault (List Value) := do
  match ← h.get owner with
  | .classObject c =>
    let _ ← nextClassVersion c
    let live := c.dependents.filterMap fun d =>
      match h.tryGet d with
      | some (.classObject c) => some (d, c)
      | _ => none
    live.forM fun (_, c) => do let _ ← nextClassVersion c
    return live.map (·.1)
  | _ => throw (typeError "expected a Tonic class")

def bumpClassVersion (cls : Value) : HeapM Unit := do
  let .classObject c ← getObject cls
    | throw (.panicked "validated class invalidation target changed kind")
  setObject cls (.classObject { c with version := c.version + 1 })

def applyClassInvalidation (owner : Value) (dependents : List Value) : HeapM Unit := do
  bumpClassVersion owner
  dependents.forM bumpClassVersion

/-- The names of an instance's layout, which attribute stores leave alone. -/
def layoutNames : List String :=
  ["__class__", "__dict__", "__cause__", "__context__", "__suppress_context__", "__traceback__",
    "args"]

def unguarded : Fault := .panicked "guarded instance attributes"

/-- Rewrites the attributes of an instance; an object of another kind that still has a class is
not expected here. -/
def Object.withAttributes (attributes : Attributes) : Object → Option Object
  | .instanceObject cls _ backing => some (.instanceObject cls attributes backing)
  | .exception e => some (.exception { e with attributes })
  | _ => none

def Object.attributes : Object → Option Attributes
  | .instanceObject _ attributes _ => some attributes
  | .exception e => some e.attributes
  | _ => none

def setInstanceAttr (owner cls : Value) (name : String) (value : Value) : HeapM Unit := do
  let c ← classOf cls
  if c.root then throw (missing name)
  if layoutNames.contains name then
    throw (.raise "UnsupportedFeature" "instance layout replacement is not implemented")
  writeBarrier owner value
  let o ← getObject owner
  let some attributes := o.attributes | throw unguarded
  let h ← get
  let (attributes, shapes) := attributes.set h.shapes name value
  set { h with shapes }
  let some o := o.withAttributes attributes | throw unguarded
  setObject owner o

def setClassAttr (owner : Value) (name : String) (value : Value) : HeapM Unit := do
  reading fun _ => unsupportedHook name
  if name = "__name__" ∨ name = "__qualname__" then
    throw (.raise "UnsupportedFeature" "class naming mutation is not implemented")
  let .classObject c ← getObject owner | throw (missing name)
  if c.root then throw (typeError "cannot modify immutable object type")
  writeBarrier owner value
  let dependents ← reading fun h => classInvalidationTargets h owner
  let .classObject c ← getObject owner | throw (.panicked "unreachable")
  let dictionaryOrder :=
    if c.attributes.any (·.1 = name) then c.dictionaryOrder
    else c.dictionaryOrder ++ [.string name]
  setObject owner
    (.classObject { c with attributes := setMember name value c.attributes, dictionaryOrder })
  applyClassInvalidation owner dependents

def setAnnotations (owner : Value) (f : Function) (value : Value) : HeapM Unit := do
  if value = .none then
    setObject owner (.function { f with annotations := none, annotationPlan := none })
  else
    let some (.dict _) ← tryGetObject value
      | throw (typeError "__annotations__ must be set to a dict object")
    writeBarrier owner value
    setObject owner (.function { f with annotations := some value, annotationPlan := none })

def setStopValue (owner : Value) (e : Exception) (value : Value) : HeapM Unit := do
  writeBarrier owner value
  setObject owner (.exception { e with stopIterationValue := some value })

def setPlainAttr (owner : Value) (name : String) (value : Value) : HeapM Unit := do
  let o ← getObject owner
  match o.instanceClass with
  | some cls => setInstanceAttr owner cls name value
  | none => setClassAttr owner name value

def setAttr (owner : Value) (name : String) (value : Value) : HeapM Unit := do
  match ← tryGetObject owner with
  | some (.moduleObject _) => addModuleMember owner name value
  | some (.function f) =>
    if name = "__annotations__" then setAnnotations owner f value
    else setPlainAttr owner name value
  | some (.exception e) =>
    if name = "value" ∧ e.stopIterationValue.isSome then setStopValue owner e value
    else setPlainAttr owner name value
  | _ => setPlainAttr owner name value

def deleteInstanceAttr (owner cls : Value) (name : String) : HeapM Unit := do
  let c ← classOf cls
  if c.root || layoutNames.contains name then throw (missing name)
  let o ← getObject owner
  let some attributes := o.attributes | throw unguarded
  let h ← get
  let some (_, attributes) := attributes.delete h.shapes name | throw (missing name)
  let some o := o.withAttributes attributes | throw unguarded
  setObject owner o

def deleteClassAttr (owner : Value) (name : String) : HeapM Unit := do
  let .classObject c ← getObject owner | throw (missing name)
  if c.root || ["__name__", "__qualname__", "__bases__", "__mro__"].contains name then
    throw (typeError "cannot delete immutable class attribute")
  if !c.attributes.any (·.1 = name) then throw (missing name)
  let dependents ← reading fun h => classInvalidationTargets h owner
  setObject owner (.classObject { c with
    attributes := c.attributes.eraseP (·.1 = name)
    dictionaryOrder := c.dictionaryOrder.filter (· ≠ .string name) })
  applyClassInvalidation owner dependents

def deletePlainAttr (owner : Value) (name : String) : HeapM Unit := do
  let o ← getObject owner
  match o.instanceClass with
  | some cls => deleteInstanceAttr owner cls name
  | none => deleteClassAttr owner name

def delAttr (owner : Value) (name : String) : HeapM Unit := do
  match ← tryGetObject owner with
  | some (.moduleObject _) => deleteModuleMember owner name
  | some (.function f) =>
    if name = "__annotations__" then
      setObject owner (.function { f with annotations := none, annotationPlan := none })
    else deletePlainAttr owner name
  | some (.exception e) =>
    if name = "value" ∧ e.stopIterationValue.isSome then
      setObject owner (.exception { e with stopIterationValue := some .none })
    else deletePlainAttr owner name
  | _ => deletePlainAttr owner name

/-- Reading `__annotations__` of a function makes the dictionary on first use. -/
def functionAnnotations (f : Value) : HeapM Value := do
  let .function fn ← getObject f | throw (.panicked "checked function changed kind")
  match fn.annotations with
  | some annotations => return annotations
  | none =>
    let annotations ← alloc (.dict .empty)
    writeBarrier f annotations
    let .function fn ← getObject f | throw (.panicked "checked function changed kind")
    setObject f (.function { fn with annotations := some annotations })
    return annotations

def functionTypeParams (f : Value) : HeapM Value := do
  let .function fn ← getObject f | throw (.panicked "checked function changed kind")
  match fn.typeParams with
  | some typeParams => return typeParams
  | none =>
    let typeParams ← alloc (.tuple [])
    writeBarrier f typeParams
    let .function fn ← getObject f | throw (.panicked "checked function changed kind")
    setObject f (.function { fn with typeParams := some typeParams })
    return typeParams

end Tonic
