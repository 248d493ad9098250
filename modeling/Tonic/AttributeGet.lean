import Tonic.Equality
import Tonic.Roots

/-!
## Attribute access

The generic protocol of an attribute load, and the slot caches that stand in for it. A load ends
with a value or with a call that is going to produce one.
-/

namespace Tonic

open Effect

inductive DescriptorAccess where
  | value (v : Value)
  | call (target : DescriptorCall) (positional : List Value)

/-- The builtins an attribute access binds to its instance. -/
def Builtin.bindsInstance (b : Builtin) : Bool :=
  b.bindsReceiver && b ∉ [typeOr, typeRor, objectHash, intHash, floatHash, strHash, tupleHash,
    rangeHash]

def Object.instanceParts : Object → Option (Value × Attributes)
  | .instanceObject cls attributes _ => some (cls, attributes)
  | .exception e => some (e.cls, e.attributes)
  | _ => none

namespace Attributes

def slotCache (a : Attributes) (shapes : Shapes) (name : String) : Option (Nat × Nat) :=
  match a with
  | slots shape _ => (shapes.slot shape name).map fun slot => (shape, slot)
  | dictionary _ => none

def cachedSlot (a : Attributes) (shape slot : Nat) : Option Value :=
  match a with
  | slots actual values => if actual = shape then values[slot]? else none
  | dictionary _ => none

end Attributes

namespace Heap

variable (h : Heap)

def isClass (v : Value) : Bool :=
  match h.tryGet v with
  | some (.classObject _) => true
  | _ => false

def isDefaultAttributeMethod (v : Value) (expected : Builtin) : Bool :=
  match h.tryGet v with
  | some (.builtin actual) => actual = expected
  | _ => false

/-- An attribute hook of the owner other than the default one. -/
def customAttributeMethod (owner : Value) (name : String) (default : Builtin) :
    Except Fault (Option DescriptorCall) := do
  let call ← if h.isClass owner then h.metaclassMethodCall owner name
    else h.specialMethodCall owner name
  return call.filter fun call =>
    !(call.receiver = some owner && h.isDefaultAttributeMethod call.callable default)

def defaultGetattribute (owner : Value) : Builtin :=
  if h.isClass owner then .typeGetAttribute else .objectGetAttribute

def hasCustomGetattribute (owner : Value) : Bool :=
  match h.customAttributeMethod owner "__getattribute__" (h.defaultGetattribute owner) with
  | .ok call => call.isSome
  | .error _ => false

/-- The names of an exception's layout that a slot never holds. -/
def uncachedNames : List String :=
  ["__class__", "__cause__", "__context__", "__suppress_context__", "__traceback__", "args"]

/-- What a later load of the name may reuse: only a slot whose name no class of the instance
defines. -/
def instanceSlotCache (owner : Value) (name : String) : Option (AttrCacheEntry Value) :=
  if h.hasCustomGetattribute owner then none
  else do
    let (cls, attributes) ← (← h.tryGet owner).instanceParts
    if uncachedNames.contains name then none
    else match h.classLookup cls name with
      | .ok (some _) => none
      | _ =>
        let (shape, slot) ← attributes.slotCache h.shapes name
        match h.classOf cls with
        | .ok c => return ⟨cls, shape, slot, c.version⟩
        | .error _ => none

def cachedInstanceSlot (owner : Value) (cache : AttrCacheEntry Value) : Option Value := do
  let (actual, attributes) ← (← h.tryGet owner).instanceParts
  match h.classOf actual with
  | .ok c =>
    if actual = cache.cls ∧ c.version = cache.epoch then attributes.cachedSlot cache.shape cache.slot
    else none
  | .error _ => none

/-! ### Descriptors -/

def propertyGetter (owner : Value) (name : String) : Except Fault (Option Value) :=
  match (h.tryGet owner).bind (·.instanceClass) with
  | none => return none
  | some cls => do
    match ← h.classLookup cls name with
    | none => return none
    | some value =>
      match h.tryGet value with
      | some (.property (some getter) _ _) => return some getter
      | some (.property none _ _) => throw (missing name)
      | _ => return none

/-- A descriptor whose class defines `__get__`; one that only stores is its own value. An instance
attribute goes before a descriptor that does not store. -/
def descriptorOf (descriptor inst ownerClass : Value) (instanceHasValue : Bool) :
    Except Fault (Option DescriptorAccess) :=
  match (h.tryGet descriptor).bind (·.instanceClass) with
  | none => return none
  | some descriptorClass => do
    let setter ← h.classLookup descriptorClass "__set__"
    let deleter ← h.classLookup descriptorClass "__delete__"
    if instanceHasValue && setter.isNone && deleter.isNone then return none
    else match ← h.classLookup descriptorClass "__get__" with
      | none => return (setter.or deleter).map fun _ => .value descriptor
      | some getter =>
        return some (.call (h.descriptorCallable getter descriptor descriptorClass)
          [inst, ownerClass])

def descriptorGetter (owner : Value) (name : String) : Except Fault (Option DescriptorAccess) :=
  match h.tryGet owner with
  | some (.classObject _) => do
    match ← h.classLookup owner name with
    | none => return none
    | some descriptor => h.descriptorOf descriptor .none owner false
  | some o =>
    match o.instanceParts with
    | none => return none
    | some (cls, attributes) => do
      match ← h.classLookup cls name with
      | none => return none
      | some descriptor =>
        h.descriptorOf descriptor owner cls (attributes.get h.shapes name).isSome
  | none => return none

end Heap

/-- Binds what a class lookup found to the instance it was found for, if there is one. -/
def bindDescriptor (value : Value) (inst : Option Value) (ownerClass : Value) : HeapM Value := do
  let bindInstance : HeapM Value :=
    match inst with
    | some receiver => alloc (.boundMethod value receiver)
    | none => return value
  match ← tryGetObject value with
  | some (.staticMethod function) => return function
  | some (.classMethod function) => alloc (.boundMethod function ownerClass)
  | some (.function _) => bindInstance
  | some (.builtin b) => if b.bindsInstance then bindInstance else return value
  | _ => return value

/-- The access to a descriptor that nothing shadows. -/
def descriptorAccess (descriptor : Value) (inst : Option Value) (ownerClass : Value)
    (name : String) : HeapM DescriptorAccess := do
  let bound : HeapM DescriptorAccess :=
    return .value (← bindDescriptor descriptor inst ownerClass)
  match ← tryGetObject descriptor with
  | some (.property getter _ _) =>
    match inst, getter with
    | some receiver, some getter => return .call ⟨getter, some receiver⟩ []
    | some _, none => throw (missing name)
    | none, _ => return .value descriptor
  | some o =>
    match o.instanceClass with
    | none => bound
    | some descriptorClass =>
      match ← reading (·.classLookup descriptorClass "__get__") with
      | none => bound
      | some getter =>
        let h ← get
        return .call (h.descriptorCallable getter descriptor descriptorClass)
          [inst.getD .none, ownerClass]
  | none => bound

/-- The class a `super` object searches for, and the instance it binds to. -/
def superReceiver (receiver : Value) : HeapM (Value × Option Value) := do
  let o ← getObject receiver
  match o.instanceClass with
  | some cls => return (cls, some receiver)
  | none =>
    match o with
    | .classObject _ => return (receiver, none)
    | _ => throw (typeError "invalid super receiver")

def superGetter (owner : Value) (name : String) : HeapM (Option DescriptorAccess) := do
  match ← tryGetObject owner with
  | some (.super startClass receiver) =>
    let (ownerClass, inst) ← superReceiver receiver
    if name = "__self__" then return some (.value receiver)
    else if name = "__thisclass__" then return some (.value startClass)
    else if name = "__self_class__" then return some (.value ownerClass)
    else
      let c ← classOf ownerClass
      let lineage := ownerClass :: c.mro
      match lineage.findIdx? (· = startClass) with
      | none => throw (typeError "invalid super search class")
      | some start =>
        match ← reading (·.firstAttribute name (lineage.drop (start + 1))) with
        | none => throw (missing name)
        | some descriptor => return some (← descriptorAccess descriptor inst ownerClass name)
  | _ => return none

/-- A descriptor of the metaclass: one that stores goes before the class's own attributes. -/
def metaclassGetter (owner : Value) (name : String) (dataOnly : Bool) :
    HeapM (Option DescriptorAccess) := do
  match ← tryGetObject owner with
  | some (.classObject c) =>
    if c.metaclass = .unbound then return none
    else match ← reading (·.classLookup c.metaclass name) with
      | none => return none
      | some descriptor =>
        let bound : HeapM (Option DescriptorAccess) :=
          if dataOnly then return none
          else return some (.value (← bindDescriptor descriptor (some owner) c.metaclass))
        match ← tryGetObject descriptor with
        | some (.property (some getter) _ _) => return some (.call ⟨getter, some owner⟩ [])
        | some (.property none _ _) => throw (missing name)
        | some o =>
          match o.instanceClass with
          | none => bound
          | some descriptorClass =>
            let setter ← reading (·.classLookup descriptorClass "__set__")
            let deleter ← reading (·.classLookup descriptorClass "__delete__")
            if dataOnly && !(setter.isSome || deleter.isSome) then return none
            else match ← reading (·.classLookup descriptorClass "__get__") with
              | some getter =>
                let h ← get
                return some (.call (h.descriptorCallable getter descriptor descriptorClass)
                  [owner, c.metaclass])
              | none =>
                if setter.isSome || deleter.isSome then return some (.value descriptor) else bound
        | none => bound
  | _ => return none

/-- The attribute of a value whose layout is native: the class is supplied. -/
def nativeAttributeGetter (owner ownerClass : Value) (name : String) :
    HeapM (Option DescriptorAccess) := do
  match ← reading (·.classLookup ownerClass name) with
  | none => return none
  | some descriptor => return some (← descriptorAccess descriptor (some owner) ownerClass name)

/-! ### The attribute of an object -/

/-- What the classes of an instance define under the name, bound to it. -/
def classAttribute (owner cls : Value) (name : String) : HeapM Value := do
  match ← reading (·.classLookup cls name) with
  | none => throw (missing name)
  | some value => bindDescriptor value (some owner) cls

def instanceAttribute (owner cls : Value) (attributes : Attributes) (name : String) :
    HeapM Value := do
  let h ← get
  match attributes.get h.shapes name with
  | some value => return value
  | none => classAttribute owner cls name

def exceptionAttribute (owner : Value) (e : Exception) (name : String) : HeapM Value :=
  match name with
  | "__class__" => return e.cls
  | "__cause__" => return e.cause.getD .none
  | "__context__" => return e.context.getD .none
  | "__suppress_context__" => return .bool e.suppressContext
  | "__traceback__" => return e.traceback.getD .none
  | "args" => alloc (.tuple e.arguments)
  | "__dict__" =>
    throw (.raise "UnsupportedFeature" "exception __dict__ view is not implemented")
  | _ =>
    match e.stopIterationValue with
    | some value =>
      if name = "value" then return value else instanceAttribute owner e.cls e.attributes name
    | none => instanceAttribute owner e.cls e.attributes name

def ownClassAttribute (owner : Value) (c : Class) (name : String) : HeapM Value := do
  if name = "__class__" ∧ c.metaclass ≠ .unbound then return c.metaclass
  else if name = "__name__" then alloc (.str c.name)
  else if name = "__bases__" then alloc (.tuple c.bases)
  else if name = "__mro__" then alloc (.tuple (owner :: c.mro))
  else if name = "__dict__" then alloc (.mappingProxy owner)
  else match ← reading (·.classLookup owner name) with
    | none => throw (missing name)
    | some value => bindDescriptor value none owner

def typeParamAttribute (name : String) (parameter : String) (bound : Option Value)
    (default : Value) : HeapM Value :=
  match name with
  | "__name__" => alloc (.str parameter)
  | "__bound__" => return bound.getD .none
  | "__default__" => return default
  | "__constraints__" => alloc (.tuple [])
  | _ => throw (missing name)

def typeAliasAttribute (name aliasName moduleName : String) (typeParams value : Value) :
    HeapM Value :=
  match name with
  | "__name__" => alloc (.str aliasName)
  | "__module__" => alloc (.str moduleName)
  | "__type_params__" => return typeParams
  | "__value__" => return value
  | _ => throw (missing name)

/-- The arguments of a `Callable` alias, its parameters and its result in one tuple. -/
def callableArguments (args : Value) : HeapM Value := do
  let .tuple arguments ← getObject args | throw (typeError "invalid Callable arguments")
  match arguments with
  | [parameters, result] =>
    if parameters = .ellipsis then alloc (.tuple [.ellipsis, result])
    else match ← getObject parameters with
      | .list values | .tuple values => alloc (.tuple (values ++ [result]))
      | _ => throw (typeError "invalid Callable parameters")
  | _ => throw (typeError "invalid Callable arguments")

/-- `fuel` is how many unpacked types may nest; each one is older than the next. -/
def attrWithin : Nat → Value → String → HeapM Value
  | 0, _, _ => throw (.panicked "stack overflow")
  | fuel + 1, owner, name => do
    match ← tryGetObject owner with
    | some (.function _) =>
      if name = "__annotations__" then functionAnnotations owner
      else if name = "__type_params__" then functionTypeParams owner
      else throw (missing name)
    | some (.boundMethod function receiver) =>
      if name = "__annotations__" then functionAnnotations function
      else if name = "__type_params__" then functionTypeParams function
      else if name = "__func__" then return function
      else if name = "__self__" then return receiver
      else throw (missing name)
    | some (.typeParam parameter _ bound default) => typeParamAttribute name parameter bound default
    | some (.typeAlias aliasName moduleName typeParams value) =>
      typeAliasAttribute name aliasName moduleName typeParams value
    | some (.typeUnpack value) =>
      if name = "__origin__" ∨ name = "__args__" then attrWithin fuel value name
      else if name = "__unpacked__" then return .bool true
      else throw (missing name)
    | some (.genericAlias _ origin args) =>
      if name = "__origin__" then return origin
      else if name = "__args__" then
        match ← tryGetObject origin with
        | some (.typingForm _ .callable) => callableArguments args
        | _ => return args
      else if name = "__value__" ∨ name = "__type_params__" then
        match ← tryGetObject origin with
        | some (.typeAlias _ _ _ _) => attrWithin fuel origin name
        | _ => throw (missing name)
      else throw (missing name)
    | some (.unionType cls members) =>
      if name = "__args__" then alloc (.tuple members)
      else if name = "__origin__" then return cls
      else throw (missing name)
    | some (.moduleObject members) =>
      match findMember name members with
      | some value => return value
      | none => throw (missing name)
    | some (.classObject c) => ownClassAttribute owner c name
    | some (.instanceObject cls attributes _) =>
      if name = "__class__" then return cls
      else if name = "__dict__" then
        throw (.raise "UnsupportedFeature" "instance __dict__ view is not implemented")
      else instanceAttribute owner cls attributes name
    | some (.exception e) => exceptionAttribute owner e name
    | some (.generator _) | some (.coroutineIterator _ _)
    | some (.asyncGeneratorAwaitable _ _ _ _) | some (.asyncFuture _) | some (.asyncTask _)
    | some (.asyncFutureIterator _ _) | some (.asyncEventLoop _ _) =>
      let o ← getObject owner
      match o.instanceClass with
      | some cls => if name = "__class__" then return cls else classAttribute owner cls name
      | none => throw (missing name)
    | some (.staticMethod function) | some (.classMethod function) =>
      if name = "__func__" then return function else throw (missing name)
    | some (.property getter setter deleter) =>
      match name with
      | "fget" => return getter.getD .none
      | "fset" => return setter.getD .none
      | "fdel" => return deleter.getD .none
      | "setter" => alloc (.propertySetter owner)
      | "deleter" => alloc (.propertyDeleter owner)
      | _ => throw (missing name)
    | _ => throw (missing name)

def attr (owner : Value) (name : String) : HeapM Value := do
  let h ← get
  attrWithin (h.objects.length + 1) owner name

/-! ### The generic protocol -/

/-- Runs a computation and keeps what it failed with. -/
def attempt {α : Type} (m : HeapM α) : HeapM (Except Fault α) := fun h =>
  match m h with
  | .ok a h => .ok (.ok a) h
  | .error e h => .ok (.error e) h

def Fault.isAttributeError : Fault → Bool
  | raised d => d.kind = "AttributeError"
  | panicked _ => false

/-- The first step that answers, else the last one. -/
def firstAccess (last : HeapM DescriptorAccess) :
    List (HeapM (Option DescriptorAccess)) → HeapM DescriptorAccess
  | [] => last
  | step :: rest => do
    match ← step with
    | some access => return access
    | none => firstAccess last rest

section Protocol

variable (objectClass : Value) (types : RuntimeTypes Value)

/-- `__round__` of a value whose layout is native. -/
def roundGetter (owner : Value) (name : String) : HeapM (Option DescriptorAccess) := do
  let h ← get
  let nativeLayout := ((h.tryGet owner).bind (·.instanceParts)).isNone
  if name = "__round__" && !h.isClass owner && nativeLayout then
    let ownerClass ← reading fun h => runtimeClass objectClass types h owner
    if ownerClass = objectClass then return none
    else nativeAttributeGetter owner ownerClass name
  else return none

/-- The attribute of the object itself; a class falls back to its metaclass. -/
def plainAccess (owner : Value) (name : String) : HeapM DescriptorAccess := do
  match ← attempt (attr owner name) with
  | .ok value => return .value value
  | .error e =>
    if !e.isAttributeError then throw e
    else if name = "__class__" then
      return .value (← reading fun h => runtimeClass objectClass types h owner)
    else
      let h ← get
      if h.isClass owner then
        match ← metaclassGetter owner name false with
        | some access => return access
        | none => throw e
      else throw e

def invokeDefaultAttributeGet (owner : Value) (name : String) : HeapM DescriptorAccess := do
  let h ← get
  firstAccess (plainAccess objectClass types owner name)
    [superGetter owner name,
     if h.isClass owner then metaclassGetter owner name true else return none,
     do return (← reading (·.propertyGetter owner name)).map (.call ⟨·, some owner⟩ []),
     reading (·.descriptorGetter owner name),
     roundGetter objectClass types owner name]

/-- An access that found nothing is passed on to `__getattr__`. -/
def continueAttributeMissing (owner : Value) (name : String) (error : Fault) :
    HeapM DescriptorAccess := do
  let h ← get
  let call ← reading fun _ =>
    if h.isClass owner then h.metaclassMethodCall owner "__getattr__"
    else h.specialMethodCall owner "__getattr__"
  match call with
  | some call => return .call call [← alloc (.str name)]
  | none => throw error

/-- An attribute load up to the value it stores or the call it makes. -/
def invokeAttributeGet (owner : Value) (name : String) : HeapM DescriptorAccess := do
  match ← reading fun h =>
      h.customAttributeMethod owner "__getattribute__" (h.defaultGetattribute owner) with
  | some call => return .call call [← alloc (.str name)]
  | none =>
    match ← attempt (invokeDefaultAttributeGet objectClass types owner name) with
    | .ok access => return access
    | .error e =>
      if e.isAttributeError then continueAttributeMissing owner name e else throw e

end Protocol

end Tonic
