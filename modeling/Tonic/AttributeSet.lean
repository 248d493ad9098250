import Tonic.SourceModules

/-!
## Attribute stores and deletions

The default protocol of a store and of a deletion: a source module keeps its globals in step, then
the properties and the descriptors of the class are asked, and the object itself comes last.
-/

namespace Tonic

open Effect

/-- How a store or a deletion ends: it is done, or a call is going to do it. -/
inductive AttributeMutation where
  | done
  | call (target : DescriptorCall) (positional : List Value)

namespace Heap

variable (h : Heap)

def instanceClassOf (owner : Value) : Option Value := (h.tryGet owner).bind (·.instanceClass)

def metaclassOf (owner : Value) : Option Value :=
  match h.tryGet owner with
  | some (.classObject c) => if c.metaclass = .unbound then none else some c.metaclass
  | _ => none

/-- One of the functions of the property that a class has under the name. -/
def propertyFunction (cls : Option Value) (name what : String)
    (function : Option Value → Option Value → Option Value → Option Value) :
    Except Fault (Option Value) :=
  match cls with
  | none => return none
  | some cls => do
    match ← h.classLookup cls name with
    | none => return none
    | some value =>
      match h.tryGet value with
      | some (.property getter setter deleter) =>
        match function getter setter deleter with
        | some f => return some f
        | none => throw (.raise "AttributeError" ("property '" ++ name ++ "' has no " ++ what))
      | _ => return none

def propertySetter (owner : Value) (name : String) : Except Fault (Option Value) :=
  h.propertyFunction (h.instanceClassOf owner) name "setter" fun _ setter _ => setter

def propertyDeleter (owner : Value) (name : String) : Except Fault (Option Value) :=
  h.propertyFunction (h.instanceClassOf owner) name "deleter" fun _ _ deleter => deleter

def metaclassPropertySetter (owner : Value) (name : String) : Except Fault (Option Value) :=
  h.propertyFunction (h.metaclassOf owner) name "setter" fun _ setter _ => setter

def metaclassPropertyDeleter (owner : Value) (name : String) : Except Fault (Option Value) :=
  h.propertyFunction (h.metaclassOf owner) name "deleter" fun _ _ deleter => deleter

/-- A hook of the descriptor that a class has under the name. A descriptor that only has the
other hook refuses. -/
def descriptorHook (cls : Option Value) (name hook other : String) :
    Except Fault (Option DescriptorCall) :=
  match cls with
  | none => return none
  | some cls => do
    match ← h.classLookup cls name with
    | none => return none
    | some descriptor =>
      match h.instanceClassOf descriptor with
      | none => return none
      | some descriptorClass =>
        match ← h.classLookup descriptorClass hook with
        | some f => return some (h.descriptorCallable f descriptor descriptorClass)
        | none =>
          if (← h.classLookup descriptorClass other).isSome then throw (.raise "AttributeError" hook)
          else return none

def descriptorSetter (owner : Value) (name : String) : Except Fault (Option DescriptorCall) :=
  h.descriptorHook (h.instanceClassOf owner) name "__set__" "__delete__"

def descriptorDeleter (owner : Value) (name : String) : Except Fault (Option DescriptorCall) :=
  h.descriptorHook (h.instanceClassOf owner) name "__delete__" "__set__"

def metaclassDescriptorSetter (owner : Value) (name : String) :
    Except Fault (Option DescriptorCall) :=
  h.descriptorHook (h.metaclassOf owner) name "__set__" "__delete__"

def metaclassDescriptorDeleter (owner : Value) (name : String) :
    Except Fault (Option DescriptorCall) :=
  h.descriptorHook (h.metaclassOf owner) name "__delete__" "__set__"

end Heap

/-- A function of a property is called with the owner, a hook of a descriptor as well; without
either the object is changed itself. -/
def throughDescriptors (owner : Value) (values : List Value)
    (property : Heap → Except Fault (Option Value))
    (descriptor : Heap → Except Fault (Option DescriptorCall)) (object : HeapM Unit) :
    HeapM AttributeMutation := do
  match ← reading property with
  | some f => return .call ⟨f, some owner⟩ values
  | none =>
    match ← reading descriptor with
    | some hook => return .call hook (owner :: values)
    | none =>
      object
      return .done

namespace Installed

variable (w : Installed)

def invokeDefaultAttributeSet (owner : Value) (name : String) (value : Value) :
    ModuleM AttributeMutation := do
  if ← w.storeModuleAttribute owner name value then return .done
  let s ← get
  if s.heap.isClass owner then
    inHeap (throughDescriptors owner [value] (·.metaclassPropertySetter owner name)
      (·.metaclassDescriptorSetter owner name) (setAttr owner name value))
  else
    inHeap (throughDescriptors owner [value] (·.propertySetter owner name)
      (·.descriptorSetter owner name) (setAttr owner name value))

def invokeDefaultAttributeDelete (owner : Value) (name : String) : ModuleM AttributeMutation := do
  if ← w.deleteModuleAttribute owner name then return .done
  let s ← get
  if s.heap.isClass owner then
    inHeap (throughDescriptors owner [] (·.metaclassPropertyDeleter owner name)
      (·.metaclassDescriptorDeleter owner name) (delAttr owner name))
  else
    inHeap (throughDescriptors owner [] (·.propertyDeleter owner name)
      (·.descriptorDeleter owner name) (delAttr owner name))

end Installed

end Tonic
