import Tonic.AttributeSetSound
import Tonic.SourceModulesSound

/-!
## The default store and the default deletion

What the machine does for a store or a deletion without a hook of its own: it fails without harm
unless it comes to an object without a table, or to a module whose version is used up.
-/

namespace Tonic

open Effect Outcome

namespace Heap

variable {h : Heap} {owner value : Value} {name : String} {values : List Value}

theorem throughDescriptors_harmless_iff {property : Heap → Except Fault (Option Value)}
    {descriptor : Heap → Except Fault (Option DescriptorCall)} {object : HeapM Unit}
    (functions : FailsOnly Fault.Raised (property h))
    (hooks : FailsOnly Fault.Raised (descriptor h)) :
    Harmless h (throughDescriptors owner values property descriptor object) h ↔
      (property h = .ok none → descriptor h = .ok none → Harmless h object h) := by
  unfold Harmless throughDescriptors
  rw [ends_bind, ends_reading]
  cases read : property h with
  | error e => exact ⟨fun _ none => (by cases none), fun _ => ⟨functions e read, .refl h⟩⟩
  | ok found =>
    cases found with
    | some f => exact ⟨fun _ none => (by cases none), fun _ => trivial⟩
    | none =>
      dsimp only
      rw [ends_bind, ends_reading]
      cases read : descriptor h with
      | error e => exact ⟨fun _ _ none => (by cases none), fun _ => ⟨hooks e read, .refl h⟩⟩
      | ok found =>
        cases found with
        | some hook => exact ⟨fun _ _ none => (by cases none), fun _ => trivial⟩
        | none =>
          dsimp only
          rw [ends_bind]
          exact ⟨fun harmless _ _ => harmless, fun harmless => harmless rfl rfl⟩

/-- A class stores what is set on it. -/
theorem tabled_class (cls : h.isClass owner = true) : ¬ h.Untabled owner name := by
  rintro ⟨o, c, -, found, own, -⟩
  unfold isClass at cls
  rw [found] at cls
  cases o with
  | classObject c => cases own
  | _ => cases cls

end Heap

/-! ### Machines -/

section Machine

variable {α : Type} {s u : ModuleVm} {m : Nat}

@[simp] theorem ends_inHeap {body : HeapM α} {Q : α → ModuleVm → Prop}
    {F : Fault → ModuleVm → Prop} : ends (inHeap body) Q F = fun s =>
      ends body (fun a heap => Q a { s with heap }) (fun e heap => F e { s with heap }) s.heap := by
  funext s
  unfold ends inHeap
  cases body s.heap <;> rfl

/-- A failure is an exception, and every object is what it was. -/
def HarmlessStep (m : ModuleM α) (s : ModuleVm) : Prop :=
  ends m (fun _ _ => True) (fun e t => e.Raised ∧ s.heap.Untouched t.heap) s

theorem harmlessStep_inHeap {body : HeapM α} :
    HarmlessStep (inHeap body) s ↔ Harmless s.heap body s.heap := by
  unfold HarmlessStep Harmless
  rw [ends_inHeap]

/-- The version of the module has no successor. -/
def ModuleVm.Exhausted (s : ModuleVm) (m : Nat) : Prop := 2 ^ 64 ≤ (s.sourceModules m).version + 1

theorem ends_bumpModuleVersion {F : Fault → ModuleVm → Prop} :
    ends (bumpModuleVersion m) (fun _ _ => True) F u ↔
      (u.Exhausted m → F (runtimeError "module global version exhausted") u) := by
  unfold bumpModuleVersion ModuleVm.Exhausted
  rw [ends_bind]
  dsimp only [ends_get]
  split
  · next room =>
    constructor
    · intro _ full
      omega
    · intro _
      trivial
  · next full =>
    constructor
    · intro failed _
      exact failed
    · intro failed
      exact failed (by omega)

/-- A step on the object of a module comes before the next version of the module. -/
theorem memberStep_harmless_iff {body : HeapM Unit} {touched : Prop} (heap : u.heap = s.heap)
    (modules : u.sourceModules = s.sourceModules)
    (run : ends body (fun _ t => s.heap.Untouched t ↔ ¬ touched)
      (fun e t => e.Raised ∧ s.heap.Untouched t ∧ ¬ touched) s.heap) :
    ends (do
      inHeap body
      bumpModuleVersion m
      return true) (fun _ _ => True) (fun e t => e.Raised ∧ s.heap.Untouched t.heap) u ↔
      ¬ (s.Exhausted m ∧ touched) := by
  have version (t : Heap) : ({ u with heap := t } : ModuleVm).Exhausted m ↔ s.Exhausted m := by
    unfold ModuleVm.Exhausted
    rw [modules]
  simp only [ends_bind, ends_inHeap, heap, ends_pure]
  unfold ends at run ⊢
  cases ran : body s.heap with
  | error e t =>
    rw [ran] at run
    exact ⟨fun _ both => run.2.2 both.2, fun _ => ⟨run.1, run.2.1⟩⟩
  | ok a t =>
    rw [ran] at run
    change ends (bumpModuleVersion m) _ _ { u with heap := t } ↔ _
    rw [ends_bumpModuleVersion, version]
    constructor
    · rintro failed ⟨full, touches⟩
      exact run.mp (failed full).2 touches
    · intro clean full
      exact ⟨trivial, run.mpr fun touches => clean ⟨full, touches⟩⟩

end Machine

/-! ### Module objects -/

section Members

variable {name : String} {value : Value} {members : List (String × Value)}

/-- A member that is there already is not changed by its store. -/
theorem setMember_eq_self : setMember name value members = members ↔
    findMember name members = some value := by
  constructor
  · intro same
    rw [← same, findMember_setMember, if_pos rfl]
  · intro found
    induction members with
    | nil => cases found
    | cons m rest ih =>
      rw [findMember_cons] at found
      by_cases named : m.1 = name
      · rw [if_pos named] at found
        cases found
        simp [setMember, ← named]
      · rw [if_neg named] at found
        simp [setMember, named, ih found]

theorem eraseP_ne_self {v : Value} (found : findMember name members = some v) :
    members.eraseP (·.1 = name) ≠ members := by
  intro same
  have shorter := congrArg List.length same
  have present : members.any (·.1 = name) = true := by rw [any_member, found]; rfl
  obtain ⟨m, hm, named⟩ := List.any_eq_true.mp present
  rw [List.length_eraseP_of_mem hm named] at shorter
  have := List.length_pos_of_mem hm
  omega

end Members

namespace Heap

variable {h t : Heap} {owner value : Value} {name : String} {members : List (String × Value)}

theorem Replaced.untouched_iff {o o' : Object} (replaced : h.Replaced t owner o')
    (found : h.tryGet owner = some o) : h.Untouched t ↔ o' = o := by
  constructor
  · rintro ⟨same, -⟩
    have here := congrFun (replaced.get.symm.trans same) owner
    rw [Function.update_self, found] at here
    cases here
    rfl
  · rintro rfl
    refine ⟨?_, replaced.shapes⟩
    rw [replaced.get, ← found, Function.update_eq_self]

theorem wp_addModuleMember_replaced (distinct : h.Distinct)
    (found : h.tryGet owner = some (.moduleObject members)) :
    wp (addModuleMember owner name value)
      (fun _ t => h.Replaced t owner (.moduleObject (setMember name value members)))
      (fun _ => False) h := by
  have got : (h.writeBarrier owner value).get owner = .ok (.moduleObject members) := by
    simp [Heap.get, found]
  simp only [addModuleMember, wp_bind, wp_writeBarrier, getObject, wp_reading, got]
  refine wp_mono (wp_setObject_replaced (distinct_writeBarrier distinct) (by simpa using found))
    (fun _ t stored => ?_) fun _ => id
  refine ⟨stored.distinct, ?_, by simpa using stored.shapes⟩
  rw [stored.get]
  congr 1
  funext v
  simp

end Heap

namespace Installed

variable {w : Installed} {s : ModuleVm} {owner value : Value} {name : String} {m : Nat}

/-! ### Stores on modules -/

/-- What is done to the slot of the name, before its member is touched. -/
def toSlot (w : Installed) (m : Nat) (name : String) (value : Value) (defined : Bool) :
    ModuleM Unit :=
  match w.slot m name with
  | some index => setGlobal index value defined
  | none => pure ()

theorem slot_owned (layout : w.Layout) {index : Nat} (slot : w.slot m name = some index) :
    w.owner index = some m ∧ w.symbol index = name := by
  have mem := List.mem_of_find?_eq_some slot
  have named := List.find?_some slot
  exact ⟨(owner_eq_some layout).mpr mem, by simpa using named⟩

theorem toSlot_heap (m : Nat) (name : String) (value : Value) (defined : Bool) :
    ∃ u, w.toSlot m name value defined s = .ok () u ∧ u.heap = s.heap ∧
      u.sourceModules = s.sourceModules := by
  unfold toSlot
  cases w.slot m name with
  | none => exact ⟨s, rfl, rfl, rfl⟩
  | some index => exact ⟨_, rfl, rfl, rfl⟩

theorem storeModuleAttribute_eq (layout : w.Layout) (found : w.moduleOf s owner = some m) :
    w.storeModuleAttribute owner name value s = (do
      w.toSlot m name value true
      inHeap (addModuleMember owner name value)
      bumpModuleVersion m
      return true) s := by
  have object := object_of_moduleOf found
  unfold storeModuleAttribute toSlot
  rw [get_bind]
  dsimp only
  rw [found]
  cases slot : w.slot m name with
  | none => simp only [slot, pure_bind]
  | some index =>
    obtain ⟨own, named⟩ := slot_owned layout slot
    have set : setGlobal index value true s = .ok () { s with
      globals := Function.update s.globals index value
      globalDefined := Function.update s.globalDefined index true } := rfl
    simp only [slot, storeGlobal, own, named, bind_assoc]
    rw [bind_ok set, bind_ok set, get_bind]
    have object : (s.sourceModules m).object = some owner := object
    simp only [object, withObject]

/-- A member that is stored anew has changed, and the version may be used up by then. -/
theorem storeModuleAttribute_harmless_iff (layout : w.Layout) (distinct : s.heap.Distinct)
    (isModule : s.heap.IsModule owner) (found : w.moduleOf s owner = some m) :
    HarmlessStep (w.storeModuleAttribute owner name value) s ↔
      ¬ (s.Exhausted m ∧ s.heap.member owner name ≠ some value) := by
  obtain ⟨members, here, -⟩ := isModule
  obtain ⟨u, ran, heap, modules⟩ := w.toSlot_heap (s := s) m name value true
  unfold HarmlessStep ends
  rw [storeModuleAttribute_eq layout found, bind_ok ran]
  refine memberStep_harmless_iff heap modules ?_
  refine ends_of_wp (E := fun _ => False) ?_ fun _ _ _ => False.elim
  refine wp_mono (Heap.wp_addModuleMember_replaced distinct here) (fun _ t replaced => ?_)
    fun _ => id
  rw [replaced.untouched_iff here, Heap.member_of here, Object.moduleObject.injEq,
    setMember_eq_self, not_not]

theorem deleteModuleAttribute_eq (layout : w.Layout) (found : w.moduleOf s owner = some m) :
    w.deleteModuleAttribute owner name s = (do
      w.toSlot m name .unbound false
      inHeap (match w.slot m name with
        | some _ => deleteIfPresent name owner
        | none => deleteModuleMember owner name)
      bumpModuleVersion m
      return true) s := by
  have object := object_of_moduleOf found
  unfold deleteModuleAttribute toSlot
  rw [get_bind]
  dsimp only
  rw [found]
  cases slot : w.slot m name with
  | none => simp only [slot, pure_bind]
  | some index =>
    obtain ⟨own, named⟩ := slot_owned layout slot
    have set : setGlobal index .unbound false s = .ok () { s with
      globals := Function.update s.globals index .unbound
      globalDefined := Function.update s.globalDefined index false } := rfl
    simp only [slot, clearGlobal, own, named, bind_assoc]
    rw [bind_ok set, bind_ok set, get_bind]
    have object : (s.sourceModules m).object = some owner := object
    simp only [object, withObject]

/-- A member that was there is gone, and the version may be used up by then. -/
theorem deleteModuleAttribute_harmless_iff (layout : w.Layout) (distinct : s.heap.Distinct)
    (isModule : s.heap.IsModule owner) (found : w.moduleOf s owner = some m) :
    HarmlessStep (w.deleteModuleAttribute owner name) s ↔
      ¬ (s.Exhausted m ∧ s.heap.member owner name ≠ none) := by
  obtain ⟨u, ran, heap, modules⟩ := w.toSlot_heap (s := s) m name .unbound false
  unfold HarmlessStep ends
  rw [deleteModuleAttribute_eq layout found, bind_ok ran]
  refine memberStep_harmless_iff heap modules ?_
  obtain ⟨members, here, nodup⟩ := isModule
  have deleted : ends (deleteModuleMember owner name)
      (fun _ t => s.heap.Untouched t ↔ ¬ s.heap.member owner name ≠ none)
      (fun e t => e.Raised ∧ s.heap.Untouched t ∧ ¬ s.heap.member owner name ≠ none) s.heap := by
    have got : s.heap.get owner = .ok (.moduleObject members) := by simp [Heap.get, here]
    simp only [deleteModuleMember, getObject, ends_bind, ends_reading, got, any_member]
    rw [Heap.member_of here]
    cases member : findMember name members with
    | none => exact ⟨trivial, .refl _, by simp⟩
    | some v =>
      rw [Option.isSome_some, if_pos rfl]
      refine ends_of_wp (E := fun _ => False) ?_ fun _ _ _ => False.elim
      refine wp_mono (Heap.wp_setObject_replaced distinct here) (fun _ t replaced => ?_)
        fun _ => id
      rw [replaced.untouched_iff here, Object.moduleObject.injEq]
      simp [eraseP_ne_self member]
  cases w.slot m name with
  | none => exact deleted
  | some index =>
    dsimp only
    unfold deleteIfPresent
    rw [ends_bind]
    unfold ends attempt
    rw [Heap.attr_module ⟨members, here, nodup⟩]
    cases member : s.heap.member owner name with
    | some v =>
      rw [member] at deleted
      exact deleted
    | none => exact ⟨fun _ => by simp, fun _ => .refl _⟩

/-! ### The whole protocol -/

/-- The store comes to an object that its class would have store the attribute, without a table;
or it changes the member of a module whose version is used up. -/
def StoreFails (w : Installed) (s : ModuleVm) (owner : Value) (name : String) (value : Value) :
    Prop :=
  match w.moduleOf s owner with
  | some m => s.Exhausted m ∧ s.heap.member owner name ≠ some value
  | none => s.heap.Untabled owner name ∧ s.heap.propertySetter owner name = .ok none ∧
      s.heap.descriptorSetter owner name = .ok none

def DeletionFails (w : Installed) (s : ModuleVm) (owner : Value) (name : String) : Prop :=
  match w.moduleOf s owner with
  | some m => s.Exhausted m ∧ s.heap.member owner name ≠ none
  | none => s.heap.Untabled owner name ∧ s.heap.propertyDeleter owner name = .ok none ∧
      s.heap.descriptorDeleter owner name = .ok none

theorem harmlessStep_guarded {α : Type} {step : ModuleM Bool} {k : Bool → ModuleM α} {a : α}
    (returns : ends step (fun b _ => b = true) (fun _ _ => True) s) (done : k true = pure a) :
    HarmlessStep (step >>= k) s ↔ HarmlessStep step s := by
  unfold HarmlessStep
  rw [ends_bind]
  unfold ends at returns ⊢
  cases ran : step s with
  | error e t => rfl
  | ok b t =>
    rw [ran] at returns
    subst returns
    simp only [done]
    rfl

theorem memberStep_returns {pre : ModuleM Unit} {body : HeapM Unit} :
    ends (do
      pre
      inHeap body
      bumpModuleVersion m
      return true) (fun b _ => b = true) (fun _ _ => True) s := by
  have always {α : Type} (step : ModuleM α) (u : ModuleVm) :
      ends step (fun _ _ => True) (fun _ _ => True) u := by
    unfold ends
    cases step u <;> trivial
  simp only [ends_bind, ends_pure]
  refine ends_mono (always pre s) (fun _ u _ => ?_) fun _ _ _ => trivial
  refine ends_mono (always (inHeap body) u) (fun _ u _ => ?_) fun _ _ _ => trivial
  exact always (bumpModuleVersion m) u

/-- Outside of source modules: the object itself is reached when nothing of its class takes the
store, and a class has a table. -/
theorem throughClass_harmless_iff {values : List Value} {object : HeapM Unit}
    {property metaProperty : Heap → Except Fault (Option Value)}
    {descriptor metaDescriptor : Heap → Except Fault (Option DescriptorCall)}
    (functions : FailsOnly Fault.Raised (property s.heap))
    (hooks : FailsOnly Fault.Raised (descriptor s.heap))
    (metaFunctions : FailsOnly Fault.Raised (metaProperty s.heap))
    (metaHooks : FailsOnly Fault.Raised (metaDescriptor s.heap))
    (reached : Harmless s.heap object s.heap ↔ ¬ s.heap.Untabled owner name) :
    HarmlessStep (if s.heap.isClass owner = true then
        inHeap (throughDescriptors owner values metaProperty metaDescriptor object)
      else inHeap (throughDescriptors owner values property descriptor object)) s ↔
      ¬ (s.heap.Untabled owner name ∧ property s.heap = .ok none ∧
        descriptor s.heap = .ok none) := by
  split
  · next cls =>
    have tabled : ¬ s.heap.Untabled owner name := Heap.tabled_class cls
    rw [harmlessStep_inHeap, Heap.throughDescriptors_harmless_iff metaFunctions metaHooks]
    exact iff_of_true (fun _ _ => reached.mpr tabled) fun fails => tabled fails.1
  · rw [harmlessStep_inHeap, Heap.throughDescriptors_harmless_iff functions hooks, reached]
    constructor
    · rintro clean ⟨untabled, none, none'⟩
      exact clean none none' untabled
    · intro clean none none' untabled
      exact clean ⟨untabled, none, none'⟩

section Protocol

variable (layout : w.Layout) (lineage : s.heap.Lineage) (distinct : s.heap.Distinct)
  (modules : ∀ {m object}, s.object m = some object → s.heap.IsModule object)
include layout lineage distinct modules

theorem invokeDefaultAttributeSet_harmless_iff :
    HarmlessStep (w.invokeDefaultAttributeSet owner name value) s ↔
      ¬ w.StoreFails s owner name value := by
  unfold StoreFails invokeDefaultAttributeSet
  cases found : w.moduleOf s owner with
  | some m =>
    have isModule := modules (object_of_moduleOf found)
    have returns : ends (w.storeModuleAttribute owner name value) (fun b _ => b = true)
        (fun _ _ => True) s := by
      unfold ends
      rw [storeModuleAttribute_eq layout found]
      exact memberStep_returns
    refine (harmlessStep_guarded (a := .done) returns rfl).trans ?_
    exact storeModuleAttribute_harmless_iff layout distinct isModule found
  | none =>
    have passed : w.storeModuleAttribute owner name value s = .ok false s := by
      unfold storeModuleAttribute
      rw [get_bind]
      dsimp only
      rw [found]
      rfl
    unfold HarmlessStep ends
    rw [bind_ok passed]
    exact throughClass_harmless_iff (Heap.propertyFunction_raises _ _ _)
      (Heap.descriptorHook_raises _ _ _) (Heap.propertyFunction_raises _ _ _)
      (Heap.descriptorHook_raises _ _ _)
      (Heap.setAttr_harmless_iff lineage distinct)

theorem invokeDefaultAttributeDelete_harmless_iff :
    HarmlessStep (w.invokeDefaultAttributeDelete owner name) s ↔
      ¬ w.DeletionFails s owner name := by
  unfold DeletionFails invokeDefaultAttributeDelete
  cases found : w.moduleOf s owner with
  | some m =>
    have isModule := modules (object_of_moduleOf found)
    have returns : ends (w.deleteModuleAttribute owner name) (fun b _ => b = true)
        (fun _ _ => True) s := by
      unfold ends
      rw [deleteModuleAttribute_eq layout found]
      exact memberStep_returns
    refine (harmlessStep_guarded (a := .done) returns rfl).trans ?_
    exact deleteModuleAttribute_harmless_iff layout distinct isModule found
  | none =>
    have passed : w.deleteModuleAttribute owner name s = .ok false s := by
      unfold deleteModuleAttribute
      rw [get_bind]
      dsimp only
      rw [found]
      rfl
    unfold HarmlessStep ends
    rw [bind_ok passed]
    exact throughClass_harmless_iff (Heap.propertyFunction_raises _ _ _)
      (Heap.descriptorHook_raises _ _ _) (Heap.propertyFunction_raises _ _ _)
      (Heap.descriptorHook_raises _ _ _)
      (Heap.delAttr_harmless_iff lineage distinct)

end Protocol

end Installed

/-- In any reachable heap the slots of attributes are in bounds, and a store or a deletion fails
with an exception that changes nothing, unless it comes to an object without a table or, in the
machine, to a module whose version is used up. -/
theorem attribute_mutation_harmless [HostLibrary] {r : HeapState} (reach : ClassReachable r)
    {w : Installed} (layout : w.Layout) {s : ModuleVm} (heap : s.heap = r.heap)
    (modules : ∀ m object, s.object m = some object → s.heap.IsModule object)
    (owner : Value) (name : String) (value : Value) :
    (∀ v o a, s.heap.tryGet v = some o → o.attributes = some a → a.InBounds s.heap.shapes) ∧
    (Harmless s.heap (setAttr owner name value) s.heap ↔ ¬ s.heap.Untabled owner name) ∧
    (Harmless s.heap (delAttr owner name) s.heap ↔ ¬ s.heap.Untabled owner name) ∧
    (HarmlessStep (w.invokeDefaultAttributeSet owner name value) s ↔
      ¬ w.StoreFails s owner name value) ∧
    (HarmlessStep (w.invokeDefaultAttributeDelete owner name) s ↔
      ¬ w.DeletionFails s owner name) := by
  have classes := HeapState.reachable_classes reach
  have fitted := Heap.reachable_fitted reach
  rw [← heap] at fitted
  have lineage : s.heap.Lineage := heap ▸ classes.lineage
  have distinct : s.heap.Distinct := heap ▸ classes.proper.sound.valid.distinct
  have modules {m : Nat} {object : Value} (found : s.object m = some object) :=
    modules m object found
  refine ⟨?_, Heap.setAttr_harmless_iff lineage distinct,
    Heap.delAttr_harmless_iff lineage distinct,
    Installed.invokeDefaultAttributeSet_harmless_iff layout lineage distinct modules,
    Installed.invokeDefaultAttributeDelete_harmless_iff layout lineage distinct modules⟩
  intro v o a found table
  have face : s.heap.face v = some o.face := by simp [Heap.face, found]
  exact (fitted.fits face ((attributes_face o).trans table)).inBounds fitted.deep

/-! ### A class and an iterator of it -/

/-- A machine without modules. -/
def bareProgram : Installed := ⟨⟨bytecodeVersion, [], [], []⟩, [], []⟩

def bareVm (heap : Heap) : ModuleVm := bareProgram.fresh heap

theorem bareProgram_layout : bareProgram.Layout := by
  have slots (m : Nat) : bareProgram.slots m = [] := by
    simp [Installed.slots, Installed.info, bareProgram]
  constructor
  · intro m n i mem
    rw [slots] at mem
    cases mem
  · intro m
    rw [slots]
    exact .nil
  · intro module mem
    cases mem

/-- A store on a class fails without harm, if at all. -/
theorem attribute_mutation_harmless_class :
    Harmless emptyClass (setAttr (.heap 0 1) "x" .none) emptyClass := by
  let _ : HostLibrary := ⟨String.length, List.length, fun _ => ""⟩
  have modules : ∀ m object, (bareVm emptyClass).object m = some object →
      (bareVm emptyClass).heap.IsModule object := by
    intro m object found
    cases found
  have safe := attribute_mutation_harmless reachable_emptyClass bareProgram_layout
    (s := bareVm emptyClass) rfl modules (.heap 0 1) "x" .none
  exact safe.2.1.mpr (Heap.tabled_class rfl)

/-- An iterator over the results of a call, as `iter(f, None)` makes it. -/
def callIteratorHeap : Heap :=
  { emptyClass with
    objects := emptyClass.objects ++ [⟨.callIterator (.heap 0 1) .none .none false, 1, true⟩]
    slots := [⟨1, some 0⟩, ⟨1, some 1⟩] }

/-- `iter(f, None).x = None` does not raise: it ends the machine. -/
theorem call_iterator_store_panics :
    let _ : HostLibrary := ⟨String.length, List.length, fun _ => ""⟩
    (∃ s : HeapState, ClassReachable s ∧ s.heap = callIteratorHeap) ∧
      ∃ t, setAttr (.heap 1 1) "x" .none callIteratorHeap =
        .error (.panicked "guarded instance attributes") t := by
  intro _
  constructor
  · refine ⟨_, .tail reachable_emptyClass (.alloc _ (.callIterator (.heap 0 1) .none .none false)
      trivial ?_), rfl⟩
    intro v hv
    simp only [Object.trace, List.mem_cons, List.not_mem_nil, or_false] at hv
    rcases hv with rfl | rfl | rfl
    · exact .inr rfl
    · exact .inl (.inl rfl)
    · exact .inl (.inl rfl)
  · exact ⟨_, rfl⟩

end Tonic
