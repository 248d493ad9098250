import Tonic.AttributeGet
import Tonic.ClassesSound

/-!
## What class lookups read

Most mutations of the heap cannot be told apart by a class lookup or an attribute cache: every
object keeps its face, and the shapes stay.
-/

namespace Tonic

open Effect

structure ClassFace where
  attributes : List (String × Value)
  mro : List Value
  version : Nat
  dependents : List Value

/-- What class lookups and attribute caches read of an object. -/
inductive Face where
  | other
  | builtin (b : Builtin)
  | namespaceObject (dependents : List Value)
  | classObject (c : ClassFace)
  | instanceObject (cls : Value) (attributes : Attributes)
  | exception (cls : Value) (attributes : Attributes) (stops : Bool)

def Class.face (c : Class) : ClassFace := ⟨c.attributes, c.mro, c.version, c.dependents⟩

def Object.face : Object → Face
  | .builtin b => .builtin b
  | .namespaceObject c => .namespaceObject c.dependents
  | .classObject c => .classObject c.face
  | .instanceObject cls attributes _ => .instanceObject cls attributes
  | .exception e => .exception e.cls e.attributes e.stopIterationValue.isSome
  | _ => .other

/-- How an object starts: classes come from namespaces, and attributes are stored one by one. -/
def Face.Fresh : Face → Prop
  | .other | .builtin _ => True
  | .namespaceObject dependents => dependents = []
  | .classObject _ => False
  | .instanceObject _ attributes | .exception _ attributes _ => attributes = .empty

namespace Heap

def faces (h : Heap) : List Face := h.objects.map (·.object.face)

/-- Whatever is stored keeps its face, and what is added is fresh. -/
structure Keeps (h t : Heap) : Prop where
  faces : ∃ fresh, t.faces = h.faces ++ fresh ∧ ∀ f ∈ fresh, f.Fresh
  shapes : t.shapes = h.shapes

variable {h h₀ t : Heap} {owner value : Value} {o o' : Object}

theorem Keeps.refl (h : Heap) : h.Keeps h := ⟨⟨[], by simp, by simp⟩, rfl⟩

theorem Keeps.of_same (base : h₀.Keeps h) (objects : t.objects = h.objects)
    (shapes : t.shapes = h.shapes) : h₀.Keeps t := by
  obtain ⟨faces, same⟩ := base
  refine ⟨?_, shapes.trans same⟩
  unfold Heap.faces at *
  rwa [objects]

theorem Keeps.trans {a b c : Heap} (ab : a.Keeps b) (bc : b.Keeps c) : a.Keeps c := by
  obtain ⟨⟨f₁, eq₁, fresh₁⟩, shapes₁⟩ := ab
  obtain ⟨⟨f₂, eq₂, fresh₂⟩, shapes₂⟩ := bc
  refine ⟨⟨f₁ ++ f₂, by rw [eq₂, eq₁, List.append_assoc], fun f hf => ?_⟩, shapes₂.trans shapes₁⟩
  exact (List.mem_append.mp hf).elim (fresh₁ f) (fresh₂ f)

@[simp] theorem shapes_writeBarrier (owner v : Value) (h : Heap) :
    (h.writeBarrier owner v).shapes = h.shapes := by
  unfold writeBarrier; split <;> (try split) <;> rfl

theorem Keeps.barrier (base : h₀.Keeps h) (owner v : Value) :
    h₀.Keeps (h.writeBarrier owner v) :=
  base.of_same (by simp) (by simp)

theorem Keeps.barriers (base : h₀.Keeps h) (owner : Value) (values : List Value) :
    h₀.Keeps (h.writeBarriers owner values) := by
  induction values generalizing h with
  | nil => exact base
  | cons v values ih => exact ih (base.barrier owner v)

section Rules

variable {α : Type}

theorem wp_setObject_keeps (base : h₀.Keeps h) (ho : h.tryGet owner = some o)
    (same : o'.face = o.face) :
    wp (setObject owner o') (fun _ t => h₀.Keeps t ∧ t.tryGet owner = some o') h₀.Keeps h := by
  obtain ⟨e, he, rfl⟩ := tryGet_eq_some.mp ho
  obtain ⟨l, hl, stored⟩ := entry_eq_some.mp he
  simp only [setObject, wp_bind, wp_get, hl, wp_set]
  refine ⟨⟨?_, base.shapes⟩, tryGet_store hl ho⟩
  have eq : (h.store l o').faces = h.faces := by
    refine List.ext_getElem? fun k => ?_
    simp only [faces, store, List.getElem?_map, List.getElem?_modify]
    split
    · next eq =>
      subst eq
      simp [stored, same]
    · simp
  obtain ⟨fresh, faces, new⟩ := base.faces
  exact ⟨fresh, eq.trans faces, new⟩

/-- The last store of a mutation that shows nothing. -/
theorem wp_setObject_kept (base : h₀.Keeps h) (ho : h.tryGet owner = some o)
    (same : o'.face = o.face) :
    wp (setObject owner o') (fun _ => h₀.Keeps) h₀.Keeps h :=
  wp_mono (wp_setObject_keeps base ho same) (fun _ _ ht => ht.1) fun _ => id

theorem wp_alloc_keeps (base : h₀.Keeps h) (fresh : o.face.Fresh) :
    wp (alloc o) (fun _ => h₀.Keeps) h₀.Keeps h := by
  have slot : wp allocSlot (fun _ t => t.objects = h.objects ∧ t.shapes = h.shapes)
      (fun t => t.objects = h.objects ∧ t.shapes = h.shapes) h := by
    unfold allocSlot
    simp only [wp_bind, wp_get]
    split
    · simp
    · split <;> simp
  simp only [alloc, wp_bind]
  refine wp_mono slot ?_ fun t ht => base.of_same ht.1 ht.2
  rintro i t ⟨objects, shapes⟩
  simp only [wp_get]
  split
  · exact base.of_same objects shapes
  · simp only [wp_bind, wp_set, wp_pure]
    refine base.trans ⟨⟨[o.face], ?_, by simpa using fresh⟩, shapes⟩
    simp [faces, objects]

/-- A computation run as a step of a larger one. -/
theorem wp_keeps {m : HeapM α} (base : h₀.Keeps h) (call : wp m (fun _ => h.Keeps) h.Keeps h) :
    wp m (fun _ => h₀.Keeps) h₀.Keeps h :=
  wp_mono call (fun _ _ => base.trans) fun _ => base.trans

end Rules

/-! ### Containers -/

section Containers

variable {key : Value}

theorem dictSet_keeps [HostLibrary] (base : h₀.Keeps h) :
    wp (dictSet owner key value) (fun _ => h₀.Keeps) h₀.Keeps h := by
  simp only [dictSet, wp_bind, wp_nativeValue]
  refine wp_reading_intro base fun material _ => ?_
  have base := (base.barrier (h.nativeValue owner) key).barrier (h.nativeValue owner) value
  refine wp_expectDict base fun d hd => wp_nextEpoch base fun m => ?_
  split
  · exact wp_setObject_kept base hd rfl
  · rw [wp_bind]
    exact wp_nextEpoch base fun n => wp_setObject_kept base hd rfl

theorem dictSetStr_keeps [HostLibrary] {name : String} (base : h₀.Keeps h) :
    wp (dictSetStr owner name value) (fun _ => h₀.Keeps) h₀.Keeps h := by
  simp only [dictSetStr, wp_bind]
  exact wp_mono (wp_alloc_keeps base trivial) (fun _ _ => dictSet_keeps) fun _ => id

theorem face_hashed {d : Dict} {wrap : Dict → Object} (ho : o.hashed = some (d, wrap))
    (d' : Dict) : (wrap d').face = o.face := by
  unfold Object.hashed at ho
  split at ho <;> cases ho <;> rfl

theorem hashSetHashed_keeps {hash : Int} {found : Option Nat} (base : h₀.Keeps h) :
    wp (hashSetHashed owner key value hash found) (fun _ => h₀.Keeps) h₀.Keeps h := by
  simp only [hashSetHashed, wp_bind, wp_nativeValue]
  refine wp_reading_intro base fun material _ => ?_
  have base := (base.barrier (h.nativeValue owner) key).barrier (h.nativeValue owner) value
  refine wp_getObject base fun o ho => ?_
  cases hashed : o.hashed with
  | none => exact base
  | some view =>
    obtain ⟨d, wrap⟩ := view
    rw [wp_bind]
    refine wp_nextEpoch base fun m => ?_
    cases found with
    | some i =>
      simp only
      split
      · exact base
      · exact wp_setObject_kept base ho (face_hashed hashed _)
    | none =>
      rw [wp_bind]
      exact wp_nextEpoch base fun n => wp_setObject_kept base ho (face_hashed hashed _)

theorem commitRemoval_keeps {d d' : Dict} (base : h₀.Keeps h)
    (hd : h.tryGet owner = some (.dict d)) :
    wp (commitRemoval owner d') (fun _ => h₀.Keeps) h₀.Keeps h := by
  simp only [commitRemoval, wp_bind]
  refine wp_mono (wp_setObject_keeps base hd rfl) ?_ fun _ => id
  rintro _ t ⟨base, hd⟩
  refine wp_nextEpoch base fun n => ?_
  refine wp_mono (wp_setObject_keeps base hd rfl) ?_ fun _ => id
  rintro _ t ⟨base, hd⟩
  exact wp_nextEpoch base fun m => wp_setObject_kept base hd rfl

theorem dictDelete_keeps [HostLibrary] (base : h₀.Keeps h) :
    wp (dictDelete owner key) (fun _ => h₀.Keeps) h₀.Keeps h := by
  simp only [dictDelete, wp_bind, wp_nativeValue]
  refine wp_reading_intro base fun material _ => ?_
  refine wp_expectDict base fun d hd => ?_
  split
  · rw [wp_bind]
    exact wp_reading_intro base fun _ _ => base
  · rw [wp_bind]
    exact wp_reading_intro base fun d' _ => commitRemoval_keeps base hd

theorem dictDeleteAt_keeps {i : Nat} (base : h₀.Keeps h) :
    wp (dictDeleteAt owner i) (fun _ => h₀.Keeps) h₀.Keeps h := by
  simp only [dictDeleteAt, wp_bind, wp_nativeValue]
  refine wp_expectDict base fun d hd => ?_
  split
  · exact base
  · rw [wp_bind]
    exact wp_reading_intro base fun d' _ => commitRemoval_keeps base hd

theorem dictClear_keeps (base : h₀.Keeps h) :
    wp (dictClear owner) (fun _ => h₀.Keeps) h₀.Keeps h := by
  simp only [dictClear, wp_bind, wp_nativeValue]
  exact wp_expectDict base fun d hd => commitRemoval_keeps base hd

theorem dictMerge_keeps [HostLibrary] {other : Value} (base : h₀.Keeps h) :
    wp (dictMerge owner other) (fun _ => h₀.Keeps) h₀.Keeps h := by
  simp only [dictMerge, wp_bind, wp_nativeValue]
  refine wp_getObject base fun o ho => ?_
  split
  · split
    · exact base
    · refine wp_forM (P := h₀.Keeps) (fun i _ t base => ?_) base
      rw [wp_bind]
      refine wp_getObject base fun o ho => ?_
      split
      · next d =>
        cases d.entries[i]? with
        | none => exact base
        | some e => exact dictSet_keeps base
      · exact base
  · exact base

theorem setItem_keeps [HostLibrary] (base : h₀.Keeps h) :
    wp (setItem owner key value) (fun _ => h₀.Keeps) h₀.Keeps h := by
  simp only [setItem, wp_bind, wp_nativeValue]
  refine wp_getObject base fun o ho => ?_
  split
  · exact dictSet_keeps base
  · exact base
  · split
    · exact base
    · simp only [wp_bind]
      refine wp_reading_intro base fun i _ => wp_reading_intro base fun x _ =>
        wp_reading_intro base fun b _ => ?_
      exact wp_setObject_kept base ho rfl
  · rw [wp_bind]
    refine wp_reading_intro base fun raw _ => ?_
    split
    · exact base
    · split
      · rw [wp_bind]
        refine wp_reading_intro base fun i _ => ?_
        simp only [wp_bind, wp_writeBarrier]
        exact wp_setObject_kept (base.barrier _ _) ((tryGet_writeBarrier ..).trans ho) rfl
      · exact base

theorem deleteItem_keeps [HostLibrary] (base : h₀.Keeps h) :
    wp (deleteItem owner key) (fun _ => h₀.Keeps) h₀.Keeps h := by
  simp only [deleteItem, wp_bind, wp_nativeValue]
  refine wp_getObject base fun o ho => ?_
  split
  · exact dictDelete_keeps base
  · exact base
  · rw [wp_bind]
    refine wp_reading_intro base fun raw _ => ?_
    split
    · exact base
    · split
      · rw [wp_bind]
        exact wp_reading_intro base fun i _ => wp_setObject_kept base ho rfl
      · exact base

theorem appendList_keeps (base : h₀.Keeps h) :
    wp (appendList owner value) (fun _ => h₀.Keeps) h₀.Keeps h := by
  simp only [appendList, wp_bind, wp_nativeValue, wp_writeBarrier]
  have base := base.barrier (h.nativeValue owner) value
  refine wp_getObject base fun o ho => ?_
  split
  · exact wp_setObject_kept base ho rfl
  · exact base

theorem replaceList_keeps {values : List Value} (base : h₀.Keeps h) :
    wp (replaceList owner values) (fun _ => h₀.Keeps) h₀.Keeps h := by
  simp only [replaceList, wp_bind, wp_nativeValue]
  refine wp_getObject base fun o ho => ?_
  split
  · rw [wp_bind, wp_writeBarriers]
    exact wp_setObject_kept (base.barriers _ _) ((tryGet_writeBarriers ..).trans ho) rfl
  · exact base

end Containers

/-! ### Modules, cells and exceptions -/

section Members

theorem addModuleMember_keeps {name : String} (base : h₀.Keeps h) :
    wp (addModuleMember owner name value) (fun _ => h₀.Keeps) h₀.Keeps h := by
  simp only [addModuleMember, wp_bind, wp_writeBarrier]
  have base := base.barrier owner value
  refine wp_getObject base fun o ho => ?_
  split
  · exact wp_setObject_kept base ho rfl
  · exact base

theorem deleteModuleMember_keeps {name : String} (base : h₀.Keeps h) :
    wp (deleteModuleMember owner name) (fun _ => h₀.Keeps) h₀.Keeps h := by
  simp only [deleteModuleMember, wp_bind]
  refine wp_getObject base fun o ho => ?_
  split
  · split
    · exact wp_setObject_kept base ho rfl
    · exact base
  · exact base

theorem resetModuleMembers_keeps (base : h₀.Keeps h) :
    wp (resetModuleMembers owner) (fun _ => h₀.Keeps) h₀.Keeps h := by
  simp only [resetModuleMembers, wp_bind]
  refine wp_getObject base fun o ho => ?_
  split
  · exact wp_setObject_kept base ho rfl
  · exact base

theorem storeCell_keeps (base : h₀.Keeps h) :
    wp (storeCell owner value) (fun _ => h₀.Keeps) h₀.Keeps h := by
  simp only [storeCell, wp_bind, wp_writeBarrier]
  have base := base.barrier owner value
  refine wp_getObject base fun o ho => ?_
  split
  · exact wp_setObject_kept base ho rfl
  · exact base

theorem storeTypeParamDefault_keeps (base : h₀.Keeps h) :
    wp (storeTypeParamDefault owner value) (fun _ => h₀.Keeps) h₀.Keeps h := by
  simp only [storeTypeParamDefault, wp_bind, wp_writeBarrier]
  have base := base.barrier owner value
  refine wp_getObject base fun o ho => ?_
  split
  · exact wp_setObject_kept base ho rfl
  · exact base

theorem setTypeParamDefault_keeps {unpack : Bool} (base : h₀.Keeps h) :
    wp (setTypeParamDefault owner value unpack) (fun _ => h₀.Keeps) h₀.Keeps h := by
  unfold setTypeParamDefault
  split
  · rw [wp_bind]
    exact wp_mono (wp_alloc_keeps base trivial) (fun _ _ => storeTypeParamDefault_keeps) fun _ => id
  · exact storeTypeParamDefault_keeps base

theorem storeExternalField_keeps {field : Nat} {stored : Option Value} (base : h₀.Keeps h) :
    wp (storeExternalField owner field stored) (fun _ => h₀.Keeps) h₀.Keeps h := by
  have insert (value : Value) :
      wp (insertExternalField owner field value) (fun _ => h₀.Keeps) h₀.Keeps h :=
    (base.barrier owner value).of_same rfl rfl
  simp only [storeExternalField]
  split
  · exact base
  · rw [wp_bind]
    refine wp_getObject base fun _ _ => ?_
    cases stored with
    | none => exact base.of_same rfl rfl
    | some value =>
      simp only
      split
      · rw [wp_bind]
        exact wp_getObject base fun _ _ => insert value
      · exact insert value

theorem setExceptionCause_keeps {cause : Option Value} {suppress : Bool} (base : h₀.Keeps h) :
    wp (setExceptionCause owner cause suppress) (fun _ => h₀.Keeps) h₀.Keeps h := by
  simp only [setExceptionCause, wp_bind, wp_barrierSome]
  have base := base.barriers owner cause.toList
  exact wp_expectException base fun e he => wp_setObject_kept base he rfl

theorem setExceptionContext_keeps (base : h₀.Keeps h) :
    wp (setExceptionContext owner value) (fun _ => h₀.Keeps) h₀.Keeps h := by
  simp only [setExceptionContext, wp_bind, wp_writeBarrier]
  have base := base.barrier owner value
  refine wp_expectException base fun e he => ?_
  split
  · exact wp_setObject_kept base he rfl
  · exact base

theorem setExceptionTraceback_keeps {traceback : Option Value} (base : h₀.Keeps h) :
    wp (setExceptionTraceback owner traceback) (fun _ => h₀.Keeps) h₀.Keeps h := by
  simp only [setExceptionTraceback, wp_bind, wp_barrierSome]
  have base := base.barriers owner traceback.toList
  exact wp_expectException base fun e he => wp_setObject_kept base he rfl

theorem ensureTraceback_keeps {e : Exception} (base : h₀.Keeps h) :
    wp (ensureTraceback owner e) (fun _ => h₀.Keeps) h₀.Keeps h := by
  unfold ensureTraceback
  split
  · exact base
  · simp only [wp_bind, wp_writeBarrier]
    refine wp_mono (wp_alloc_keeps base trivial) (fun tb t base => ?_) fun _ => id
    have base := base.barrier owner tb
    refine wp_getObject base fun o ho => ?_
    split
    · rw [wp_bind]
      exact wp_setObject_kept base ho rfl
    · exact base

theorem recordExceptionTrace_keeps {entries : List TracebackEntry} (base : h₀.Keeps h) :
    wp (recordExceptionTrace owner entries) (fun _ => h₀.Keeps) h₀.Keeps h := by
  unfold recordExceptionTrace
  split
  · exact base
  · simp only [wp_bind]
    refine wp_expectException base fun e he => ?_
    refine wp_mono (ensureTraceback_keeps base) (fun tb t base => ?_) fun _ => id
    refine wp_getObject base fun o ho => ?_
    split
    · exact wp_setObject_kept base ho rfl
    · exact base

end Members

/-! ### Futures, tasks and generators -/

section Async

theorem requestTaskCancel_keeps (base : h₀.Keeps h) :
    wp (requestTaskCancel owner) (fun _ => h₀.Keeps) h₀.Keeps h := by
  simp only [requestTaskCancel, wp_bind]
  refine wp_getObject base fun o ho => ?_
  split
  · split
    · exact base
    · rw [wp_bind]
      exact wp_setObject_kept base ho rfl
  · exact base

theorem clearTaskCancelRequest_keeps (base : h₀.Keeps h) :
    wp (clearTaskCancelRequest owner) (fun _ => h₀.Keeps) h₀.Keeps h := by
  simp only [clearTaskCancelRequest, wp_bind]
  refine wp_getObject base fun o ho => ?_
  split
  · exact wp_setObject_kept base ho rfl
  · exact base

theorem addAsyncWaiter_keeps {task : Value} (base : h₀.Keeps h) :
    wp (addAsyncWaiter owner task) (fun _ => h₀.Keeps) h₀.Keeps h := by
  simp only [addAsyncWaiter, wp_bind, wp_writeBarrier]
  have base := base.barrier owner task
  refine wp_getObject base fun o ho => ?_
  split
  · split
    · exact wp_setObject_kept base ho rfl
    · exact base
  · split
    · exact wp_setObject_kept base ho rfl
    · exact base
  · exact base

theorem removeAsyncWaiter_keeps {task : Value} (base : h₀.Keeps h) :
    wp (removeAsyncWaiter owner task) (fun _ => h₀.Keeps) h₀.Keeps h := by
  simp only [removeAsyncWaiter, wp_bind]
  refine wp_getObject base fun o ho => ?_
  split
  · exact wp_setObject_kept base ho rfl
  · exact wp_setObject_kept base ho rfl
  · exact base

theorem addAsyncCallback_keeps (base : h₀.Keeps h) :
    wp (addAsyncCallback owner value) (fun _ => h₀.Keeps) h₀.Keeps h := by
  simp only [addAsyncCallback, wp_bind, wp_writeBarrier]
  have base := base.barrier owner value
  refine wp_getObject base fun o ho => ?_
  split
  · split
    · rw [wp_bind]
      exact wp_setObject_kept base ho rfl
    · exact base
  · split
    · rw [wp_bind]
      exact wp_setObject_kept base ho rfl
    · exact base
  · exact base

theorem settleAsync_keeps {state : AsyncState} (base : h₀.Keeps h) :
    wp (settleAsync owner state) (fun _ => h₀.Keeps) h₀.Keeps h := by
  unfold settleAsync
  rw [wp_bind]
  refine wp_getObject base fun o ho => ?_
  split
  · split
    · exact base
    · rw [wp_bind]
      exact wp_setObject_kept base ho rfl
  · split
    · exact base
    · rw [wp_bind]
      exact wp_setObject_kept base ho rfl
  · exact base

theorem completeAsync_keeps {state : AsyncState} (base : h₀.Keeps h) :
    wp (completeAsync owner state) (fun _ => h₀.Keeps) h₀.Keeps h := by
  cases state with
  | pending => exact base
  | finished value | failed value | cancelled value =>
    simp only [completeAsync, wp_bind, wp_writeBarrier]
    exact settleAsync_keeps (base.barrier owner value)

theorem setTaskWaiting_keeps {source : Option Value} (base : h₀.Keeps h) :
    wp (setTaskWaiting owner source) (fun _ => h₀.Keeps) h₀.Keeps h := by
  simp only [setTaskWaiting, wp_bind, wp_barrierSome]
  have base := base.barriers owner source.toList
  refine wp_getObject base fun o ho => ?_
  split
  · exact wp_setObject_kept base ho rfl
  · exact base

theorem setAsyncGeneratorAwaitState_keeps {state : AsyncGeneratorAwaitState}
    (base : h₀.Keeps h) :
    wp (setAsyncGeneratorAwaitState owner state) (fun _ => h₀.Keeps) h₀.Keeps h := by
  simp only [setAsyncGeneratorAwaitState, wp_bind]
  refine wp_getObject base fun o ho => ?_
  split
  · exact wp_setObject_kept base ho rfl
  · exact base

theorem claimAsyncGeneratorDriver_keeps (base : h₀.Keeps h) :
    wp (claimAsyncGeneratorDriver owner value) (fun _ => h₀.Keeps) h₀.Keeps h := by
  simp only [claimAsyncGeneratorDriver, wp_bind, wp_writeBarrier]
  have base := base.barrier owner value
  refine wp_getObject base fun o ho => ?_
  split
  · split
    · exact base
    · split
      · exact base
      · exact wp_setObject_kept base ho rfl
  · exact base

theorem releaseAsyncGeneratorDriver_keeps (base : h₀.Keeps h) :
    wp (releaseAsyncGeneratorDriver owner value) (fun _ => h₀.Keeps) h₀.Keeps h := by
  simp only [releaseAsyncGeneratorDriver, wp_bind]
  refine wp_getObject base fun o ho => ?_
  split
  · split
    · exact wp_setObject_kept base ho rfl
    · exact base
  · exact base

theorem resumeGenerator_keeps {execution : Nat} (base : h₀.Keeps h) :
    wp (resumeGenerator owner execution) (fun _ => h₀.Keeps) h₀.Keeps h := by
  simp only [resumeGenerator, wp_bind]
  refine wp_expectGenerator base fun frame hf => ?_
  split
  · exact base
  · split
    · exact base
    · exact base
    all_goals
      rw [wp_bind]
      exact wp_setObject_kept base hf rfl

theorem suspendGenerator_keeps {s : SuspendedGenerator} (base : h₀.Keeps h) :
    wp (suspendGenerator owner s) (fun _ => h₀.Keeps) h₀.Keeps h := by
  simp only [suspendGenerator, wp_bind, wp_writeBarriers]
  have base := base.barriers owner s.values
  refine wp_expectGenerator base fun frame hf => ?_
  split
  · exact base
  · exact wp_setObject_kept base hf rfl

theorem completeGeneratorWithValue_keeps (base : h₀.Keeps h) :
    wp (completeGeneratorWithValue owner value) (fun _ => h₀.Keeps) h₀.Keeps h := by
  simp only [completeGeneratorWithValue, wp_bind, wp_writeBarrier]
  have base := base.barrier owner value
  exact wp_expectGenerator base fun frame hf => wp_setObject_kept base hf rfl

end Async

/-! ### Class bodies and functions -/

section Classes

theorem namespaceWithMetaclass_keeps {qualname : String} {bases : List Value} {metaclass : Value}
    (base : h₀.Keeps h) :
    wp (namespaceWithMetaclass qualname bases metaclass) (fun _ => h₀.Keeps) h₀.Keeps h := by
  simp only [namespaceWithMetaclass, wp_bind]
  refine wp_mono (wp_alloc_keeps base trivial) (fun moduleName t base => ?_) fun _ => id
  refine wp_mono (wp_alloc_keeps base trivial) (fun qualified t base => ?_) fun _ => id
  exact wp_alloc_keeps base rfl

theorem namespaceFromMapping_keeps {qualname : String} {bases : List Value}
    {metaclass mapping : Value} (base : h₀.Keeps h) :
    wp (namespaceFromMapping qualname bases metaclass mapping) (fun _ => h₀.Keeps) h₀.Keeps h :=
  wp_alloc_keeps base rfl

theorem namespaceStore_keeps {name : String} (base : h₀.Keeps h) :
    wp (namespaceStore owner name value) (fun _ => h₀.Keeps) h₀.Keeps h := by
  simp only [namespaceStore, wp_bind, wp_writeBarrier]
  have base := base.barrier owner value
  exact wp_expectNamespace base fun c hc => wp_setObject_kept base hc rfl

theorem namespaceSet_keeps [HostLibrary] {name : String} (base : h₀.Keeps h) :
    wp (namespaceSet owner name value) (fun _ => h₀.Keeps) h₀.Keeps h := by
  simp only [namespaceSet, wp_bind]
  refine wp_expectNamespace base fun c hc => ?_
  split
  · exact namespaceStore_keeps base
  · rw [wp_bind]
    refine wp_getObject base fun o ho => ?_
    split
    · exact dictSetStr_keeps base
    · exact base

theorem namespaceDelete_keeps [HostLibrary] {name : String} (base : h₀.Keeps h) :
    wp (namespaceDelete owner name) (fun _ => h₀.Keeps) h₀.Keeps h := by
  simp only [namespaceDelete, wp_bind]
  refine wp_expectNamespace base fun c hc => ?_
  split
  · rw [wp_bind]
    exact wp_mono (wp_alloc_keeps base trivial) (fun _ _ => dictDelete_keeps) fun _ => id
  · split
    · exact base
    · exact wp_setObject_kept base hc rfl

theorem namespaceMapping_keeps [HostLibrary] (base : h₀.Keeps h) :
    wp (namespaceMapping owner) (fun _ => h₀.Keeps) h₀.Keeps h := by
  simp only [namespaceMapping, wp_bind]
  refine wp_expectNamespace base fun c hc => ?_
  split
  · exact base
  · simp only [wp_bind, wp_writeBarrier]
    refine wp_mono (wp_alloc_keeps base trivial) (fun mapping t base => ?_) fun _ => id
    have filled : wp (c.attributes.forM fun m => dictSetStr mapping m.1 m.2) (fun _ => h₀.Keeps)
        h₀.Keeps t := wp_forM (fun m _ t base => dictSetStr_keeps base) base
    refine wp_mono filled (fun _ t base => ?_) fun _ => id
    have base := base.barrier owner mapping
    refine wp_getObject base fun o ho => ?_
    split
    · rw [wp_bind]
      exact wp_setObject_kept base ho rfl
    · exact base

theorem namespaceUseMapping_keeps {mapping : Value} (base : h₀.Keeps h) :
    wp (namespaceUseMapping owner mapping) (fun _ => h₀.Keeps) h₀.Keeps h := by
  simp only [namespaceUseMapping, wp_bind]
  refine wp_getObject base fun o ho => ?_
  split
  · have base := base.barrier owner mapping
    simp only [wp_bind, wp_writeBarrier]
    exact wp_expectNamespace base fun c hc => wp_setObject_kept base hc rfl
  · exact base

theorem materializeMapping_keeps {mapping : Value} (base : h₀.Keeps h) :
    wp (materializeMapping owner mapping) (fun _ => h₀.Keeps) h₀.Keeps h := by
  simp only [materializeMapping, wp_bind]
  refine wp_getObject base fun o ho => ?_
  split
  · simp only [wp_bind, wp_nativeValue, wp_get, wp_writeBarriers]
    refine wp_expectDict base fun d hd => ?_
    have base := base.barriers owner (pairs d.entries)
    refine wp_getObject base fun o ho => ?_
    split
    · exact wp_setObject_kept base ho rfl
    · exact base
  · exact base

theorem wrapNew_keeps [HostLibrary] (base : h₀.Keeps h) :
    wp (wrapNew owner) (fun _ => h₀.Keeps) h₀.Keeps h := by
  simp only [wrapNew, wp_bind]
  refine wp_reading_intro base fun f _ => ?_
  split
  · exact base
  · simp only [wp_bind, wp_tryGetObject]
    split
    · rw [wp_bind]
      exact wp_mono (wp_alloc_keeps base trivial) (fun _ _ => namespaceSet_keeps) fun _ => id
    · exact base

theorem clearHash_keeps [HostLibrary] (base : h₀.Keeps h) :
    wp (clearHash owner) (fun _ => h₀.Keeps) h₀.Keeps h := by
  simp only [clearHash, wp_bind]
  refine wp_reading_intro base fun equal _ => ?_
  split
  · rw [wp_bind]
    refine wp_reading_intro base fun hash _ => ?_
    split
    · exact namespaceSet_keeps base
    · exact base
  · exact base

theorem setClassMetaclass_keeps {metaclass : Value} (base : h₀.Keeps h) :
    wp (setClassMetaclass owner metaclass) (fun _ => h₀.Keeps) h₀.Keeps h := by
  simp only [setClassMetaclass, wp_bind, wp_writeBarrier]
  refine wp_classOf base fun _ _ => ?_
  have base := base.barrier owner metaclass
  refine wp_getObject base fun o ho => ?_
  split
  · exact wp_setObject_kept base ho rfl
  · exact base

theorem functionAnnotations_keeps (base : h₀.Keeps h) :
    wp (functionAnnotations owner) (fun _ => h₀.Keeps) h₀.Keeps h := by
  simp only [functionAnnotations, wp_bind]
  refine wp_getObject base fun o ho => ?_
  split
  · split
    · exact base
    · simp only [wp_bind, wp_writeBarrier]
      refine wp_mono (wp_alloc_keeps base trivial) (fun annotations t base => ?_) fun _ => id
      have base := base.barrier owner annotations
      refine wp_getObject base fun o ho => ?_
      split
      · rw [wp_bind]
        exact wp_setObject_kept base ho rfl
      · exact base
  · exact base

theorem functionTypeParams_keeps (base : h₀.Keeps h) :
    wp (functionTypeParams owner) (fun _ => h₀.Keeps) h₀.Keeps h := by
  simp only [functionTypeParams, wp_bind]
  refine wp_getObject base fun o ho => ?_
  split
  · split
    · exact base
    · simp only [wp_bind, wp_writeBarrier]
      refine wp_mono (wp_alloc_keeps base trivial) (fun typeParams t base => ?_) fun _ => id
      have base := base.barrier owner typeParams
      refine wp_getObject base fun o ho => ?_
      split
      · rw [wp_bind]
        exact wp_setObject_kept base ho rfl
      · exact base
  · exact base

theorem setAnnotations_keeps {f : Function} (base : h₀.Keeps h)
    (ho : h.tryGet owner = some (.function f)) :
    wp (setAnnotations owner f value) (fun _ => h₀.Keeps) h₀.Keeps h := by
  unfold setAnnotations
  split
  · exact wp_setObject_kept base ho rfl
  · simp only [wp_bind, wp_tryGetObject]
    split
    · simp only [wp_bind, wp_writeBarrier]
      exact wp_setObject_kept (base.barrier owner value) ((tryGet_writeBarrier ..).trans ho) rfl
    · exact base

theorem setStopValue_keeps {e : Exception} (base : h₀.Keeps h)
    (ho : h.tryGet owner = some (.exception e)) (stops : e.stopIterationValue.isSome = true) :
    wp (setStopValue owner e value) (fun _ => h₀.Keeps) h₀.Keeps h := by
  simp only [setStopValue, wp_bind, wp_writeBarrier]
  exact wp_setObject_kept (base.barrier owner value) ((tryGet_writeBarrier ..).trans ho)
    (by simp [Object.face, stops])

end Classes

end Heap

end Tonic
