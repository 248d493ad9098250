import Tonic.ClassesSound
import Tonic.Collection

/-!
## Runs of the heap

A run allocates, mutates and collects in any order. Whoever drives it only passes on handles it
was given: what resolved in the heap at some point of the run, and immediate values.
-/

namespace Tonic

open Effect Heap

/-- The mutation boundary of the heap, one constructor for each operation. -/
inductive Mutation where
  | dictSet (owner key value : Value)
  | dictSetStr (owner : Value) (name : String) (value : Value)
  | hashSetHashed (owner key value : Value) (hash : Int) (found : Option Nat)
  | dictDelete (owner key : Value)
  | dictDeleteAt (owner : Value) (index : Nat)
  | dictClear (owner : Value)
  | dictMerge (owner other : Value)
  | setItem (owner key value : Value)
  | deleteItem (owner key : Value)
  | appendList (owner value : Value)
  | replaceList (owner : Value) (values : List Value)
  | addModuleMember (owner : Value) (name : String) (value : Value)
  | deleteModuleMember (owner : Value) (name : String)
  | resetModuleMembers (owner : Value)
  | storeCell (owner value : Value)
  | setTypeParamDefault (parameter default : Value) (unpack : Bool)
  | storeExternalField (owner : Value) (field : Nat) (value : Option Value)
  | setExceptionCause (owner : Value) (cause : Option Value) (suppressContext : Bool)
  | setExceptionContext (owner context : Value)
  | setExceptionTraceback (owner : Value) (traceback : Option Value)
  | recordExceptionTrace (owner : Value) (entries : List TracebackEntry)
  | requestTaskCancel (task : Value)
  | clearTaskCancelRequest (task : Value)
  | addAsyncWaiter (source task : Value)
  | removeAsyncWaiter (source task : Value)
  | addAsyncCallback (source callback : Value)
  | completeAsync (source : Value) (state : AsyncState)
  | setTaskWaiting (task : Value) (source : Option Value)
  | setAsyncGeneratorAwaitState (awaitable : Value) (state : AsyncGeneratorAwaitState)
  | claimAsyncGeneratorDriver (owner awaitable : Value)
  | releaseAsyncGeneratorDriver (owner awaitable : Value)
  | resumeGenerator (owner : Value) (execution : Nat)
  | suspendGenerator (owner : Value) (suspended : SuspendedGenerator)
  | completeGenerator (owner value : Value)
  | popGeneratorFinalizer
  | popObjectFinalizer
  | namespaceWithMetaclass (qualname : String) (bases : List Value) (metaclass : Value)
  | namespaceFromMapping (qualname : String) (bases : List Value) (metaclass mapping : Value)
  | namespaceSet (ns : Value) (name : String) (value : Value)
  | namespaceDelete (ns : Value) (name : String)
  | namespaceMapping (ns : Value)
  | namespaceUseMapping (ns mapping : Value)
  | finishClass (ns : Value)
  | setClassMetaclass (cls metaclass : Value)
  | setAttr (owner : Value) (name : String) (value : Value)
  | delAttr (owner : Value) (name : String)
  | functionAnnotations (f : Value)
  | functionTypeParams (f : Value)

namespace Mutation

/-- The values a mutation is called with. -/
def arguments : Mutation → List Value
  | dictSet owner key value | hashSetHashed owner key value _ _ | setItem owner key value =>
    [owner, key, value]
  | dictSetStr owner _ value | addModuleMember owner _ value | setAttr owner _ value
  | namespaceSet owner _ value => [owner, value]
  | dictDelete owner other | dictMerge owner other | deleteItem owner other
  | appendList owner other | storeCell owner other | setTypeParamDefault owner other _
  | setExceptionContext owner other | addAsyncWaiter owner other | removeAsyncWaiter owner other
  | addAsyncCallback owner other | claimAsyncGeneratorDriver owner other
  | releaseAsyncGeneratorDriver owner other | completeGenerator owner other
  | namespaceUseMapping owner other | setClassMetaclass owner other => [owner, other]
  | dictDeleteAt owner _ | dictClear owner | deleteModuleMember owner _
  | resetModuleMembers owner | recordExceptionTrace owner _ | requestTaskCancel owner
  | clearTaskCancelRequest owner | setAsyncGeneratorAwaitState owner _ | resumeGenerator owner _
  | namespaceDelete owner _ | namespaceMapping owner | finishClass owner | delAttr owner _
  | functionAnnotations owner | functionTypeParams owner => [owner]
  | replaceList owner values => owner :: values
  | storeExternalField owner _ value | setExceptionCause owner value _
  | setExceptionTraceback owner value | setTaskWaiting owner value => owner :: value.toList
  | completeAsync source state => source :: state.trace
  | suspendGenerator owner suspended => owner :: suspended.values
  | namespaceWithMetaclass _ bases metaclass => metaclass :: bases
  | namespaceFromMapping _ bases metaclass mapping => metaclass :: mapping :: bases
  | popGeneratorFinalizer | popObjectFinalizer => []

def run [HostLibrary] : Mutation → HeapM Unit
  | dictSet owner key value => Tonic.dictSet owner key value
  | dictSetStr owner name value => Tonic.dictSetStr owner name value
  | hashSetHashed owner key value hash found => Tonic.hashSetHashed owner key value hash found
  | dictDelete owner key => Tonic.dictDelete owner key
  | dictDeleteAt owner index => Tonic.dictDeleteAt owner index
  | dictClear owner => Tonic.dictClear owner
  | dictMerge owner other => Tonic.dictMerge owner other
  | setItem owner key value => Tonic.setItem owner key value
  | deleteItem owner key => Tonic.deleteItem owner key
  | appendList owner value => Tonic.appendList owner value
  | replaceList owner values => Tonic.replaceList owner values
  | addModuleMember owner name value => Tonic.addModuleMember owner name value
  | deleteModuleMember owner name => Tonic.deleteModuleMember owner name
  | resetModuleMembers owner => Tonic.resetModuleMembers owner
  | storeCell owner value => Tonic.storeCell owner value
  | setTypeParamDefault parameter default unpack =>
    Tonic.setTypeParamDefault parameter default unpack
  | storeExternalField owner field value => Tonic.storeExternalField owner field value
  | setExceptionCause owner cause suppressContext =>
    Tonic.setExceptionCause owner cause suppressContext
  | setExceptionContext owner context => Tonic.setExceptionContext owner context
  | setExceptionTraceback owner traceback => Tonic.setExceptionTraceback owner traceback
  | recordExceptionTrace owner entries => Tonic.recordExceptionTrace owner entries
  | requestTaskCancel task => do let _ ← Tonic.requestTaskCancel task
  | clearTaskCancelRequest task => Tonic.clearTaskCancelRequest task
  | addAsyncWaiter source task => do let _ ← Tonic.addAsyncWaiter source task
  | removeAsyncWaiter source task => Tonic.removeAsyncWaiter source task
  | addAsyncCallback source callback => do let _ ← Tonic.addAsyncCallback source callback
  | completeAsync source state => do let _ ← Tonic.completeAsync source state
  | setTaskWaiting task source => Tonic.setTaskWaiting task source
  | setAsyncGeneratorAwaitState awaitable state =>
    Tonic.setAsyncGeneratorAwaitState awaitable state
  | claimAsyncGeneratorDriver owner awaitable => Tonic.claimAsyncGeneratorDriver owner awaitable
  | releaseAsyncGeneratorDriver owner awaitable =>
    Tonic.releaseAsyncGeneratorDriver owner awaitable
  | resumeGenerator owner execution => do let _ ← Tonic.resumeGenerator owner execution
  | suspendGenerator owner suspended => Tonic.suspendGenerator owner suspended
  | completeGenerator owner value => Tonic.completeGeneratorWithValue owner value
  | popGeneratorFinalizer => do let _ ← Tonic.popGeneratorFinalizer
  | popObjectFinalizer => do let _ ← Tonic.popObjectFinalizer
  | namespaceWithMetaclass qualname bases metaclass => do
    let _ ← Tonic.namespaceWithMetaclass qualname bases metaclass
  | namespaceFromMapping qualname bases metaclass mapping => do
    let _ ← Tonic.namespaceFromMapping qualname bases metaclass mapping
  | namespaceSet ns name value => Tonic.namespaceSet ns name value
  | namespaceDelete ns name => Tonic.namespaceDelete ns name
  | namespaceMapping ns => do let _ ← Tonic.namespaceMapping ns
  | namespaceUseMapping ns mapping => Tonic.namespaceUseMapping ns mapping
  | finishClass ns => Tonic.finishClass ns
  | setClassMetaclass cls metaclass => Tonic.setClassMetaclass cls metaclass
  | setAttr owner name value => Tonic.setAttr owner name value
  | delAttr owner name => Tonic.delAttr owner name
  | functionAnnotations f => do let _ ← Tonic.functionAnnotations f
  | functionTypeParams f => do let _ ← Tonic.functionTypeParams f

theorem wp_ignore {α : Type} {h : Heap} {m : HeapM α} {P : Heap → Prop}
    (call : wp m (fun _ => P) P h) : wp (do let _ ← m : HeapM Unit) (fun _ => P) P h := by
  rw [wp_bind]
  exact call

/-- A mutation with handed-out arguments keeps the heap sound, whether it succeeds or fails. -/
theorem run_after [HostLibrary] {h : Heap} (m : Mutation) (hs : Sound h)
    (held : ∀ v ∈ m.arguments, h.Issued v) : wp m.run (fun _ => After h) (After h) h := by
  cases m with
  | dictSet => exact dictSet_after hs (held _ (by simp [arguments])) (held _ (by simp [arguments]))
  | dictSetStr => exact dictSetStr_after hs (held _ (by simp [arguments]))
  | hashSetHashed =>
    exact hashSetHashed_after hs (held _ (by simp [arguments])) (held _ (by simp [arguments]))
  | dictDelete => exact dictDelete_after hs
  | dictDeleteAt => exact dictDeleteAt_after hs
  | dictClear => exact dictClear_after hs
  | dictMerge => exact dictMerge_after hs
  | setItem => exact setItem_after hs (held _ (by simp [arguments])) (held _ (by simp [arguments]))
  | deleteItem => exact deleteItem_after hs
  | appendList => exact appendList_after hs (held _ (by simp [arguments]))
  | replaceList => exact replaceList_after hs fun v hv => held v (by simp [arguments, hv])
  | addModuleMember => exact addModuleMember_after hs (held _ (by simp [arguments]))
  | deleteModuleMember => exact deleteModuleMember_after hs
  | resetModuleMembers => exact resetModuleMembers_after hs
  | storeCell => exact storeCell_after hs (held _ (by simp [arguments]))
  | setTypeParamDefault => exact setTypeParamDefault_after hs (held _ (by simp [arguments]))
  | storeExternalField =>
    exact storeExternalField_after hs (held _ (by simp [arguments]))
      fun v hv => held v (List.mem_cons_of_mem _ hv)
  | setExceptionCause =>
    exact setExceptionCause_after hs fun v hv => held v (List.mem_cons_of_mem _ hv)
  | setExceptionContext => exact setExceptionContext_after hs (held _ (by simp [arguments]))
  | setExceptionTraceback =>
    exact setExceptionTraceback_after hs fun v hv => held v (List.mem_cons_of_mem _ hv)
  | recordExceptionTrace => exact recordExceptionTrace_after hs
  | requestTaskCancel => exact wp_ignore (requestTaskCancel_after hs)
  | clearTaskCancelRequest => exact clearTaskCancelRequest_after hs
  | addAsyncWaiter _ task => exact wp_ignore (addAsyncWaiter_after hs (held task (by simp [arguments])))
  | removeAsyncWaiter => exact removeAsyncWaiter_after hs
  | addAsyncCallback _ callback =>
    exact wp_ignore (addAsyncCallback_after hs (held callback (by simp [arguments])))
  | completeAsync =>
    exact wp_ignore (completeAsync_after hs fun v hv => held v (List.mem_cons_of_mem _ hv))
  | setTaskWaiting => exact setTaskWaiting_after hs fun v hv => held v (List.mem_cons_of_mem _ hv)
  | setAsyncGeneratorAwaitState => exact setAsyncGeneratorAwaitState_after hs
  | claimAsyncGeneratorDriver =>
    exact claimAsyncGeneratorDriver_after hs (held _ (by simp [arguments]))
  | releaseAsyncGeneratorDriver => exact releaseAsyncGeneratorDriver_after hs
  | resumeGenerator => exact wp_ignore (resumeGenerator_after hs)
  | suspendGenerator =>
    exact suspendGenerator_after hs fun v hv => held v (List.mem_cons_of_mem _ hv)
  | completeGenerator => exact completeGeneratorWithValue_after hs (held _ (by simp [arguments]))
  | popGeneratorFinalizer => exact wp_ignore (popGeneratorFinalizer_after hs)
  | popObjectFinalizer => exact wp_ignore (popObjectFinalizer_after hs)
  | namespaceWithMetaclass qualname bases metaclass =>
    exact wp_ignore (namespaceWithMetaclass_after hs
      (fun v hv => held v (List.mem_cons_of_mem _ hv)) (held metaclass (by simp [arguments])))
  | namespaceFromMapping qualname bases metaclass mapping =>
    exact wp_ignore (namespaceFromMapping_after hs
      (fun v hv => held v (by simp [arguments, show v ∈ bases from hv]))
      (held metaclass (by simp [arguments])) (held mapping (by simp [arguments])))
  | namespaceSet => exact namespaceSet_after hs.after (held _ (by simp [arguments]))
  | namespaceDelete => exact namespaceDelete_after hs
  | namespaceMapping => exact wp_ignore (namespaceMapping_after hs)
  | namespaceUseMapping => exact namespaceUseMapping_after hs (held _ (by simp [arguments]))
  | finishClass => exact finishClass_after hs
  | setClassMetaclass => exact setClassMetaclass_after hs (held _ (by simp [arguments]))
  | setAttr => exact setAttr_after hs (held _ (by simp [arguments]))
  | delAttr => exact delAttr_after hs
  | functionAnnotations => exact wp_ignore (functionAnnotations_after hs)
  | functionTypeParams => exact wp_ignore (functionTypeParams_after hs)

end Mutation

/-- A heap, and the handles its user holds. -/
structure HeapState where
  heap : Heap
  held : Value → Prop

namespace HeapState

/-- The state an operation leaves: all that resolves now may be held from here on. -/
def next (s : HeapState) (t : Heap) : HeapState :=
  ⟨t, fun v => s.held v ∨ (t.tryGet v).isSome = true⟩

def start : HeapState := ⟨.empty, fun v => v.heapIndex = none⟩

end HeapState

/-- One operation on the heap; an operation that fails keeps what it did so far. -/
inductive HeapStep [HostLibrary] : HeapState → HeapState → Prop where
  | alloc (s : HeapState) (o : Object) (held : ∀ v ∈ o.trace, s.held v) :
    HeapStep s (s.next (final (alloc o) s.heap))
  | mutate (s : HeapState) (m : Mutation) (held : ∀ v ∈ m.arguments, s.held v) :
    HeapStep s (s.next (final m.run s.heap))
  | collect (s : HeapState) (youngOnly : Bool) (roots : List Value) :
    HeapStep s (s.next (final (collectWith youngOnly roots) s.heap))

inductive HeapReachable [HostLibrary] : HeapState → Prop where
  | start : HeapReachable .start
  | next {s t : HeapState} : HeapReachable s → HeapStep s t → HeapReachable t

namespace HeapState

/-- The heap is sound, and what its user holds was handed out. -/
structure Proper (s : HeapState) : Prop where
  sound : Sound s.heap
  issued : ∀ v, s.held v → s.heap.Issued v

theorem start_proper : Proper start where
  sound :=
    { valid :=
        { stored := by simp [start, Heap.empty]
          located := by simp [start, Heap.empty]
          freed := by simp [start, Heap.empty]
          freeNodup := .nil
          generations := by simp [start, Heap.empty]
          capacity := by simp [start, Heap.empty]
          traced := by simp [start, Heap.empty]
          external := fun hx => by simp [start, Heap.empty] at hx }
      complete := by simp [start, Heap.empty, RememberedComplete]
      ancestors := by simp [start, Heap.empty, AncestorsOld] }
  issued v hv := by
    cases v with
    | heap i g => simp [start, Value.heapIndex] at hv
    | _ => trivial

/-- A handle that resolves was handed out. -/
theorem issued_of_resolves {h : Heap} (hv : h.Valid) {v : Value}
    (resolves : (h.tryGet v).isSome = true) : h.Issued v := by
  obtain ⟨o, ho⟩ := Option.isSome_iff_exists.mp resolves
  obtain ⟨e, he, -⟩ := tryGet_eq_some.mp ho
  obtain ⟨l, hl, -⟩ := entry_eq_some.mp he
  obtain ⟨i, slot, rfl, hi, located⟩ := location_eq_some.mp hl
  refine ⟨slot, hi, .inr ⟨rfl, fun free => ?_⟩⟩
  obtain ⟨slot', hi', none⟩ := hv.freed free
  rw [hi] at hi'
  cases hi'
  rw [located] at none
  cases none

theorem Proper.next {s : HeapState} (hs : s.Proper) {t : Heap} (sound : Sound t)
    (issued : ∀ v, s.heap.Issued v → t.Issued v) : (s.next t).Proper where
  sound := sound
  issued v hv := hv.elim (fun old => issued v (hs.issued v old)) (issued_of_resolves sound.valid)

theorem step_proper [HostLibrary] {s t : HeapState} (step : HeapStep s t) (hs : s.Proper) :
    t.Proper := by
  cases step with
  | alloc o held =>
    have after : After s.heap (final (alloc o) s.heap) :=
      wp_final (wp_mono (wp_alloc hs.sound fun v hv => hs.issued v (held v hv))
        (fun _ _ ht => ht.1) fun _ => id)
    exact hs.next after.1 fun _ => after.2.issued
  | mutate m held =>
    have after : After s.heap (final m.run s.heap) :=
      wp_final (m.run_after hs.sound fun v hv => hs.issued v (held v hv))
    exact hs.next after.1 fun _ => after.2.issued
  | collect youngOnly roots =>
    have kept : Sound (final (collectWith youngOnly roots) s.heap) ∧
        ∀ v, s.heap.Issued v → (final (collectWith youngOnly roots) s.heap).Issued v :=
      wp_final (P := fun t => Sound t ∧ ∀ v, s.heap.Issued v → t.Issued v)
        (wp_mono (wp_collectWith hs.sound.valid)
          (fun _ _ ht => collected_sound hs.sound.valid ht) fun _ ht => ht.1.sound hs.sound)
    exact hs.next kept.1 kept.2

theorem reachable_proper [HostLibrary] {s : HeapState} (reach : HeapReachable s) : s.Proper := by
  induction reach with
  | start => exact start_proper
  | next _ step ih => exact step_proper step ih

end HeapState

/-- Whatever was allocated, mutated and collected so far, a minor collection finds every edge from
an old object to a young one in the remembered set. -/
theorem remembered_complete [HostLibrary] {s : HeapState} (reach : HeapReachable s) :
    s.heap.RememberedComplete :=
  (HeapState.reachable_proper reach).sound.complete

section OldList

def newList : Heap :=
  { Heap.empty with objects := [⟨.list [], 0, true⟩], slots := [⟨1, some 0⟩] }

/-- The list after a minor collection. -/
def oldList : Heap :=
  { Heap.empty with objects := [⟨.list [], 0, false⟩], slots := [⟨1, some 0⟩] }

theorem collect_newList : final (collectWith true [.heap 0 1]) newList = oldList := by
  have marks : newList.markRoots true [.heap 0 1] = .ok [true] := by
    simp [newList, markRoots, Marking.mark, graph, look, location, edges, externalEdges, handle,
      rememberedEdges, Heap.empty, Object.trace, Value.heapIndex, isYoung, entry]
  simp only [final, collectWith, bind, EStateM.bind, reading, marks]
  rfl

theorem remembered_complete_oldList : (final (appendList (.heap 0 1) (.heap 1 1))
    (final (alloc (.str "s")) oldList)).RememberedComplete := by
  let _ : HostLibrary := ⟨String.length, List.length, fun _ => ""⟩
  have old : final (collectWith true [.heap 0 1]) (final (alloc (.list [])) .empty) = oldList :=
    collect_newList
  have reach := HeapReachable.start
    |>.next (.alloc _ (.list []) (by simp [Object.trace]))
    |>.next (.collect _ true [.heap 0 1])
    |>.next (.alloc _ (.str "s") (by simp [Object.trace]))
    |>.next (.mutate _ (.appendList (.heap 0 1) (.heap 1 1)) (by
      intro v hv
      simp only [Mutation.arguments, List.mem_cons, List.not_mem_nil, or_false] at hv
      rcases hv with rfl | rfl
      · exact .inl (.inl (.inr rfl))
      · refine .inr ?_
        show ((final (alloc (.str "s")) (final (collectWith true [.heap 0 1])
          (final (alloc (.list [])) .empty))).tryGet (.heap 1 1)).isSome = true
        rw [old]
        rfl))
  rw [← old]
  exact fun {_ _} stored => remembered_complete reach stored

end OldList

end Tonic
