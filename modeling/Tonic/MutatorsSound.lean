import Tonic.DictSound
import Tonic.Mutators

namespace Tonic

open Effect

theorem mem_setMember {name : String} {value : Value} {members : List (String × Value)}
    {m : String × Value} (h : m ∈ setMember name value members) : m ∈ members ∨ m.2 = value := by
  induction members with
  | nil => simp_all [setMember]
  | cons first rest ih =>
    simp only [setMember] at h
    split at h
    · rcases List.mem_cons.mp h with rfl | h
      · exact .inr rfl
      · exact .inl (by simp [h])
    · rcases List.mem_cons.mp h with rfl | h
      · exact .inl (by simp)
      · exact (ih h).imp_left (by simp +contextual)

namespace Heap

variable {h h₀ : Heap} {owner value : Value} {E : Heap → Prop}

/-! ### Modules and cells -/

theorem addModuleMember_after {name : String} (hs : Sound h) (hv : h.Issued value) :
    wp (addModuleMember owner name value) (fun _ => After h) (After h) h := by
  simp only [addModuleMember, wp_bind, wp_writeBarrier]
  obtain ⟨base, issued, covered⟩ := barrierOne hs hv
  refine wp_getObject base fun o ho => ?_
  split
  · refine wp_setObject_last base ho (.store issued covered (fun v hv => ?_)
      (by simp [Object.ancestors]))
    obtain ⟨m, hm, rfl⟩ := List.mem_map.mp hv
    exact (mem_setMember hm).imp (List.mem_map_of_mem) (by simp)
  · exact base

theorem deleteModuleMember_after {name : String} (hs : Sound h) :
    wp (deleteModuleMember owner name) (fun _ => After h) (After h) h := by
  simp only [deleteModuleMember, wp_bind]
  refine wp_getObject hs.after fun o ho => ?_
  split
  · split
    · refine wp_setObject_last hs.after ho (.shrink (fun v hv => ?_)
        (by simp [Object.ancestors]))
      obtain ⟨m, hm, rfl⟩ := List.mem_map.mp hv
      exact List.mem_map_of_mem (List.mem_of_mem_eraseP hm)
    · exact hs.after
  · exact hs.after

theorem resetModuleMembers_after (hs : Sound h) :
    wp (resetModuleMembers owner) (fun _ => After h) (After h) h := by
  simp only [resetModuleMembers, wp_bind]
  refine wp_getObject hs.after fun o ho => ?_
  split
  · refine wp_setObject_last hs.after ho (.shrink (fun v hv => ?_) (by simp [Object.ancestors]))
    obtain ⟨m, hm, rfl⟩ := List.mem_map.mp hv
    exact List.mem_map_of_mem (List.mem_filter.mp hm).1
  · exact hs.after

theorem storeCell_after (hs : Sound h) (hv : h.Issued value) :
    wp (storeCell owner value) (fun _ => After h) (After h) h := by
  simp only [storeCell, wp_bind, wp_writeBarrier]
  obtain ⟨base, issued, covered⟩ := barrierOne hs hv
  refine wp_getObject base fun o ho => ?_
  split
  · exact wp_setObject_last base ho (.store issued covered (fun v hv => .inr hv)
      (by simp [Object.ancestors]))
  · exact base

theorem storeTypeParamDefault_after (base : After h₀ h) (hv : h.Issued value) :
    wp (storeTypeParamDefault owner value) (fun _ => After h₀) (After h₀) h := by
  simp only [storeTypeParamDefault, wp_bind, wp_writeBarrier]
  obtain ⟨step, issued, covered⟩ := barrierOne base.1 hv
  have base := base.trans step
  refine wp_getObject base fun o ho => ?_
  split
  · refine wp_setObject_last base ho (.store issued covered (fun v hv => ?_)
      (by simp [Object.ancestors]))
    rcases List.mem_append.mp hv with old | new
    · exact .inl (List.mem_append_left _ old)
    · exact .inr new
  · exact base

theorem setTypeParamDefault_after {unpack : Bool} (hs : Sound h) (hv : h.Issued value) :
    wp (setTypeParamDefault owner value unpack) (fun _ => After h) (After h) h := by
  unfold setTypeParamDefault
  split
  · rw [wp_bind]
    refine wp_mono (wp_alloc hs (by simpa [Object.trace] using hv)) ?_ fun _ => id
    rintro v t ⟨base, -, issued, -⟩
    exact storeTypeParamDefault_after base issued
  · exact storeTypeParamDefault_after hs.after hv

/-! ### Exceptions -/

theorem wp_expectException {Q : Exception → Heap → Prop} (failed : E h)
    (ok : ∀ e, h.tryGet owner = some (.exception e) → Q e h) :
    wp (expectException owner) Q E h := by
  simp only [expectException, wp_bind]
  refine wp_getObject failed fun o ho => ?_
  split
  · exact ok _ ho
  · exact failed

@[simp] theorem wp_barrierSome {Q : Unit → Heap → Prop} {some : Option Value} :
    wp (barrierSome owner some) Q E = fun h => Q () (h.writeBarriers owner some.toList) := by
  cases some <;> rfl

theorem setExceptionCause_after {cause : Option Value} {suppress : Bool} (hs : Sound h)
    (hv : ∀ v ∈ cause.toList, h.Issued v) :
    wp (setExceptionCause owner cause suppress) (fun _ => After h) (After h) h := by
  simp only [setExceptionCause, wp_bind, wp_barrierSome]
  have base : After h (h.writeBarriers owner cause.toList) := hs.writeBarriers
  refine wp_expectException base fun e he => ?_
  refine wp_setObject_last base he (.store (by simpa using hv)
    (fun v => covered_writeBarriers) (fun v hv => ?_) (by simp [Object.ancestors]))
  simp only [Object.trace, List.mem_cons, List.mem_append] at hv ⊢
  tauto

theorem setExceptionTraceback_after {traceback : Option Value} (hs : Sound h)
    (hv : ∀ v ∈ traceback.toList, h.Issued v) :
    wp (setExceptionTraceback owner traceback) (fun _ => After h) (After h) h := by
  simp only [setExceptionTraceback, wp_bind, wp_barrierSome]
  have base : After h (h.writeBarriers owner traceback.toList) := hs.writeBarriers
  refine wp_expectException base fun e he => ?_
  refine wp_setObject_last base he (.store (by simpa using hv)
    (fun v => covered_writeBarriers) (fun v hv => ?_) (by simp [Object.ancestors]))
  simp only [Object.trace, List.mem_cons, List.mem_append] at hv ⊢
  tauto

theorem setExceptionContext_after (hs : Sound h) (hv : h.Issued value) :
    wp (setExceptionContext owner value) (fun _ => After h) (After h) h := by
  simp only [setExceptionContext, wp_bind, wp_writeBarrier]
  obtain ⟨base, issued, covered⟩ := barrierOne hs hv
  refine wp_expectException base fun e he => ?_
  split
  · refine wp_setObject_last base he (.store issued covered (fun v hv => ?_)
      (by simp [Object.ancestors]))
    simp only [Object.trace, List.mem_cons, List.mem_append, Option.toList_some,
      List.not_mem_nil, or_false] at hv ⊢
    tauto
  · exact base

theorem ensureTraceback_after {e : Exception} (hs : Sound h) :
    wp (ensureTraceback owner e) (fun _ => After h) (After h) h := by
  unfold ensureTraceback
  split
  · exact hs.after
  · simp only [wp_bind, wp_writeBarrier]
    refine wp_mono (wp_alloc hs (by simp [Object.trace])) ?_ fun _ => id
    rintro tb t ⟨base, -, issued, -⟩
    obtain ⟨step, issued, covered⟩ := barrierOne base.1 issued
    have base := base.trans step
    refine wp_getObject base fun o ho => ?_
    split
    · rw [wp_bind]
      refine wp_setObject_last base ho (.store issued covered (fun v hv => ?_)
        (by simp [Object.ancestors]))
      simp only [Object.trace, List.mem_cons, List.mem_append, Option.toList_some,
        List.not_mem_nil, or_false] at hv ⊢
      tauto
    · exact base

theorem recordExceptionTrace_after {entries : List TracebackEntry} (hs : Sound h) :
    wp (recordExceptionTrace owner entries) (fun _ => After h) (After h) h := by
  unfold recordExceptionTrace
  split
  · exact hs.after
  · simp only [wp_bind]
    refine wp_expectException hs.after fun e he => ?_
    refine wp_mono (ensureTraceback_after hs) (fun tb t base => ?_) fun _ => id
    refine wp_getObject base fun o ho => ?_
    split
    · exact wp_setObject_last base ho (.shrink (by simp [Object.trace])
        (by simp [Object.ancestors]))
    · exact base

/-! ### Futures and tasks -/

/-- An update that only drops edges. -/
theorem wp_setObject_shrink {o o' : Object} (hs : Sound h) (ho : h.tryGet owner = some o)
    (trace : ∀ v ∈ o'.trace, v ∈ o.trace) (ancestors : o'.ancestors = []) :
    wp (setObject owner o') (fun _ => After h) (After h) h :=
  wp_setObject_last hs.after ho (.shrink trace (by simp [ancestors]))

theorem requestTaskCancel_after (hs : Sound h) :
    wp (requestTaskCancel owner) (fun _ => After h) (After h) h := by
  simp only [requestTaskCancel, wp_bind]
  refine wp_getObject hs.after fun o ho => ?_
  split
  · split
    · exact hs.after
    · rw [wp_bind]
      refine wp_setObject_shrink hs ho (fun v hv => ?_) rfl
      simp only [Object.trace, List.mem_cons, List.mem_append, Option.toList_none,
        List.not_mem_nil, or_false] at hv ⊢
      tauto
  · exact hs.after

theorem clearTaskCancelRequest_after (hs : Sound h) :
    wp (clearTaskCancelRequest owner) (fun _ => After h) (After h) h := by
  simp only [clearTaskCancelRequest, wp_bind]
  refine wp_getObject hs.after fun o ho => ?_
  split
  · exact wp_setObject_shrink hs ho (fun v hv => hv) rfl
  · exact hs.after

theorem removeAsyncWaiter_after {task : Value} (hs : Sound h) :
    wp (removeAsyncWaiter owner task) (fun _ => After h) (After h) h := by
  simp only [removeAsyncWaiter, wp_bind]
  refine wp_getObject hs.after fun o ho => ?_
  split
  · refine wp_setObject_shrink hs ho (fun v hv => ?_) rfl
    simp only [Object.trace, List.mem_cons, List.mem_append, List.mem_filter] at hv ⊢
    tauto
  · refine wp_setObject_shrink hs ho (fun v hv => ?_) rfl
    simp only [Object.trace, List.mem_cons, List.mem_append, List.mem_filter] at hv ⊢
    tauto
  · exact hs.after

theorem addAsyncWaiter_after {task : Value} (hs : Sound h) (hv : h.Issued task) :
    wp (addAsyncWaiter owner task) (fun _ => After h) (After h) h := by
  simp only [addAsyncWaiter, wp_bind, wp_writeBarrier]
  obtain ⟨base, issued, covered⟩ := barrierOne hs hv
  refine wp_getObject base fun o ho => ?_
  split
  · split
    · refine wp_setObject_last base ho (.store issued covered (fun v hv => ?_)
        (by simp [Object.ancestors]))
      simp only [Object.trace, List.mem_cons, List.mem_append] at hv ⊢
      tauto
    · exact base
  · split
    · refine wp_setObject_last base ho (.store issued covered (fun v hv => ?_)
        (by simp [Object.ancestors]))
      simp only [Object.trace, List.mem_cons, List.mem_append] at hv ⊢
      tauto
    · exact base
  · exact base

theorem addAsyncCallback_after (hs : Sound h) (hv : h.Issued value) :
    wp (addAsyncCallback owner value) (fun _ => After h) (After h) h := by
  simp only [addAsyncCallback, wp_bind, wp_writeBarrier]
  obtain ⟨base, issued, covered⟩ := barrierOne hs hv
  refine wp_getObject base fun o ho => ?_
  split
  · split
    · rw [wp_bind]
      refine wp_setObject_last base ho (.store issued covered (fun v hv => ?_)
        (by simp [Object.ancestors]))
      simp only [Object.trace, List.mem_cons, List.mem_append] at hv ⊢
      tauto
    · exact base
  · split
    · rw [wp_bind]
      refine wp_setObject_last base ho (.store issued covered (fun v hv => ?_)
        (by simp [Object.ancestors]))
      simp only [Object.trace, List.mem_cons, List.mem_append] at hv ⊢
      tauto
    · exact base
  · exact base

theorem settleAsync_after {state : AsyncState} (base : After h₀ h)
    (issued : ∀ v ∈ state.trace, h.Issued v) (covered : ∀ v ∈ state.trace, h.Covered owner v) :
    wp (settleAsync owner state) (fun _ => After h₀) (After h₀) h := by
  unfold settleAsync
  rw [wp_bind]
  refine wp_getObject base fun o ho => ?_
  split
  · split
    · exact base
    · rw [wp_bind]
      refine wp_setObject_last base ho (.store issued covered (fun v hv => ?_)
        (by simp [Object.ancestors]))
      simp only [Object.trace, List.mem_cons, List.mem_append, List.append_nil] at hv ⊢
      tauto
  · split
    · exact base
    · rw [wp_bind]
      refine wp_setObject_last base ho (.store issued covered (fun v hv => ?_)
        (by simp [Object.ancestors]))
      simp only [Object.trace, List.mem_cons, List.mem_append, List.append_nil,
        Option.toList_none] at hv ⊢
      tauto
  · exact base

theorem completeAsync_after {state : AsyncState} (hs : Sound h)
    (hv : ∀ v ∈ state.trace, h.Issued v) :
    wp (completeAsync owner state) (fun _ => After h) (After h) h := by
  cases state with
  | pending => exact hs.after
  | finished value | failed value | cancelled value =>
    obtain ⟨base, issued, covered⟩ := barrierOne hs (hv value List.mem_cons_self)
    simp only [completeAsync, wp_bind, wp_writeBarrier]
    exact settleAsync_after base issued covered

theorem setTaskWaiting_after {source : Option Value} (hs : Sound h)
    (hv : ∀ v ∈ source.toList, h.Issued v) :
    wp (setTaskWaiting owner source) (fun _ => After h) (After h) h := by
  simp only [setTaskWaiting, wp_bind, wp_barrierSome]
  have base : After h (h.writeBarriers owner source.toList) := hs.writeBarriers
  refine wp_getObject base fun o ho => ?_
  split
  · refine wp_setObject_last base ho (.store (by simpa using hv)
      (fun v => covered_writeBarriers) (fun v hv => ?_) (by simp [Object.ancestors]))
    simp only [Object.trace, List.mem_cons, List.mem_append] at hv ⊢
    tauto
  · exact base

/-! ### Generators -/

theorem wp_expectGenerator {Q : GeneratorFrame → Heap → Prop} (failed : E h)
    (ok : ∀ frame, h.tryGet owner = some (.generator frame) → Q frame h) :
    wp (expectGenerator owner) Q E h := by
  simp only [expectGenerator, wp_bind]
  refine wp_getObject failed fun o ho => ?_
  split
  · exact ok _ ho
  · exact failed

theorem setAsyncGeneratorAwaitState_after {state : AsyncGeneratorAwaitState} (hs : Sound h) :
    wp (setAsyncGeneratorAwaitState owner state) (fun _ => After h) (After h) h := by
  simp only [setAsyncGeneratorAwaitState, wp_bind]
  refine wp_getObject hs.after fun o ho => ?_
  split
  · exact wp_setObject_shrink hs ho (fun v hv => hv) rfl
  · exact hs.after

theorem claimAsyncGeneratorDriver_after (hs : Sound h) (hv : h.Issued value) :
    wp (claimAsyncGeneratorDriver owner value) (fun _ => After h) (After h) h := by
  simp only [claimAsyncGeneratorDriver, wp_bind, wp_writeBarrier]
  obtain ⟨base, issued, covered⟩ := barrierOne hs hv
  refine wp_getObject base fun o ho => ?_
  split
  · split
    · exact base
    · split
      · exact base
      · refine wp_setObject_last base ho (.store issued covered (fun v hv => ?_)
          (by simp [Object.ancestors]))
        simp only [Object.trace, List.mem_cons, List.mem_append, Option.toList_some,
          List.not_mem_nil, or_false] at hv ⊢
        tauto
  · exact base

theorem releaseAsyncGeneratorDriver_after (hs : Sound h) :
    wp (releaseAsyncGeneratorDriver owner value) (fun _ => After h) (After h) h := by
  simp only [releaseAsyncGeneratorDriver, wp_bind]
  refine wp_getObject hs.after fun o ho => ?_
  split
  · split
    · refine wp_setObject_shrink hs ho (fun v hv => ?_) rfl
      simp only [Object.trace, List.mem_cons, List.mem_append, Option.toList_none,
        List.not_mem_nil, or_false] at hv ⊢
      tauto
    · exact hs.after
  · exact hs.after

theorem resumeGenerator_after {execution : Nat} (hs : Sound h) :
    wp (resumeGenerator owner execution) (fun _ => After h) (After h) h := by
  simp only [resumeGenerator, wp_bind]
  refine wp_expectGenerator hs.after fun frame hf => ?_
  split
  · exact hs.after
  · have taken : wp (setObject owner (.generator { frame with
        state := .running, registers := [], cells := [], exceptionStack := [],
        resumeRegister := none, yieldFrom := none })) (fun _ => After h) (After h) h := by
      refine wp_setObject_shrink hs hf (fun v hv => ?_) rfl
      simp only [Object.trace, List.mem_cons, List.nil_append, Option.toList_none,
        List.mem_append] at hv ⊢
      tauto
    split
    · exact hs.after
    · exact hs.after
    all_goals rw [wp_bind]; exact taken

theorem suspendGenerator_after {s : SuspendedGenerator} (hs : Sound h)
    (hv : ∀ v ∈ s.values, h.Issued v) :
    wp (suspendGenerator owner s) (fun _ => After h) (After h) h := by
  simp only [suspendGenerator, wp_bind, wp_writeBarriers]
  have base : After h (h.writeBarriers owner s.values) := hs.writeBarriers
  refine wp_expectGenerator base fun frame hf => ?_
  split
  · exact base
  · refine wp_setObject_last base hf (.store (by simpa using hv)
      (fun v => covered_writeBarriers) (fun v hv => ?_) (by simp [Object.ancestors]))
    simp only [Object.trace, SuspendedGenerator.values, List.mem_cons, List.mem_append] at hv ⊢
    tauto

theorem completeGeneratorWithValue_after (hs : Sound h) (hv : h.Issued value) :
    wp (completeGeneratorWithValue owner value) (fun _ => After h) (After h) h := by
  simp only [completeGeneratorWithValue, wp_bind, wp_writeBarrier]
  obtain ⟨base, issued, covered⟩ := barrierOne hs hv
  refine wp_expectGenerator base fun frame hf => ?_
  refine wp_setObject_last base hf (.store issued covered (fun v hv => ?_)
    (by simp [Object.ancestors]))
  simp only [Object.trace, List.mem_cons, List.nil_append, Option.toList_none,
    List.not_mem_nil, or_false] at hv ⊢
  tauto

theorem popGeneratorFinalizer_after (hs : Sound h) :
    wp popGeneratorFinalizer (fun _ => After h) (After h) h :=
  hs.same rfl rfl rfl rfl subset_rfl

theorem popObjectFinalizer_after (hs : Sound h) :
    wp popObjectFinalizer (fun _ => After h) (After h) h :=
  hs.same rfl rfl rfl rfl subset_rfl

/-! ### External fields -/

section External

variable {field : Nat}

theorem Sound.insertExternal (hs : Sound h) (hi : h.Issued owner) (hv : h.Issued value)
    (covered : h.Covered owner value) :
    After h { h with externalFields := h.externalFields.insert (owner, field) value } := by
  have old {x} (hx : x ∈ (h.externalFields.insert (owner, field) value).entries) :
      x = ⟨(owner, field), value⟩ ∨ x ∈ h.externalFields.entries := by
    rw [AList.entries_insert] at hx
    exact (List.mem_cons.mp hx).imp_right fun hx => (List.kerase_sublist _ _).subset hx
  refine ⟨⟨⟨hs.valid.stored, hs.valid.located, hs.valid.freed, hs.valid.freeNodup,
    hs.valid.generations, hs.valid.capacity, hs.valid.traced, ?_⟩, ?_, hs.ancestors⟩,
    ⟨id, fun _ => rfl, fun _ => rfl, subset_rfl⟩⟩
  · intro x hx
    rcases old hx with rfl | hx
    · exact ⟨hi, hv⟩
    · exact hs.valid.external hx
  · intro l e he young v hv hy
    rcases List.mem_append.mp hv with traced | external
    · exact hs.complete he young v (List.mem_append_left _ traced) hy
    · obtain ⟨x, hx, rfl⟩ := List.mem_map.mp external
      obtain ⟨mem, own⟩ := List.mem_filter.mp hx
      rcases old mem with rfl | before
      · have own : owner = h.handle e := of_decide_eq_true own
        have entry : h.entry owner = some e := by
          rw [own]
          exact entry_eq_some.mpr ⟨l, location_handle hs.valid he, he⟩
        exact covered hy entry young
      · exact hs.complete he young _ (List.mem_append_right _
          (List.mem_map_of_mem (List.mem_filter.mpr ⟨before, own⟩))) hy

theorem Sound.eraseExternal (hs : Sound h) :
    After h { h with externalFields := h.externalFields.erase (owner, field) } := by
  have old {x} (hx : x ∈ (h.externalFields.erase (owner, field)).entries) :
      x ∈ h.externalFields.entries := (List.kerase_sublist _ _).subset hx
  refine ⟨⟨⟨hs.valid.stored, hs.valid.located, hs.valid.freed, hs.valid.freeNodup,
    hs.valid.generations, hs.valid.capacity, hs.valid.traced,
    fun hx => hs.valid.external (old hx)⟩, ?_, hs.ancestors⟩,
    ⟨id, fun _ => rfl, fun _ => rfl, subset_rfl⟩⟩
  intro l e he young v hv hy
  rcases List.mem_append.mp hv with traced | external
  · exact hs.complete he young v (List.mem_append_left _ traced) hy
  · obtain ⟨x, hx, rfl⟩ := List.mem_map.mp external
    obtain ⟨mem, own⟩ := List.mem_filter.mp hx
    exact hs.complete he young _ (List.mem_append_right _
      (List.mem_map_of_mem (List.mem_filter.mpr ⟨old mem, own⟩))) hy

variable (field) in
theorem insertExternalField_after (hs : Sound h) (hi : h.Issued owner) (hv : h.Issued value) :
    wp (insertExternalField owner field value) (fun _ => After h) (After h) h := by
  have step := hs.writeBarrier owner value
  exact step.trans (step.1.insertExternal (by simpa using hi) (by simpa using hv)
    (covered_writeBarrier h owner value))

theorem storeExternalField_after {stored : Option Value} (hs : Sound h) (hi : h.Issued owner)
    (hv : ∀ v ∈ stored.toList, h.Issued v) :
    wp (storeExternalField owner field stored) (fun _ => After h) (After h) h := by
  simp only [storeExternalField]
  split
  · exact hs.after
  · rw [wp_bind]
    refine wp_getObject hs.after fun _ _ => ?_
    cases stored with
    | none => exact hs.eraseExternal
    | some value =>
      have insert := insertExternalField_after field hs hi (hv value (by simp))
      simp only
      split
      · rw [wp_bind]
        exact wp_getObject hs.after fun _ _ => insert
      · exact insert

end External

end Heap

end Tonic
