import Tonic.EventLoop
import Tonic.MutatorsSound
import Tonic.Stores

/-!
## Futures and tasks as sources

What the mutators of futures and tasks do to the objects they are called on, and that nothing
else changes.
-/

namespace Tonic

open Effect Wakeup

def AsyncState.outcome : AsyncState → Option AsyncState
  | pending => none
  | state => some state

theorem AsyncState.outcome_eq_none {state : AsyncState} :
    state.outcome = none ↔ state = .pending := by
  cases state <;> simp [outcome]

theorem AsyncState.outcome_of_ne {state : AsyncState} (h : state ≠ .pending) :
    state.outcome = some state := by
  cases state with
  | pending => exact absurd rfl h
  | finished | failed | cancelled => rfl

namespace Object

def source : Object → Option (Source Value AsyncState)
  | asyncFuture f => some ⟨f.state.outcome, f.waiters, f.callbacks⟩
  | asyncTask t => some ⟨t.state.outcome, t.waiters, t.callbacks⟩
  | _ => none

def waitingOn : Object → Option Value
  | asyncTask t => t.waitingOn
  | _ => none

def isTask : Object → Bool
  | asyncTask _ => true
  | _ => false

end Object

namespace Heap

variable {h t : Heap} {owner v : Value} {o o' : Object}

def source (h : Heap) (v : Value) : Option (Source Value AsyncState) :=
  (h.tryGet v).bind (·.source)

def waitingOn (h : Heap) (v : Value) : Option Value := (h.tryGet v).bind (·.waitingOn)

def isTask (h : Heap) (v : Value) : Bool := (h.tryGet v).any (·.isTask)

theorem source_asyncState (h : Heap) (v : Value) :
    h.asyncState v = none ∧ h.source v = none ∨
      ∃ state src, h.asyncState v = some state ∧ h.source v = some src ∧
        src.outcome = state.outcome := by
  unfold asyncState source
  cases h.tryGet v with
  | none => exact .inl ⟨rfl, rfl⟩
  | some o =>
    cases o with
    | asyncFuture f => exact .inr ⟨_, _, rfl, rfl, rfl⟩
    | asyncTask t => exact .inr ⟨_, _, rfl, rfl, rfl⟩
    | _ => exact .inl ⟨rfl, rfl⟩

theorem Stores.source (hs : Stores h t owner o) :
    t.source = Function.update h.source owner o.source := by
  funext v
  simp only [Heap.source, show t.tryGet = _ from hs, Function.update_apply]
  split <;> rfl

theorem Stores.waitingOn (hs : Stores h t owner o) :
    t.waitingOn = Function.update h.waitingOn owner o.waitingOn := by
  funext v
  simp only [Heap.waitingOn, show t.tryGet = _ from hs, Function.update_apply]
  split <;> rfl

theorem Stores.isTask (hs : Stores h t owner o) :
    t.isTask = Function.update h.isTask owner o.isTask := by
  funext v
  simp only [Heap.isTask, show t.tryGet = _ from hs, Function.update_apply]
  split <;> rfl

/-- No future and no task has changed. -/
structure SameSources (h t : Heap) : Prop where
  source : t.source = h.source
  waitingOn : t.waitingOn = h.waitingOn
  isTask : t.isTask = h.isTask

theorem sameSources_of_tryGet (same : t.tryGet = h.tryGet) : SameSources h t where
  source := by unfold Heap.source; rw [same]
  waitingOn := by unfold Heap.waitingOn; rw [same]
  isTask := by unfold Heap.isTask; rw [same]

theorem SameSources.trans {u : Heap} (ht : SameSources h t) (tu : SameSources t u) :
    SameSources h u :=
  ⟨tu.source.trans ht.source, tu.waitingOn.trans ht.waitingOn, tu.isTask.trans ht.isTask⟩

/-- One source has changed, and perhaps what it waits for. -/
structure Alters (h t : Heap) (owner : Value) (src : Source Value AsyncState)
    (waiting : Option Value) : Prop where
  source : t.source = Function.update h.source owner (some src)
  waitingOn : t.waitingOn = Function.update h.waitingOn owner waiting
  isTask : t.isTask = h.isTask

theorem source_of (ho : h.tryGet v = some o) : h.source v = o.source := by
  simp [Heap.source, ho]

theorem waitingOn_of (ho : h.tryGet v = some o) : h.waitingOn v = o.waitingOn := by
  simp [Heap.waitingOn, ho]

theorem isTask_of (ho : h.tryGet v = some o) : h.isTask v = o.isTask := by
  simp [Heap.isTask, ho]

theorem Stores.alters {src : Source Value AsyncState} {waiting : Option Value}
    (hs : Stores h t owner o') (ho : h.tryGet owner = some o) (source : o'.source = some src)
    (waits : o'.waitingOn = waiting) (task : o'.isTask = o.isTask) :
    Alters h t owner src waiting where
  source := by rw [hs.source, source]
  waitingOn := by rw [hs.waitingOn, waits]
  isTask := by
    rw [hs.isTask, Function.update_eq_self_iff, task]
    simp [Heap.isTask, ho]

/-- A new object that is neither a future nor a task. -/
theorem Stores.other (hs : Stores h t v o) (new : h.tryGet v = none) (source : o.source = none)
    (waits : o.waitingOn = none) (task : o.isTask = false) : SameSources h t where
  source := by rw [hs.source, Function.update_eq_self_iff, source, Heap.source, new]; rfl
  waitingOn := by rw [hs.waitingOn, Function.update_eq_self_iff, waits, Heap.waitingOn, new]; rfl
  isTask := by rw [hs.isTask, Function.update_eq_self_iff, task, Heap.isTask, new]; rfl

theorem wp_alloc_other (hs : Sound h) (ho : ∀ v ∈ o.trace, h.Issued v) (source : o.source = none)
    (waits : o.waitingOn = none) (task : o.isTask = false) :
    wp (alloc o)
      (fun v t => After h t ∧ SameSources h t ∧ t.Issued v ∧ t.room + 1 = h.room)
      (fun t => After h t ∧ SameSources h t ∧ h.room = 0) h := by
  refine wp_mono (wp_and (wp_alloc_stores hs ho) (wp_alloc_room hs)) ?_ ?_
  · rintro v t ⟨⟨after, stores, new, issued⟩, room⟩
    exact ⟨after, stores.other (tryGet_unissued hs.valid new) source waits task, issued, room⟩
  · rintro t ⟨⟨after, rfl⟩, -, none⟩
    exact ⟨after, sameSources_of_tryGet rfl, none⟩

theorem exceptionClass_mem (types : RuntimeTypes Value) (kind : String) :
    exceptionClass types kind ∈ types.roots := by
  unfold exceptionClass
  split
  case h_9 =>
    cases found : types.otherExceptions.find? (·.1 = kind) with
    | none => simp [RuntimeTypes.roots]
    | some e =>
      have mem : e.2 ∈ types.otherExceptions.map (·.2) :=
        List.mem_map_of_mem (List.mem_of_find?_eq_some found)
      simp only [RuntimeTypes.roots, List.mem_append]
      exact .inr mem
  all_goals simp [RuntimeTypes.roots]

theorem wp_exceptionArguments {types : RuntimeTypes Value} {cls : Value} {message : String}
    (hs : Sound h) :
    wp (exceptionArguments types cls message)
      (fun arguments t => After h t ∧ SameSources h t ∧ (∀ v ∈ arguments, t.Issued v) ∧
        h.room ≤ t.room + 1)
      (fun t => After h t ∧ SameSources h t ∧ h.room = 0) h := by
  unfold exceptionArguments
  split
  · exact ⟨hs.after, sameSources_of_tryGet rfl, by simp, Nat.le_succ _⟩
  · rw [wp_bind]
    refine wp_mono (wp_alloc_other hs (by simp [Object.trace]) rfl rfl rfl) ?_ fun _ => id
    rintro v t ⟨after, same, issued, room⟩
    exact ⟨after, same, by simpa using issued, by omega⟩

/-- What `exceptionFromDiagnostic` makes of its arguments. -/
def diagnosticException (types : RuntimeTypes Value) (error : Diagnostic)
    (arguments : List Value) : Object :=
  .exception
    { cls := exceptionClass types error.kind, message := error.message, arguments
      stopIterationValue :=
        if exceptionClass types error.kind = types.stopIteration then
          some (arguments.head?.getD .none)
        else none
      attributes := .empty, cause := none, context := none, suppressContext := false
      traceback := none }

theorem issued_diagnosticException {types : RuntimeTypes Value} {error : Diagnostic}
    {arguments : List Value} (cls : h.Issued (exceptionClass types error.kind))
    (mem : ∀ v ∈ arguments, h.Issued v) :
    ∀ v ∈ (diagnosticException types error arguments).trace, h.Issued v := by
  intro v hv
  simp only [diagnosticException, Object.trace, Attributes.trace, Attributes.empty,
    Option.toList_none, List.nil_append, List.append_nil, List.mem_cons, List.mem_append] at hv
  rcases hv with rfl | hv | hv
  · exact cls
  · exact mem v hv
  · split at hv
    · simp only [Option.toList_some, List.mem_singleton] at hv
      cases arguments with
      | nil => exact hv ▸ trivial
      | cons a l => exact hv ▸ mem a List.mem_cons_self
    · cases hv

/-- An exception takes at most two handles. -/
theorem wp_exceptionFromDiagnostic {types : RuntimeTypes Value} {error : Diagnostic} (hs : Sound h)
    (issued : ∀ v ∈ types.roots, h.Issued v) :
    wp (exceptionFromDiagnostic types error)
      (fun v t => After h t ∧ SameSources h t ∧ t.Issued v)
      (fun t => After h t ∧ SameSources h t ∧ h.room < 2) h := by
  have cls := issued _ (exceptionClass_mem types error.kind)
  simp only [exceptionFromDiagnostic, wp_bind]
  refine wp_mono (wp_exceptionArguments hs) ?_ fun t ht => ⟨ht.1, ht.2.1, by omega⟩
  rintro arguments t ⟨after, same, mem, room⟩
  have traced := issued_diagnosticException (after.2.issued cls) mem
  refine wp_mono (wp_alloc_other after.1 traced rfl rfl rfl) ?_ ?_
  · rintro v u ⟨step, kept, issued, -⟩
    exact ⟨after.trans step, same.trans kept, issued⟩
  · rintro u ⟨step, kept, empty⟩
    exact ⟨after.trans step, same.trans kept, by omega⟩

/-! ### The mutators -/

section Mutators

variable {task source callback : Value} {src : Source Value AsyncState} {state : AsyncState}

/-- A task that is pending and not cancelled yet is marked, and forgets what it waits for. -/
theorem wp_requestTaskCancel {t : AsyncTask} (hs : Sound h)
    (ho : h.tryGet task = some (.asyncTask t)) :
    wp (requestTaskCancel task)
      (fun r u => After h u ∧
        ((r = (false, none) ∧ SameSources h u) ∨
          (r = (true, t.waitingOn) ∧ t.state = .pending ∧
            Alters h u task ⟨none, t.waiters, t.callbacks⟩ none)))
      (fun u => After h u ∧ False) h := by
  refine wp_and (requestTaskCancel_after hs) ?_
  simp only [requestTaskCancel, getObject, wp_bind, wp_reading, Heap.get, ho]
  split
  · exact .inl ⟨rfl, sameSources_of_tryGet rfl⟩
  · next live =>
    simp only [not_or, not_not] at live
    rw [wp_bind]
    refine wp_setObject_stores hs.valid ho fun u hu => .inr ⟨rfl, live.1, ?_⟩
    exact hu.alters ho (by simp [Object.source, live.1, AsyncState.outcome]) rfl rfl

theorem wp_requestTaskCancel_room {t : AsyncTask} (ho : h.tryGet task = some (.asyncTask t)) :
    wp (requestTaskCancel task) (fun _ u => u.room = h.room) (fun _ => False) h := by
  obtain ⟨e, he, -⟩ := tryGet_eq_some.mp ho
  obtain ⟨l, hl, -⟩ := entry_eq_some.mp he
  simp only [requestTaskCancel, getObject, wp_bind, wp_reading, Heap.get, ho]
  split
  · rfl
  · simp only [wp_bind, setObject, wp_get, hl, wp_set, wp_pure]
    rfl

/-- An object that is neither a future nor a task has no source. -/
theorem source_eq_none (ho : h.tryGet v = some o) (future : ∀ f, o ≠ .asyncFuture f)
    (task : ∀ t, o ≠ .asyncTask t) : h.source v = none := by
  rw [source_of ho]
  cases o with
  | asyncFuture f => exact absurd rfl (future f)
  | asyncTask t => exact absurd rfl (task t)
  | _ => rfl

theorem source_of_get {e : Fault} (failed : h.get v = .error e) : h.source v = none := by
  unfold Heap.get at failed
  split at failed
  · cases failed
  · next none => simp [Heap.source, none]

theorem wp_removeAsyncWaiter (hs : Sound h) :
    wp (removeAsyncWaiter source task)
      (fun _ u => After h u ∧ ∃ src, h.source source = some src ∧
        Alters h u source { src with waiters := src.waiters.filter (· ≠ task) }
          (h.waitingOn source))
      (fun u => After h u ∧ h.source source = none ∧ SameSources h u) h := by
  refine wp_and (removeAsyncWaiter_after hs) ?_
  simp only [removeAsyncWaiter, getObject, wp_bind, wp_reading]
  cases ho : h.get source with
  | error e => exact ⟨source_of_get ho, sameSources_of_tryGet rfl⟩
  | ok o =>
    have ho := get_eq_ok ho
    simp only
    split
    · refine wp_setObject_stores hs.valid ho fun u hu => ⟨_, source_of ho, ?_⟩
      exact hu.alters ho rfl (waitingOn_of ho).symm rfl
    · refine wp_setObject_stores hs.valid ho fun u hu => ⟨_, source_of ho, ?_⟩
      exact hu.alters ho rfl (waitingOn_of ho).symm rfl
    · next future task => exact ⟨source_eq_none ho future task, sameSources_of_tryGet rfl⟩

theorem source_eq_some (hsrc : h.source v = some src) :
    (∃ f, h.tryGet v = some (.asyncFuture f) ∧ src = ⟨f.state.outcome, f.waiters, f.callbacks⟩) ∨
      ∃ t, h.tryGet v = some (.asyncTask t) ∧ src = ⟨t.state.outcome, t.waiters, t.callbacks⟩ := by
  unfold Heap.source at hsrc
  cases ho : h.tryGet v with
  | none => rw [ho] at hsrc; cases hsrc
  | some o =>
    rw [ho] at hsrc
    cases o with
    | asyncFuture f => cases hsrc; exact .inl ⟨f, rfl, rfl⟩
    | asyncTask t => cases hsrc; exact .inr ⟨t, rfl, rfl⟩
    | _ => cases hsrc

/-- Whether the source is pending decides who keeps the callback. -/
theorem wp_addAsyncCallback (hs : Sound h) (issued : h.Issued callback)
    (hsrc : h.source source = some src) :
    wp (addAsyncCallback source callback)
      (fun r u => After h u ∧
        ((r = true ∧ src.outcome = none ∧ Alters h u source
            { src with callbacks := src.callbacks ++ [callback] } (h.waitingOn source)) ∨
          (r = false ∧ src.outcome ≠ none ∧ SameSources h u)))
      (fun u => After h u ∧ False) h := by
  refine wp_and (addAsyncCallback_after hs issued) ?_
  have same := tryGet_barrier source callback h
  have sound := (hs.writeBarrier source callback).1
  simp only [addAsyncCallback, getObject, wp_bind, wp_writeBarrier, wp_reading, Heap.get, same]
  rcases source_eq_some hsrc with ⟨f, ho, rfl⟩ | ⟨t, ho, rfl⟩
  · have ho' : (h.writeBarrier source callback).tryGet source = _ := same ▸ ho
    simp only [ho]
    split
    · next live =>
      rw [wp_bind]
      refine wp_setObject_stores sound.valid ho' fun u hu => .inl ⟨rfl, ?_, ?_⟩
      · exact AsyncState.outcome_eq_none.mpr live
      · exact (hu.of_same same).alters ho rfl (waitingOn_of ho).symm rfl
    · next done =>
      exact .inr ⟨rfl, mt AsyncState.outcome_eq_none.mp done, sameSources_of_tryGet same⟩
  · have ho' : (h.writeBarrier source callback).tryGet source = _ := same ▸ ho
    simp only [ho]
    split
    · next live =>
      rw [wp_bind]
      refine wp_setObject_stores sound.valid ho' fun u hu => .inl ⟨rfl, ?_, ?_⟩
      · exact AsyncState.outcome_eq_none.mpr live
      · exact (hu.of_same same).alters ho rfl (waitingOn_of ho).symm rfl
    · next done =>
      exact .inr ⟨rfl, mt AsyncState.outcome_eq_none.mp done, sameSources_of_tryGet same⟩

theorem wp_settleAsync (hs : Sound h) (terminal : state ≠ .pending)
    (hsrc : h.source source = some src) :
    wp (settleAsync source state)
      (fun r u => src.outcome = none ∧ r = (src.waiters, src.callbacks) ∧
        Alters h u source ⟨some state, [], []⟩ none)
      (fun u => src.outcome ≠ none ∧ SameSources h u) h := by
  have settled := AsyncState.outcome_of_ne terminal
  simp only [settleAsync, getObject, wp_bind, wp_reading, Heap.get]
  rcases source_eq_some hsrc with ⟨f, ho, rfl⟩ | ⟨t, ho, rfl⟩
  · simp only [ho]
    split
    · next done => exact ⟨mt AsyncState.outcome_eq_none.mp done, sameSources_of_tryGet rfl⟩
    · next live =>
      rw [wp_bind]
      refine wp_setObject_stores hs.valid ho fun u hu => ⟨?_, rfl, ?_⟩
      · exact AsyncState.outcome_eq_none.mpr (not_not.mp live)
      · exact hu.alters ho (by simp [Object.source, settled]) rfl rfl
  · simp only [ho]
    split
    · next done => exact ⟨mt AsyncState.outcome_eq_none.mp done, sameSources_of_tryGet rfl⟩
    · next live =>
      rw [wp_bind]
      refine wp_setObject_stores hs.valid ho fun u hu => ⟨?_, rfl, ?_⟩
      · exact AsyncState.outcome_eq_none.mpr (not_not.mp live)
      · exact hu.alters ho (by simp [Object.source, settled]) rfl rfl

/-- Only a pending source completes, and it completes with the state it is given. -/
theorem wp_completeAsync (hs : Sound h) (issued : ∀ v ∈ state.trace, h.Issued v)
    (terminal : state ≠ .pending) (hsrc : h.source source = some src) :
    wp (completeAsync source state)
      (fun r u => After h u ∧ src.outcome = none ∧ r = (src.waiters, src.callbacks) ∧
        Alters h u source ⟨some state, [], []⟩ none)
      (fun u => After h u ∧ src.outcome ≠ none ∧ SameSources h u) h := by
  refine wp_and (completeAsync_after hs issued) ?_
  cases state with
  | pending => exact absurd rfl terminal
  | finished value | failed value | cancelled value =>
    have same := sameSources_of_tryGet (tryGet_barrier source value h)
    have sound := (hs.writeBarrier source value).1
    simp only [completeAsync, wp_bind, wp_writeBarrier]
    refine wp_mono (wp_settleAsync sound terminal (same.source ▸ hsrc)) ?_ ?_
    · rintro r u ⟨pending, eq, alters⟩
      refine ⟨pending, eq, ?_, ?_, alters.isTask.trans same.isTask⟩
      · rw [alters.source, same.source]
      · rw [alters.waitingOn, same.waitingOn]
    · rintro u ⟨done, kept⟩
      exact ⟨done, same.trans kept⟩

end Mutators

end Heap

end Tonic
