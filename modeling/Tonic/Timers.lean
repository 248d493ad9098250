import Tonic.AsyncRun
import Tonic.Library.Alarm

/-!
## Timers

What the operations on futures and tasks mean for the futures that wait for a tick.
-/

namespace Tonic

open Effect Heap Wakeup

namespace Object

def timer : Object → Option (Nat × Value)
  | asyncFuture f =>
    if f.state = .pending then f.dueTick.map fun tick => (tick, f.timerResult) else none
  | _ => none

end Object

namespace Heap

variable {h t u : Heap} {owner v : Value} {o o' : Object}

theorem asyncFutureTimer_eq (h : Heap) (v : Value) :
    h.asyncFutureTimer v = (h.tryGet v).bind (·.timer) := by
  unfold asyncFutureTimer
  cases h.tryGet v with
  | none => rfl
  | some o => cases o <;> rfl

theorem Stores.timer (stores : Stores h t owner o) :
    t.asyncFutureTimer = Function.update h.asyncFutureTimer owner o.timer := by
  funext v
  rw [asyncFutureTimer_eq, show t.tryGet = _ from stores, Function.update_apply,
    Function.update_apply, asyncFutureTimer_eq]
  split <;> rfl

theorem timer_of_tryGet (same : t.tryGet = h.tryGet) : t.asyncFutureTimer = h.asyncFutureTimer := by
  funext v
  rw [asyncFutureTimer_eq, asyncFutureTimer_eq, same]

theorem Stores.timer_same (stores : Stores h t owner o') (ho : h.tryGet owner = some o)
    (same : o'.timer = o.timer) : t.asyncFutureTimer = h.asyncFutureTimer := by
  rw [stores.timer, Function.update_eq_self_iff, same, asyncFutureTimer_eq, ho]
  rfl

/-- The heap stays sound, and every timer stays as it was. -/
structure Quiet (h t : Heap) : Prop where
  after : After h t
  timer : t.asyncFutureTimer = h.asyncFutureTimer

theorem Quiet.refl (hs : Sound h) : Quiet h h := ⟨hs.after, rfl⟩

theorem Quiet.trans (ht : Quiet h t) (tu : Quiet t u) : Quiet h u :=
  ⟨ht.after.trans tu.after, tu.timer.trans ht.timer⟩

theorem wp_alloc_quiet (hs : Sound h) (ho : ∀ v ∈ o.trace, h.Issued v) (silent : o.timer = none) :
    wp (alloc o) (fun v t => Quiet h t ∧ t.Issued v) (Quiet h) h := by
  refine wp_mono (wp_alloc_stores hs ho) ?_ ?_
  · rintro v t ⟨after, stores, new, issued⟩
    refine ⟨⟨after, ?_⟩, issued⟩
    rw [stores.timer, Function.update_eq_self_iff, silent, asyncFutureTimer_eq,
      tryGet_unissued hs.valid new]
    rfl
  · rintro t ⟨after, rfl⟩
    exact .refl hs

theorem wp_exceptionFromDiagnostic_quiet {types : RuntimeTypes Value} {error : Diagnostic}
    (hs : Sound h) (issued : ∀ v ∈ types.roots, h.Issued v) :
    wp (exceptionFromDiagnostic types error) (fun v t => Quiet h t ∧ t.Issued v) (Quiet h) h := by
  have cls := issued _ (exceptionClass_mem types error.kind)
  have arguments : wp (exceptionArguments types (exceptionClass types error.kind) error.message)
      (fun arguments t => Quiet h t ∧ ∀ v ∈ arguments, t.Issued v) (Quiet h) h := by
    unfold exceptionArguments
    split
    · exact ⟨.refl hs, fun _ mem => by cases mem⟩
    · rw [wp_bind]
      refine wp_mono (wp_alloc_quiet hs (fun _ mem => by cases mem) rfl) ?_ fun _ => id
      rintro v t ⟨quiet, issued⟩
      exact ⟨quiet, fun w mem => List.mem_singleton.mp mem ▸ issued⟩
  simp only [exceptionFromDiagnostic, wp_bind]
  refine wp_mono arguments ?_ fun _ => id
  rintro arguments t ⟨quiet, mem⟩
  have traced := issued_diagnosticException (quiet.after.2.issued cls) mem
  refine wp_mono (wp_alloc_quiet quiet.after.1 traced rfl) ?_ fun u step => quiet.trans step
  exact fun v u step => ⟨quiet.trans step.1, step.2⟩

theorem issued_of_found (hv : Valid h) (ho : h.tryGet v = some o) : h.Issued v := by
  by_contra new
  rw [tryGet_unissued hv new] at ho
  cases ho

section Mutators

variable {task source callback : Value} {state : AsyncState}

theorem quiet_of {α : Type} {m : HeapM α} (after : wp m (fun _ => After h) (After h) h)
    (timer : wp m (fun _ u => u.asyncFutureTimer = h.asyncFutureTimer)
      (fun u => u.asyncFutureTimer = h.asyncFutureTimer) h) :
    wp m (fun _ => Quiet h) (Quiet h) h :=
  wp_mono (wp_and after timer) (fun _ _ both => ⟨both.1, both.2⟩) fun _ both => ⟨both.1, both.2⟩

theorem requestTaskCancel_quiet (hs : Sound h) :
    wp (requestTaskCancel task) (fun _ => Quiet h) (Quiet h) h := by
  apply quiet_of (requestTaskCancel_after hs)
  simp only [requestTaskCancel, wp_bind]
  refine wp_getObject rfl fun o ho => ?_
  split
  · split
    · rfl
    · rw [wp_bind]
      exact wp_setObject_stores hs.valid ho fun u stores => stores.timer_same ho rfl
  · rfl

theorem clearTaskCancelRequest_quiet (hs : Sound h) :
    wp (clearTaskCancelRequest task) (fun _ => Quiet h) (Quiet h) h := by
  apply quiet_of (clearTaskCancelRequest_after hs)
  simp only [clearTaskCancelRequest, wp_bind]
  refine wp_getObject rfl fun o ho => ?_
  split
  · exact wp_setObject_stores hs.valid ho fun u stores => stores.timer_same ho rfl
  · rfl

theorem removeAsyncWaiter_quiet (hs : Sound h) :
    wp (removeAsyncWaiter source task) (fun _ => Quiet h) (Quiet h) h := by
  apply quiet_of (removeAsyncWaiter_after hs)
  simp only [removeAsyncWaiter, wp_bind]
  refine wp_getObject rfl fun o ho => ?_
  split
  · exact wp_setObject_stores hs.valid ho fun u stores => stores.timer_same ho rfl
  · exact wp_setObject_stores hs.valid ho fun u stores => stores.timer_same ho rfl
  · rfl

theorem addAsyncWaiter_quiet (hs : Sound h) (issued : h.Issued task) :
    wp (addAsyncWaiter source task) (fun _ => Quiet h) (Quiet h) h := by
  apply quiet_of (addAsyncWaiter_after hs issued)
  have same := timer_of_tryGet (tryGet_barrier source task h)
  have sound := (hs.writeBarrier source task).1
  simp only [addAsyncWaiter, wp_bind, wp_writeBarrier]
  refine wp_getObject same fun o ho => ?_
  split
  · split
    · exact wp_setObject_stores sound.valid ho fun u stores => (stores.timer_same ho rfl).trans same
    · exact same
  · split
    · exact wp_setObject_stores sound.valid ho fun u stores => (stores.timer_same ho rfl).trans same
    · exact same
  · exact same

theorem addAsyncCallback_quiet (hs : Sound h) (issued : h.Issued callback) :
    wp (addAsyncCallback source callback) (fun _ => Quiet h) (Quiet h) h := by
  apply quiet_of (addAsyncCallback_after hs issued)
  have same := timer_of_tryGet (tryGet_barrier source callback h)
  have sound := (hs.writeBarrier source callback).1
  simp only [addAsyncCallback, wp_bind, wp_writeBarrier]
  refine wp_getObject same fun o ho => ?_
  split
  · split
    · rw [wp_bind]
      exact wp_setObject_stores sound.valid ho fun u stores => (stores.timer_same ho rfl).trans same
    · exact same
  · split
    · rw [wp_bind]
      exact wp_setObject_stores sound.valid ho fun u stores => (stores.timer_same ho rfl).trans same
    · exact same
  · exact same

theorem setTaskWaiting_quiet {waiting : Option Value} (hs : Sound h)
    (issued : ∀ v ∈ waiting.toList, h.Issued v) :
    wp (setTaskWaiting task waiting) (fun _ => Quiet h) (Quiet h) h := by
  apply quiet_of (setTaskWaiting_after hs issued)
  have base : After h (h.writeBarriers task waiting.toList) := hs.writeBarriers
  have same := timer_of_tryGet (h := h) (t := h.writeBarriers task waiting.toList)
    (funext fun _ => tryGet_writeBarriers ..)
  simp only [setTaskWaiting, wp_bind, wp_barrierSome]
  refine wp_getObject same fun o ho => ?_
  split
  · exact wp_setObject_stores base.1.valid ho fun u stores => (stores.timer_same ho rfl).trans same
  · exact same

/-- A completion ends the timer of the future, and no other. -/
theorem wp_completeAsync_timer (hs : Sound h) (issued : ∀ v ∈ state.trace, h.Issued v) :
    wp (completeAsync source state)
      (fun _ u => After h u ∧ u.asyncFutureTimer = Function.update h.asyncFutureTimer source none ∧
        h.Issued source)
      (Quiet h) h := by
  suffices timer : wp (completeAsync source state)
      (fun _ u => u.asyncFutureTimer = Function.update h.asyncFutureTimer source none ∧
        h.Issued source)
      (fun u => u.asyncFutureTimer = h.asyncFutureTimer) h from
    wp_mono (wp_and (completeAsync_after hs issued) timer) (fun _ _ both => both)
      fun _ both => ⟨both.1, both.2⟩
  cases state with
  | pending => rfl
  | finished value | failed value | cancelled value =>
    have same := timer_of_tryGet (tryGet_barrier source value h)
    have sound := (hs.writeBarrier source value).1
    have ended {o' : Object} {u : Heap} (silent : o'.timer = none)
        (stores : Stores (h.writeBarrier source value) u source o') :
        u.asyncFutureTimer = Function.update h.asyncFutureTimer source none := by
      rw [stores.timer, same, silent]
    simp only [completeAsync, settleAsync, wp_bind, wp_writeBarrier]
    refine wp_getObject same fun o ho => ?_
    have own : h.Issued source := by
      rw [tryGet_barrier] at ho
      exact issued_of_found hs.valid ho
    split
    · split
      · exact same
      · rw [wp_bind]
        exact wp_setObject_stores sound.valid ho fun u stores => ⟨ended rfl stores, own⟩
    · split
      · exact same
      · rw [wp_bind]
        exact wp_setObject_stores sound.valid ho fun u stores => ⟨ended rfl stores, own⟩
    · exact same

end Mutators

end Heap

namespace AsyncVm

variable {s t u : AsyncVm} {task source : Value}

/-- The clock and the list of timers, while a loop runs. -/
def clock (s : AsyncVm) : Option (Nat × List Value) :=
  s.eventLoop.map fun loop => (loop.tick, loop.timers)

/-- What the timers rely on. -/
structure Firm (s : AsyncVm) : Prop where
  sound : Sound s.heap
  types : ∀ v ∈ s.types.roots, s.heap.Issued v

/-- No timer is set, and a timer ends only with the completion of its future. -/
structure Ages (s t : AsyncVm) : Prop where
  firm : t.Firm
  issued : ∀ v, s.heap.Issued v → t.heap.Issued v
  timer : ∀ v, t.heap.asyncFutureTimer v = s.heap.asyncFutureTimer v ∨
    t.heap.asyncFutureTimer v = none ∧ ∃ state, .completed v state ∈ t.events
  events : s.events <:+ t.events
  ended : ∀ v state, .completed v state ∈ t.events →
    .completed v state ∈ s.events ∨ t.heap.Issued v ∧ t.heap.asyncFutureTimer v = none

theorem Ages.refl (firm : s.Firm) : Ages s s :=
  ⟨firm, fun _ => id, fun _ => .inl rfl, List.suffix_rfl, fun _ _ => .inl⟩

theorem Ages.trans (st : Ages s t) (tu : Ages t u) : Ages s u where
  firm := tu.firm
  issued v old := tu.issued v (st.issued v old)
  timer v := by
    rcases tu.timer v with same | ended
    · rw [same]
      rcases st.timer v with before | ⟨none, state, mem⟩
      · exact .inl before
      · exact .inr ⟨none, state, tu.events.subset mem⟩
    · exact .inr ended
  events := st.events.trans tu.events
  ended v state mem := by
    rcases tu.ended v state mem with earlier | later
    · rcases st.ended v state earlier with old | ⟨issued, none⟩
      · exact .inl old
      · refine .inr ⟨tu.issued v issued, ?_⟩
        rcases tu.timer v with same | gone
        · rw [same, none]
        · exact gone.1
    · exact .inr later

/-- The loop itself does not matter. -/
theorem Ages.loop (ages : Ages s t) (eventLoop : Option (EventLoopState Value)) :
    Ages s { t with eventLoop } where
  firm := ⟨ages.firm.sound, ages.firm.types⟩
  issued := ages.issued
  timer := ages.timer
  events := ages.events
  ended := ages.ended

theorem Ages.record (firm : s.Firm) {event : LoopEvent}
    (other : (event matches .completed _ _) = false) (eventLoop : Option (EventLoopState Value))
    (nextGeneration : Nat) :
    Ages s { s with events := event :: s.events, eventLoop, nextGeneration } where
  firm := ⟨firm.sound, firm.types⟩
  issued _ := id
  timer _ := .inl rfl
  events := List.suffix_cons event s.events
  ended v state mem := by
    rcases List.mem_cons.mp mem with rfl | old
    · cases other
    · exact .inl old

/-- As long as the loop runs, the clock and the list of timers stay as they are. -/
structure Calm (s t : AsyncVm) : Prop extends Ages s t where
  clock : t.clock = s.clock ∨ t.clock = none

theorem Calm.refl (firm : s.Firm) : Calm s s := ⟨.refl firm, .inl rfl⟩

theorem Calm.trans (st : Calm s t) (tu : Calm t u) : Calm s u := by
  refine ⟨st.toAges.trans tu.toAges, ?_⟩
  rcases tu.clock with same | gone
  · rw [same]
    exact st.clock
  · exact .inr gone

/-- Whether it succeeds or not, the operation is calm. -/
def Calms {α : Type} (m : AsyncM α) (s : AsyncVm) : Prop :=
  wp m (fun _ t => Calm s t) (Calm s) s

theorem calms_bind {α β : Type} {m : AsyncM α} {k : α → AsyncM β} (first : Calms m s)
    (rest : ∀ a t, Calm s t → Calms (k a) t) : Calms (m >>= k) s := by
  unfold Calms
  rw [wp_bind]
  refine wp_mono first (fun a t calm => ?_) fun _ => id
  exact wp_mono (rest a t calm) (fun _ u later => calm.trans later) fun u later => calm.trans later

theorem calms_pure {α : Type} (firm : s.Firm) (a : α) : Calms (pure a) s := .refl firm

theorem calms_reading {α β : Type} {f : AsyncVm → Except Fault α} {k : α → AsyncM β}
    (firm : s.Firm) (rest : ∀ a, f s = .ok a → Calms (k a) s) : Calms (reading f >>= k) s := by
  unfold Calms
  rw [wp_bind]
  exact wp_reading_intro (.refl firm) rest

theorem Calm.heap {heap : Heap} (firm : s.Firm) (quiet : Quiet s.heap heap) :
    Calm s { s with heap } where
  firm := ⟨quiet.after.1, fun v mem => quiet.after.2.issued (firm.types v mem)⟩
  issued _ := quiet.after.2.issued
  clock := .inl rfl
  timer v := .inl (congrFun quiet.timer v)
  events := List.suffix_rfl
  ended _ _ := .inl

theorem calms_onHeap {α : Type} {m : HeapM α} (firm : s.Firm)
    (quiet : wp m (fun _ => Quiet s.heap) (Quiet s.heap) s.heap) : Calms (onHeap m) s := by
  unfold Calms
  rw [wp_onHeap]
  exact wp_mono quiet (fun _ _ quiet => .heap firm quiet) fun _ quiet => .heap firm quiet

theorem calms_updateLoop (firm : s.Firm) {f : EventLoopState Value → EventLoopState Value}
    (same : ∀ loop, (f loop).tick = loop.tick ∧ (f loop).timers = loop.timers) :
    Calms (updateLoop f) s := by
  unfold Calms
  rw [wp_updateLoop]
  refine ⟨(Ages.refl firm).loop _, .inl ?_⟩
  rw [AsyncVm.clock, AsyncVm.clock, Option.map_map]
  congr 1
  funext loop
  rw [Function.comp, (same loop).1, (same loop).2]

theorem calms_record (firm : s.Firm) {event : LoopEvent}
    (other : (event matches .completed _ _) = false) : Calms (record event) s := by
  unfold Calms
  rw [wp_record]
  exact ⟨.record firm other s.eventLoop s.nextGeneration, .inl rfl⟩

theorem calms_scheduleAsyncTask (firm : s.Firm) (task : Value) (wake : AsyncWake Value) :
    Calms (scheduleAsyncTask task wake) s :=
  calms_reading firm fun _ _ => calms_updateLoop firm fun _ => ⟨rfl, rfl⟩

theorem calms_scheduleAsyncCallback (firm : s.Firm) (callback future : Value) :
    Calms (scheduleAsyncCallback callback future) s :=
  calms_reading firm fun _ _ => calms_updateLoop firm fun _ => ⟨rfl, rfl⟩

theorem calms_forM {α : Type} {f : α → AsyncM Unit} (firm : s.Firm)
    (each : ∀ a t, t.Firm → Calms (f a) t) (l : List α) : Calms (l.forM f) s := by
  induction l generalizing s with
  | nil => exact calms_pure firm ()
  | cons a l ih => exact calms_bind (each a s firm) fun _ t calm => ih calm.firm

theorem calms_completeAsyncSource (firm : s.Firm) {state : AsyncState}
    (issued : ∀ v ∈ state.trace, s.heap.Issued v) : Calms (completeAsyncSource source state) s := by
  unfold Calms
  simp only [completeAsyncSource, wp_bind, wp_onHeap, wp_record]
  refine wp_mono (wp_completeAsync_timer firm.sound issued) ?_ fun _ quiet => .heap firm quiet
  rintro ⟨waiters, callbacks⟩ heap ⟨after, timer, own⟩
  have calm : Calm s { s with heap, events := .completed source state :: s.events } := by
    refine ⟨⟨⟨after.1, fun v mem => after.2.issued (firm.types v mem)⟩, fun _ => after.2.issued,
      fun v => ?_, List.suffix_cons _ s.events, fun v state mem => ?_⟩, .inl rfl⟩
    · change heap.asyncFutureTimer v = _ ∨ heap.asyncFutureTimer v = none ∧ _
      rw [timer, Function.update_apply]
      split
      · next here => exact .inr ⟨rfl, state, by rw [here]; exact List.mem_cons_self⟩
      · exact .inl rfl
    · rcases List.mem_cons.mp mem with here | old
      · cases here
        refine .inr ⟨after.2.issued own, ?_⟩
        change heap.asyncFutureTimer source = none
        rw [timer, Function.update_self]
      · exact .inl old
  have rest : Calms (callbacks.forM (scheduleAsyncCallback · source) >>= fun _ =>
      waiters.forM (scheduleAsyncTask · state.wake))
      { s with heap, events := .completed source state :: s.events } :=
    calms_bind (calms_forM calm.firm (fun a t firm => calms_scheduleAsyncCallback firm a source)
      callbacks) fun _ t later =>
        calms_forM later.firm (fun a t firm => calms_scheduleAsyncTask firm a state.wake) waiters
  unfold Calms at rest
  rw [wp_bind] at rest
  exact wp_mono rest (fun _ t later => wp_mono later (fun _ u path => calm.trans path)
    fun u path => calm.trans path) fun t later => calm.trans later

/-! ### The builtins -/

theorem calms_get {α : Type} {k : AsyncVm → AsyncM α} (rest : Calms (k s) s) :
    Calms (get >>= k) s := by
  unfold Calms
  rw [wp_bind, wp_get]
  exact rest

/-- A calm operation whose result was handed out. -/
theorem calms_issued {β : Type} {m : AsyncM Value} {k : Value → AsyncM β}
    (first : wp m (fun v t => Calm s t ∧ t.heap.Issued v) (Calm s) s)
    (rest : ∀ v t, Calm s t → t.heap.Issued v → Calms (k v) t) : Calms (m >>= k) s := by
  unfold Calms
  rw [wp_bind]
  refine wp_mono first (fun v t made => ?_) fun _ => id
  exact wp_mono (rest v t made.1 made.2) (fun _ u later => made.1.trans later)
    fun u later => made.1.trans later

theorem wp_alloc_calm {o : Object} (firm : s.Firm) (traced : ∀ v ∈ o.trace, s.heap.Issued v)
    (silent : o.timer = none) :
    wp (onHeap (alloc o)) (fun v t => Calm s t ∧ t.heap.Issued v) (Calm s) s := by
  rw [wp_onHeap]
  exact wp_mono (wp_alloc_quiet firm.sound traced silent)
    (fun _ _ made => ⟨.heap firm made.1, made.2⟩) fun _ quiet => .heap firm quiet

theorem wp_diagnostic_calm {error : Diagnostic} (firm : s.Firm) :
    wp (onHeap (exceptionFromDiagnostic s.types error))
      (fun v t => Calm s t ∧ t.heap.Issued v) (Calm s) s := by
  rw [wp_onHeap]
  exact wp_mono (wp_exceptionFromDiagnostic_quiet firm.sound firm.types)
    (fun _ _ made => ⟨.heap firm made.1, made.2⟩) fun _ quiet => .heap firm quiet

theorem wp_cancelledError_calm (firm : s.Firm) :
    wp cancelledError (fun v t => Calm s t ∧ t.heap.Issued v) (Calm s) s := by
  rw [cancelledError, wp_bind, wp_get]
  exact wp_diagnostic_calm firm

theorem issued_of_coroutine (firm : s.Firm) {v : Value} (coroutine : s.heap.isCoroutine v = true) :
    s.heap.Issued v := by
  by_contra new
  rw [isCoroutine, tryGet_unissued firm.sound.valid new] at coroutine
  cases coroutine

theorem calms_createTask (firm : s.Firm) (coroutine : Value) :
    Calms (asyncioCreateTask coroutine) s := by
  refine calms_reading firm fun _ _ => calms_get ?_
  split
  · next isCoroutine =>
    refine calms_issued (wp_alloc_calm firm ?_ rfl) fun task t calm _ => ?_
    · intro v mem
      simp only [Object.trace, AsyncState.trace, Option.toList_none, List.append_nil,
        List.mem_cons, List.not_mem_nil, or_false] at mem
      rcases mem with rfl | rfl
      · exact firm.types _ (by simp [RuntimeTypes.roots])
      · exact issued_of_coroutine firm isCoroutine
    · refine calms_bind (calms_updateLoop calm.firm fun _ => ⟨rfl, rfl⟩) fun _ u calm => ?_
      exact calms_bind (calms_record calm.firm rfl) fun _ w calm => calms_pure calm.firm task
  · exact .refl firm

theorem calms_futureNew (firm : s.Firm) : Calms asyncioFutureNew s := by
  refine calms_reading firm fun _ _ => calms_get ?_
  refine wp_mono (wp_alloc_calm firm ?_ rfl) (fun _ _ made => made.1) fun _ => id
  intro v mem
  simp only [Object.trace, AsyncState.trace, List.append_nil, List.mem_cons, List.not_mem_nil,
    or_false] at mem
  rcases mem with rfl | rfl
  · exact firm.types _ (by simp [RuntimeTypes.roots])
  · trivial

theorem calms_futureCancel (firm : s.Firm) (source : Value) :
    Calms (asyncioFutureCancel source) s := by
  refine calms_reading firm fun state _ => calms_reading firm fun _ _ => ?_
  split
  · refine calms_issued (wp_cancelledError_calm firm) fun exception t calm issued => ?_
    refine calms_bind (calms_completeAsyncSource calm.firm ?_) fun _ u calm =>
      calms_pure calm.firm _
    intro v mem
    rw [AsyncState.trace, List.mem_singleton] at mem
    exact mem ▸ issued
  · exact calms_pure firm _

theorem calms_leaveSource (firm : s.Firm) (task : Value) (waitingOn : Option Value) :
    Calms (leaveSource task waitingOn) s := by
  cases waitingOn with
  | none => exact calms_pure firm ()
  | some source => exact calms_onHeap firm (removeAsyncWaiter_quiet firm.sound)

theorem calms_taskCancel (firm : s.Firm) (task : Value) : Calms (asyncioTaskCancel task) s := by
  refine calms_reading firm fun _ _ => calms_reading firm fun _ _ => ?_
  refine calms_bind (calms_onHeap firm (requestTaskCancel_quiet firm.sound)) fun found t calm => ?_
  obtain ⟨cancelled, waitingOn⟩ := found
  dsimp only
  split
  · refine calms_issued (wp_cancelledError_calm calm.firm) fun exception u calm _ => ?_
    refine calms_bind (calms_leaveSource calm.firm task waitingOn) fun _ u calm => ?_
    refine calms_bind ?_ fun _ u calm => calms_pure calm.firm _
    refine calms_reading calm.firm fun _ _ => ?_
    exact calms_bind (calms_updateLoop calm.firm fun _ => ⟨rfl, rfl⟩) fun _ u calm =>
      calms_record calm.firm rfl
  · exact calms_pure calm.firm _

theorem calms_setResult (firm : s.Firm) {value : Value} (issued : s.heap.Issued value) :
    Calms (asyncioFutureSetResult source value) s := by
  refine calms_reading firm fun _ _ => ?_
  refine calms_bind (calms_completeAsyncSource firm ?_) fun _ t calm => calms_pure calm.firm _
  intro v mem
  rw [AsyncState.trace, List.mem_singleton] at mem
  exact mem ▸ issued

theorem calms_setException (firm : s.Firm) {exception : Value} (issued : s.heap.Issued exception) :
    Calms (asyncioFutureSetException source exception) s := by
  refine calms_reading firm fun _ _ => ?_
  refine calms_bind (calms_completeAsyncSource firm ?_) fun _ t calm => calms_pure calm.firm _
  intro v mem
  rw [AsyncState.trace, List.mem_singleton] at mem
  exact mem ▸ issued

theorem calms_addDoneCallback (firm : s.Firm) {callback : Value}
    (issued : s.heap.Issued callback) : Calms (asyncioAddDoneCallback source callback) s := by
  refine calms_reading firm fun _ _ => ?_
  refine calms_bind (calms_onHeap firm (addAsyncCallback_quiet firm.sound issued))
    fun kept t calm => ?_
  split
  · exact calms_bind (calms_record calm.firm rfl) fun _ u calm => calms_pure calm.firm _
  · refine calms_bind (calms_scheduleAsyncCallback calm.firm callback source) fun _ u calm => ?_
    exact calms_bind (calms_record calm.firm rfl) fun _ u calm => calms_pure calm.firm _

/-! ### The steps of a task -/

theorem Calm.closing (calm : Calm s t) : Calm s { t with eventLoop := none } :=
  ⟨calm.toAges.loop none, .inr rfl⟩

theorem calms_closing {α : Type} {m : AsyncM α} (calms : Calms m s) : Calms (closing m) s := by
  unfold Calms
  rw [wp_closing]
  exact wp_mono calms (fun _ _ calm => calm) fun _ calm => calm.closing

theorem calms_clearCancelled (firm : s.Firm) (task : Value) (wake : AsyncWake Value) :
    Calms (clearCancelled task wake) s := by
  cases wake with
  | value v => exact calms_pure firm ()
  | exception e =>
    refine calms_reading firm fun cancelled _ => ?_
    split
    · exact calms_onHeap firm (clearTaskCancelRequest_quiet firm.sound)
    · exact calms_pure firm ()

theorem issued_of_taskCoroutine (firm : s.Firm) {coroutine : Value}
    (found : s.heap.asyncTaskCoroutine task = some coroutine) : s.heap.Issued task := by
  by_contra new
  rw [asyncTaskCoroutine, tryGet_unissued firm.sound.valid new] at found
  cases found

/-- The task whose step begins was handed out. -/
theorem calms_beginStep (firm : s.Firm) (task : Value) (wake : AsyncWake Value) :
    wp (beginStep task wake) (fun _ t => Calm s t ∧ t.heap.Issued task) (Calm s) s := by
  rw [beginStep, wp_bind]
  refine wp_reading_intro (.refl firm) fun coroutine found => ?_
  have issued : s.heap.Issued task := by
    split at found
    · next eq => exact issued_of_taskCoroutine firm eq
    · cases found
  have none_issued : ∀ v ∈ (none : Option Value).toList, s.heap.Issued v := fun _ mem => by cases mem
  have quiet : wp (setTaskWaiting task none) (fun _ => Quiet s.heap) (Quiet s.heap) s.heap :=
    setTaskWaiting_quiet firm.sound none_issued
  have rest := calms_bind (calms_onHeap firm quiet) fun _ t calm =>
    calms_bind (calms_clearCancelled calm.firm task wake) fun _ u calm =>
      calms_pure calm.firm coroutine
  exact wp_mono rest (fun _ t calm => ⟨calm, calm.issued task issued⟩) fun _ => id

theorem calms_suspendTask (firm : s.Firm) {yielded : Value} (own : s.heap.Issued task)
    (issued : s.heap.Issued yielded) : Calms (suspendTask task yielded) s := by
  unfold suspendTask
  split
  · exact calms_bind (calms_scheduleAsyncTask firm task _) fun _ t calm =>
      calms_record calm.firm rfl
  · apply calms_get
    split
    · refine calms_bind (calms_onHeap firm (addAsyncWaiter_quiet firm.sound own)) fun _ t calm => ?_
      have waits : ∀ v ∈ (some yielded).toList, t.heap.Issued v := fun v mem =>
        List.mem_singleton.mp mem ▸ calm.issued yielded issued
      refine calms_bind (calms_onHeap calm.firm (setTaskWaiting_quiet calm.firm.sound waits))
        fun _ u calm => calms_record calm.firm rfl
    · exact calms_bind (calms_scheduleAsyncTask firm task _) fun _ t calm =>
        calms_record calm.firm rfl
    · apply calms_get
      refine calms_issued (wp_diagnostic_calm firm) fun exception t calm made => ?_
      apply calms_completeAsyncSource calm.firm
      intro v mem
      rw [AsyncState.trace, List.mem_singleton] at mem
      exact mem ▸ made

theorem wp_stepException_calm (firm : s.Firm) {error : Diagnostic} {exception : Option Value}
    (issued : ∀ v ∈ exception, s.heap.Issued v) :
    wp (stepException error exception) (fun v t => Calm s t ∧ t.heap.Issued v) (Calm s) s := by
  cases exception with
  | some v => exact ⟨.refl firm, issued v rfl⟩
  | none =>
    rw [stepException, wp_bind, wp_get]
    exact wp_diagnostic_calm firm

theorem calms_endStep (firm : s.Firm) {coroutine : Value} {result : Except Diagnostic Value}
    {exception : Option Value} (own : s.heap.Issued task)
    (yields : ∀ v ∈ result.toOption, s.heap.Issued v)
    (raised : ∀ v ∈ exception, s.heap.Issued v) :
    Calms (endStep task coroutine result exception) s := by
  cases result with
  | ok yielded => exact calms_suspendTask firm own (yields yielded rfl)
  | error error =>
    unfold endStep
    dsimp only
    split
    · apply calms_get
      apply calms_completeAsyncSource firm
      intro v mem
      rw [AsyncState.trace, List.mem_singleton] at mem
      exact mem ▸ issued_result firm.sound exception coroutine
    · refine calms_issued (wp_stepException_calm firm raised) fun v t calm made => ?_
      refine calms_reading calm.firm fun cancelled _ => ?_
      apply calms_completeAsyncSource calm.firm
      intro w mem
      split at mem
      · rw [AsyncState.trace, List.mem_singleton] at mem
        exact mem ▸ made
      · rw [AsyncState.trace, List.mem_singleton] at mem
        exact mem ▸ made

theorem calms_finishStep (firm : s.Firm) {coroutine : Value} {result : Except Diagnostic Value}
    {exception : Option Value} (own : s.heap.Issued task)
    (yields : ∀ v ∈ result.toOption, s.heap.Issued v)
    (raised : ∀ v ∈ exception, s.heap.Issued v) :
    Calms (finishStep task coroutine result exception) s :=
  calms_closing (calms_bind (calms_endStep firm own yields raised) fun _ _ calm =>
    calms_updateLoop calm.firm fun _ => ⟨rfl, rfl⟩)

theorem calms_takeReady (firm : s.Firm) (ready : EventLoopReady Value) :
    Calms (takeReady ready) s := by
  cases ready with
  | task task wake =>
    apply calms_get
    split
    · exact calms_bind (calms_updateLoop firm fun _ => ⟨rfl, rfl⟩) fun _ t calm =>
        calms_pure calm.firm _
    · exact calms_pure firm _
  | callback callback future =>
    exact calms_bind (calms_record firm rfl) fun _ t calm => calms_pure calm.firm _

/-! ### Maturing -/

/-- The futures among some timers that are due, with their results. -/
def dueOf (h : Heap) (tick : Nat) (timers : List Value) : List (Value × Value) :=
  timers.filterMap fun future =>
    (h.asyncFutureTimer future).bind fun timer =>
      if timer.1 ≤ tick then some (future, timer.2) else none

/-- The futures among some timers that are due later. -/
def laterOf (h : Heap) (tick : Nat) (timers : List Value) : List Value :=
  timers.filter fun future => (h.asyncFutureTimer future).any fun timer => tick < timer.1

theorem dueOf_cons (h : Heap) (tick : Nat) (future : Value) (timers : List Value) :
    dueOf h tick (future :: timers) = dueOf h tick [future] ++ dueOf h tick timers := by
  rw [dueOf, dueOf, dueOf, ← List.filterMap_append]
  rfl

theorem laterOf_cons (h : Heap) (tick : Nat) (future : Value) (timers : List Value) :
    laterOf h tick (future :: timers) = laterOf h tick [future] ++ laterOf h tick timers := by
  rw [laterOf, laterOf, laterOf, ← List.filter_append]
  rfl

theorem of_same_timers {h h' : Heap} {timers : List Value} (tick : Nat)
    (same : ∀ v ∈ timers, h'.asyncFutureTimer v = h.asyncFutureTimer v) :
    dueOf h' tick timers = dueOf h tick timers ∧
      laterOf h' tick timers = laterOf h tick timers := by
  constructor
  · exact List.filterMap_congr fun v mem => by rw [same v mem]
  · exact List.filter_congr fun v mem => by rw [same v mem]

/-- Some timers fire one after the other, and nothing else happens to the timers. -/
structure Fires (s t : AsyncVm) (fired : List (Value × Value)) : Prop where
  firm : t.Firm
  issued : ∀ v, s.heap.Issued v → t.heap.Issued v
  loop : ∃ entries, t.eventLoop = s.eventLoop.map fun loop =>
    { loop with ready := loop.ready ++ entries }
  timer : ∀ v, t.heap.asyncFutureTimer v =
    if v ∈ fired.map (·.1) then none else s.heap.asyncFutureTimer v
  events : t.events = (fired.map fun f => .completed f.1 (.finished f.2)).reverse ++ s.events

theorem Fires.refl (firm : s.Firm) : Fires s s [] where
  firm := firm
  issued _ := id
  loop := ⟨[], by simp⟩
  timer _ := rfl
  events := rfl

theorem Fires.trans {first second : List (Value × Value)} (st : Fires s t first)
    (tu : Fires t u second) : Fires s u (first ++ second) where
  firm := tu.firm
  issued v old := tu.issued v (st.issued v old)
  loop := by
    obtain ⟨a, ha⟩ := st.loop
    obtain ⟨b, hb⟩ := tu.loop
    refine ⟨a ++ b, ?_⟩
    rw [hb, ha, Option.map_map]
    congr 1
    funext loop
    rw [Function.comp, List.append_assoc]
  timer v := by
    rw [tu.timer, st.timer, List.map_append]
    by_cases later : v ∈ second.map (·.1)
    · rw [if_pos later, if_pos (List.mem_append_right _ later)]
    · rw [if_neg later]
      by_cases earlier : v ∈ first.map (·.1)
      · rw [if_pos earlier, if_pos (List.mem_append_left _ earlier)]
      · rw [if_neg earlier, if_neg (by simp only [List.mem_append, earlier, later, or_self,
          not_false_eq_true])]
  events := by
    rw [tu.events, st.events, List.map_append, List.reverse_append, List.append_assoc]

/-- A future that waits for a tick is pending, and its result was handed out. -/
theorem of_timer (hs : Sound s.heap) {future result : Value} {due : Nat}
    (timer : s.heap.asyncFutureTimer future = some (due, result)) :
    ∃ src, s.heap.source future = some src ∧ src.outcome = none ∧ s.heap.Issued result := by
  unfold asyncFutureTimer at timer
  split at timer
  · next f ho =>
    split at timer
    · next pending =>
      obtain ⟨tick, -, eq⟩ := Option.map_eq_some_iff.mp timer
      obtain rfl : f.timerResult = result := congrArg Prod.snd eq
      refine ⟨_, source_of ho, ?_, hs.valid.issued_trace ho (by simp [Object.trace])⟩
      rw [pending]
      rfl
    · cases timer
  · cases timer

theorem wp_fire (firm : s.Firm) (running : s.eventLoop.isSome = true) {future result : Value}
    {due : Nat} (timer : s.heap.asyncFutureTimer future = some (due, result)) :
    wp (completeAsyncSource future (.finished result))
      (fun _ t => Fires s t [(future, result)]) (fun _ => False) s := by
  obtain ⟨src, hsrc, pending, issued⟩ := of_timer firm.sound timer
  have traced : ∀ v ∈ (AsyncState.finished result).trace, s.heap.Issued v := by
    intro v mem
    rw [AsyncState.trace, List.mem_singleton] at mem
    exact mem ▸ issued
  have terminal : AsyncState.finished result ≠ .pending := by
    intro eq
    cases eq
  have settles := wp_and (wp_completeAsync firm.sound traced terminal hsrc)
    (wp_completeAsync_timer firm.sound traced)
  simp only [completeAsyncSource, wp_bind, wp_onHeap, wp_record]
  refine wp_mono settles ?_ fun heap failed => failed.1.2.1 pending
  rintro _ heap ⟨⟨after, -, rfl, -⟩, -, timers, -⟩
  have on : ∀ entries, (({ s with heap, events := .completed future (.finished result) :: s.events }
      : AsyncVm).enqueue entries).eventLoop ≠ none := by
    intro entries off
    rw [eventLoop_enqueue] at off
    rw [show s.eventLoop = none from off] at running
    cases running
  refine wp_scheduleAll (.callback · future) wp_scheduleAsyncCallback
    (wp_scheduleAll (.task · (AsyncState.finished result).wake) wp_scheduleAsyncTask ?_ ?_) ?_
  · rw [enqueue_append]
    refine ⟨⟨after.1, fun v mem => after.2.issued (firm.types v mem)⟩, fun _ => after.2.issued,
      ⟨_, rfl⟩, fun v => ?_, rfl⟩
    change heap.asyncFutureTimer v = _
    rw [timers, Function.update_apply]
    simp only [List.map_cons, List.map_nil, List.mem_singleton]
  · exact on _
  · intro off
    rw [show s.eventLoop = none from off] at running
    cases running

theorem wp_matureAsyncTimer (firm : s.Firm) (running : s.eventLoop.isSome = true) (tick : Nat)
    (future : Value) :
    wp (matureAsyncTimer tick future)
      (fun kept t => Fires s t (dueOf s.heap tick [future]) ∧ kept = laterOf s.heap tick [future])
      (fun _ => False) s := by
  rw [matureAsyncTimer, wp_bind, wp_get]
  cases timer : s.heap.asyncFutureTimer future with
  | none =>
    have due : dueOf s.heap tick [future] = [] := by simp [dueOf, timer]
    have later : laterOf s.heap tick [future] = [] := by simp [laterOf, timer]
    rw [due, later]
    simp only [timer]
    exact ⟨.refl firm, rfl⟩
  | some timer' =>
    obtain ⟨due, result⟩ := timer'
    simp only [timer]
    split
    · next reached =>
      have fires : dueOf s.heap tick [future] = [(future, result)] := by
        simp [dueOf, timer, reached]
      have later : laterOf s.heap tick [future] = [] := by
        simp [laterOf, timer, reached]
      rw [fires, later, wp_bind]
      exact wp_mono (wp_fire firm running timer) (fun _ t fired => ⟨fired, rfl⟩) fun _ => id
    · next early =>
      have fires : dueOf s.heap tick [future] = [] := by simp [dueOf, timer, early]
      have later : laterOf s.heap tick [future] = [future] := by
        simp [laterOf, timer, Nat.lt_of_not_le early]
      rw [fires, later]
      exact ⟨.refl firm, rfl⟩

theorem Fires.running {fired : List (Value × Value)} (fires : Fires s t fired)
    (running : s.eventLoop.isSome = true) : t.eventLoop.isSome = true := by
  obtain ⟨entries, eq⟩ := fires.loop
  rw [eq, Option.isSome_map, running]

theorem mem_dueOf {h : Heap} {tick : Nat} {timers : List Value} {v : Value}
    (mem : v ∈ (dueOf h tick timers).map (·.1)) : v ∈ timers := by
  obtain ⟨f, fires, rfl⟩ := List.mem_map.mp mem
  obtain ⟨future, own, eq⟩ := List.mem_filterMap.mp fires
  obtain ⟨timer, -, eq⟩ := Option.bind_eq_some_iff.mp eq
  split at eq
  · cases eq
    exact own
  · cases eq

theorem wp_matureTimers (firm : s.Firm) (running : s.eventLoop.isSome = true) (tick : Nat)
    {timers : List Value} (once : timers.Nodup) :
    wp (matureTimers tick timers)
      (fun kept t => Fires s t (dueOf s.heap tick timers) ∧ kept = laterOf s.heap tick timers)
      (fun _ => False) s := by
  induction timers generalizing s with
  | nil => exact ⟨.refl firm, rfl⟩
  | cons future timers ih =>
    obtain ⟨new, once⟩ := List.nodup_cons.mp once
    rw [matureTimers, wp_bind]
    refine wp_mono (wp_matureAsyncTimer firm running tick future) ?_ fun _ => id
    rintro kept t ⟨first, rfl⟩
    have same : ∀ v ∈ timers, t.heap.asyncFutureTimer v = s.heap.asyncFutureTimer v := by
      intro v mem
      rw [first.timer, if_neg]
      intro own
      rw [List.mem_singleton.mp (mem_dueOf own)] at mem
      exact new mem
    obtain ⟨due, later⟩ := of_same_timers tick same
    rw [wp_bind]
    refine wp_mono (ih first.firm (first.running running) once) ?_ fun _ => id
    rintro kept u ⟨rest, rfl⟩
    rw [wp_pure, dueOf_cons s.heap tick future timers, laterOf_cons s.heap tick future timers,
      ← due, ← later]
    exact ⟨first.trans rest, rfl⟩

/-- What is due fires, and what is due later stays. -/
structure Matures (loop : EventLoopState Value) (s t : AsyncVm) : Prop extends Ages s t where
  running : ∃ entries, t.eventLoop = some { loop with
    ready := loop.ready ++ entries, timers := laterOf s.heap loop.tick loop.timers }
  same : ∀ v ∉ (dueOf s.heap loop.tick loop.timers).map (·.1),
    t.heap.asyncFutureTimer v = s.heap.asyncFutureTimer v
  fired : t.events = ((dueOf s.heap loop.tick loop.timers).map fun f =>
    .completed f.1 (.finished f.2)).reverse ++ s.events

theorem issued_of_due {tick : Nat} {timers : List Value} {v : Value} (firm : s.Firm)
    (mem : v ∈ (dueOf s.heap tick timers).map (·.1)) : s.heap.Issued v := by
  obtain ⟨f, fires, rfl⟩ := List.mem_map.mp mem
  obtain ⟨future, own, eq⟩ := List.mem_filterMap.mp fires
  obtain ⟨timer, set, eq⟩ := Option.bind_eq_some_iff.mp eq
  split at eq
  · cases eq
    rw [asyncFutureTimer_eq] at set
    obtain ⟨o, ho, -⟩ := Option.bind_eq_some_iff.mp set
    exact issued_of_found firm.sound.valid ho
  · cases eq

theorem Fires.ages {fired : List (Value × Value)} (fires : Fires s t fired)
    (own : ∀ v ∈ fired.map (·.1), s.heap.Issued v) : Ages s t where
  firm := fires.firm
  issued := fires.issued
  timer v := by
    rw [fires.timer, fires.events]
    by_cases fired : v ∈ fired.map (·.1)
    · obtain ⟨f, mem, rfl⟩ := List.mem_map.mp fired
      rw [if_pos fired]
      refine .inr ⟨rfl, .finished f.2, List.mem_append_left _ (List.mem_reverse.mpr ?_)⟩
      exact List.mem_map.mpr ⟨f, mem, rfl⟩
    · rw [if_neg fired]
      exact .inl rfl
  events := by
    rw [fires.events]
    exact List.suffix_append _ _
  ended v state mem := by
    rw [fires.events] at mem
    rcases List.mem_append.mp mem with new | old
    · obtain ⟨f, own', eq⟩ := List.mem_map.mp (List.mem_reverse.mp new)
      cases eq
      have here : f.1 ∈ fired.map (·.1) := List.mem_map_of_mem own'
      rw [fires.timer, if_pos here]
      exact .inr ⟨fires.issued _ (own _ here), rfl⟩
    · exact .inl old

theorem wp_matureAsyncTimers {loop : EventLoopState Value} (firm : s.Firm)
    (on : s.eventLoop = some loop) (once : loop.timers.Nodup) :
    wp matureAsyncTimers (fun _ t => Matures loop s t) (fun _ => False) s := by
  simp only [matureAsyncTimers, wp_bind, wp_runningLoop, on, wp_updateLoop]
  let taken : AsyncVm := { s with eventLoop := some { loop with timers := [] } }
  have firm' : taken.Firm := ⟨firm.sound, firm.types⟩
  refine wp_mono (wp_matureTimers firm' rfl loop.tick once) ?_ fun _ => id
  rintro kept t ⟨fires, rfl⟩
  have ages : Ages taken t := fires.ages fun v => issued_of_due firm'
  obtain ⟨entries, running⟩ := fires.loop
  refine ⟨?_, ⟨entries, ?_⟩, fun v other => ?_, fires.events⟩
  · have ages : Ages s t := ⟨ages.firm, ages.issued, ages.timer, ages.events, ages.ended⟩
    exact ages.loop _
  · rw [running]
    rfl
  · exact (fires.timer v).trans (if_neg other)

end AsyncVm

end Tonic
