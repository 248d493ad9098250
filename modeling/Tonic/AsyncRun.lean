import Tonic.EventLoopSound
import Tonic.RootsComplete

/-!
## Runs of the event loop

Between two turns a task or a callback runs the program, which calls the builtins and changes the
heap in any order. The rest of the interpreter neither makes nor alters a future or a task.
-/

namespace Tonic

open Effect Heap Wakeup

/-! ### The machine -/

/-- Who runs. -/
inductive Control where
  | program
  | loop
  | task (task coroutine : Value)
  | callback
deriving DecidableEq

structure AsyncRun where
  vm : AsyncVm
  control : Control

inductive AsyncAct where
  | call (builtin : AsyncCall)
  | run (coroutine : Value)
  /-- Anything else the interpreter does to the heap, collections included. -/
  | elsewhere (heap : Heap)
  | turn
  | callbackDone (succeeded : Bool)
  | taskDone (result : Except Diagnostic Value) (exception : Option Value)

def AsyncCall.arguments : AsyncCall → List Value
  | createTask v | sleep _ v | futureCancel v | taskCancel v => [v]
  | futureNew => []
  | setResult source v | setException source v | addDoneCallback source v => [source, v]

namespace AsyncVm

/-- What the loop holds on to. -/
def held (s : AsyncVm) : List Value := s.eventLoop.elim [] (·.trace)

def advance (s : AsyncVm) : AsyncRun :=
  match iterate s with
  | .ok (.step task wake) t =>
    match closing (beginStep task wake) t with
    | .ok coroutine u => ⟨u, .task task coroutine⟩
    | .error _ u => ⟨u, .program⟩
  | .ok (.returned _) t | .ok (.raised _) t | .error _ t => ⟨t, .program⟩
  | .ok .again t => ⟨t, .loop⟩
  | .ok (.call _ _) t => ⟨t, .callback⟩

end AsyncVm

/-- A change of the heap by the rest of the interpreter: futures and tasks stay as they are, and
only those that the loop does not lead to may go away. -/
structure Elsewhere (roots : List Value) (h t : Heap) : Prop where
  sound : Sound t
  issued : ∀ v, h.Issued v → t.Issued v
  kept : ∀ v, h.Reachable roots v →
    t.source v = h.source v ∧ t.waitingOn v = h.waitingOn v ∧ t.isTask v = h.isTask v
  rest : ∀ {v src}, t.source v = some src → h.source v = some src ∧ t.waitingOn v = h.waitingOn v

namespace AsyncRun

def after (s : AsyncRun) : AsyncAct → AsyncRun
  | .call builtin => { s with vm := final builtin.run s.vm }
  | .run coroutine =>
    match openEventLoop coroutine s.vm with
    | .ok _ t => ⟨t, .loop⟩
    | .error _ t => { s with vm := t }
  | .elsewhere heap => { s with vm := { s.vm with heap } }
  | .turn => s.vm.advance
  -- the error of a callback is dropped
  | .callbackDone _ => { s with control := .loop }
  | .taskDone result exception =>
    match s.control with
    | .task task coroutine =>
      match finishStep task coroutine result exception s.vm with
      | .ok _ t => ⟨t, .loop⟩
      | .error _ t => ⟨t, .program⟩
    | _ => s

/-- What can happen in a state. -/
def Enabled (s : AsyncRun) : AsyncAct → Prop
  | .call builtin => s.control ≠ .loop ∧ ∀ v ∈ builtin.arguments, s.vm.heap.Issued v
  | .run _ => s.control ≠ .loop
  | .elsewhere heap => Elsewhere s.vm.held s.vm.heap heap
  | .turn => s.control = .loop
  | .callbackDone _ => s.control = .callback
  | .taskDone result exception =>
    (∃ task coroutine, s.control = .task task coroutine) ∧
      (∀ v ∈ result.toOption, s.vm.heap.Issued v) ∧ ∀ v ∈ exception, s.vm.heap.Issued v

/-- A task that suspends has not been cancelled during its step, and the cancellation of a task
that waits finds room for the exception. -/
def Careful (s : AsyncRun) : AsyncAct → Prop
  | .call (.taskCancel task) => s.vm.Waits task → 2 ≤ s.vm.heap.room
  | .taskDone (.ok yielded) _ => ∀ task coroutine, s.control = .task task coroutine →
      s.vm.Suspends yielded → task ∉ s.vm.board.queued
  | _ => True

/-- No loop has run yet. -/
structure Start (s : AsyncRun) : Prop where
  control : s.control = .program
  sound : Sound s.vm.heap
  sources : ∀ v, s.vm.heap.source v = none
  stopped : s.vm.eventLoop = none
  types : ∀ v ∈ s.vm.types.roots, s.vm.heap.Issued v
  events : s.vm.events = []

inductive Reachable (allowed : AsyncRun → AsyncAct → Prop) : AsyncRun → Prop where
  | start {s : AsyncRun} : s.Start → Reachable allowed s
  | next {s : AsyncRun} (act : AsyncAct) :
    Reachable allowed s → s.Enabled act → allowed s act → Reachable allowed (s.after act)

end AsyncRun

/-! ### The rest of the interpreter -/

namespace Elsewhere

variable {h : Heap} {roots : List Value}

theorem of_same {t : Heap} (after : After h t) (same : SameSources h t) : Elsewhere roots h t where
  sound := after.1
  issued _ hv := after.2.issued hv
  kept _ _ := by rw [same.source, same.waitingOn, same.isTask]; exact ⟨rfl, rfl, rfl⟩
  rest hv := by rw [same.waitingOn]; exact ⟨same.source ▸ hv, rfl⟩

/-- An object is made that is neither a future nor a task. -/
theorem alloc {o : Object} (hs : Sound h) (ho : ∀ v ∈ o.trace, h.Issued v)
    (source : o.source = none) (waits : o.waitingOn = none) (task : o.isTask = false) :
    Elsewhere roots h (final (Tonic.alloc o) h) :=
  wp_final (wp_mono (wp_alloc_other hs ho source waits task) (fun _ _ ht => of_same ht.1 ht.2.1)
    fun _ ht => of_same ht.1 ht.2.1)

theorem pruneDependents_source (p : Value → Bool) (o : Object) :
    (pruneDependents p o).source = o.source ∧ (pruneDependents p o).waitingOn = o.waitingOn ∧
      (pruneDependents p o).isTask = o.isTask := by
  cases o <;> exact ⟨rfl, rfl, rfl⟩

theorem kept_source {t : Heap} {v : Value} (kept : h.Kept t v) :
    t.source v = h.source v ∧ t.waitingOn v = h.waitingOn v ∧ t.isTask v = h.isTask v := by
  simp only [Heap.source, Heap.waitingOn, Heap.isTask, Heap.tryGet, kept.entry]
  cases h.entry v with
  | none => exact ⟨rfl, rfl, rfl⟩
  | some e => exact pruneDependents_source _ e.object

/-- A collection whose roots include all that the loop holds. -/
theorem collect {youngOnly : Bool} {all : List Value} (hs : Sound h) (sub : roots ⊆ all) :
    Elsewhere roots h (final (collectWith youngOnly all) h) := by
  refine wp_final (wp_mono (wp_collectWith hs.valid) ?_ fun t failed => ?_)
  · rintro - t collected
    obtain ⟨sound, issued⟩ := collected_sound hs.valid collected
    obtain ⟨marked, t₁, traced, rfl⟩ := collected
    have valid := traced.queued.valid hs.valid
    refine ⟨sound, issued, fun v reach => ?_, fun {v src} hv => ?_⟩
    · exact kept_source (traced.kept hs.valid hs.complete
        (reach.mono fun r hr => by simp [starts, sub hr]))
    · by_cases live : ∀ l e, t₁.location v = some l → t₁.objects[l]? = some e →
          isLive youngOnly marked l e = true
      · obtain ⟨source, waits, -⟩ := kept_source (traced.queued.kept (swept_kept valid live))
        exact ⟨source ▸ hv, waits⟩
      · push Not at live
        obtain ⟨l, e, hl, he, dead⟩ := live
        have gone := location_swept_dead valid hl he (by simpa using dead)
        simp [Heap.source, Heap.tryGet, Heap.entry, gone] at hv
  · obtain ⟨sound, issued⟩ := failed.queued.sound hs
    obtain ⟨_, _, _, rfl⟩ := failed.queued
    exact
      { sound, issued, kept := fun _ _ => ⟨rfl, rfl, rfl⟩, rest := fun hv => ⟨hv, rfl⟩ }

end Elsewhere

namespace AsyncVm

variable {s t : AsyncVm}

theorem held_tasks {v : Value} (hv : v ∈ s.board.tasks) : v ∈ s.held := by
  cases loop : s.eventLoop with
  | none => simp [board, loop] at hv
  | some l =>
    have mem : v ∈ l.tasks := by simpa [board, loop] using hv
    simp [held, loop, EventLoopState.trace, mem]

theorem held_current {v : Value} (cur : s.board.current = some v) : v ∈ s.held := by
  cases loop : s.eventLoop with
  | none => simp [board, loop] at cur
  | some l =>
    have mem : l.currentTask = some v := by simpa [board, loop] using cur
    simp [held, loop, EventLoopState.trace, mem]

theorem forgets {heap : Heap} (e : Elsewhere s.held s.heap heap) :
    Board.Forgets s.board ({ s with heap } : AsyncVm).board where
  source hv := e.rest hv
  tasks v hv := (e.kept v ⟨v, held_tasks hv, .refl⟩).1
  current v cur := by
    obtain ⟨source, waits, -⟩ := e.kept v ⟨v, held_current cur, .refl⟩
    exact ⟨source, waits⟩
  waiting t ht v on := by
    refine (e.kept v ⟨t, held_tasks ht, .single ?_⟩).1
    change s.heap.waitingOn t = some v at on
    obtain ⟨o, found, waits⟩ := Option.bind_eq_some_iff.mp on
    obtain ⟨entry, he, rfl⟩ := tryGet_eq_some.mp found
    refine ⟨entry, he, ?_⟩
    cases ho : entry.object with
    | asyncTask task =>
      rw [ho] at waits
      simp [edges, ho, Object.trace, show task.waitingOn = some v from waits]
    | _ => rw [ho] at waits; cases waits
  rest := ⟨rfl, rfl, rfl, rfl, rfl⟩

theorem Proper.elsewhere {heap : Heap} (hp : s.Proper) (e : Elsewhere s.held s.heap heap) :
    Keeps s { s with heap } where
  proper :=
    { sound := e.sound
      settled := hp.settled.forgets (forgets e)
      known := by
        have known := hp.known.mono e.issued
        exact ⟨known.ready, known.tasks, known.current, known.events⟩
      current := fun v cur => by
        have cur : s.board.current = some v := cur
        show heap.isTask v = true
        rw [(e.kept v ⟨v, held_current cur, .refl⟩).2.2]
        exact hp.current v cur
      types := fun v hv => e.issued v (hp.types v hv) }
  current := rfl
  running := rfl
  issued := e.issued

/-- Every builtin keeps the books, whether it succeeds or fails. -/
theorem run_keeps (hp : s.Proper) (builtin : AsyncCall)
    (held : ∀ v ∈ builtin.arguments, s.heap.Issued v)
    (room : ∀ task, builtin = .taskCancel task → s.Waits task → 2 ≤ s.heap.room) :
    Keeps s (final builtin.run s) := by
  refine wp_final ?_
  cases builtin with
  | createTask => exact createAsyncTask_keeps hp
  | sleep => exact asyncioSleep_keeps hp (held _ (by simp [AsyncCall.arguments]))
  | futureNew => exact asyncioFutureNew_keeps hp
  | futureCancel => exact asyncioFutureCancel_keeps hp
  | taskCancel task => exact asyncioTaskCancel_keeps hp (room task rfl)
  | setResult => exact asyncioFutureSetResult_keeps hp (held _ (by simp [AsyncCall.arguments]))
  | setException =>
    exact asyncioFutureSetException_keeps hp (held _ (by simp [AsyncCall.arguments]))
  | addDoneCallback =>
    exact asyncioAddDoneCallback_keeps hp (held _ (by simp [AsyncCall.arguments]))

end AsyncVm

/-! ### The invariant of a run -/

namespace AsyncRun

variable {s t : AsyncRun}

/-- Who runs agrees with what the loop is doing. -/
def Consistent (vm : AsyncVm) : Control → Prop
  | .program => vm.Closed
  | .loop | .callback => vm.Idle
  | .task task _ => vm.Steps task

theorem Consistent.proper {vm : AsyncVm} {control : Control} (h : Consistent vm control) :
    vm.Proper := by
  cases control <;> exact h.1

theorem Consistent.keeps {vm vm' : AsyncVm} {control : Control} (h : Consistent vm control)
    (k : vm.Keeps vm') : Consistent vm' control := by
  cases control with
  | program =>
    refine ⟨k.proper, ?_⟩
    have off : vm'.eventLoop.isSome = vm.eventLoop.isSome := k.running
    simpa [h.2] using off
  | loop | callback => exact k.idle h
  | task => exact k.steps h

end AsyncRun

/-! ### Wake-ups -/

/-- The task is queued once and listed by no source. -/
def Queued (b : Board Value AsyncState (AsyncWake Value)) (task : Value) : Prop :=
  b.queued.count task = 1 ∧ ∀ {s src}, b.source s = some src → task ∉ src.waiters

/-- The task is listed once, by the pending source it waits for, and is not queued. -/
def Listed (b : Board Value AsyncState (AsyncWake Value)) (task : Value) : Prop :=
  task ∉ b.queued ∧ ∃ s src, b.source s = some src ∧ src.outcome = none ∧
    src.waiters.count task = 1 ∧ b.waitingOn task = some s ∧
    cause task b.events = some (.waits s) ∧
    ∀ {s' src'}, b.source s' = some src' → task ∈ src'.waiters → s' = s

abbrev Due (b : Board Value AsyncState (AsyncWake Value)) (task : Value) (wake : AsyncWake Value) :
    Prop :=
  b.Due AsyncState.wake (.value .none) task wake

/-- What the event loop promises of its tasks, sources and callbacks. -/
structure InOrder (b : Board Value AsyncState (AsyncWake Value)) : Prop where
  placed : ∀ task ∈ b.tasks, b.Pending task → b.current ≠ some task → Queued b task ∨ Listed b task
  /-- What is queued is what the task suspended for, or its cancellation. -/
  due : ∀ {task wake}, .task task wake ∈ b.ready → b.Pending task → Due b task wake
  /-- A callback that was registered is still kept, or queued, or it was called. -/
  notified : b.running = true → ∀ {s src} (callback : Value), b.source s = some src →
    registrations s callback b.events = src.callbacks.count callback + b.pendingCalls s callback +
      calls s callback b.events
  emptied : ∀ {s src}, b.source s = some src → src.outcome ≠ none →
    src.waiters = [] ∧ src.callbacks = []
  /-- A source completes once, and keeps the outcome it had. -/
  terminal : ∀ {s src}, b.source s = some src →
    completions s b.events ≤ 1 ∧ src.outcome = outcome s b.events

theorem AsyncVm.Proper.inOrder {s : AsyncVm} (hp : s.Proper) : InOrder s.board where
  placed task ht pending other := by
    obtain ⟨own, owned, -⟩ := id pending
    have waiter {v src} (hv : s.board.source v = some src) (mem : task ∈ src.waiters) :=
      hp.settled.waiter hv mem owned
    by_cases queued : task ∈ s.board.queued
    · refine .inl ⟨le_antisymm (hp.settled.queued pending) (List.count_pos_iff.mpr queued), ?_⟩
      exact fun hv mem => (waiter hv mem).2.2.2.2.1 queued
    · obtain listed | ⟨v, src, hv, mem⟩ := hp.settled.placed ht pending other
      · exact absurd listed queued
      · obtain ⟨live, -, on, why, -, -⟩ := waiter hv mem
        refine .inr ⟨queued, v, src, hv, live, ?_, on, why, fun hv' mem' => ?_⟩
        · exact List.count_eq_one_of_mem (hp.settled.once hv) mem
        · have on' := (waiter hv' mem').2.2.1
          rw [on] at on'
          exact (Option.some.inj on').symm
  due := hp.settled.due
  notified running _ _ callback hv := hp.settled.conserved running callback hv
  emptied := hp.settled.done
  terminal hv := ⟨hp.settled.single _, hp.settled.outcome hv⟩

section SelfCancel

/-- A coroutine that has not started. -/
def newCoroutine : GeneratorFrame where
  cls := .heap 25 1
  kind := .coroutine
  execution := 1
  code := 1
  ip := 0
  registers := []
  cells := []
  exceptionStack := []
  resumeRegister := none
  yieldFrom := none
  asyncDriver := none
  returnValue := .none
  state := .suspended

/-- The classes the interpreter starts with, and a coroutine that the program has made. -/
def coroutineHeap : Heap :=
  ofObjects ((List.range 46).map (fun i => .classObject { baseClass with
    id := i, dependents := [] }) ++ [.generator newCoroutine])

def coroutineRun : AsyncRun where
  vm :=
    { heap := coroutineHeap
      objectClass := .heap 0 1
      types := startedTypes
      eventLoop := none
      nextGeneration := 0
      events := [] }
  control := .program

theorem coroutineRun_start : coroutineRun.Start where
  control := rfl
  sound := ofObjects_sound (by decide) (by decide)
  sources v := by
    cases found : coroutineHeap.tryGet v with
    | none => simp [Heap.source, coroutineRun, found]
    | some o =>
      obtain ⟨e, he, rfl⟩ := tryGet_eq_some.mp found
      obtain ⟨l, -, stored⟩ := entry_eq_some.mp he
      obtain ⟨o, mem, rfl⟩ := ofObjects_object.mp stored
      have plain : o.source = none := by
        rcases List.mem_append.mp (List.mem_of_getElem? mem) with cls | coroutine
        · obtain ⟨i, -, rfl⟩ := List.mem_map.mp cls
          rfl
        · rw [List.mem_singleton.mp coroutine]
          rfl
      simp [Heap.source, coroutineRun, found, plain]
  stopped := rfl
  types v hv := ofObjects_issued (List.all_eq_true.mp (by decide : startedTypes.roots.all
    (Within 47) = true) v hv)
  events := rfl

end SelfCancel

end Tonic
