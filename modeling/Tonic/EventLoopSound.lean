import Tonic.AsyncSources
import Tonic.Library.WakeupSettled

/-!
## The event loop keeps its books

Each builtin and each turn of the loop is a step of the wake-up protocol on the board that the
heap and the loop show.
-/

namespace Tonic

open Effect Heap Wakeup

def EventLoopReady.entry : EventLoopReady Value → Ready Value (AsyncWake Value)
  | .task t wake => .task t wake
  | .callback c future => .callback c future

namespace AsyncVm

/-- What the wake-up protocol sees of the interpreter. -/
def board (s : AsyncVm) : Board Value AsyncState (AsyncWake Value) where
  source := s.heap.source
  waitingOn := s.heap.waitingOn
  ready := (s.eventLoop.elim [] (·.ready)).map (·.entry)
  tasks := s.eventLoop.elim [] (·.tasks)
  current := s.eventLoop.bind (·.currentTask)
  running := s.eventLoop.isSome
  events := s.events

abbrev Settled (b : Board Value AsyncState (AsyncWake Value)) : Prop :=
  Board.Settled AsyncState.wake (.value .none) b

/-- The invariant of the interpreter as far as the loop is concerned. -/
structure Proper (s : AsyncVm) : Prop where
  sound : Sound s.heap
  settled : Settled s.board
  known : s.board.Known s.heap.Issued
  current : ∀ v, s.board.current = some v → s.heap.isTask v = true
  types : ∀ v ∈ s.types.roots, s.heap.Issued v

/-- An operation leads from one state to another, and the board to `b`. -/
structure Moves (s t : AsyncVm) (b : Board Value AsyncState (AsyncWake Value)) : Prop where
  after : After s.heap t.heap
  isTask : ∀ v, s.heap.isTask v = true → t.heap.isTask v = true
  types : t.types = s.types
  board : t.board = b

variable {s t u : AsyncVm} {b c : Board Value AsyncState (AsyncWake Value)} {P : AsyncVm → Prop}

theorem Moves.trans (st : Moves s t b) (tu : Moves t u c) : Moves s u c where
  after := st.after.trans tu.after
  isTask v hv := tu.isTask v (st.isTask v hv)
  types := tu.types.trans st.types
  board := tu.board

theorem Proper.moves (hp : s.Proper) (m : Moves s t b) (settled : Settled b)
    (known : b.Known t.heap.Issued) (current : ∀ v, b.current = some v → t.heap.isTask v = true) :
    t.Proper where
  sound := m.after.1
  settled := m.board ▸ settled
  known := m.board ▸ known
  current := m.board ▸ current
  types := by
    rw [m.types]
    exact fun v hv => m.after.2.issued (hp.types v hv)

/-- The waiters of a source were handed out. -/
theorem issued_waiters (hs : Sound s.heap) {v : Value} {src : Source Value AsyncState}
    (hv : s.heap.source v = some src) : ∀ w ∈ src.waiters, s.heap.Issued w := by
  intro w hw
  rcases source_eq_some hv with ⟨f, ho, rfl⟩ | ⟨t, ho, rfl⟩
  · refine hs.valid.issued_trace ho ?_
    simp only [Object.trace, List.mem_cons, List.mem_append]
    exact .inr (.inr (.inl (.inr hw)))
  · refine hs.valid.issued_trace ho ?_
    simp only [Object.trace, List.mem_cons, List.mem_append]
    exact .inr (.inr (.inl (.inl (.inr hw))))

theorem issued_source (hs : Sound s.heap) {v : Value} {src : Source Value AsyncState}
    (hv : s.heap.source v = some src) : s.heap.Issued v := by
  by_contra new
  rw [Heap.source, tryGet_unissued hs.valid new] at hv
  cases hv

theorem Proper.fresh (hp : s.Proper) {v : Value} (new : ¬ s.heap.Issued v) : s.board.Fresh v :=
  hp.known.fresh new (by simp [board, Heap.source, tryGet_unissued hp.sound.valid new])
    fun hs hv => new (issued_waiters hp.sound hs v hv)

/-! ### Operations on the loop -/

@[simp] theorem wp_onHeap {α : Type} (m : HeapM α) {Q : α → AsyncVm → Prop} {E : AsyncVm → Prop} :
    wp (onHeap m) Q E = fun s => wp m (fun a heap => Q a { s with heap })
      (fun heap => E { s with heap }) s.heap := by
  funext s
  unfold wp onHeap
  cases m s.heap <;> rfl

@[simp] theorem wp_record (e : LoopEvent) {Q : Unit → AsyncVm → Prop} {E : AsyncVm → Prop} :
    wp (record e) Q E = fun s => Q () { s with events := e :: s.events } := rfl

@[simp] theorem wp_updateLoop (f : EventLoopState Value → EventLoopState Value)
    {Q : Unit → AsyncVm → Prop} {E : AsyncVm → Prop} :
    wp (updateLoop f) Q E = fun s => Q () { s with eventLoop := s.eventLoop.map f } := rfl

theorem wp_runningLoop {Q : EventLoopState Value → AsyncVm → Prop} {E : AsyncVm → Prop} :
    wp runningLoop Q E s = match s.eventLoop with | some l => Q l s | none => E s := by
  rw [runningLoop, wp_reading]
  cases s.eventLoop <;> rfl

/-- More is queued, if a loop is running. -/
def enqueue (s : AsyncVm) (entries : List (EventLoopReady Value)) : AsyncVm :=
  { s with eventLoop := s.eventLoop.map fun loop => { loop with ready := loop.ready ++ entries } }

theorem enqueue_of_none (h : s.eventLoop = none) (entries : List (EventLoopReady Value)) :
    s.enqueue entries = s := by
  cases s
  cases h
  rfl

theorem eventLoop_enqueue {entries : List (EventLoopReady Value)} :
    (s.enqueue entries).eventLoop = none ↔ s.eventLoop = none := by
  simp [enqueue]

theorem enqueue_append (first second : List (EventLoopReady Value)) :
    (s.enqueue first).enqueue second = s.enqueue (first ++ second) := by
  simp [enqueue, Function.comp_def]

theorem board_enqueue (entries : List (EventLoopReady Value)) :
    (s.enqueue entries).board = s.board.schedule (entries.map (·.entry)) := by
  cases h : s.eventLoop <;> simp [board, enqueue, Board.schedule, h]

section Schedule

variable {Q : Unit → AsyncVm → Prop} {E : AsyncVm → Prop}

theorem wp_scheduleAsyncTask {task : Value} {wake : AsyncWake Value}
    (ok : Q () (s.enqueue [.task task wake])) (failed : s.eventLoop = none → E s) :
    wp (scheduleAsyncTask task wake) Q E s := by
  simp only [scheduleAsyncTask, wp_bind, wp_runningLoop, wp_updateLoop]
  cases loop : s.eventLoop with
  | some l => simpa [enqueue, loop] using ok
  | none => exact failed loop

theorem wp_scheduleAsyncCallback {callback future : Value}
    (ok : Q () (s.enqueue [.callback callback future])) (failed : s.eventLoop = none → E s) :
    wp (scheduleAsyncCallback callback future) Q E s := by
  simp only [scheduleAsyncCallback, wp_bind, wp_runningLoop, wp_updateLoop]
  cases loop : s.eventLoop with
  | some l => simpa [enqueue, loop] using ok
  | none => exact failed loop

/-- A list of things is queued one by one. Without a loop the first one fails, and nothing is
queued. -/
theorem wp_scheduleAll {α : Type} (entry : α → EventLoopReady Value) {schedule : α → AsyncM Unit}
    (each : ∀ {Q : Unit → AsyncVm → Prop} {E s a}, Q () (s.enqueue [entry a]) →
      (s.eventLoop = none → E s) → wp (schedule a) Q E s)
    {l : List α} (ok : Q () (s.enqueue (l.map entry))) (failed : s.eventLoop = none → E s) :
    wp (l.forM schedule) Q E s := by
  induction l generalizing s with
  | nil =>
    have eq : s.enqueue [] = s := by cases s; simp [enqueue]
    exact eq ▸ ok
  | cons a l ih =>
    show wp (schedule a >>= fun _ => l.forM schedule) Q E s
    rw [wp_bind]
    refine each (ih ?_ ?_) failed
    · rwa [enqueue_append]
    · intro off
      rw [eventLoop_enqueue] at off
      rw [enqueue_of_none off]
      exact failed off

end Schedule

/-! ### Completion -/

theorem board_settle {source : Value} {state : AsyncState}
    {heap : Heap} (alters : Alters s.heap heap source ⟨some state, [], []⟩ none) :
    board { s with heap, events := .completed source state :: s.events } =
      s.board.settle source state := by
  simp [board, Board.settle, alters.source, alters.waitingOn]

/-- Completing a pending source is one step of the protocol, also when no loop is running and the
call fails for it. -/
theorem wp_completeAsyncSource {source : Value} {src : Source Value AsyncState}
    {state : AsyncState} (hs : Sound s.heap) (issued : ∀ v ∈ state.trace, s.heap.Issued v)
    (terminal : state ≠ .pending) (hsrc : s.heap.source source = some src)
    (pending : src.outcome = none) :
    wp (completeAsyncSource source state)
      (fun _ t => Moves s t (s.board.complete AsyncState.wake source src state))
      (fun t => Moves s t (s.board.complete AsyncState.wake source src state)) s := by
  have moves {heap : Heap} (after : After s.heap heap)
      (alters : Alters s.heap heap source ⟨some state, [], []⟩ none) :
      Moves s ((({ s with heap, events := .completed source state :: s.events } : AsyncVm).enqueue
          (src.callbacks.map (.callback · source))).enqueue (src.waiters.map (.task · state.wake)))
        (s.board.complete AsyncState.wake source src state) := by
    refine ⟨after, fun v hv => ?_, rfl, ?_⟩
    · show heap.isTask v = true
      rw [alters.isTask, hv]
    · rw [enqueue_append, board_enqueue, board_settle alters, Board.complete]
      simp [EventLoopReady.entry, Function.comp_def]
  simp only [completeAsyncSource, wp_bind, wp_onHeap]
  refine wp_mono (wp_completeAsync hs issued terminal hsrc) ?_ ?_
  · rintro _ heap ⟨after, -, rfl, alters⟩
    simp only [wp_record]
    have done := moves after alters
    refine wp_scheduleAll (.callback · source) wp_scheduleAsyncCallback
      (wp_scheduleAll (.task · state.wake) wp_scheduleAsyncTask done ?_) ?_
    · intro off
      rwa [enqueue_of_none off] at done
    · intro off
      rwa [enqueue_of_none (eventLoop_enqueue.mpr off), enqueue_of_none off] at done
  · exact fun heap failed => absurd pending failed.2.1

/-- An operation that keeps the invariant, and does not change what is running. -/
structure Keeps (s t : AsyncVm) : Prop where
  proper : t.Proper
  current : t.board.current = s.board.current
  running : t.board.running = s.board.running
  issued : ∀ v, s.heap.Issued v → t.heap.Issued v

theorem Keeps.refl (hp : s.Proper) : Keeps s s := ⟨hp, rfl, rfl, fun _ => id⟩

theorem Keeps.trans (st : Keeps s t) (tu : Keeps t u) : Keeps s u where
  proper := tu.proper
  current := tu.current.trans st.current
  running := tu.running.trans st.running
  issued v hv := tu.issued v (st.issued v hv)

theorem Proper.keeps (hp : s.Proper) (m : Moves s t b) (settled : Settled b)
    (known : b.Known t.heap.Issued) (current : b.current = s.board.current)
    (running : b.running = s.board.running) : Keeps s t where
  proper := hp.moves m settled known fun v cur => m.isTask v (hp.current v (current ▸ cur))
  current := m.board ▸ current
  running := m.board ▸ running
  issued _ hv := m.after.2.issued hv

/-- A future is not a task: it is not running, and waits for nothing. -/
theorem Proper.future (hp : s.Proper) {source : Value} (future : s.heap.isTask source = false) :
    s.board.waitingOn source = none ∧ s.board.current ≠ some source := by
  refine ⟨?_, fun cur => ?_⟩
  · show s.heap.waitingOn source = none
    rw [Heap.waitingOn]
    cases ho : s.heap.tryGet source with
    | none => rfl
    | some o =>
      rw [isTask_of ho] at future
      cases o with
      | asyncTask => cases future
      | _ => rfl
  · have := hp.current source cur
    rw [future] at this
    cases this

/-- The heap changes, but no future and no task. -/
theorem moves_unchanged {heap : Heap} (after : After s.heap heap)
    (same : SameSources s.heap heap) : Moves s { s with heap } s.board where
  after := after
  isTask v hv := by show heap.isTask v = true; rw [same.isTask, hv]
  types := rfl
  board := by simp [board, same.source, same.waitingOn]

theorem Proper.stays (hp : s.Proper) (m : Moves s t s.board) : Keeps s t :=
  hp.keeps m hp.settled (hp.known.mono fun _ => m.after.2.issued) rfl rfl

/-- A future completes if it is pending, and stays as it is otherwise. -/
theorem wp_completeFuture (hp : s.Proper) {source : Value} {src : Source Value AsyncState}
    {state : AsyncState} (hsrc : s.heap.source source = some src)
    (future : s.heap.isTask source = false) (issued : ∀ v ∈ state.trace, s.heap.Issued v)
    (terminal : state ≠ .pending) :
    wp (completeAsyncSource source state) (fun _ t => Keeps s t) (fun t => Keeps s t) s := by
  by_cases pending : src.outcome = none
  · obtain ⟨waits, other⟩ := hp.future future
    have keeps (t : AsyncVm) (m : Moves s t (s.board.complete AsyncState.wake source src state)) :
        Keeps s t := by
      have issued {v : Value} : s.heap.Issued v → t.heap.Issued v := m.after.2.issued
      refine hp.keeps m ?_ ?_ rfl rfl
      · refine hp.settled.complete hsrc pending waits rfl rfl rfl rfl rfl rfl
          (fun cur => ⟨cur, ?_⟩) fun cur => .inl cur
        rintro rfl
        exact other cur
      · refine (hp.known.mono fun _ => issued).complete (issued (issued_source hp.sound hsrc)) ?_
        exact fun w hw => issued (issued_waiters hp.sound hsrc w hw)
    exact wp_mono (wp_completeAsyncSource hp.sound issued terminal hsrc pending)
      (fun _ => keeps) keeps
  · simp only [completeAsyncSource, wp_bind, wp_onHeap]
    refine wp_mono (wp_completeAsync hp.sound issued terminal hsrc) ?_ ?_
    · exact fun _ _ ok => absurd ok.2.1 pending
    · exact fun heap ⟨after, _, same⟩ => hp.stays (moves_unchanged after same)

/-! ### The builtins -/

theorem wp_requireFuture {source : Value} {message : String} {Q : Unit → AsyncVm → Prop}
    {E : AsyncVm → Prop} (failed : E s)
    (ok : ∀ src, s.heap.source source = some src → s.heap.isTask source = false → Q () s) :
    wp (requireFuture source message) Q E s := by
  refine wp_reading_intro failed fun _ found => ?_
  split at found
  · next f hf => exact ok _ (source_of hf) (isTask_of hf)
  · cases found

theorem asyncioFutureSetResult_keeps (hp : s.Proper) {source value : Value}
    (issued : s.heap.Issued value) :
    wp (asyncioFutureSetResult source value) (fun _ t => Keeps s t) (fun t => Keeps s t) s := by
  simp only [asyncioFutureSetResult, wp_bind, wp_pure]
  refine wp_requireFuture (.refl hp) fun src hsrc future => ?_
  exact wp_completeFuture hp hsrc future (by simpa [AsyncState.trace] using issued) nofun

theorem asyncioFutureSetException_keeps (hp : s.Proper) {source exception : Value}
    (issued : s.heap.Issued exception) :
    wp (asyncioFutureSetException source exception) (fun _ t => Keeps s t) (fun t => Keeps s t)
      s := by
  simp only [asyncioFutureSetException, wp_bind, wp_pure]
  refine wp_requireFuture (.refl hp) fun src hsrc future => ?_
  exact wp_completeFuture hp hsrc future (by simpa [AsyncState.trace] using issued) nofun

theorem wp_cancelledError (hs : Sound s.heap) (types : ∀ v ∈ s.types.roots, s.heap.Issued v) :
    wp cancelledError
      (fun v t => ∃ heap, t = { s with heap } ∧ After s.heap heap ∧ SameSources s.heap heap ∧
        heap.Issued v)
      (fun t => ∃ heap, t = { s with heap } ∧ After s.heap heap ∧ SameSources s.heap heap ∧
        s.heap.room < 2) s := by
  simp only [cancelledError, wp_bind, wp_get, wp_onHeap]
  refine wp_mono (wp_exceptionFromDiagnostic hs types) ?_ ?_
  · exact fun v heap ⟨after, same, issued⟩ => ⟨heap, rfl, after, same, issued⟩
  · exact fun heap ⟨after, same, room⟩ => ⟨heap, rfl, after, same, room⟩

theorem asyncioFutureCancel_keeps (hp : s.Proper) {source : Value} :
    wp (asyncioFutureCancel source) (fun _ t => Keeps s t) (fun t => Keeps s t) s := by
  simp only [asyncioFutureCancel, requireAsync, wp_bind]
  refine wp_reading_intro (.refl hp) fun state _ => ?_
  refine wp_requireFuture (.refl hp) fun src hsrc future => ?_
  split
  · simp only [wp_bind, wp_pure]
    refine wp_mono (wp_cancelledError hp.sound hp.types) ?_ ?_
    rotate_left
    · rintro _ ⟨heap, rfl, after, same, -⟩
      exact hp.stays (moves_unchanged after same)
    rintro exception _ ⟨heap, rfl, after, same, issued⟩
    have kept := hp.stays (moves_unchanged after same)
    have traced : ∀ v ∈ (AsyncState.cancelled exception).trace, heap.Issued v := by
      simpa [AsyncState.trace] using issued
    have done := wp_completeFuture kept.proper (same.source ▸ hsrc) (same.isTask ▸ future) traced
      nofun
    exact wp_mono done (fun _ _ => kept.trans) fun _ => kept.trans
  · exact .refl hp

/-- The loop changes, but not its queue or what is running. -/
theorem moves_updateLoop (hs : Sound s.heap) {f : EventLoopState Value → EventLoopState Value}
    (h : ∀ l, (f l).ready = l.ready ∧ (f l).tasks = l.tasks ∧
      (f l).currentTask = l.currentTask) :
    Moves s { s with eventLoop := s.eventLoop.map f } s.board where
  after := hs.after
  isTask _ hv := hv
  types := rfl
  board := by
    cases loop : s.eventLoop with
    | none => simp [board, loop]
    | some l => simp [board, loop, h l]

theorem wp_newFuture (hp : s.Proper) {dueTick : Option Nat} {timerResult : Value}
    (issued : s.heap.Issued timerResult) :
    wp (newFuture dueTick timerResult) (fun _ t => Keeps s t) (fun t => Keeps s t) s := by
  have cls : s.heap.Issued s.types.asyncFuture := hp.types _ (by simp [RuntimeTypes.roots])
  simp only [newFuture, wp_bind, wp_get, wp_onHeap]
  refine wp_mono (wp_alloc_stores hp.sound ?_) ?_ ?_
  · intro v hv
    simp only [Object.trace, AsyncState.trace, List.append_nil, List.mem_cons, List.not_mem_nil,
      or_false] at hv
    rcases hv with rfl | rfl
    · exact cls
    · exact issued
  · rintro v heap ⟨after, stores, new, -⟩
    have unresolved := tryGet_unissued hp.sound.valid new
    have waits : heap.waitingOn = s.heap.waitingOn := by
      rw [stores.waitingOn, Function.update_eq_self_iff, Heap.waitingOn, unresolved]
      rfl
    have task : heap.isTask = s.heap.isTask := by
      rw [stores.isTask, Function.update_eq_self_iff, Heap.isTask, unresolved]
      rfl
    have moves : Moves s { s with heap } (s.board.create v) := by
      refine ⟨after, fun w hw => ?_, rfl, ?_⟩
      · show heap.isTask w = true
        rw [task, hw]
      · simp [board, Board.create, stores.source, waits, Object.source, AsyncState.outcome]
    have known := hp.known.mono fun _ => after.2.issued
    exact hp.keeps moves (hp.settled.create (hp.fresh new))
      ⟨known.ready, known.tasks, known.current, known.events⟩ rfl rfl
  · rintro heap ⟨after, rfl⟩
    exact .refl hp

theorem asyncioFutureNew_keeps (hp : s.Proper) :
    wp asyncioFutureNew (fun _ t => Keeps s t) (fun t => Keeps s t) s := by
  simp only [asyncioFutureNew, wp_bind, wp_runningLoop]
  split
  · exact wp_newFuture hp trivial
  · exact .refl hp

theorem asyncioSleep_keeps (hp : s.Proper) {delay : Nat} {result : Value}
    (issued : s.heap.Issued result) :
    wp (asyncioSleep delay result) (fun _ t => Keeps s t) (fun t => Keeps s t) s := by
  simp only [asyncioSleep, wp_bind, wp_runningLoop]
  split
  · refine wp_mono (wp_newFuture hp issued) (fun future t kept => ?_) fun _ => id
    simp only [wp_updateLoop, wp_pure]
    exact kept.trans (kept.proper.stays (moves_updateLoop kept.proper.sound fun l =>
      ⟨rfl, rfl, rfl⟩))
  · exact .refl hp

/-- A new task is queued. -/
theorem createAsyncTask_keeps (hp : s.Proper) {coroutine : Value} :
    wp (createAsyncTask coroutine) (fun _ t => Keeps s t) (fun t => Keeps s t) s := by
  have cls : s.heap.Issued s.types.asyncTask := hp.types _ (by simp [RuntimeTypes.roots])
  simp only [createAsyncTask, wp_bind, wp_runningLoop]
  cases loop : s.eventLoop with
  | none => exact .refl hp
  | some l =>
    simp only [wp_get]
    split
    · next coroutine' =>
      have issued : s.heap.Issued coroutine := by
        by_contra new
        simp [Heap.isCoroutine, tryGet_unissued hp.sound.valid new] at coroutine'
      simp only [wp_bind, wp_onHeap]
      refine wp_mono (wp_alloc_stores hp.sound ?_) ?_ ?_
      · intro v hv
        simp only [Object.trace, AsyncState.trace, List.append_nil, Option.toList_none,
          List.mem_cons, List.not_mem_nil, or_false] at hv
        rcases hv with rfl | rfl
        · exact cls
        · exact issued
      · rintro v heap ⟨after, stores, new, issued⟩
        simp only [wp_updateLoop, wp_record, wp_pure]
        have unresolved := tryGet_unissued hp.sound.valid new
        have waits : heap.waitingOn = s.heap.waitingOn := by
          rw [stores.waitingOn, Function.update_eq_self_iff, Heap.waitingOn, unresolved]
          rfl
        have moves : Moves s
            { s with
              heap
              eventLoop := s.eventLoop.map fun loop => { loop with
                tasks := loop.tasks ++ [v], ready := loop.ready ++ [.task v (.value .none)] }
              events := .spawned v :: s.events }
            (s.board.spawn (.value .none) v) := by
          refine ⟨after, fun w hw => ?_, rfl, ?_⟩
          · show heap.isTask w = true
            rw [stores.isTask, Function.update_apply]
            split
            · rfl
            · exact hw
          · simp [board, Board.spawn, Board.record, Board.schedule, Board.create, stores.source,
              waits, loop, Object.source, AsyncState.outcome, EventLoopReady.entry]
        have known := hp.known.mono fun _ => after.2.issued
        exact hp.keeps moves (hp.settled.spawn (by simp [board, loop]) (hp.fresh new))
          (known.spawn issued) rfl rfl
      · rintro heap ⟨after, rfl⟩
        exact .refl hp
    · exact .refl hp

/-- The callback is kept by a pending source, and queued at once by one that is done. -/
theorem asyncioAddDoneCallback_keeps (hp : s.Proper) {source callback : Value}
    (issued : s.heap.Issued callback) :
    wp (asyncioAddDoneCallback source callback) (fun _ t => Keeps s t) (fun t => Keeps s t) s := by
  simp only [asyncioAddDoneCallback, requireAsync, wp_bind, wp_onHeap]
  refine wp_reading_intro (.refl hp) fun state found => ?_
  rcases source_asyncState s.heap source with ⟨none, -⟩ | ⟨state', src, -, hsrc, -⟩
  · rw [none] at found
    cases found
  · refine wp_mono (wp_addAsyncCallback hp.sound issued hsrc) ?_ fun _ failed => failed.2.elim
    have origin := issued_source hp.sound hsrc
    rintro kept heap ⟨after, ⟨rfl, pending, alters⟩ | ⟨rfl, done, same⟩⟩
    · simp only [if_true]
      have waits : heap.waitingOn = s.heap.waitingOn := by
        rw [alters.waitingOn, Function.update_eq_self_iff]
      have moves : Moves s { s with heap, events := .registered source callback :: s.events }
          (s.board.listen source src callback) := by
        refine ⟨after, fun w hw => ?_, rfl, ?_⟩
        · show heap.isTask w = true
          rw [alters.isTask, hw]
        · simp [board, Board.listen, alters.source, waits]
      exact hp.keeps moves (hp.settled.listen hsrc pending callback)
        ((hp.known.mono fun _ => after.2.issued).listen (after.2.issued origin) callback) rfl rfl
    · simp only [Bool.false_eq_true, if_false, wp_bind]
      have unchanged := hp.stays (moves_unchanged after same)
      refine wp_scheduleAsyncCallback ?_ fun _ => unchanged
      simp only [wp_record, wp_pure]
      have moves : Moves s
          { ({ s with heap } : AsyncVm).enqueue [.callback callback source] with
            events := .registered source callback :: s.events }
          (s.board.notify source callback) := by
        refine ⟨after, fun w hw => ?_, rfl, ?_⟩
        · show heap.isTask w = true
          rw [same.isTask, hw]
        · cases loop : s.eventLoop <;>
            simp [board, enqueue, Board.notify, Board.record, Board.schedule, same.source,
              same.waitingOn, loop, EventLoopReady.entry]
      exact hp.keeps moves (hp.settled.notify source callback)
        ((hp.known.mono fun _ => after.2.issued).notify (after.2.issued origin) callback) rfl rfl

/-- The task is suspended on a source that is still pending. -/
def Waits (s : AsyncVm) (task : Value) : Prop :=
  ∃ source src, s.heap.waitingOn task = some source ∧ s.heap.source source = some src ∧
    src.outcome = none

/-- Whatever lists a task that is there is what the task waits for. -/
theorem Proper.listed (hp : s.Proper) {task source : Value} {src own : Source Value AsyncState}
    (owned : s.heap.source task = some own) (hsrc : s.heap.source source = some src)
    (mem : task ∈ src.waiters) : s.heap.waitingOn task = some source ∧ src.outcome = none := by
  obtain ⟨pending, -, on, -⟩ := hp.settled.waiter hsrc mem owned
  exact ⟨on, pending⟩

/-- The task has left its source and is in no queue yet. -/
theorem wp_leaveSource (hp : s.Proper) {task : Value} {own : Source Value AsyncState} {heap : Heap}
    (owned : s.heap.source task = some own) (after : After s.heap heap)
    (source : heap.source = s.heap.source)
    (waits : heap.waitingOn = Function.update s.heap.waitingOn task none)
    (isTask : heap.isTask = s.heap.isTask) :
    wp (leaveSource task (s.heap.waitingOn task))
      (fun _ t => t.eventLoop = s.eventLoop ∧ Moves s t (s.board.leave task))
      (fun t => Moves s t (s.board.leave task) ∧
        ∀ {source src}, s.heap.source source = some src → task ∉ src.waiters)
      { s with heap } := by
  have apart_moves {heap' : Heap} (after' : After s.heap heap')
      (source' : heap'.source = s.heap.source)
      (waits' : heap'.waitingOn = Function.update s.heap.waitingOn task none)
      (isTask' : heap'.isTask = s.heap.isTask)
      (apart : ∀ {source src}, s.heap.source source = some src → task ∉ src.waiters) :
      Moves s { s with heap := heap' } (s.board.leave task) := by
    refine ⟨after', fun w hw => ?_, rfl, ?_⟩
    · show heap'.isTask w = true
      rw [isTask', hw]
    · rw [Board.leave_apart fun hs => apart hs]
      simp [board, source', waits']
  cases on : s.heap.waitingOn task with
  | none =>
    refine ⟨rfl, apart_moves after source waits isTask fun hsrc mem => ?_⟩
    rw [(hp.listed owned hsrc mem).1] at on
    cases on
  | some origin =>
    simp only [leaveSource, wp_onHeap]
    refine wp_mono (wp_removeAsyncWaiter after.1) ?_ ?_
    · rintro - heap' ⟨step, src, hsrc, alters⟩
      rw [source] at hsrc
      refine ⟨trivial, after.trans step, fun w hw => ?_, rfl, ?_⟩
      · show heap'.isTask w = true
        rw [alters.isTask, isTask, hw]
      · have left : heap'.source = (s.board.leave task).source := by
          funext v
          rw [alters.source, Function.update_apply, source]
          simp only [Board.leave, board, on]
          by_cases eq : v = origin
          · simp [eq, hsrc]
          · simp [eq, Ne.symm eq]
        have quiet : heap'.waitingOn = Function.update s.heap.waitingOn task none := by
          rw [alters.waitingOn, Function.update_eq_self_iff.mpr rfl, waits]
        simp only [board] at left ⊢
        rw [left, quiet]
        rfl
    · rintro heap' ⟨step, gone, same⟩
      have apart {source' src} (hsrc : s.heap.source source' = some src) : task ∉ src.waiters := by
        intro mem
        have eq := (hp.listed owned hsrc mem).1
        rw [on] at eq
        cases eq
        rw [source, hsrc] at gone
        cases gone
      exact ⟨apart_moves (after.trans step) (same.source.trans source)
        (same.waitingOn.trans waits) (same.isTask.trans isTask) apart, apart⟩

theorem Proper.leave (hp : s.Proper) {task : Value} (m : Moves s t (s.board.leave task))
    (apart : s.board.running = true →
      ∀ {source src}, s.heap.source source = some src → task ∉ src.waiters) : Keeps s t := by
  have known := hp.known.mono fun _ => m.after.2.issued
  exact hp.keeps m (hp.settled.leave apart)
    ⟨known.ready, known.tasks, known.current, known.events⟩ rfl rfl

theorem requeueCancelled_keeps (hp : s.Proper) {task exception : Value}
    (m : Moves s t (s.board.leave task)) (same : t.eventLoop = s.eventLoop)
    (pending : s.board.Pending task) :
    wp (requeueCancelled task exception) (fun _ u => Keeps s u) (fun u => Keeps s u) t := by
  simp only [requeueCancelled, wp_bind, wp_runningLoop]
  cases loop : t.eventLoop with
  | none =>
    refine hp.leave m fun running => ?_
    rw [same] at loop
    simp [board, loop] at running
  | some l =>
    simp only [wp_updateLoop, wp_record]
    have moves : Moves s
        { t with
          eventLoop := t.eventLoop.map fun loop => { loop with
            ready := .task task (.exception exception) :: loop.ready.filter fun
              | .task queued _ => queued ≠ task
              | .callback _ _ => true }
          events := .cancelled task (.exception exception) :: t.events }
        (s.board.cancel task (.exception exception)) := by
      refine ⟨m.after, m.isTask, m.types, ?_⟩
      rw [Board.cancel, ← m.board]
      have filter : ((l.ready.filter fun
            | .task queued _ => queued ≠ task
            | .callback _ _ => true).map (·.entry)) =
          (l.ready.map (·.entry)).filter fun e => e.task? ≠ some task := by
        rw [List.filter_map]
        refine congrArg _ (List.filter_congr fun e _ => ?_)
        cases e <;> simp [EventLoopReady.entry, Ready.task?]
      simp only [board, Board.requeue, loop, Option.map_some, Option.elim_some, List.map_cons,
        filter]
      rfl
    have running : s.board.running = true := by simp [board, ← same, loop]
    obtain ⟨own, owned, open'⟩ := pending
    exact hp.keeps moves (hp.settled.cancel running ⟨own, owned, open'⟩)
      ((hp.known.mono fun _ => m.after.2.issued).cancel
        (m.after.2.issued (issued_source hp.sound owned))) rfl rfl

/-- A cancelled task leaves its source and goes to the front of the queue, unless there is no
room for the exception while it waits. -/
theorem asyncioTaskCancel_keeps (hp : s.Proper) {task : Value}
    (room : s.Waits task → 2 ≤ s.heap.room) :
    wp (asyncioTaskCancel task) (fun _ t => Keeps s t) (fun t => Keeps s t) s := by
  simp only [asyncioTaskCancel, requireAsync, requireTask, wp_bind, wp_onHeap]
  refine wp_reading_intro (.refl hp) fun _ _ => ?_
  refine wp_reading_intro (.refl hp) fun _ found => ?_
  split at found
  rotate_left
  · cases found
  next t ho =>
  have owned := source_of ho
  refine wp_mono (wp_and (wp_requestTaskCancel hp.sound ho) (wp_requestTaskCancel_room ho)) ?_
    fun _ failed => failed.1.2.elim
  rintro _ heap ⟨⟨after, ⟨rfl, same⟩ | ⟨rfl, live, alters⟩⟩, size⟩
  · exact hp.stays (moves_unchanged after same)
  · have on : s.heap.waitingOn task = t.waitingOn := waitingOn_of ho
    have source : heap.source = s.heap.source := by
      rw [alters.source, Function.update_eq_self_iff, owned, Object.source, live]
      rfl
    have pending : s.board.Pending task :=
      ⟨_, owned, by simp [live, AsyncState.outcome]⟩
    have types : ∀ v ∈ s.types.roots, heap.Issued v :=
      fun v hv => after.2.issued (hp.types v hv)
    simp only [if_true, wp_bind]
    refine wp_mono (wp_cancelledError (s := { s with heap }) after.1 types) ?_ ?_
    · rintro exception _ ⟨heap', rfl, step, same, -⟩
      rw [← on]
      refine wp_mono (wp_leaveSource hp owned (after.trans step) (same.source.trans source)
        (same.waitingOn.trans alters.waitingOn) (same.isTask.trans alters.isTask)) ?_ ?_
      · rintro _ u ⟨loop, moves⟩
        exact requeueCancelled_keeps hp moves loop pending
      · rintro u ⟨moves, apart⟩
        exact hp.leave moves fun _ => apart
    · rintro _ ⟨heap', rfl, step, same, full⟩
      have apart {source src} (hsrc : s.heap.source source = some src) : task ∉ src.waiters := by
        intro mem
        obtain ⟨waits, open'⟩ := hp.listed owned hsrc mem
        have enough := room ⟨source, src, waits, hsrc, open'⟩
        rw [← size] at enough
        exact Nat.not_lt.mpr enough full
      refine hp.leave ⟨after.trans step, fun w hw => ?_, rfl, ?_⟩ fun _ => apart
      · show heap'.isTask w = true
        rw [same.isTask, alters.isTask, hw]
      · rw [Board.leave_apart fun hs => apart hs]
        simp [board, same.source, source, same.waitingOn, alters.waitingOn]

/-! ### Turns -/

@[simp] theorem wp_closing {α : Type} (m : AsyncM α) {Q : α → AsyncVm → Prop}
    {E : AsyncVm → Prop} :
    wp (closing m) Q E = wp m Q fun t => E { t with eventLoop := none } := by
  funext s
  unfold wp closing
  cases m s <;> rfl

/-- The loop is gone and the books are in order. -/
def Closed (s : AsyncVm) : Prop := s.Proper ∧ s.eventLoop = none

/-- The loop is running and nothing else is. -/
def Idle (s : AsyncVm) : Prop := s.Proper ∧ s.eventLoop.isSome = true ∧ s.board.current = none

/-- The loop runs the task. -/
def Steps (s : AsyncVm) (task : Value) : Prop :=
  s.Proper ∧ s.eventLoop.isSome = true ∧ s.board.current = some task

/-- Whatever else the loop was about to do, the sources stay when it ends. -/
theorem Proper.closed (hp : s.Proper) (m : Moves s t b) (settled : Settled c)
    (known : c.Known t.heap.Issued) (source : b.source = c.source)
    (waitingOn : b.waitingOn = c.waitingOn) (events : b.events = c.events) :
    Closed { t with eventLoop := none } := by
  have board : t.board = b := m.board
  refine ⟨⟨m.after.1, ?_, ?_, fun v cur => ?_, ?_⟩, rfl⟩
  · refine settled.stop ?_ ?_ ?_ ⟨rfl, rfl, rfl, rfl⟩
    · rw [← source, ← board]; rfl
    · rw [← waitingOn, ← board]; rfl
    · rw [← events, ← board]; rfl
  · refine ⟨by simp [AsyncVm.board], by simp [AsyncVm.board], by simp [AsyncVm.board], ?_⟩
    have same : ({ t with eventLoop := none } : AsyncVm).board.events = c.events := by
      rw [← events, ← board]
      rfl
    exact same ▸ known.events
  · cases cur
  · rw [m.types]
    exact fun v hv => m.after.2.issued (hp.types v hv)

theorem Keeps.closed (k : Keeps s t) : Closed { t with eventLoop := none } :=
  k.proper.closed ⟨k.proper.sound.after, fun _ => id, rfl, rfl⟩ k.proper.settled k.proper.known rfl
    rfl rfl

/-- What holds of the state after the head of an iteration. -/
def Turned (r : Turn) (t : AsyncVm) : Prop :=
  match r with
  | .returned _ | .raised _ => Closed t
  | .again | .call _ _ => Idle t
  | .step task wake => ∃ s' rest, Idle s' ∧ s'.board.ready = .task task wake :: rest ∧
      s'.board.Pending task ∧ Moves s' t { s'.board.pop with current := some task }

theorem Keeps.idle (k : Keeps s t) (h : Idle s) : Idle t :=
  ⟨k.proper, k.running.trans h.2.1, k.current.trans h.2.2⟩

/-- The loop runs nothing any more. -/
theorem Moves.released (m : Moves s t b) :
    Moves s { t with eventLoop := t.eventLoop.map fun loop => { loop with currentTask := none } }
      { b with current := none } where
  after := m.after
  isTask := m.isTask
  types := m.types
  board := by
    rw [← m.board]
    cases loop : t.eventLoop <;> simp [AsyncVm.board, loop]

/-- The task's step ends with the board at `b`, from which the running task is then removed. -/
def EndsAt (s t : AsyncVm) (b : Board Value AsyncState (AsyncWake Value)) : Prop :=
  ∃ c, Moves s t c ∧ { c with current := none } = b

theorem EndsAt.idle (hp : s.Proper) (ends : EndsAt s t b) (settled : Settled b)
    (known : b.Known t.heap.Issued) (running : b.running = true) :
    Idle { t with eventLoop := t.eventLoop.map fun loop => { loop with currentTask := none } } := by
  obtain ⟨c, m, rfl⟩ := ends
  have released := m.released
  have current : ({ c with current := none } : Board Value AsyncState (AsyncWake Value)).current =
      none := rfl
  refine ⟨hp.moves released settled known fun v cur => ?_, ?_, ?_⟩
  · rw [current] at cur
    cases cur
  · exact (congrArg Board.running released.board).trans running
  · exact congrArg Board.current released.board

theorem EndsAt.closed (hp : s.Proper) (ends : EndsAt s t b) (settled : Settled b)
    (known : b.Known t.heap.Issued) : Closed { t with eventLoop := none } := by
  obtain ⟨c, m, rfl⟩ := ends
  exact hp.closed m settled known rfl rfl rfl

/-- What a coroutine yields when its task suspends. -/
def Suspends (s : AsyncVm) (yielded : Value) : Prop :=
  yielded = .none ∨ (s.heap.asyncState yielded).isSome = true

theorem issued_stopIterationValue (hs : Sound s.heap) {e v : Value}
    (found : s.heap.stopIterationValue e = some v) : s.heap.Issued v := by
  unfold Heap.stopIterationValue at found
  split at found
  · next exc ho => exact hs.valid.issued_trace ho (by simp [Object.trace, found])
  · cases found

theorem issued_generatorReturnValue (hs : Sound s.heap) {coroutine v : Value}
    (found : s.heap.generatorReturnValue coroutine = some v) : s.heap.Issued v := by
  unfold Heap.generatorReturnValue at found
  split at found
  · next frame ho =>
    split at found
    · cases found
      exact hs.valid.issued_trace ho (by simp [Object.trace])
    · cases found
  · cases found

/-- What a coroutine returns to its task was handed out. -/
theorem issued_result (hs : Sound s.heap) (exception : Option Value) (coroutine : Value) :
    s.heap.Issued (((exception.bind s.heap.stopIterationValue).or
      (s.heap.generatorReturnValue coroutine)).getD .none) := by
  cases stop : exception.bind s.heap.stopIterationValue with
  | some v =>
    obtain ⟨e, -, found⟩ := Option.bind_eq_some_iff.mp stop
    exact issued_stopIterationValue hs found
  | none =>
    cases returned : s.heap.generatorReturnValue coroutine with
    | some v => exact issued_generatorReturnValue hs returned
    | none => trivial

theorem Keeps.steps (k : Keeps s t) (hs : Steps s task) : Steps t task :=
  ⟨k.proper, k.running.trans hs.2.1, k.current.trans hs.2.2⟩

end AsyncVm

end Tonic
