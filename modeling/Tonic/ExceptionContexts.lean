import Tonic.AsyncSources
import Tonic.Collection
import Tonic.Library.Chains
import Tonic.Stores

/-!
## Exception contexts

An exception that is raised while another one is handled takes the other one as its context, once.
What the frames handle, what was raised, and the heap are followed; which frame a handler is found
in is left open.
-/

namespace Tonic

open Effect Heap Chains

def Object.context : Object → Option Value
  | .exception e => e.context
  | _ => none

namespace Heap

def context (h : Heap) (v : Value) : Option Value := (h.tryGet v).bind (·.context)

def isException (h : Heap) (v : Value) : Bool :=
  match h.tryGet v with
  | some (.exception _) => true
  | _ => false

end Heap

/-- What `dispatch_exception` reads of the interpreter: the exceptions that each frame handles, the
innermost frame and the innermost handler last, and the exception that was raised. -/
structure Handling where
  heap : Heap
  frames : List (List Value)
  pending : Option Value

/-- Where an exception ends up. -/
inductive Unwinding where
  /-- A handler of the frame takes it. -/
  | handler (frame : Nat)
  /-- What was to be done after the frame takes it. -/
  | action (frame : Nat)
  | unhandled

namespace Handling

variable (types : RuntimeTypes Value)

def active (s : Handling) : Option Value := s.frames.reverse.findSome? (·.getLast?)

/-- The exception that is being handled becomes the context of another one. -/
def attach (active : Option Value) (e : Value) : HeapM Unit := do
  match active.filter (· ≠ e) with
  | none => return
  | some context => if (← get).isException e then setExceptionContext e context

/-- An error that no exception was made of becomes one. -/
def exception (s : Handling) (error : Diagnostic) : HeapM Value :=
  match s.pending with
  | some e => pure e
  | none => exceptionFromDiagnostic types error

def raised (s : Handling) (error : Diagnostic) : HeapM Value := do
  let e ← s.exception types error
  attach s.active e
  return e

def recorded (entries : List TracebackEntry) (e : Value) : HeapM Unit := do
  if (← get).isException e then recordExceptionTrace e entries

/-- `dispatch_exception`. An action takes the exception before the trace is recorded. -/
def dispatch (s : Handling) (error : Diagnostic) (entries : List TracebackEntry)
    (outcome : Unwinding) : Handling :=
  match s.raised types error s.heap with
  | .error _ heap => { s with heap, pending := none }
  | .ok e heap =>
    match outcome with
    | .action frame => ⟨heap, s.frames.take frame, none⟩
    | .handler frame =>
      match recorded entries e heap with
      | .ok _ heap => ⟨heap, s.frames.take (frame + 1), none⟩
      | .error _ heap => { s with heap, pending := none }
    | .unhandled =>
      match recorded entries e heap with
      | .ok _ heap => { s with heap, pending := some e }
      | .error _ heap => { s with heap, pending := none }

def inInnermost (f : List Value → List Value) (s : Handling) : Handling :=
  { s with frames := s.frames.modify (s.frames.length - 1) f }

/-- The rest of the interpreter works on the heap. `set_exception_context` is called by the dispatch
alone, and new exceptions have no context. -/
structure Work (h t : Heap) : Prop where
  sound : Sound t
  issued : ∀ v, h.Issued v → t.Issued v
  contexts : ∀ v c, t.context v = some c → h.context v = some c

/-- A dispatch is only made in states of the given kind. -/
inductive Step (allowed : Handling → Prop) : Handling → Handling → Prop where
  | raise (s : Handling) (e : Value) (issued : s.heap.Issued e) :
    Step allowed s { s with pending := some e }
  | reraise (s : Handling) (e : Value) (active : s.active = some e) :
    Step allowed s { s with pending := some e }
  | dispatch (s : Handling) (error : Diagnostic) (entries : List TracebackEntry)
    (outcome : Unwinding) (allows : allowed s) :
    Step allowed s (s.dispatch types error entries outcome)
  | forget (s : Handling) : Step allowed s { s with pending := none }
  | pushException (s : Handling) (e : Value) (issued : s.heap.Issued e) :
    Step allowed s (s.inInnermost (· ++ [e]))
  | clearException (s : Handling) : Step allowed s (s.inInnermost (·.dropLast))
  /-- A new frame, or that of a generator with what it handled when it was suspended. -/
  | enter (s : Handling) (handled : List Value) (issued : ∀ v ∈ handled, s.heap.Issued v) :
    Step allowed s { s with frames := s.frames ++ [handled] }
  | leave (s : Handling) : Step allowed s { s with frames := s.frames.dropLast }
  | work (s : Handling) (heap : Heap) (work : Work s.heap heap) :
    Step allowed s { s with heap }

/-- The interpreter starts without frames and without contexts. -/
inductive Reached (allowed : Handling → Prop) : Handling → Prop where
  | start (heap : Heap) (sound : Sound heap) (known : ∀ v ∈ types.roots, heap.Issued v)
    (bare : ∀ v, heap.context v = none) : Reached allowed ⟨heap, [], none⟩
  | step {s t : Handling} (reached : Reached allowed s) (step : Step types allowed s t) :
    Reached allowed t

/-- The contexts of an exception come to an end. -/
def Grounded (s : Handling) : Prop := ∀ v, Ends s.heap.context v

/-- The exception that was raised is not among the contexts of the one that is handled, unless it
has a context of its own. -/
def Clear (s : Handling) : Prop :=
  ∀ e c, s.pending = some e → s.active = some c → c ≠ e → s.heap.isException e = true →
    s.heap.context e = none → ¬ Reaches s.heap.context c e

end Handling

/-! ### One dispatch -/

namespace Heap

variable {h h₀ t : Heap} {owner v e c : Value} {o o' : Object}

theorem Stores.context_eq (stores : Stores h t owner o') :
    t.context = Function.update h.context owner o'.context := by
  funext v
  rw [Heap.context, stores, Function.update_apply, Function.update_apply]
  split
  · rfl
  · rfl

theorem context_of_tryGet (found : h.tryGet v = some o) : h.context v = o.context := by
  rw [Heap.context, found]
  rfl

theorem context_of_same (same : t.tryGet = h.tryGet) : t.context = h.context := by
  funext v
  rw [Heap.context, same]
  rfl

theorem context_unissued (hs : Sound h) (new : ¬ h.Issued v) : h.context v = none := by
  rw [Heap.context, tryGet_unissued hs.valid new]
  rfl

theorem Stores.same_context (stores : Stores h t owner o') (same : h.context owner = o'.context) :
    t.context = h.context := by
  rw [stores.context_eq, ← same, Function.update_eq_self]

theorem issued_of_context (hs : Sound h) (linked : h.context v = some c) : h.Issued c := by
  obtain ⟨o, found, own⟩ := Option.bind_eq_some_iff.mp linked
  refine hs.valid.issued_trace found ?_
  cases o with
  | exception e => simp [Object.trace, show e.context = some c from own]
  | _ => cases own

theorem issued_of_reaches (hs : Sound h) (issued : h.Issued c) (path : Reaches h.context c v) :
    h.Issued v := by
  induction path with
  | refl => exact issued
  | tail _ link _ => exact issued_of_context hs link

/-! ### The mutators of exceptions -/

/-- The heap stays sound, and all exceptions keep their contexts. -/
def Untied (h t : Heap) : Prop := After h t ∧ t.context = h.context

theorem Untied.trans {u : Heap} (ht : Untied h t) (tu : Untied t u) : Untied h u :=
  ⟨ht.1.trans tu.1, tu.2.trans ht.2⟩

theorem wp_alloc_untied (hs : Sound h) (ho : ∀ v ∈ o.trace, h.Issued v)
    (bare : o.context = none) :
    wp (alloc o) (fun v t => Untied h t ∧ t.tryGet v = some o ∧ t.Issued v ∧ ¬ h.Issued v)
      (Untied h) h := by
  refine wp_mono (wp_alloc_stores hs ho) ?_ ?_
  · rintro v t ⟨after, stores, new, issued⟩
    refine ⟨⟨after, stores.same_context ?_⟩, ?_, issued, new⟩
    · rw [bare, context_unissued hs new]
    · rw [stores, Function.update_self]
  · rintro t ⟨after, rfl⟩
    exact ⟨after, rfl⟩

theorem wp_setException_untied {e e' : Exception} (hs : Sound h)
    (found : h.tryGet owner = some (.exception e)) (same : e'.context = e.context) :
    wp (setObject owner (.exception e')) (fun _ t => t.context = h.context)
      (fun t => t.context = h.context) h :=
  wp_setObject_stores hs.valid found fun t stores =>
    stores.same_context (by rw [context_of_tryGet found]; exact same.symm)

theorem ensureTraceback_context {e : Exception} (hs : Sound h) :
    wp (ensureTraceback owner e) (fun _ t => t.context = h.context)
      (fun t => t.context = h.context) h := by
  unfold ensureTraceback
  split
  · exact rfl
  · simp only [wp_bind, wp_writeBarrier]
    refine wp_mono (wp_alloc_untied hs (by simp [Object.trace]) rfl) ?_ fun _ failed => failed.2
    rintro v t ⟨⟨after, same⟩, -, issued, -⟩
    have base : Sound (t.writeBarrier owner v) := (barrierOne after.1 issued).1.1
    have same : (t.writeBarrier owner v).context = h.context := by
      rw [context_of_same (tryGet_barrier owner v t)]
      exact same
    refine wp_getObject same fun o found => ?_
    split
    · rw [wp_bind]
      refine wp_mono (wp_setException_untied base found rfl) ?_ fun t kept => kept.trans same
      exact fun _ t kept => kept.trans same
    · exact same

theorem recordExceptionTrace_untied {entries : List TracebackEntry} (hs : Sound h) :
    wp (recordExceptionTrace owner entries) (fun _ => Untied h) (Untied h) h := by
  refine wp_and (recordExceptionTrace_after hs) ?_
  unfold recordExceptionTrace
  split
  · exact rfl
  · simp only [wp_bind]
    refine wp_expectException rfl fun e _ => ?_
    refine wp_mono (wp_and (ensureTraceback_after hs) (ensureTraceback_context hs)) ?_
      fun t failed => failed.2
    rintro v t ⟨after, same⟩
    refine wp_getObject same fun o found => ?_
    split
    · refine wp_setObject_stores after.1.valid found fun u stores => ?_
      refine (stores.same_context ?_).trans same
      rw [context_of_tryGet found]
      rfl
    · exact same

/-- An exception gets a context if it has none. -/
def tied (h : Heap) (e c : Value) : Value → Option Value :=
  if h.isException e = true ∧ h.context e = none then Function.update h.context e (some c)
  else h.context

theorem exception_of (exception : h.isException e = true) :
    ∃ e', h.tryGet e = some (.exception e') := by
  unfold isException at exception
  split at exception
  · next e' found => exact ⟨e', found⟩
  · cases exception

theorem wp_setExceptionContext (hs : Sound h) (issued : h.Issued c)
    (exception : h.isException e = true) :
    wp (setExceptionContext e c) (fun _ t => After h t ∧ t.context = h.tied e c)
      (fun _ => False) h := by
  obtain ⟨e', found⟩ := exception_of exception
  suffices tied : wp (setExceptionContext e c) (fun _ t => t.context = h.tied e c)
      (fun _ => False) h from
    wp_mono (wp_and (setExceptionContext_after hs issued) tied) (fun _ _ => id) fun _ => And.right
  have base : Sound (h.writeBarrier e c) := (barrierOne hs issued).1.1
  have same := context_of_same (tryGet_barrier e c h)
  have found' : (h.writeBarrier e c).tryGet e = some (.exception e') := by
    rw [tryGet_barrier]
    exact found
  have own : h.context e = e'.context := context_of_tryGet found
  simp only [setExceptionContext, expectException, getObject, wp_bind, wp_writeBarrier, wp_reading,
    Heap.get, found', wp_pure]
  split
  · next bare =>
    refine wp_setObject_stores base.valid found' fun u stores => ?_
    rw [stores.context_eq, same, Heap.tied, if_pos ⟨exception, own.trans (by simpa using bare)⟩]
    rfl
  · next linked =>
    rw [Heap.tied, if_neg]
    · exact same
    · rintro ⟨-, bare⟩
      exact linked (by simp [← own, bare])

/-- A new exception has no context, and no chain leads to it. -/
theorem wp_exceptionFromDiagnostic_untied {types : RuntimeTypes Value} {error : Diagnostic}
    (hs : Sound h) (issued : ∀ v ∈ types.roots, h.Issued v) :
    wp (exceptionFromDiagnostic types error)
      (fun v t => Untied h t ∧ t.Issued v ∧ ¬ h.Issued v) (Untied h) h := by
  have cls := issued _ (exceptionClass_mem types error.kind)
  have arguments : wp (exceptionArguments types (exceptionClass types error.kind) error.message)
      (fun values t => Untied h t ∧ ∀ v ∈ values, t.Issued v) (Untied h) h := by
    unfold exceptionArguments
    split
    · exact ⟨⟨hs.after, rfl⟩, by simp⟩
    · rw [wp_bind]
      refine wp_mono (wp_alloc_untied hs (by simp [Object.trace]) rfl) ?_ fun _ => id
      rintro v t ⟨untied, -, issued, -⟩
      exact ⟨untied, by simpa using issued⟩
  simp only [exceptionFromDiagnostic, wp_bind]
  refine wp_mono arguments ?_ fun _ => id
  rintro values t ⟨untied, mem⟩
  have traced := issued_diagnosticException (untied.1.2.issued cls) mem
  refine wp_mono (wp_alloc_untied untied.1.1 traced rfl) ?_ fun _ => untied.trans
  rintro v u ⟨made, -, issued, new⟩
  exact ⟨untied.trans made, issued, fun old => new (untied.1.2.issued old)⟩

end Heap

namespace Handling

variable {types : RuntimeTypes Value} {s : Handling} {e c : Value}

/-- What the machine holds was handed out. -/
structure Proper (types : RuntimeTypes Value) (s : Handling) : Prop where
  sound : Sound s.heap
  types : ∀ v ∈ types.roots, s.heap.Issued v
  handled : ∀ frame ∈ s.frames, ∀ v ∈ frame, s.heap.Issued v
  pending : ∀ v ∈ s.pending, s.heap.Issued v

theorem active_mem (active : s.active = some c) : ∃ frame ∈ s.frames, c ∈ frame := by
  obtain ⟨frame, mem, last⟩ := List.exists_of_findSome?_eq_some active
  exact ⟨frame, List.mem_reverse.mp mem, List.mem_of_getLast? last⟩

/-- What attaching a context does to the contexts. -/
def attached (h : Heap) (active : Option Value) (e : Value) : Value → Option Value :=
  match active.filter (· ≠ e) with
  | none => h.context
  | some c => h.tied e c

theorem wp_attach {h : Heap} {active : Option Value} (hs : Sound h)
    (issued : ∀ c ∈ active, h.Issued c) :
    wp (attach active e) (fun _ t => After h t ∧ t.context = attached h active e)
      (fun _ => False) h := by
  unfold attach attached
  split
  · exact ⟨hs.after, rfl⟩
  · next c kept =>
    have active : c ∈ active := (Option.mem_filter_iff.mp kept).1
    simp only [wp_bind, wp_get]
    split
    · next exception => exact wp_setExceptionContext hs (issued c active) exception
    · next other =>
      refine ⟨hs.after, ?_⟩
      rw [tied, if_neg fun both => other both.1]

/-- What a dispatch links: a new exception is in nobody's chain. -/
theorem wp_raised (error : Diagnostic) (proper : s.Proper types) :
    wp (s.raised types error)
      (fun e t => After s.heap t ∧ t.Issued e ∧
        match s.pending with
        | some e => t.context = attached s.heap s.active e
        | none => s.Grounded → ∀ v, Ends t.context v)
      (fun t => After s.heap t ∧ t.context = s.heap.context ∧ s.pending = none) s.heap := by
  have handled : ∀ c ∈ s.active, s.heap.Issued c := by
    intro c active
    obtain ⟨frame, mem, inside⟩ := active_mem active
    exact proper.handled frame mem c inside
  unfold raised exception
  rw [wp_bind]
  cases pending : s.pending with
  | some e =>
    simp only [wp_pure, wp_bind]
    refine wp_mono (wp_attach proper.sound handled) ?_ fun _ => False.elim
    rintro _ t ⟨after, contexts⟩
    exact ⟨after, after.2.issued (proper.pending e pending), contexts⟩
  | none =>
    refine wp_mono (wp_exceptionFromDiagnostic_untied proper.sound proper.types) ?_
      fun t untied => ⟨untied.1, untied.2, rfl⟩
    rintro e t ⟨⟨after, same⟩, issued, new⟩
    have handled' : ∀ c ∈ s.active, t.Issued c := fun c active => after.2.issued (handled c active)
    simp only [wp_pure, wp_bind]
    refine wp_mono (wp_attach after.1 handled') ?_ fun _ => False.elim
    rintro _ u ⟨onward, contexts⟩
    refine ⟨after.trans onward, onward.2.issued issued, fun grounded => ?_⟩
    rw [contexts, attached]
    split
    · rw [same]
      exact grounded
    · next c kept =>
      have active : c ∈ s.active := (Option.mem_filter_iff.mp kept).1
      unfold tied
      split
      · next both =>
        rw [same] at both ⊢
        refine (ends_update_iff grounded both.2).mpr fun path => new ?_
        exact issued_of_reaches proper.sound (handled c active) path
      · rw [same]
        exact grounded

/-- Attaching keeps the chains finite exactly when it is clear. -/
theorem attached_grounded (grounded : s.Grounded) (pending : s.pending = some e) :
    (∀ v, Ends (attached s.heap s.active e) v) ↔ s.Clear := by
  unfold attached
  constructor
  · intro ends e' c raised active apart exception bare
    rw [pending] at raised
    obtain rfl := Option.some.inj raised
    have kept : s.active.filter (· ≠ e) = some c := by
      rw [active]
      simp [apart]
    rw [kept] at ends
    unfold tied at ends
    simp only [exception, bare, and_self, if_true] at ends
    exact (ends_update_iff grounded bare).mp ends
  · intro clear
    split
    · exact grounded
    · next c kept =>
      obtain ⟨active, apart⟩ := Option.mem_filter_iff.mp kept
      unfold tied
      split
      · next both =>
        have apart : c ≠ e := by simpa using apart
        exact (ends_update_iff grounded both.2).mpr
          (clear e c pending active apart both.1 both.2)
      · exact grounded

theorem recorded_untied {h : Heap} (entries : List TracebackEntry) (e : Value) (hs : Sound h) :
    wp (recorded entries e) (fun _ => Untied h) (Untied h) h := by
  unfold recorded
  simp only [wp_bind, wp_get]
  split
  · exact recordExceptionTrace_untied hs
  · exact ⟨hs.after, rfl⟩

/-- What is known of a dispatch. -/
structure Dispatched (s t : Handling) : Prop where
  after : After s.heap t.heap
  frames : ∀ frame ∈ t.frames, frame ∈ s.frames
  pending : ∀ v ∈ t.pending, t.heap.Issued v
  contexts : match s.pending with
    | some e => t.heap.context = attached s.heap s.active e
    | none => s.Grounded → t.Grounded

theorem dispatch_cases (error : Diagnostic) (entries : List TracebackEntry)
    (outcome : Unwinding) (proper : s.Proper types) :
    s.Dispatched (s.dispatch types error entries outcome) := by
  have run := wp_raised error proper
  unfold wp at run
  unfold dispatch
  have nothing {heap : Heap} : ∀ v ∈ (none : Option Value), heap.Issued v := by
    rintro v ⟨⟩
  cases raised : s.raised types error s.heap with
  | error fault heap =>
    rw [raised] at run
    obtain ⟨after, same, none⟩ := run
    refine ⟨after, fun _ => id, nothing, ?_⟩
    rw [none]
    intro grounded
    unfold Grounded
    rw [same]
    exact grounded
  | ok e heap =>
    rw [raised] at run
    obtain ⟨after, issued, contexts⟩ := run
    -- recording the trace changes no context
    have same {t : Heap} (untied : Untied heap t) : match s.pending with
        | some e => t.context = attached s.heap s.active e
        | none => s.Grounded → ∀ v, Ends t.context v := by
      rw [untied.2]
      exact contexts
    have record := recorded_untied entries e after.1
    unfold wp at record
    have fewer (n : Nat) : ∀ frame ∈ s.frames.take n, frame ∈ s.frames :=
      fun _ => List.mem_of_mem_take
    cases outcome with
    | action frame => exact ⟨after, fewer frame, nothing, contexts⟩
    | handler frame =>
      dsimp only
      cases ran : recorded entries e heap with
      | ok _ t =>
        rw [ran] at record
        exact ⟨after.trans record.1, fewer (frame + 1), nothing, same record⟩
      | error fault t =>
        rw [ran] at record
        exact ⟨after.trans record.1, fun _ => id, nothing, same record⟩
    | unhandled =>
      dsimp only
      cases ran : recorded entries e heap with
      | ok _ t =>
        rw [ran] at record
        refine ⟨after.trans record.1, fun _ => id, ?_, same record⟩
        rintro v ⟨⟩
        exact record.1.2.issued issued
      | error fault t =>
        rw [ran] at record
        exact ⟨after.trans record.1, fun _ => id, nothing, same record⟩

/-- A dispatch keeps the chains finite exactly when it is clear. -/
theorem dispatch_grounded (error : Diagnostic) (entries : List TracebackEntry)
    (outcome : Unwinding) (proper : s.Proper types) (grounded : s.Grounded) :
    (s.dispatch types error entries outcome).Grounded ↔ s.Clear := by
  have contexts := (dispatch_cases error entries outcome proper).contexts
  cases pending : s.pending with
  | some e =>
    rw [pending] at contexts
    unfold Grounded
    rw [contexts]
    exact attached_grounded grounded pending
  | none =>
    rw [pending] at contexts
    refine ⟨fun _ e c raised => ?_, fun _ => contexts grounded⟩
    rw [pending] at raised
    cases raised

theorem inInnermost_proper {f : List Value → List Value} (proper : s.Proper types)
    (handled : ∀ frame ∈ s.frames, ∀ v ∈ f frame, s.heap.Issued v) :
    (s.inInnermost f).Proper types := by
  refine ⟨proper.sound, proper.types, fun frame mem v inside => ?_, proper.pending⟩
  obtain ⟨i, low, eq⟩ := List.mem_iff_getElem.mp mem
  simp only [inInnermost, List.length_modify] at low
  simp only [inInnermost, List.getElem_modify] at eq
  have old : s.frames[i] ∈ s.frames := List.getElem_mem low
  split at eq
  · rw [← eq] at inside
    exact handled _ old v inside
  · rw [← eq] at inside
    exact proper.handled _ old v inside

/-- One step, when dispatches are clear. -/
theorem step_keeps {t : Handling} (step : Step types Clear s t) (proper : s.Proper types)
    (grounded : s.Grounded) : t.Proper types ∧ t.Grounded := by
  cases step with
  | raise e issued =>
    refine ⟨⟨proper.sound, proper.types, proper.handled, ?_⟩, grounded⟩
    rintro v ⟨⟩
    exact issued
  | reraise e active =>
    obtain ⟨frame, mem, inside⟩ := active_mem active
    refine ⟨⟨proper.sound, proper.types, proper.handled, ?_⟩, grounded⟩
    rintro v ⟨⟩
    exact proper.handled frame mem e inside
  | dispatch error entries outcome clear =>
    have done := dispatch_cases error entries outcome proper
    refine ⟨⟨done.after.1, fun v mem => done.after.2.issued (proper.types v mem),
      fun frame mem v inside => ?_, done.pending⟩,
      (dispatch_grounded error entries outcome proper grounded).mpr clear⟩
    exact done.after.2.issued (proper.handled frame (done.frames frame mem) v inside)
  | forget =>
    refine ⟨⟨proper.sound, proper.types, proper.handled, ?_⟩, grounded⟩
    rintro v ⟨⟩
  | pushException e issued =>
    refine ⟨inInnermost_proper proper fun frame mem v inside => ?_, grounded⟩
    rcases List.mem_append.mp inside with old | new
    · exact proper.handled frame mem v old
    · rw [List.mem_singleton.mp new]
      exact issued
  | clearException =>
    refine ⟨inInnermost_proper proper fun frame mem v inside => ?_, grounded⟩
    exact proper.handled frame mem v (List.dropLast_subset _ inside)
  | enter handled issued =>
    refine ⟨⟨proper.sound, proper.types, fun frame mem v inside => ?_, proper.pending⟩, grounded⟩
    rcases List.mem_append.mp mem with old | new
    · exact proper.handled frame old v inside
    · rw [List.mem_singleton.mp new] at inside
      exact issued v inside
  | leave =>
    refine ⟨⟨proper.sound, proper.types, fun frame mem => ?_, proper.pending⟩, grounded⟩
    exact proper.handled frame (List.dropLast_subset _ mem)
  | work heap work =>
    refine ⟨⟨work.sound, fun v mem => work.issued v (proper.types v mem), fun frame mem v inside =>
      work.issued v (proper.handled frame mem v inside), fun v mem =>
      work.issued v (proper.pending v mem)⟩, fun v => ?_⟩
    exact (grounded v).of_fewer work.contexts

theorem reached_keeps (reached : Reached types Clear s) : s.Proper types ∧ s.Grounded := by
  induction reached with
  | start heap sound known bare =>
    refine ⟨⟨sound, known, fun frame mem => ?_, fun v mem => ?_⟩, fun v => .last (bare v)⟩
    · cases mem
    · cases mem
  | step _ step ih => exact step_keeps step ih.1 ih.2

end Handling

/-! ### Other work on the heap -/

namespace Handling.Work

variable {h : Heap}

theorem of_untied {t : Heap} (untied : Untied h t) : Work h t where
  sound := untied.1.1
  issued _ := untied.1.2.issued
  contexts v c linked := by
    rw [untied.2] at linked
    exact linked

theorem alloc {o : Object} (hs : Sound h) (issued : ∀ v ∈ o.trace, h.Issued v)
    (bare : o.context = none) : Work h (final (Tonic.alloc o) h) :=
  wp_final (wp_mono (wp_alloc_untied hs issued bare) (fun _ _ made => of_untied made.1)
    fun _ => of_untied)

theorem setExceptionCause {owner : Value} {cause : Option Value} {suppress : Bool} (hs : Sound h)
    (issued : ∀ v ∈ cause.toList, h.Issued v) :
    Work h (final (Tonic.setExceptionCause owner cause suppress) h) := by
  have untied : wp (Tonic.setExceptionCause owner cause suppress) (fun _ => Untied h)
      (Untied h) h := by
    refine wp_and (setExceptionCause_after hs issued) ?_
    simp only [Tonic.setExceptionCause, wp_bind, wp_barrierSome]
    have base : After h (h.writeBarriers owner cause.toList) := hs.writeBarriers
    have same : (h.writeBarriers owner cause.toList).context = h.context :=
      context_of_same (funext fun _ => tryGet_writeBarriers ..)
    refine wp_expectException same fun e found => ?_
    exact wp_mono (wp_setException_untied base.1 found rfl) (fun _ _ kept => kept.trans same)
      fun _ kept => kept.trans same
  exact wp_final (wp_mono untied (fun _ _ => of_untied) fun _ => of_untied)

theorem pruned_context (alive : Value → Bool) (o : Object) :
    (pruneDependents alive o).context = o.context := by
  cases o <;> rfl

theorem collect {youngOnly : Bool} {roots : List Value} (hs : Sound h) :
    Work h (final (collectWith youngOnly roots) h) := by
  refine wp_final (wp_mono (wp_collectWith hs.valid) ?_ fun t failed => ?_)
  · rintro - t collected
    obtain ⟨sound, issued⟩ := collected_sound hs.valid collected
    refine ⟨sound, issued, fun v c linked => ?_⟩
    obtain ⟨marked, u, traced, rfl⟩ := collected
    have valid := traced.queued.valid hs.valid
    obtain ⟨o, found, own⟩ := Option.bind_eq_some_iff.mp linked
    obtain ⟨e', entry, rfl⟩ := tryGet_eq_some.mp found
    have live : ∀ l e, u.location v = some l → u.objects[l]? = some e →
        isLive youngOnly marked l e = true := by
      intro l e hl he
      by_contra dead
      have gone := location_swept_dead valid hl he (by simpa using dead)
      rw [Heap.entry, gone] at entry
      cases entry
    have kept := (traced.queued.kept (swept_kept valid live)).entry
    rw [entry] at kept
    obtain ⟨e, before, same⟩ := Option.map_eq_some_iff.mp kept.symm
    rw [Heap.context, tryGet_eq_some.mpr ⟨e, before, rfl⟩]
    rw [← same] at own
    exact (pruned_context _ e.object).symm.trans own
  · obtain ⟨sound, issued⟩ := failed.queued.sound hs
    refine ⟨sound, issued, fun v c linked => ?_⟩
    have same : t.tryGet = h.tryGet := funext fun v => by
      rw [Heap.tryGet, failed.queued.entry, Heap.tryGet]
    rw [context_of_same same] at linked
    exact linked

end Handling.Work

/-- In a run whose dispatches are clear the contexts of every exception come to an end, and a
dispatch that is not clear closes a cycle. -/
theorem contexts_end {types : RuntimeTypes Value} {s : Handling}
    (reached : Handling.Reached types Handling.Clear s) :
    s.Grounded ∧ ∀ error entries outcome,
      (s.dispatch types error entries outcome).Grounded ↔ s.Clear :=
  have kept := Handling.reached_keeps reached
  ⟨kept.2, fun _ _ _ => Handling.dispatch_grounded _ _ _ kept.1 kept.2⟩

section Cycle

open Handling

def bareException (message : String) : Object :=
  .exception ⟨.none, message, [], none, .empty, none, none, false, none⟩

/-- Two exceptions that were never raised. -/
def twoExceptions : Heap := .ofObjects [bareException "a", bareException "b"]

def firstRaised : Value := .heap 0 1
def secondRaised : Value := .heap 1 1

/-- `raise b` in a handler of `a`. -/
def replacing : Handling := ⟨twoExceptions, [[firstRaised]], some secondRaised⟩

def replaced : Handling := replacing.dispatch default ⟨"", ""⟩ [] (.handler 0)

theorem twoExceptions_bare (v : Value) : twoExceptions.context v = none := by
  unfold Heap.context
  cases found : twoExceptions.tryGet v with
  | none => rfl
  | some o =>
    obtain ⟨e, he, rfl⟩ := tryGet_eq_some.mp found
    obtain ⟨l, -, stored⟩ := entry_eq_some.mp he
    obtain ⟨o, mem, rfl⟩ := ofObjects_object.mp stored
    rcases List.mem_pair.mp (List.mem_of_getElem? mem) with rfl | rfl
    · rfl
    · rfl

/-- `raise a` again, in a handler of `b` that is in the handler of `a`. -/
def reraised : Handling :=
  Handling.dispatch default ⟨replaced.heap, [[firstRaised, secondRaised]], some firstRaised⟩
    ⟨"", ""⟩ [] (.handler 0)

theorem replacing_reached {allowed : Handling → Prop}
    (allows : allowed ⟨twoExceptions, [[]], some firstRaised⟩) :
    Reached default allowed replacing := by
  have start : Reached default allowed ⟨twoExceptions, [], none⟩ := by
    refine .start twoExceptions (Heap.ofObjects_sound (by decide) (by decide)) (fun v mem => ?_)
      twoExceptions_bare
    exact Heap.ofObjects_issued (List.all_eq_true.mp
      (by decide : (default : RuntimeTypes Value).roots.all (Heap.Within 2) = true) v mem)
  have entered : Reached default allowed ⟨twoExceptions, [[]], none⟩ :=
    start.step (.enter _ [] fun v mem => by cases mem)
  have raised : Reached default allowed ⟨twoExceptions, [[]], some firstRaised⟩ :=
    entered.step (.raise _ firstRaised (Heap.ofObjects_issued (by decide)))
  have handled : Reached default allowed ⟨twoExceptions, [[]], none⟩ :=
    raised.step (.dispatch _ ⟨"", ""⟩ [] (.handler 0) allows)
  have pushed : Reached default allowed ⟨twoExceptions, [[firstRaised]], none⟩ :=
    handled.step (.pushException _ firstRaised (Heap.ofObjects_issued (by decide)))
  exact pushed.step (.raise _ secondRaised (Heap.ofObjects_issued (by decide)))

theorem firstRaised_clear : Clear ⟨twoExceptions, [[]], some firstRaised⟩ := by
  intro e c _ active
  cases active

theorem replacing_clear : replacing.Clear := by
  intro e c raised active apart _ _ path
  cases raised
  cases active
  rcases Relation.ReflTransGen.cases_head path with same | ⟨d, link, -⟩
  · exact apart same
  · have bare : replacing.heap.context firstRaised = none := twoExceptions_bare firstRaised
    cases bare.symm.trans link

theorem contexts_end_replaced : replaced.Grounded :=
  (contexts_end ((replacing_reached firstRaised_clear).step
    (.dispatch replacing ⟨"", ""⟩ [] (.handler 0) replacing_clear))).1

theorem contexts_cycle : ¬ ∀ (types : RuntimeTypes Value) (s : Handling),
    Reached types (fun _ => True) s → s.Grounded := by
  intro grounded
  have proper := (reached_keeps (replacing_reached firstRaised_clear)).1
  have issued {v : Value} (old : twoExceptions.Issued v) : replaced.heap.Issued v :=
    (dispatch_cases ⟨"", ""⟩ [] (.handler 0) proper).after.2.issued old
  have handled : Reached default (fun _ => True) replaced :=
    (replacing_reached trivial).step (.dispatch replacing ⟨"", ""⟩ [] (.handler 0) trivial)
  have pushed := handled.step
    (.pushException _ secondRaised (issued (Heap.ofObjects_issued (by decide))))
  have raised := pushed.step (.raise _ firstRaised (issued (Heap.ofObjects_issued (by decide))))
  have reached : Reached default (fun _ => True) reraised :=
    raised.step (.dispatch _ ⟨"", ""⟩ [] (.handler 0) trivial)
  have link : reraised.heap.context firstRaised = some secondRaised := rfl
  have back : reraised.heap.context secondRaised = some firstRaised := rfl
  exact not_ends_of_cycle link (.single back) (grounded default reraised reached firstRaised)

end Cycle

end Tonic
