import Mathlib.Data.List.Nodup
import Mathlib.Logic.Function.Basic

/-!
## Wake-ups

The bookkeeping of a cooperative event loop. A source is pending until it completes, once. A task
suspends on a source and is queued again when the source completes, or when it is cancelled. The
events record what happened, the newest first; no operation reads them.
-/

namespace Wakeup

variable {τ ω κ : Type} [DecidableEq τ]

structure Source (τ ω : Type) where
  /-- Absent while the source is pending. -/
  outcome : Option ω
  waiters : List τ
  callbacks : List τ
deriving DecidableEq

inductive Ready (τ κ : Type) where
  | task (task : τ) (wake : κ)
  | callback (callback source : τ)

inductive Event (τ ω κ : Type) where
  /-- A loop starts; `carried` are the callbacks that its sources already have. -/
  | opened (carried : τ → List τ)
  | spawned (task : τ)
  | suspended (task : τ) (source : Option τ)
  | cancelled (task : τ) (wake : κ)
  | completed (source : τ) (outcome : ω)
  | registered (source callback : τ)
  | called (source callback : τ)

structure Board (τ ω κ : Type) where
  source : τ → Option (Source τ ω)
  waitingOn : τ → Option τ
  ready : List (Ready τ κ)
  /-- The tasks of the loop that is running. -/
  tasks : List τ
  current : Option τ
  running : Bool
  events : List (Event τ ω κ)

/-! ### What the events say -/

/-- Why a task will run next. -/
inductive Cause (τ κ : Type) where
  | idle
  | waits (source : τ)
  | cancelled (wake : κ)

def Event.causeOf (t : τ) : Event τ ω κ → Option (Cause τ κ)
  | .spawned u | .suspended u none => if u = t then some .idle else none
  | .suspended u (some s) => if u = t then some (.waits s) else none
  | .cancelled u wake => if u = t then some (.cancelled wake) else none
  | _ => none

def cause (t : τ) : List (Event τ ω κ) → Option (Cause τ κ)
  | [] => none
  | e :: es => (e.causeOf t).or (cause t es)

def Event.outcomeOf (s : τ) : Event τ ω κ → Option ω
  | .completed u o => if u = s then some o else none
  | _ => none

def outcome (s : τ) : List (Event τ ω κ) → Option ω
  | [] => none
  | e :: es => (e.outcomeOf s).or (outcome s es)

/-- How often the source has completed. -/
def completions (s : τ) (es : List (Event τ ω κ)) : Nat :=
  es.countP fun e => (e.outcomeOf s).isSome

/-- How often the callback was registered with the source, as far as the running loop knows. -/
def registrations (s c : τ) : List (Event τ ω κ) → Nat
  | [] => 0
  | .opened carried :: _ => (carried s).count c
  | .registered u d :: es => registrations s c es + if u = s ∧ d = c then 1 else 0
  | _ :: es => registrations s c es

/-- How often the running loop has called the callback for the source. -/
def calls (s c : τ) : List (Event τ ω κ) → Nat
  | [] => 0
  | .opened _ :: _ => 0
  | .called u d :: es => calls s c es + if u = s ∧ d = c then 1 else 0
  | _ :: es => calls s c es

def Ready.task? : Ready τ κ → Option τ
  | task t _ => some t
  | callback _ _ => none

def Ready.calls (s c : τ) : Ready τ κ → Bool
  | task _ _ => false
  | callback d u => d = c ∧ u = s

/-- The task to run, or the source that calls back. -/
def Ready.subject : Ready τ κ → τ
  | task t _ => t
  | callback _ s => s

def Event.Mentions (v : τ) : Event τ ω κ → Prop
  | .opened carried => carried v ≠ []
  | .completed s _ | .registered s _ | .called s _ => s = v
  | _ => False

namespace Board

variable (b : Board τ ω κ)

def queued : List τ := b.ready.filterMap Ready.task?

def pendingCalls (s c : τ) : Nat := b.ready.countP (Ready.calls s c)

def Pending (v : τ) : Prop := ∃ src, b.source v = some src ∧ src.outcome = none

/-! ### Operations -/

def create (v : τ) : Board τ ω κ :=
  { b with source := Function.update b.source v (some ⟨none, [], []⟩) }

/-- Nothing is queued while no loop is running. -/
def schedule (entries : List (Ready τ κ)) : Board τ ω κ :=
  { b with ready := if b.running then b.ready ++ entries else b.ready }

def record (e : Event τ ω κ) : Board τ ω κ := { b with events := e :: b.events }

variable (wake : ω → κ) (idle : κ)

def spawn (t : τ) : Board τ ω κ :=
  { ((b.create t).schedule [.task t idle]).record (.spawned t) with tasks := b.tasks ++ [t] }

/-- The source is done and has nobody left to tell. -/
def settle (s : τ) (o : ω) : Board τ ω κ :=
  { b with
    source := Function.update b.source s (some ⟨some o, [], []⟩)
    waitingOn := Function.update b.waitingOn s none
    events := .completed s o :: b.events }

def complete (s : τ) (src : Source τ ω) (o : ω) : Board τ ω κ :=
  (b.settle s o).schedule
    (src.callbacks.map (.callback · s) ++ src.waiters.map (.task · (wake o)))

/-- The task waits no more. -/
def leave (t : τ) : Board τ ω κ :=
  { b with
    source := fun v => (b.source v).map fun src =>
      if b.waitingOn t = some v then { src with waiters := src.waiters.filter (· ≠ t) } else src
    waitingOn := Function.update b.waitingOn t none }

def requeue (t : τ) (w : κ) : Board τ ω κ :=
  { b with
    ready := .task t w :: b.ready.filter fun e => e.task? ≠ some t
    events := .cancelled t w :: b.events }

def cancel (t : τ) (w : κ) : Board τ ω κ := (b.leave t).requeue t w

/-- The source is pending and keeps the callback. -/
def listen (s : τ) (src : Source τ ω) (c : τ) : Board τ ω κ :=
  { b with
    source := Function.update b.source s (some { src with callbacks := src.callbacks ++ [c] })
    events := .registered s c :: b.events }

/-- The source is done and the callback is queued at once. -/
def notify (s c : τ) : Board τ ω κ := (b.schedule [.callback c s]).record (.registered s c)

/-- The head of the queue is dropped. -/
def pop : Board τ ω κ := { b with ready := b.ready.tail }

def await (t s : τ) (src : Source τ ω) : Board τ ω κ :=
  { (match src.outcome with
    | none =>
      { b with
        source := Function.update b.source s
          (some { src with waiters := if t ∈ src.waiters then src.waiters else src.waiters ++ [t] })
        waitingOn := Function.update b.waitingOn t (some s) }
    | some o => b.schedule [.task t (wake o)]).record (.suspended t (some s)) with current := none }

def finish (t : τ) (src : Source τ ω) (o : ω) : Board τ ω κ :=
  { b.complete wake t src o with current := none }

def start : Board τ ω κ :=
  { b with
    ready := [], tasks := [], current := none, running := true
    events := .opened (fun v => (b.source v).elim [] (·.callbacks)) :: b.events }

def stop : Board τ ω κ := { b with ready := [], tasks := [], current := none, running := false }

/-- Sources go away, other than those the loop keeps. -/
structure Forgets (b c : Board τ ω κ) : Prop where
  source : ∀ {v src}, c.source v = some src →
    b.source v = some src ∧ c.waitingOn v = b.waitingOn v
  tasks : ∀ v ∈ b.tasks, c.source v = b.source v
  current : ∀ v, b.current = some v → c.source v = b.source v ∧ c.waitingOn v = b.waitingOn v
  waiting : ∀ t ∈ b.tasks, ∀ s, b.waitingOn t = some s → c.source s = b.source s
  rest : c.ready = b.ready ∧ c.tasks = b.tasks ∧ c.current = b.current ∧ c.running = b.running ∧
    c.events = b.events

/-! ### The invariant -/

/-- What a wake-up has to deliver. -/
def Due (t : τ) (w : κ) : Prop :=
  match cause t b.events with
  | some .idle => w = idle
  | some (.waits s) => ∃ o, outcome s b.events = some o ∧ w = wake o
  | some (.cancelled c) => w = c
  | none => False

structure Settled (b : Board τ ω κ) : Prop where
  /-- A waiter is suspended on the very source that lists it, and is nowhere else. -/
  waiter : ∀ {s src t own}, b.source s = some src → t ∈ src.waiters → b.source t = some own →
    src.outcome = none ∧ own.outcome = none ∧ b.waitingOn t = some s ∧
      cause t b.events = some (.waits s) ∧ t ∉ b.queued ∧ b.current ≠ some t
  once : ∀ {s src}, b.source s = some src → src.waiters.Nodup
  outcome : ∀ {s src}, b.source s = some src → src.outcome = Wakeup.outcome s b.events
  done : ∀ {s src}, b.source s = some src → src.outcome ≠ none →
    src.waiters = [] ∧ src.callbacks = []
  queued : ∀ {t}, b.Pending t → b.queued.count t ≤ 1
  due : ∀ {t w}, .task t w ∈ b.ready → b.Pending t → b.Due wake idle t w
  current : ∀ {t}, b.current = some t → b.Pending t ∧ b.waitingOn t = none
  placed : ∀ {t}, t ∈ b.tasks → b.Pending t → b.current ≠ some t →
    t ∈ b.queued ∨ ∃ s src, b.source s = some src ∧ t ∈ src.waiters
  conserved : b.running = true → ∀ {s src} (c : τ), b.source s = some src →
    registrations s c b.events = src.callbacks.count c + b.pendingCalls s c + calls s c b.events
  stopped : b.running = false → b.ready = [] ∧ b.tasks = [] ∧ b.current = none
  single : ∀ s, completions s b.events ≤ 1

/-- Nothing refers to the handle yet. -/
structure Fresh (v : τ) : Prop where
  source : b.source v = none
  waiter : ∀ {s src}, b.source s = some src → v ∉ src.waiters
  queued : v ∉ b.queued
  listed : v ∉ b.tasks
  current : b.current ≠ some v
  outcome : Wakeup.outcome v b.events = none
  callbacks : ∀ c, registrations v c b.events = 0 ∧ b.pendingCalls v c = 0 ∧ calls v c b.events = 0

/-- Every handle the loop and the events refer to is one of `P`. -/
structure Known (P : τ → Prop) : Prop where
  ready : ∀ e ∈ b.ready, P e.subject
  tasks : ∀ t ∈ b.tasks, P t
  current : ∀ t, b.current = some t → P t
  events : ∀ e ∈ b.events, ∀ v, e.Mentions v → P v

end Board

end Wakeup
