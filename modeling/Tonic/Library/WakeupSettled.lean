import Tonic.Library.Wakeup

namespace Wakeup

variable {τ ω κ : Type} [DecidableEq τ]

theorem completions_cons {e : Event τ ω κ} {es : List (Event τ ω κ)} {s : τ}
    (h : e.outcomeOf s = none) : completions s (e :: es) = completions s es :=
  List.countP_cons_of_neg (by simp [h])

theorem completions_eq_zero {es : List (Event τ ω κ)} {s : τ} (h : outcome s es = none) :
    completions s es = 0 := by
  induction es with
  | nil => rfl
  | cons e es ih =>
    simp only [outcome, Option.or_eq_none_iff] at h
    rw [completions_cons h.1, ih h.2]

theorem single_cons {e : Event τ ω κ} {es : List (Event τ ω κ)} {s : τ}
    (h : completions s es ≤ 1) (he : e.outcomeOf s = none) : completions s (e :: es) ≤ 1 :=
  (completions_cons he).symm ▸ h

/-- The event only says why the task will run next. -/
def Event.Concerns (t : τ) : Event τ ω κ → Prop
  | .spawned u | .suspended u _ | .cancelled u _ => u = t
  | _ => False

namespace Event.Concerns

variable {t u : τ} {e : Event τ ω κ} {es : List (Event τ ω κ)}

theorem cause_ne (h : e.Concerns t) (ne : u ≠ t) : cause u (e :: es) = cause u es := by
  cases e with
  | spawned v => cases h; simp [cause, Event.causeOf, Ne.symm ne]
  | suspended v source =>
    cases h
    cases source <;> simp [cause, Event.causeOf, Ne.symm ne]
  | cancelled v w => cases h; simp [cause, Event.causeOf, Ne.symm ne]
  | opened | completed | registered | called => cases h

theorem outcome_eq (h : e.Concerns t) (s : τ) : outcome s (e :: es) = outcome s es := by
  cases e with
  | spawned | suspended | cancelled => rfl
  | opened | completed | registered | called => cases h

theorem completions_eq (h : e.Concerns t) (s : τ) :
    completions s (e :: es) = completions s es := by
  cases e with
  | spawned | suspended | cancelled => exact completions_cons rfl
  | opened | completed | registered | called => cases h

theorem registrations_eq (h : e.Concerns t) (s c : τ) :
    registrations s c (e :: es) = registrations s c es := by
  cases e with
  | spawned | suspended | cancelled => rfl
  | opened | completed | registered | called => cases h

theorem calls_eq (h : e.Concerns t) (s c : τ) : calls s c (e :: es) = calls s c es := by
  cases e with
  | spawned | suspended | cancelled => rfl
  | opened | completed | registered | called => cases h

end Event.Concerns

namespace Board

variable {b c : Board τ ω κ} {wake : ω → κ} {idle : κ} {s t u v : τ} {src : Source τ ω} {o : ω}
  {w : κ} {e : Event τ ω κ}

omit [DecidableEq τ] in
theorem mem_queued : t ∈ b.queued ↔ ∃ w, .task t w ∈ b.ready := by
  simp only [queued, List.mem_filterMap]
  constructor
  · rintro ⟨⟨u, w⟩ | _, he, eq⟩
    · cases eq
      exact ⟨w, he⟩
    · cases eq
  · rintro ⟨w, he⟩
    exact ⟨_, he, rfl⟩

theorem Due.concerns {c : Board τ ω κ} (h : b.Due wake idle u w) (events : c.events = e :: b.events)
    (he : e.Concerns t) (ne : u ≠ t) : c.Due wake idle u w := by
  simpa only [Due, events, he.cause_ne ne, he.outcome_eq] using h

theorem create_source_eq (h : (b.create v).source u = some src) :
    u = v ∧ src = ⟨none, [], []⟩ ∨ u ≠ v ∧ b.source u = some src := by
  simp only [create, Function.update_apply] at h
  split at h
  · next eq => exact .inl ⟨eq, by cases h; rfl⟩
  · next ne => exact .inr ⟨ne, h⟩

theorem create_pending (h : (b.create v).Pending u) : u = v ∨ b.Pending u := by
  obtain ⟨src, hs, hp⟩ := h
  exact (create_source_eq hs).imp (·.1) fun old => ⟨src, old.2, hp⟩

theorem create_source_ne (ne : u ≠ v) : (b.create v).source u = b.source u :=
  Function.update_of_ne ne _ _

theorem Settled.create (h : Settled wake idle b) (fresh : b.Fresh v) :
    Settled wake idle (b.create v) := by
  refine ⟨?_, ?_, ?_, ?_, ?_, ?_, ?_, ?_, ?_, h.stopped, h.single⟩
  · intro s src t own hs ht hown
    rcases create_source_eq hs with ⟨-, rfl⟩ | ⟨-, old⟩
    · cases ht
    · rcases create_source_eq hown with ⟨rfl, -⟩ | ⟨-, owned⟩
      · exact absurd ht (fresh.waiter old)
      · exact h.waiter old ht owned
  · intro s src hs
    rcases create_source_eq hs with ⟨-, rfl⟩ | ⟨-, old⟩
    · exact .nil
    · exact h.once old
  · intro s src hs
    rcases create_source_eq hs with ⟨rfl, rfl⟩ | ⟨-, old⟩
    · exact fresh.outcome.symm
    · exact h.outcome old
  · intro s src hs done
    rcases create_source_eq hs with ⟨-, rfl⟩ | ⟨-, old⟩
    · exact ⟨rfl, rfl⟩
    · exact h.done old done
  · intro t ht
    rcases create_pending ht with rfl | old
    · exact (List.count_eq_zero.mpr fresh.queued).symm ▸ Nat.zero_le 1
    · exact h.queued old
  · intro t w hw ht
    rcases create_pending ht with rfl | old
    · exact absurd (mem_queued.mpr ⟨w, hw⟩) fresh.queued
    · exact h.due hw old
  · intro t ht
    obtain ⟨⟨src, hs, pending⟩, waits⟩ := h.current ht
    have ne : t ≠ v := fun eq => fresh.current (eq ▸ ht)
    exact ⟨⟨src, (create_source_ne ne).trans hs, pending⟩, waits⟩
  · intro t ht hp running
    rcases create_pending hp with rfl | old
    · exact absurd ht fresh.listed
    · refine (h.placed ht old running).imp_right fun ⟨s, src, hs, mem⟩ => ⟨s, src, ?_, mem⟩
      rw [create_source_ne, hs]
      rintro rfl
      rw [fresh.source] at hs
      cases hs
  · intro running s src c hs
    rcases create_source_eq hs with ⟨rfl, rfl⟩ | ⟨-, old⟩
    · obtain ⟨registered, queued, called⟩ := fresh.callbacks c
      exact registered.trans (by simp [show (b.create s).pendingCalls s c = 0 from queued,
        show calls s c (b.create s).events = 0 from called])
    · exact h.conserved running c old

/-- A task that is nowhere goes to the back of the queue. -/
theorem Settled.enqueue (h : Settled wake idle b) (running : b.running = true)
    (ready : c.ready = b.ready ++ [.task t w]) (events : c.events = e :: b.events)
    (source : c.source = b.source) (waitingOn : c.waitingOn = b.waitingOn)
    (still : c.running = b.running) (tasks : ∀ u ∈ c.tasks, u = t ∨ u ∈ b.tasks)
    (kept : ∀ {u}, c.current = some u → b.current = some u ∧ u ≠ t)
    (current : ∀ {u}, b.current = some u → c.current = some u ∨ u = t)
    (he : e.Concerns t) (due : c.Due wake idle t w) (unqueued : t ∉ b.queued)
    (apart : ∀ {s src}, b.source s = some src → t ∉ src.waiters) : Settled wake idle c := by
  have queue : c.queued = b.queued ++ [t] := by simp [Board.queued, ready, Ready.task?]
  have calls (s d : τ) : c.pendingCalls s d = b.pendingCalls s d := by
    simp [pendingCalls, ready, Ready.calls, List.countP_append]
  refine ⟨?_, ?_, ?_, ?_, ?_, ?_, ?_, ?_, ?_, ?_,
    fun x => by rw [events, he.completions_eq]; exact h.single x⟩
  · intro s src u own hs hu hown
    rw [source] at hs hown
    have ne : u ≠ t := fun eq => apart hs (eq ▸ hu)
    obtain ⟨a, b, waits, cause, unqueued, other⟩ := h.waiter hs hu hown
    refine ⟨a, b, waitingOn ▸ waits, ?_, ?_, fun eq => other (kept eq).1⟩
    · rw [events, he.cause_ne ne, cause]
    · simp [queue, unqueued, ne]
  · intro s src hs
    exact h.once (source ▸ hs)
  · intro s src hs
    rw [events, he.outcome_eq]
    exact h.outcome (source ▸ hs)
  · intro s src hs
    exact h.done (source ▸ hs)
  · intro u hu
    have := h.queued (show b.Pending u by simpa [Pending, source] using hu)
    rw [queue, List.count_append]
    by_cases eq : u = t
    · subst eq
      simp [List.count_eq_zero.mpr unqueued]
    · simpa [List.count_singleton, Ne.symm eq] using this
  · intro u w' hw hu
    rw [ready, List.mem_append, List.mem_singleton] at hw
    rcases hw with old | new
    · have ne : u ≠ t := fun eq => unqueued (mem_queued.mpr ⟨w', eq ▸ old⟩)
      exact (h.due old (by simpa [Pending, source] using hu)).concerns events he ne
    · cases new
      exact due
  · intro u hu
    obtain ⟨pending, waits⟩ := h.current (kept hu).1
    exact ⟨by simpa [Pending, source] using pending, waitingOn ▸ waits⟩
  · intro u hu hp other
    by_cases eq : u = t
    · exact .inl (by simp [queue, eq])
    · have before : b.current ≠ some u := fun cur => (current cur).elim other eq
      refine (h.placed ((tasks u hu).resolve_left eq) (by simpa [Pending, source] using hp)
        before).imp (fun old => by simp [queue, old]) ?_
      exact fun ⟨s, src, hs, mem⟩ => ⟨s, src, source ▸ hs, mem⟩
  · intro running s src d hs
    rw [events, he.registrations_eq, he.calls_eq, calls]
    exact h.conserved (still ▸ running) d (source ▸ hs)
  · intro stopped
    rw [still, running] at stopped
    cases stopped

theorem outcome_completed {es : List (Event τ ω κ)} (s u : τ) (o : ω) :
    outcome u (.completed s o :: es) = if u = s then some o else outcome u es := by
  by_cases eq : u = s
  · simp [outcome, Event.outcomeOf, eq]
  · simp [outcome, Event.outcomeOf, eq, Ne.symm eq]

/-- A pending source that waits for nothing completes: its waiters and callbacks are queued. -/
theorem Settled.complete (h : Settled wake idle b) (hs : b.source s = some src)
    (pending : src.outcome = none) (waits : b.waitingOn s = none)
    (source : c.source = (b.complete wake s src o).source)
    (waitingOn : c.waitingOn = (b.complete wake s src o).waitingOn)
    (ready : c.ready = (b.complete wake s src o).ready)
    (events : c.events = (b.complete wake s src o).events)
    (still : c.running = b.running) (tasks : c.tasks = b.tasks)
    (kept : ∀ {u}, c.current = some u → b.current = some u ∧ u ≠ s)
    (current : ∀ {u}, b.current = some u → c.current = some u ∨ u = s) :
    Settled wake idle c := by
  simp only [Board.complete, Board.settle, Board.schedule] at source waitingOn ready events
  have open' : Wakeup.outcome s b.events = none := by rw [← h.outcome hs, pending]
  have sourced {u : τ} {own : Source τ ω} (hu : c.source u = some own) :
      u = s ∧ own = ⟨some o, [], []⟩ ∨ u ≠ s ∧ b.source u = some own := by
    rw [source, Function.update_apply] at hu
    split at hu
    · next eq => exact .inl ⟨eq, by cases hu; rfl⟩
    · next ne => exact .inr ⟨ne, hu⟩
  have stays {u : τ} {own : Source τ ω} (hu : b.source u = some own) (ne : u ≠ s) :
      c.source u = some own := by
    rw [source, Function.update_of_ne ne, hu]
  have before {u : τ} (hu : c.Pending u) : u ≠ s ∧ b.Pending u := by
    obtain ⟨own, hu, open''⟩ := hu
    rcases sourced hu with ⟨-, rfl⟩ | ⟨ne, old⟩
    · cases open''
    · exact ⟨ne, own, old, open''⟩
  have waiter {u : τ} {own : Source τ ω} (mem : u ∈ src.waiters) (hu : b.source u = some own) :
      own.outcome = none ∧ cause u b.events = some (.waits s) ∧ u ∉ b.queued ∧
        b.current ≠ some u :=
    (h.waiter hs mem hu).2.imp_right (·.2)
  have queue : c.queued = if b.running then b.queued ++ src.waiters else b.queued := by
    by_cases run : b.running = true
    · simp [Board.queued, ready, run, List.filterMap_map, Function.comp_def, Ready.task?]
    · simp [Board.queued, ready, run]
  have asked (u : τ) : cause u c.events = cause u b.events := by
    rw [events]
    rfl
  have told (u : τ) : Wakeup.outcome u c.events =
      if u = s then some o else Wakeup.outcome u b.events := by
    rw [events, outcome_completed]
  refine ⟨?_, ?_, ?_, ?_, ?_, ?_, ?_, ?_, ?_, ?_, ?_⟩
  · intro s' src' u own hs' hu hown
    rcases sourced hs' with ⟨-, rfl⟩ | ⟨ne, old⟩
    · cases hu
    · rcases sourced hown with ⟨rfl, -⟩ | ⟨ne', owned⟩
      · have := (h.waiter old hu hs).2.2.1
        rw [waits] at this
        cases this
      · obtain ⟨a, p, on, why, unqueued, other⟩ := h.waiter old hu owned
        refine ⟨a, p, ?_, (asked u).trans why, ?_, fun cur => other (kept cur).1⟩
        · rw [waitingOn, Function.update_of_ne ne', on]
        · have apart : u ∉ src.waiters := fun mem => by
            have := (h.waiter hs mem owned).2.2.1
            rw [on] at this
            cases this
            exact ne rfl
          rw [queue]
          split <;> simp [unqueued, apart]
  · intro s' src' hs'
    rcases sourced hs' with ⟨-, rfl⟩ | ⟨-, old⟩
    · exact .nil
    · exact h.once old
  · intro s' src' hs'
    rw [told]
    rcases sourced hs' with ⟨rfl, rfl⟩ | ⟨ne, old⟩
    · simp
    · rw [if_neg ne]
      exact h.outcome old
  · intro s' src' hs' done
    rcases sourced hs' with ⟨-, rfl⟩ | ⟨-, old⟩
    · exact ⟨rfl, rfl⟩
    · exact h.done old done
  · intro u hu
    obtain ⟨ne, old⟩ := before hu
    have most := h.queued old
    rw [queue]
    split
    · rw [List.count_append]
      by_cases mem : u ∈ src.waiters
      · obtain ⟨own, owned, -⟩ := old
        rw [List.count_eq_zero.mpr (waiter mem owned).2.2.1, Nat.zero_add]
        exact List.nodup_iff_count_le_one.mp (h.once hs) u
      · rwa [List.count_eq_zero.mpr mem]
    · exact most
  · intro u w hw hu
    obtain ⟨ne, old⟩ := before hu
    have due (due : b.Due wake idle u w) : c.Due wake idle u w := by
      simp only [Due, asked] at due ⊢
      split at due
      · exact due
      · obtain ⟨o', ho, hw⟩ := due
        refine ⟨o', ?_, hw⟩
        rw [told, if_neg, ho]
        rintro rfl
        rw [open'] at ho
        cases ho
      · exact due
      · exact due
    rw [ready] at hw
    by_cases run : b.running = true
    · simp only [run, if_true, List.mem_append, List.mem_map, reduceCtorEq, and_false, exists_false,
        false_or, Ready.task.injEq] at hw
      rcases hw with hw | ⟨u', mem, rfl, rfl⟩
      · exact due (h.due hw old)
      · obtain ⟨own, owned, -⟩ := old
        simp only [Due, asked, (waiter mem owned).2.1, told]
        exact ⟨o, rfl, rfl⟩
    · exact due (h.due (by simpa [run] using hw) old)
  · intro u hu
    obtain ⟨cur, ne⟩ := kept hu
    obtain ⟨⟨own, owned, open''⟩, on⟩ := h.current cur
    exact ⟨⟨own, stays owned ne, open''⟩, by rw [waitingOn, Function.update_of_ne ne, on]⟩
  · intro u hu hp other
    obtain ⟨ne, old⟩ := before hp
    have cur : b.current ≠ some u := fun cur => (current cur).elim other ne
    rw [queue]
    rcases h.placed (tasks ▸ hu) old cur with queued | ⟨s', src', hs', mem⟩
    · left
      split <;> simp [queued]
    · by_cases eq : s' = s
      · cases eq
        rw [hs] at hs'
        cases hs'
        by_cases run : b.running = true
        · exact .inl (by simp [run, mem])
        · have := (h.stopped (by simpa using run)).2.1
          rw [tasks, this] at hu
          cases hu
      · exact .inr ⟨s', src', stays hs' eq, mem⟩
  · intro running s' src' d hs'
    rw [still] at running
    have count (x : τ) : c.pendingCalls x d =
        b.pendingCalls x d + if x = s then src.callbacks.count d else 0 := by
      simp only [pendingCalls, ready, running, if_true, List.countP_append, List.countP_map]
      congr 1
      have none : src.waiters.countP (Ready.calls x d ∘ (Ready.task · (wake o))) = 0 :=
        List.countP_eq_zero.mpr fun _ _ => by simp [Ready.calls]
      rw [none, Nat.add_zero]
      by_cases eq : x = s
      · simp [eq, List.count, Function.comp_def, Ready.calls, beq_eq_decide]
      · rw [if_neg eq]
        exact List.countP_eq_zero.mpr fun _ _ => by simp [Ready.calls, Ne.symm eq]
    have conserved {own : Source τ ω} := @h.conserved running s' own d
    rw [events, count]
    simp only [registrations, calls]
    rcases sourced hs' with ⟨rfl, rfl⟩ | ⟨ne, old⟩
    · rw [conserved hs, if_pos rfl]
      simp only [List.count_nil]
      omega
    · rw [conserved old, if_neg ne, Nat.add_zero]
  · intro stopped
    rw [still] at stopped
    obtain ⟨empty, none, idle⟩ := h.stopped stopped
    refine ⟨by simp [ready, stopped, empty], tasks.trans none, ?_⟩
    cases cur : c.current with
    | none => rfl
    | some u =>
      have := (kept cur).1
      rw [idle] at this
      cases this
  · intro x
    rw [events]
    by_cases eq : s = x
    · subst eq
      have one : completions s (.completed s o :: b.events) = completions s b.events + 1 :=
        List.countP_cons_of_pos (by simp [Event.outcomeOf])
      have first : completions s (.completed s o :: b.events) = 1 := by
        rw [one, completions_eq_zero open']
      exact Nat.le_of_eq first
    · exact single_cons (h.single x) (if_neg eq)

theorem Settled.spawn (h : Settled wake idle b) (running : b.running = true) (fresh : b.Fresh t) :
    Settled wake idle (b.spawn idle t) := by
  refine (h.create fresh).enqueue (e := .spawned t) (t := t) (w := idle) running ?_ rfl rfl rfl rfl
    ?_ ?_ (fun cur => .inl cur) rfl ?_ fresh.queued ?_
  · simp [Board.spawn, schedule, record, Board.create, running]
  · intro u hu
    exact (List.mem_append.mp hu).symm.imp_left List.mem_singleton.mp
  · exact fun cur => ⟨cur, fun eq => fresh.current (eq ▸ cur)⟩
  · simp [Due, Board.spawn, record, cause, Event.causeOf]
  · intro s src hs
    rcases create_source_eq hs with ⟨-, rfl⟩ | ⟨-, old⟩
    · exact List.not_mem_nil
    · exact fresh.waiter old

/-- The task that is running suspends; it must not be queued already. -/
theorem Settled.suspend (h : Settled wake idle b) (running : b.running = true)
    (current : b.current = some t) (unqueued : t ∉ b.queued)
    (ready : c.ready = b.ready ++ [.task t w]) (events : c.events = e :: b.events)
    (rest : c.source = b.source ∧ c.waitingOn = b.waitingOn ∧ c.running = b.running ∧
      c.tasks = b.tasks ∧ c.current = none)
    (he : e.Concerns t) (due : c.Due wake idle t w) : Settled wake idle c := by
  obtain ⟨source, waitingOn, still, tasks, stopped⟩ := rest
  refine h.enqueue running ready events source waitingOn still (fun u hu => .inr (tasks ▸ hu)) ?_ ?_
    he due unqueued ?_
  · intro u cur
    rw [stopped] at cur
    cases cur
  · intro u cur
    rw [current] at cur
    cases cur
    exact .inr rfl
  · intro s src hs mem
    obtain ⟨own, owned, -⟩ := (h.current current).1
    exact (h.waiter hs mem owned).2.2.2.2.2 current

theorem Settled.await (h : Settled wake idle b) (running : b.running = true)
    (current : b.current = some t) (unqueued : t ∉ b.queued) (hs : b.source s = some src) :
    Settled wake idle (b.await wake t s src) := by
  cases ho : src.outcome with
  | some o =>
    refine h.suspend (e := .suspended t (some s)) running current unqueued (w := wake o) ?_ ?_ ?_ rfl
      ?_
    · simp [Board.await, ho, schedule, record, running]
    · simp [Board.await, ho, schedule, record]
    · simp [Board.await, ho, schedule, record]
    · have : Wakeup.outcome s b.events = some o := by rw [← h.outcome hs, ho]
      simp [Due, Board.await, ho, schedule, record, cause, Event.causeOf, Wakeup.outcome,
        Event.outcomeOf, this]
  | none =>
    obtain ⟨⟨own, owned, pending⟩, waits⟩ := h.current current
    have apart {s' : τ} {src' : Source τ ω} (hs' : b.source s' = some src') : t ∉ src'.waiters :=
      fun mem => (h.waiter hs' mem owned).2.2.2.2.2 current
    have eq : b.await wake t s src = { b with
        source := Function.update b.source s (some { src with waiters := src.waiters ++ [t] })
        waitingOn := Function.update b.waitingOn t (some s)
        current := none
        events := .suspended t (some s) :: b.events } := by
      simp [Board.await, ho, record, apart hs]
    rw [eq]
    have sourced {u : τ} {own : Source τ ω}
        (hu : Function.update b.source s (some { src with waiters := src.waiters ++ [t] }) u =
          some own) :
        u = s ∧ own = { src with waiters := src.waiters ++ [t] } ∨ u ≠ s ∧ b.source u = some own := by
      rw [Function.update_apply] at hu
      split at hu
      · next eq => exact .inl ⟨eq, by cases hu; rfl⟩
      · next ne => exact .inr ⟨ne, hu⟩
    have before {u : τ} {own : Source τ ω}
        (hu : Function.update b.source s (some { src with waiters := src.waiters ++ [t] }) u =
          some own) :
        ∃ old, b.source u = some old ∧ own.outcome = old.outcome ∧ own.callbacks = old.callbacks ∧
          ∀ v ∈ own.waiters, v ∈ old.waiters ∨ u = s ∧ v = t := by
      rcases sourced hu with ⟨rfl, rfl⟩ | ⟨-, old⟩
      · refine ⟨src, hs, rfl, rfl, fun v hv => ?_⟩
        simp only [List.mem_append, List.mem_singleton] at hv
        exact hv.imp_right fun eq => ⟨rfl, eq⟩
      · exact ⟨own, old, rfl, rfl, fun v hv => .inl hv⟩
    have concerns : Event.Concerns t (.suspended t (some s) : Event τ ω κ) := rfl
    refine ⟨?_, ?_, ?_, ?_, ?_, ?_, ?_, ?_, ?_, ?_,
      fun x => single_cons (h.single x) rfl⟩
    · intro s' src' u own hs' hu hown
      obtain ⟨old', was', out', -, waiters⟩ := before hs'
      obtain ⟨old, was, out, -, -⟩ := before hown
      rw [out', out]
      rcases waiters u hu with mem | ⟨rfl, rfl⟩
      · obtain ⟨a, p, on, why, unqueued, other⟩ := h.waiter was' mem was
        have ne : u ≠ t := fun eq => other (eq ▸ current)
        exact ⟨a, p, (Function.update_of_ne ne _ _).trans on, (concerns.cause_ne ne).trans why,
          unqueued, Option.some_ne_none u ∘ Eq.symm⟩
      · rw [hs] at was'
        rw [owned] at was
        cases was'
        cases was
        exact ⟨ho, pending, Function.update_self .., by simp [cause, Event.causeOf], unqueued,
          Option.some_ne_none u ∘ Eq.symm⟩
    · intro s' src' hs'
      rcases sourced hs' with ⟨-, rfl⟩ | ⟨-, old⟩
      · exact (h.once hs).append (List.nodup_singleton t) (by simpa using apart hs)
      · exact h.once old
    · intro s' src' hs'
      obtain ⟨old, hs', out, -, -⟩ := before hs'
      rw [out, concerns.outcome_eq]
      exact h.outcome hs'
    · intro s' src' hs' done
      rcases sourced hs' with ⟨-, rfl⟩ | ⟨-, old⟩
      · exact absurd ho done
      · exact h.done old done
    · rintro u ⟨own, hu, pending⟩
      obtain ⟨old, hu, out, -, -⟩ := before hu
      exact h.queued ⟨old, hu, out ▸ pending⟩
    · rintro u w hw ⟨own, hu, pending⟩
      obtain ⟨old, hu, out, -, -⟩ := before hu
      have ne : u ≠ t := fun eq => unqueued (mem_queued.mpr ⟨w, eq ▸ hw⟩)
      exact (h.due hw ⟨old, hu, out ▸ pending⟩).concerns rfl concerns ne
    · intro u cur
      cases cur
    · rintro u hu ⟨own, hp, pending⟩ -
      obtain ⟨old, hp, out, -, -⟩ := before hp
      by_cases eq : u = t
      · exact .inr ⟨s, _, Function.update_self .., by simp [eq]⟩
      · have other : b.current ≠ some u := fun cur => by
          rw [current] at cur
          cases cur
          exact eq rfl
        refine (h.placed hu ⟨old, hp, out ▸ pending⟩ other).imp_right ?_
        rintro ⟨s', src', hs', mem⟩
        by_cases same : s' = s
        · cases same
          rw [hs] at hs'
          cases hs'
          exact ⟨s, _, Function.update_self .., by simp [mem]⟩
        · exact ⟨s', src', (Function.update_of_ne same _ _).trans hs', mem⟩
    · intro running s' src' d hs'
      obtain ⟨old, hs', -, callbacks, -⟩ := before hs'
      rw [callbacks]
      exact h.conserved running d hs'
    · intro stopped
      rw [show b.running = false from stopped] at running
      cases running

theorem Settled.finish (h : Settled wake idle b) (current : b.current = some t)
    (hs : b.source t = some src) : Settled wake idle (b.finish wake t src o) := by
  obtain ⟨⟨own, owned, pending⟩, waits⟩ := h.current current
  rw [hs] at owned
  cases owned
  refine h.complete hs pending waits rfl rfl rfl rfl rfl rfl (fun cur => by cases cur) ?_
  intro u cur
  rw [current] at cur
  cases cur
  exact .inr rfl

section Leave

/-- What leaving changes in a source. -/
theorem leave_source (h : (b.leave t).source s = some src) :
    ∃ old, b.source s = some old ∧ src.outcome = old.outcome ∧ src.callbacks = old.callbacks ∧
      (∀ u ∈ src.waiters, u ∈ old.waiters ∧ (u = t → b.waitingOn t ≠ some s)) ∧
      (∀ u ∈ old.waiters, u ≠ t → u ∈ src.waiters) ∧ (old.waiters.Nodup → src.waiters.Nodup) := by
  simp only [leave, Option.map_eq_some_iff] at h
  obtain ⟨old, hs, rfl⟩ := h
  refine ⟨old, hs, ?_⟩
  split
  · refine ⟨rfl, rfl, fun u hu => ?_, fun u hu ne => ?_, fun h => h.filter _⟩
    · obtain ⟨mem, ne⟩ := List.mem_filter.mp hu
      exact ⟨mem, fun eq => absurd eq (by simpa using ne)⟩
    · exact List.mem_filter.mpr ⟨hu, by simpa using ne⟩
  · next other => exact ⟨rfl, rfl, fun u hu => ⟨hu, fun _ => other⟩, fun u hu _ => hu, id⟩

theorem leave_keeps (h : b.source s = some src) : ∃ new, (b.leave t).source s = some new ∧
    new.outcome = src.outcome ∧ ∀ u ∈ src.waiters, u ≠ t → u ∈ new.waiters := by
  have present : ∃ new, (b.leave t).source s = some new := ⟨_, by simp only [leave, h]; rfl⟩
  obtain ⟨new, kept⟩ := present
  obtain ⟨old, hs, out, -, -, waiters, -⟩ := leave_source kept
  rw [h] at hs
  cases hs
  exact ⟨_, kept, out, waiters⟩

theorem leave_pending : (b.leave t).Pending u ↔ b.Pending u := by
  constructor
  · rintro ⟨src, hs, pending⟩
    obtain ⟨old, hs, out, -⟩ := leave_source hs
    exact ⟨old, hs, out ▸ pending⟩
  · rintro ⟨src, hs, pending⟩
    obtain ⟨new, hs, out, -⟩ := leave_keeps (t := t) hs
    exact ⟨new, hs, out.trans pending⟩

theorem leave_waitingOn (h : b.waitingOn u = none) : (b.leave t).waitingOn u = none := by
  simp only [leave, Function.update_apply]
  split
  · rfl
  · exact h

/-- A task that no source lists only forgets what it waits for. -/
theorem leave_apart (apart : ∀ {s src}, b.source s = some src → t ∉ src.waiters) :
    b.leave t = { b with waitingOn := Function.update b.waitingOn t none } := by
  have same : (b.leave t).source = b.source := by
    funext v
    simp only [leave]
    cases hs : b.source v with
    | none => rfl
    | some src =>
      have all : src.waiters.filter (· ≠ t) = src.waiters :=
        List.filter_eq_self.mpr fun u hu => decide_eq_true fun eq => apart hs (eq ▸ hu)
      rw [Option.map_some, all, ite_self]
  calc b.leave t = { b with source := (b.leave t).source, waitingOn := _ } := rfl
    _ = _ := by rw [same]

/-- A task that leaves its source is listed nowhere, as long as it is still there itself. -/
theorem Settled.left (h : Settled wake idle b) {own : Source τ ω} (owned : b.source t = some own)
    (hs : (b.leave t).source s = some src) : t ∉ src.waiters := by
  intro mem
  obtain ⟨old, was, -, -, waiters, -⟩ := leave_source hs
  obtain ⟨mem, other⟩ := waiters t mem
  exact other rfl (h.waiter was mem owned).2.2.1

theorem Settled.leave (h : Settled wake idle b)
    (apart : b.running = true → ∀ {s src}, b.source s = some src → t ∉ src.waiters) :
    Settled wake idle (b.leave t) := by
  refine ⟨?_, ?_, ?_, ?_, ?_, ?_, ?_, ?_, ?_, h.stopped, h.single⟩
  · intro s src u own hs hu hown
    obtain ⟨old, was, out, -, waiters, -⟩ := leave_source hs
    obtain ⟨mem, other⟩ := waiters u hu
    obtain ⟨old', owned, out', -⟩ := leave_source hown
    obtain ⟨a, p, on, rest⟩ := h.waiter was mem owned
    have ne : u ≠ t := fun eq => other eq (eq ▸ on)
    exact ⟨out.trans a, out'.trans p, (Function.update_of_ne ne _ _).trans on, rest⟩
  · intro s src hs
    obtain ⟨old, was, -, -, -, -, nodup⟩ := leave_source hs
    exact nodup (h.once was)
  · intro s src hs
    obtain ⟨old, was, out, -⟩ := leave_source hs
    exact out.trans (h.outcome was)
  · intro s src hs done
    obtain ⟨old, was, out, callbacks, waiters, -⟩ := leave_source hs
    obtain ⟨empty, none⟩ := h.done was (out ▸ done)
    refine ⟨List.eq_nil_iff_forall_not_mem.mpr fun u hu => ?_, callbacks.trans none⟩
    have := (waiters u hu).1
    rw [empty] at this
    cases this
  · exact fun hu => h.queued (leave_pending.mp hu)
  · exact fun hw hu => h.due hw (leave_pending.mp hu)
  · intro u cur
    obtain ⟨pending, on⟩ := h.current cur
    exact ⟨leave_pending.mpr pending, leave_waitingOn on⟩
  · intro u hu hp other
    by_cases run : b.running = true
    · refine (h.placed hu (leave_pending.mp hp) other).imp_right ?_
      rintro ⟨s, src, hs, mem⟩
      obtain ⟨new, kept, -, waiters⟩ := leave_keeps (t := t) hs
      exact ⟨s, new, kept, waiters u mem fun eq => apart run hs (eq ▸ mem)⟩
    · rw [show (b.leave t).tasks = [] from (h.stopped (by simpa using run)).2.1] at hu
      cases hu
  · intro running s src d hs
    obtain ⟨old, was, -, callbacks, -⟩ := leave_source hs
    rw [callbacks]
    exact h.conserved running d was

/-- A pending task that is cancelled leaves its source and goes to the front of the queue. -/
theorem Settled.cancel (h : Settled wake idle b) (running : b.running = true)
    (pending : b.Pending t) : Settled wake idle (b.cancel t w) := by
  obtain ⟨own, owned, open'⟩ := pending
  have front : (b.cancel t w).ready = .task t w :: b.ready.filter fun e => e.task? ≠ some t := rfl
  have queue {u : τ} (ne : u ≠ t) : (b.cancel t w).queued.count u = b.queued.count u := by
    rw [Board.queued, front, List.filterMap_cons]
    simp only [Ready.task?, List.count_cons_of_ne (Ne.symm ne), Board.queued]
    induction b.ready with
    | nil => rfl
    | cons e l ih =>
      cases e with
      | task v x =>
        by_cases eq : v = t
        · subst eq
          simpa [Ready.task?, List.filterMap_cons, List.filter_cons,
            List.count_cons_of_ne (Ne.symm ne)] using ih
        · simpa [Ready.task?, List.filterMap_cons, List.filter_cons, eq, List.count_cons] using ih
      | callback => simpa [Ready.task?, List.filterMap_cons, List.filter_cons] using ih
  have mem {u : τ} (ne : u ≠ t) : u ∈ (b.cancel t w).queued ↔ u ∈ b.queued := by
    rw [← List.count_pos_iff, queue ne, List.count_pos_iff]
  have once : (b.cancel t w).queued.count t = 1 := by
    have others : t ∉ (b.ready.filter fun e => e.task? ≠ some t).filterMap Ready.task? := by
      intro mem
      obtain ⟨e, he, eq⟩ := List.mem_filterMap.mp mem
      have := (List.mem_filter.mp he).2
      simp [eq] at this
    rw [Board.queued, front, List.filterMap_cons]
    exact List.count_cons_self.trans (by rw [List.count_eq_zero.mpr others])
  have concerns : Event.Concerns t (.cancelled t w : Event τ ω κ) := rfl
  refine ⟨?_, ?_, ?_, ?_, ?_, ?_, ?_, ?_, ?_, ?_,
    fun x => single_cons (h.single x) rfl⟩
  · intro s src u own' hs hu hown
    have ne : u ≠ t := fun eq => h.left owned hs (eq ▸ hu)
    obtain ⟨old, was, out, -, waiters, -⟩ := leave_source hs
    obtain ⟨old', owned, out', -⟩ := leave_source hown
    obtain ⟨a, p, on, why, unqueued, other⟩ := h.waiter was (waiters u hu).1 owned
    exact ⟨out.trans a, out'.trans p, (Function.update_of_ne ne _ _).trans on,
      (concerns.cause_ne ne).trans why, fun queued => unqueued ((mem ne).mp queued), other⟩
  · intro s src hs
    obtain ⟨old, was, -, -, -, -, nodup⟩ := leave_source hs
    exact nodup (h.once was)
  · intro s src hs
    obtain ⟨old, was, out, -⟩ := leave_source hs
    exact (out.trans (h.outcome was)).trans (concerns.outcome_eq s).symm
  · intro s src hs done
    obtain ⟨old, was, out, callbacks, waiters, -⟩ := leave_source hs
    obtain ⟨empty, none⟩ := h.done was (out ▸ done)
    refine ⟨List.eq_nil_iff_forall_not_mem.mpr fun u hu => ?_, callbacks.trans none⟩
    have := (waiters u hu).1
    rw [empty] at this
    cases this
  · intro u hu
    by_cases eq : u = t
    · exact Nat.le_of_eq (eq ▸ once)
    · rw [queue eq]
      exact h.queued (leave_pending.mp hu)
  · intro u x hx hu
    rw [front, List.mem_cons, List.mem_filter] at hx
    rcases hx with eq | ⟨old, ne⟩
    · cases eq
      simp [Due, Board.cancel, requeue, cause, Event.causeOf]
    · have ne : u ≠ t := by simpa [Ready.task?] using ne
      exact (h.due old (leave_pending.mp hu)).concerns rfl concerns ne
  · intro u cur
    obtain ⟨pending, on⟩ := h.current cur
    exact ⟨leave_pending.mpr pending, leave_waitingOn on⟩
  · intro u hu hp other
    by_cases eq : u = t
    · exact .inl (List.count_pos_iff.mp (by rw [eq, once]; exact Nat.one_pos))
    · refine (h.placed hu (leave_pending.mp hp) other).imp (mem eq).mpr ?_
      rintro ⟨s, src, hs, mem⟩
      obtain ⟨new, kept, -, waiters⟩ := leave_keeps (t := t) hs
      exact ⟨s, new, kept, waiters u mem eq⟩
  · intro running s src d hs
    obtain ⟨old, was, -, callbacks, -⟩ := leave_source hs
    have same : (b.cancel t w).pendingCalls s d = b.pendingCalls s d := by
      rw [pendingCalls, front, List.countP_cons_of_neg (by simp [Ready.calls]),
        List.countP_filter]
      refine List.countP_congr fun e _ => ?_
      cases e <;> simp [Ready.calls, Ready.task?]
    rw [callbacks, same]
    exact h.conserved running d was
  · intro stopped
    rw [show b.running = false from stopped] at running
    cases running

end Leave

theorem Settled.notify (h : Settled wake idle b) (s d : τ) :
    Settled wake idle (b.notify s d) := by
  have ready : (b.notify s d).ready = if b.running then b.ready ++ [.callback d s] else b.ready :=
    rfl
  have queue : (b.notify s d).queued = b.queued := by
    rw [Board.queued, ready]
    split <;> simp [Board.queued, Ready.task?]
  refine ⟨?_, h.once, h.outcome, h.done, ?_, ?_, h.current, ?_, ?_, ?_,
    fun x => single_cons (h.single x) rfl⟩
  · intro s' src' u own
    rw [queue]
    exact h.waiter
  · intro u
    rw [queue]
    exact h.queued
  · intro u w hw hu
    refine h.due (w := w) ?_ hu
    rw [ready] at hw
    split at hw
    · simpa using hw
    · exact hw
  · intro u
    rw [queue]
    exact h.placed
  · intro running s' src' x hs'
    have count : (b.notify s d).pendingCalls s' x =
        b.pendingCalls s' x + if s = s' ∧ d = x then 1 else 0 := by
      rw [pendingCalls, ready, if_pos (show b.running = true from running), List.countP_append, List.countP_singleton]
      simp [pendingCalls, Ready.calls, and_comm]
    have registered : registrations s' x (b.notify s d).events =
        registrations s' x b.events + if s = s' ∧ d = x then 1 else 0 := rfl
    have called : calls s' x (b.notify s d).events = calls s' x b.events := rfl
    rw [registered, called, count, h.conserved running x hs']
    omega
  · intro stopped
    obtain ⟨empty, none, idle⟩ := h.stopped stopped
    exact ⟨by rw [ready, show b.running = false from stopped, empty]; rfl, none, idle⟩

theorem listen_before (hs : b.source s = some src) {d : τ} {own : Source τ ω}
    (hu : (b.listen s src d).source u = some own) :
    ∃ old, b.source u = some old ∧ own.outcome = old.outcome ∧ own.waiters = old.waiters ∧
      own.callbacks = old.callbacks ++ if u = s then [d] else [] := by
  simp only [listen, Function.update_apply] at hu
  split at hu
  · next same =>
    cases hu
    cases same
    exact ⟨src, hs, rfl, rfl, by simp⟩
  · next ne => exact ⟨own, hu, rfl, rfl, by simp [ne]⟩

theorem listen_after (hs : b.source s = some src) {d : τ} {old : Source τ ω}
    (hu : b.source u = some old) : ∃ new, (b.listen s src d).source u = some new ∧
      new.outcome = old.outcome ∧ new.waiters = old.waiters := by
  by_cases same : u = s
  · cases same
    rw [hs] at hu
    cases hu
    exact ⟨_, Function.update_self .., rfl, rfl⟩
  · exact ⟨old, (Function.update_of_ne same _ _).trans hu, rfl, rfl⟩

theorem Settled.listen (h : Settled wake idle b) (hs : b.source s = some src)
    (open' : src.outcome = none) (d : τ) : Settled wake idle (b.listen s src d) := by
  have before {u : τ} (hu : (b.listen s src d).Pending u) : b.Pending u := by
    obtain ⟨own, hu, pending⟩ := hu
    obtain ⟨old, hu, out, -⟩ := listen_before hs hu
    exact ⟨old, hu, out ▸ pending⟩
  refine ⟨?_, ?_, ?_, ?_, fun hu => h.queued (before hu), ?_, ?_, ?_, ?_, h.stopped,
    fun x => single_cons (h.single x) rfl⟩
  · intro s' src' u own hs' hu hown
    obtain ⟨old, was, out, waiters, -⟩ := listen_before hs hs'
    obtain ⟨old', owned, out', -⟩ := listen_before hs hown
    rw [out, out']
    exact h.waiter was (waiters ▸ hu) owned
  · intro s' src' hs'
    obtain ⟨old, was, -, waiters, -⟩ := listen_before hs hs'
    rw [waiters]
    exact h.once was
  · intro s' src' hs'
    obtain ⟨old, was, out, -⟩ := listen_before hs hs'
    rw [out]
    exact h.outcome was
  · intro s' src' hs' done
    obtain ⟨old, was, out, waiters, callbacks⟩ := listen_before hs hs'
    have ne : s' ≠ s := by
      rintro rfl
      rw [hs] at was
      cases was
      exact done (out.trans open')
    rw [waiters, callbacks, if_neg ne, List.append_nil]
    exact h.done was (out ▸ done)
  · exact fun {u w} hw hu => h.due (w := w) hw (before hu)
  · intro u cur
    obtain ⟨⟨own, owned, pending⟩, on⟩ := h.current cur
    obtain ⟨new, kept, out, -⟩ := listen_after hs (d := d) owned
    exact ⟨⟨new, kept, out.trans pending⟩, on⟩
  · intro u hu hp other
    refine (h.placed hu (before hp) other).imp_right ?_
    rintro ⟨s', src', hs', mem⟩
    obtain ⟨new, kept, -, waiters⟩ := listen_after hs (d := d) hs'
    exact ⟨s', new, kept, waiters ▸ mem⟩
  · intro running s' src' x hs'
    obtain ⟨old, was, -, -, callbacks⟩ := listen_before hs hs'
    have count : src'.callbacks.count x =
        old.callbacks.count x + if s = s' ∧ d = x then 1 else 0 := by
      rw [callbacks, List.count_append]
      by_cases same : s' = s
      · simp [same, List.count_singleton, beq_iff_eq]
      · simp [same, Ne.symm same]
    have registered : registrations s' x (b.listen s src d).events =
        registrations s' x b.events + if s = s' ∧ d = x then 1 else 0 := rfl
    have called : calls s' x (b.listen s src d).events = calls s' x b.events := rfl
    have queued : (b.listen s src d).pendingCalls s' x = b.pendingCalls s' x := rfl
    rw [registered, called, queued, h.conserved running x was, count]
    omega

/-- The task at the head of the queue is done: it is passed over. -/
theorem Settled.skip (h : Settled wake idle b) {rest : List (Ready τ κ)}
    (ready : b.ready = .task t w :: rest) (done : ¬ b.Pending t) : Settled wake idle b.pop := by
  have queue : b.queued = t :: b.pop.queued := by
    simp [Board.queued, pop, ready, Ready.task?]
  have still : b.pop.ready = rest := by simp [pop, ready]
  refine ⟨?_, h.once, h.outcome, h.done, ?_, ?_, h.current, ?_, ?_, ?_, h.single⟩
  · intro s src u own hs hu hown
    obtain ⟨a, p, on, why, unqueued, other⟩ := h.waiter hs hu hown
    rw [queue] at unqueued
    exact ⟨a, p, on, why, fun mem => unqueued (List.mem_cons_of_mem _ mem), other⟩
  · intro u hu
    refine Nat.le_trans ?_ (h.queued hu)
    rw [queue]
    exact List.count_le_count_cons
  · intro u x hx hu
    exact h.due (by rw [ready]; exact List.mem_cons_of_mem _ (still ▸ hx)) hu
  · intro u hu hp other
    refine (h.placed hu hp other).imp_left fun mem => ?_
    rw [queue, List.mem_cons] at mem
    exact mem.resolve_left fun eq => done (eq ▸ hp)
  · intro running s src d hs
    have := h.conserved running d hs
    rwa [show b.pendingCalls s d = b.pop.pendingCalls s d by
      simp [pendingCalls, pop, ready, Ready.calls]] at this
  · intro stopped
    have := (h.stopped stopped).1
    rw [ready] at this
    cases this

/-- The callback at the head of the queue is called. -/
theorem Settled.call (h : Settled wake idle b) {rest : List (Ready τ κ)} {d : τ}
    (ready : b.ready = .callback d s :: rest) :
    Settled wake idle (b.pop.record (.called s d)) := by
  have queue : (b.pop.record (.called s d)).queued = b.queued := by
    simp only [Board.queued, pop, record, ready, List.tail_cons]
    rfl
  have still : (b.pop.record (.called s d)).ready = rest := by simp [pop, record, ready]
  have called (u x : τ) : calls u x (b.pop.record (.called s d)).events =
      calls u x b.events + if s = u ∧ d = x then 1 else 0 := rfl
  refine ⟨?_, h.once, h.outcome, h.done, ?_, ?_, h.current, ?_, ?_, ?_,
    fun x => single_cons (h.single x) rfl⟩
  · intro s src u own
    rw [queue]
    exact h.waiter
  · intro u
    rw [queue]
    exact h.queued
  · intro u x hx hu
    exact h.due (by rw [ready]; exact List.mem_cons_of_mem _ (still ▸ hx)) hu
  · intro u
    rw [queue]
    exact h.placed
  · intro running s' src x hs
    have count : b.pendingCalls s' x =
        (b.pop.record (.called s d)).pendingCalls s' x + if s = s' ∧ d = x then 1 else 0 := by
      rw [pendingCalls, ready, List.countP_cons, pendingCalls, still]
      simp [Ready.calls, and_comm]
    refine (h.conserved running x hs).trans ?_
    rw [count, called]
    omega
  · intro stopped
    have := (h.stopped stopped).1
    rw [ready] at this
    cases this

theorem Settled.start (h : Settled wake idle b) (stopped : b.running = false) :
    Settled wake idle b.start := by
  obtain ⟨empty, -, idling⟩ := h.stopped stopped
  refine ⟨?_, h.once, h.outcome, h.done, ?_, ?_, ?_, ?_, ?_, ?_,
    fun x => single_cons (h.single x) rfl⟩
  · intro s src u own hs hu hown
    obtain ⟨a, p, on, why, -, -⟩ := h.waiter hs hu hown
    exact ⟨a, p, on, why, List.not_mem_nil, Option.some_ne_none u ∘ Eq.symm⟩
  · exact fun _ => Nat.zero_le 1
  · exact fun hw => absurd hw List.not_mem_nil
  · exact fun cur => by cases cur
  · exact fun hu => absurd hu List.not_mem_nil
  · intro _ s src d hs
    have carried : registrations s d b.start.events = src.callbacks.count d := by
      simp only [Board.start, registrations]
      rw [show b.source s = some src from hs]
      rfl
    rw [carried]
    rfl
  · exact fun running => by cases running

/-- The loop is gone; the sources stay. -/
theorem Settled.stop (h : Settled wake idle b) (source : c.source = b.source)
    (waitingOn : c.waitingOn = b.waitingOn) (events : c.events = b.events)
    (stopped : c.ready = [] ∧ c.tasks = [] ∧ c.current = none ∧ c.running = false) :
    Settled wake idle c := by
  obtain ⟨ready, tasks, current, off⟩ := stopped
  have queue : c.queued = [] := by rw [Board.queued, ready]; rfl
  refine ⟨?_, ?_, ?_, ?_, ?_, ?_, ?_, ?_, ?_, fun _ => ⟨ready, tasks, current⟩, ?_⟩
  · intro s src u own hs hu hown
    obtain ⟨a, p, on, why, -, -⟩ := h.waiter (source ▸ hs) hu (source ▸ hown)
    rw [waitingOn, events, queue, current]
    exact ⟨a, p, on, why, List.not_mem_nil, Option.some_ne_none u ∘ Eq.symm⟩
  · exact fun hs => h.once (source ▸ hs)
  · exact fun hs => events ▸ h.outcome (source ▸ hs)
  · exact fun hs => h.done (source ▸ hs)
  · exact fun _ => queue ▸ Nat.zero_le 1
  · exact fun hw => absurd (ready ▸ hw) List.not_mem_nil
  · exact fun cur => by rw [current] at cur; cases cur
  · exact fun hu => absurd (tasks ▸ hu) List.not_mem_nil
  · exact fun running => by rw [off] at running; cases running
  · exact fun x => events ▸ h.single x

theorem Settled.forgets (h : Settled wake idle b) (gone : Forgets b c) :
    Settled wake idle c := by
  obtain ⟨ready, tasks, current, still, events⟩ := gone.rest
  have queue : c.queued = b.queued := by rw [Board.queued, ready]; rfl
  have before {u : τ} (hu : c.Pending u) : b.Pending u := by
    obtain ⟨src, hs, pending⟩ := hu
    exact ⟨src, (gone.source hs).1, pending⟩
  refine ⟨?_, ?_, ?_, ?_, ?_, ?_, ?_, ?_, ?_, ?_, fun x => events ▸ h.single x⟩
  · intro s src u own hs hu hown
    rw [(gone.source hown).2, events, queue, current]
    exact h.waiter (gone.source hs).1 hu (gone.source hown).1
  · exact fun hs => h.once (gone.source hs).1
  · intro s src hs
    rw [events]
    exact h.outcome (gone.source hs).1
  · exact fun hs => h.done (gone.source hs).1
  · intro u hu
    rw [queue]
    exact h.queued (before hu)
  · intro u w hw hu
    have := h.due (ready ▸ hw) (before hu)
    simpa only [Due, events] using this
  · intro u cur
    rw [current] at cur
    obtain ⟨⟨src, hs, pending⟩, on⟩ := h.current cur
    obtain ⟨kept, waits⟩ := gone.current u cur
    exact ⟨⟨src, kept.trans hs, pending⟩, waits.trans on⟩
  · intro u hu hp other
    rw [tasks] at hu
    rw [queue]
    refine (h.placed hu (before hp) (current ▸ other)).imp_right ?_
    rintro ⟨s, src, hs, mem⟩
    obtain ⟨own, owned, -⟩ := before hp
    have on := (h.waiter hs mem owned).2.2.1
    exact ⟨s, src, (gone.waiting u hu s on).trans hs, mem⟩
  · intro running s src d hs
    have := h.conserved (still ▸ running) d (gone.source hs).1
    simpa only [events, pendingCalls, ready] using this
  · intro stopped
    obtain ⟨empty, none, idling⟩ := h.stopped (still ▸ stopped)
    exact ⟨ready.trans empty, tasks.trans none, current.trans idling⟩

/-! ### Fresh handles -/

omit [DecidableEq τ] in
theorem Known.mono {P Q : τ → Prop} (h : b.Known P) (sub : ∀ v, P v → Q v) : b.Known Q where
  ready e he := sub _ (h.ready e he)
  tasks t ht := sub _ (h.tasks t ht)
  current t ht := sub _ (h.current t ht)
  events e he v hv := sub _ (h.events e he v hv)

section Known

variable {P : τ → Prop}

theorem Known.complete (h : b.Known P) (hs : P s) (waiters : ∀ t ∈ src.waiters, P t) :
    (b.complete wake s src o).Known P := by
  refine ⟨?_, h.tasks, h.current, ?_⟩
  · intro e he
    simp only [Board.complete, schedule] at he
    split at he
    · simp only [settle, List.mem_append, List.mem_map] at he
      rcases he with old | ⟨c, -, rfl⟩ | ⟨t, mem, rfl⟩
      · exact h.ready e old
      · exact hs
      · exact waiters t mem
    · exact h.ready e he
  · intro e he v hv
    rcases List.mem_cons.mp he with rfl | old
    · cases hv
      exact hs
    · exact h.events e old v hv

theorem Known.spawn (h : b.Known P) (ht : P t) : (b.spawn idle t).Known P := by
  refine ⟨?_, ?_, h.current, ?_⟩
  · intro e he
    simp only [Board.spawn, record, schedule] at he
    split at he
    · rcases List.mem_append.mp he with old | new
      · exact h.ready e old
      · cases List.mem_singleton.mp new
        exact ht
    · exact h.ready e he
  · intro u hu
    rcases List.mem_append.mp hu with old | new
    · exact h.tasks u old
    · cases List.mem_singleton.mp new
      exact ht
  · intro e he v hv
    rcases List.mem_cons.mp he with rfl | old
    · cases hv
    · exact h.events e old v hv

theorem Known.cancel (h : b.Known P) (ht : P t) : (b.cancel t w).Known P := by
  refine ⟨?_, h.tasks, h.current, ?_⟩
  · intro e he
    rcases List.mem_cons.mp he with rfl | old
    · exact ht
    · exact h.ready e (List.mem_filter.mp old).1
  · intro e he v hv
    rcases List.mem_cons.mp he with rfl | old
    · cases hv
    · exact h.events e old v hv

theorem Known.listen (h : b.Known P) (hs : P s) (d : τ) : (b.listen s src d).Known P := by
  refine ⟨h.ready, h.tasks, h.current, ?_⟩
  intro e he v hv
  rcases List.mem_cons.mp he with rfl | old
  · cases hv
    exact hs
  · exact h.events e old v hv

omit [DecidableEq τ] in
theorem Known.notify (h : b.Known P) (hs : P s) (d : τ) : (b.notify s d).Known P := by
  refine ⟨?_, h.tasks, h.current, ?_⟩
  · intro e he
    simp only [Board.notify, record, schedule] at he
    split at he
    · rcases List.mem_append.mp he with old | new
      · exact h.ready e old
      · cases List.mem_singleton.mp new
        exact hs
    · exact h.ready e he
  · intro e he v hv
    rcases List.mem_cons.mp he with rfl | old
    · cases hv
      exact hs
    · exact h.events e old v hv

omit [DecidableEq τ] in
/-- A task suspends and is perhaps queued. -/
theorem Known.suspend (source : Option τ) (h : b.Known P) (ht : P t)
    (ready : ∀ e ∈ c.ready, e ∈ b.ready ∨ e.subject = t) (tasks : c.tasks = b.tasks)
    (current : c.current = none) (events : c.events = .suspended t source :: b.events) :
    c.Known P := by
  refine ⟨?_, fun u hu => h.tasks u (tasks ▸ hu), ?_, ?_⟩
  · exact fun e he => (ready e he).elim (h.ready e) fun eq => eq ▸ ht
  · intro u cur
    rw [current] at cur
    cases cur
  · intro e he v hv
    rw [events] at he
    rcases List.mem_cons.mp he with rfl | old
    · cases hv
    · exact h.events e old v hv

omit [DecidableEq τ] in
theorem Known.start (h : b.Known P) (sources : ∀ {v src}, b.source v = some src → P v) :
    b.start.Known P := by
  refine ⟨by simp [Board.start], by simp [Board.start], by simp [Board.start], ?_⟩
  intro e he v hv
  rcases List.mem_cons.mp he with rfl | old
  · cases hs : b.source v with
    | none => simp [Event.Mentions, hs] at hv
    | some src => exact sources hs
  · exact h.events e old v hv

end Known

theorem unmentioned {es : List (Event τ ω κ)} (h : ∀ e ∈ es, ¬ e.Mentions v) :
    Wakeup.outcome v es = none ∧ ∀ c, registrations v c es = 0 ∧ calls v c es = 0 := by
  induction es with
  | nil => exact ⟨rfl, fun _ => ⟨rfl, rfl⟩⟩
  | cons e es ih =>
    obtain ⟨out, none⟩ := ih fun e he => h e (List.mem_cons_of_mem _ he)
    have apart := h e List.mem_cons_self
    cases e with
    | opened carried =>
      have empty : carried v = [] := by simpa [Event.Mentions] using apart
      exact ⟨out, fun c => ⟨by simp [registrations, empty], rfl⟩⟩
    | spawned | suspended | cancelled => exact ⟨out, none⟩
    | completed s o => exact ⟨by simpa [Wakeup.outcome, Event.outcomeOf, show s ≠ v from apart], none⟩
    | registered s d =>
      exact ⟨out, fun c => ⟨by simp [registrations, none, show s ≠ v from apart], (none c).2⟩⟩
    | called s d =>
      exact ⟨out, fun c => ⟨(none c).1, by simp [calls, none, show s ≠ v from apart]⟩⟩

theorem Known.fresh {P : τ → Prop} (h : b.Known P) (new : ¬ P v) (source : b.source v = none)
    (waiter : ∀ {s src}, b.source s = some src → v ∉ src.waiters) : b.Fresh v := by
  obtain ⟨out, none⟩ := unmentioned (v := v) fun e he hv => new (h.events e he v hv)
  refine ⟨source, waiter, ?_, fun hv => new (h.tasks v hv), fun cur => new (h.current v cur), out,
    fun c => ⟨(none c).1, ?_, (none c).2⟩⟩
  · intro hv
    obtain ⟨w, he⟩ := mem_queued.mp hv
    exact new (h.ready _ he)
  · refine List.countP_eq_zero.mpr fun e he => ?_
    cases e with
    | task => simp [Ready.calls]
    | callback d s =>
      have apart : s ≠ v := fun eq => new (eq ▸ h.ready _ he)
      simp [Ready.calls, apart]

end Board

end Wakeup
