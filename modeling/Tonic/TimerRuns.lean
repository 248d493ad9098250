import Tonic.Timers

/-!
## Timers in runs of the event loop

A run is watched from outside: the timers that the loop was given, and what its turns complete,
with the tick that the clock shows then.
-/

namespace Tonic

open Effect Heap Wakeup

namespace AsyncVm

variable {s t u : AsyncVm}

/-! ### What a turn completes -/

def completedBy : LoopEvent → Option Value
  | .completed source _ => some source
  | _ => none

/-- Every source that was completed, the first one first. -/
def finished (s : AsyncVm) : List Value := s.events.reverse.filterMap completedBy

/-- What is completed on the way from one state to another. -/
def finishedSince (s t : AsyncVm) : List Value := t.finished.drop s.finished.length

/-- The same, with the tick that the clock shows in the end. -/
def chimed (s t : AsyncVm) : List (Value × Nat) :=
  t.eventLoop.elim [] fun loop => (finishedSince s t).map (·, loop.tick)

/-- The first half of a turn: the clock moves on by a tick. -/
def strike : AsyncM Unit := do
  updateLoop fun loop => { loop with tick := min maxTick (loop.tick + 1) }
  matureAsyncTimers

/-- The loop goes on as long as its main task is pending. -/
def mainPending (s : AsyncVm) : Bool :=
  (s.eventLoop.bind fun loop => s.heap.asyncState loop.mainTask) = some .pending

def chimes (s : AsyncVm) : List (Value × Nat) :=
  if s.mainPending then
    let t := final strike s
    chimed s t ++ chimed t (final popReady t)
  else []

/-- The futures that wait for a tick, with the tick. -/
def waitingOf (h : Heap) (timers : List Value) : List (Value × Nat) :=
  timers.filterMap fun future => (h.asyncFutureTimer future).map fun timer => (future, timer.1)

theorem turn_eq : turn = strike >>= fun _ => popReady := by
  simp only [turn, strike, bind_assoc]

/-! ### Books of what was completed -/

theorem finished_append {events : List LoopEvent} (eq : t.events = events ++ s.events) :
    t.finished = s.finished ++ events.reverse.filterMap completedBy := by
  rw [finished, finished, eq, List.reverse_append, List.filterMap_append]

theorem finishedSince_eq {l : List Value} (eq : t.finished = s.finished ++ l) :
    finishedSince s t = l := by
  rw [finishedSince, eq, List.drop_left]

theorem finished_of_suffix (suffix : s.events <:+ t.events) :
    t.finished = s.finished ++ finishedSince s t := by
  obtain ⟨events, eq⟩ := suffix
  have whole := finished_append eq.symm
  rw [finishedSince_eq whole, whole]

theorem finishedSince_trans (st : s.events <:+ t.events) (tu : t.events <:+ u.events) :
    finishedSince s u = finishedSince s t ++ finishedSince t u := by
  apply finishedSince_eq
  rw [finished_of_suffix tu, finished_of_suffix st, List.append_assoc]

/-! ### Maturing rings the alarms -/

theorem waitingOf_due (h : Heap) (tick : Nat) (timers : List Value) :
    ((waitingOf h timers).filter (·.2 ≤ tick)).map (·.1) = (dueOf h tick timers).map (·.1) := by
  induction timers with
  | nil => rfl
  | cons future timers ih =>
    rw [dueOf_cons, List.map_append, ← ih]
    cases timer : h.asyncFutureTimer future with
    | none => simp [waitingOf, dueOf, timer]
    | some set => by_cases reached : set.1 ≤ tick <;> simp [waitingOf, dueOf, timer, reached]

theorem waitingOf_later (h : Heap) (tick : Nat) (timers : List Value) :
    waitingOf h (laterOf h tick timers) = (waitingOf h timers).filter (tick < ·.2) := by
  induction timers with
  | nil => rfl
  | cons future timers ih =>
    rw [laterOf_cons, waitingOf, List.filterMap_append]
    change waitingOf h (laterOf h tick [future]) ++ waitingOf h (laterOf h tick timers) = _
    rw [ih]
    cases timer : h.asyncFutureTimer future with
    | none => simp [waitingOf, laterOf, timer]
    | some set => by_cases later : tick < set.1 <;> simp [waitingOf, laterOf, timer, later]

theorem waitingOf_congr {h t : Heap} {timers : List Value}
    (same : ∀ v ∈ timers, t.asyncFutureTimer v = h.asyncFutureTimer v) :
    waitingOf t timers = waitingOf h timers :=
  List.filterMap_congr fun v mem => by rw [same v mem]

theorem mem_waitingOf {h : Heap} {timers : List Value} {b : Value × Nat}
    (mem : b ∈ waitingOf h timers) :
    b.1 ∈ timers ∧ ∃ result, h.asyncFutureTimer b.1 = some (b.2, result) := by
  obtain ⟨future, own, eq⟩ := List.mem_filterMap.mp mem
  obtain ⟨timer, set, rfl⟩ := Option.map_eq_some_iff.mp eq
  exact ⟨own, timer.2, set⟩

/-- What is due later is not among what fires. -/
theorem not_due_of_later {h : Heap} {tick : Nat} {timers : List Value} {v : Value}
    (later : v ∈ laterOf h tick timers) : v ∉ (dueOf h tick timers).map (·.1) := by
  intro due
  obtain ⟨-, late⟩ := List.mem_filter.mp later
  obtain ⟨f, fires, rfl⟩ := List.mem_map.mp due
  obtain ⟨future, -, eq⟩ := List.mem_filterMap.mp fires
  obtain ⟨timer, set, eq⟩ := Option.bind_eq_some_iff.mp eq
  split at eq
  · next reached =>
    cases eq
    simp only [set, Option.any_some, decide_eq_true_eq] at late
    exact Nat.not_lt_of_le reached late
  · cases eq

namespace Matures

variable {loop : EventLoopState Value}

theorem waiting (matures : Matures loop s t) :
    waitingOf t.heap (laterOf s.heap loop.tick loop.timers) =
      (waitingOf s.heap loop.timers).filter (loop.tick < ·.2) := by
  rw [waitingOf_congr fun v later => matures.same v (not_due_of_later later), waitingOf_later]

theorem finishedSince (matures : Matures loop s t) :
    finishedSince s t = ((waitingOf s.heap loop.timers).filter (·.2 ≤ loop.tick)).map (·.1) := by
  apply finishedSince_eq
  rw [finished_append matures.fired, List.reverse_reverse, List.filterMap_map, waitingOf_due]
  congr 1
  exact (List.filterMap_eq_map (f := Prod.fst)).symm ▸ rfl

end Matures

/-! ### The timers of a loop -/

/-- What the loop was given, what it has completed since, and what it still keeps. -/
structure Timed (s : AsyncVm) (born fired : List (Value × Nat)) : Prop where
  firm : s.Firm
  known : ∀ b ∈ born, s.heap.Issued b.1
  ended : ∀ v state, .completed v state ∈ s.events →
    s.heap.Issued v ∧ s.heap.asyncFutureTimer v = none
  /-- A loop that has ended leaves its last alarms behind. -/
  alarms : ∃ a : Alarm.State Value, Alarm.Right maxTick a ∧ a.set = born ∧
    fired = a.rung.map (fun x => (x.alarm, x.clock)) ∧
    ∀ loop ∈ s.eventLoop, a.clock = loop.tick ∧ a.waiting = waitingOf s.heap loop.timers
  listed : ∀ loop ∈ s.eventLoop, loop.timers.Sublist (born.map (·.1))
  kept : ∀ loop ∈ s.eventLoop, ∀ b ∈ born,
    b ∈ waitingOf s.heap loop.timers ∨ ∃ state, .completed b.1 state ∈ s.events

variable {born fired : List (Value × Nat)} {loop : EventLoopState Value}

theorem Timed.once (timed : Timed s born fired) (on : s.eventLoop = some loop) :
    loop.timers.Nodup := by
  obtain ⟨a, right, rfl, -⟩ := timed.alarms
  exact (timed.listed loop on).nodup right.once

theorem Timed.ended_of_ages (timed : Timed s born fired) (ages : Ages s t) (v : Value)
    (state : AsyncState) (mem : .completed v state ∈ t.events) :
    t.heap.Issued v ∧ t.heap.asyncFutureTimer v = none := by
  rcases ages.ended v state mem with old | new
  · obtain ⟨issued, none⟩ := timed.ended v state old
    refine ⟨ages.issued v issued, ?_⟩
    rcases ages.timer v with same | gone
    · rw [same, none]
    · exact gone.1
  · exact new

/-- While nothing fires, a timer that ends is dropped. -/
theorem Ages.waiting (ages : Ages s t) (timers : List Value) :
    waitingOf t.heap timers =
      (waitingOf s.heap timers).filter fun b => (t.heap.asyncFutureTimer b.1).isSome := by
  induction timers with
  | nil => rfl
  | cons future timers ih =>
    have head : waitingOf t.heap [future] =
        (waitingOf s.heap [future]).filter fun b => (t.heap.asyncFutureTimer b.1).isSome := by
      rcases ages.timer future with same | ⟨none, -⟩
      · cases timer : s.heap.asyncFutureTimer future with
        | none => simp [waitingOf, timer, same]
        | some set => simp [waitingOf, timer, same]
      · cases timer : s.heap.asyncFutureTimer future with
        | none => simp [waitingOf, timer, none]
        | some set => simp [waitingOf, timer, none]
    have split (h : Heap) : waitingOf h (future :: timers) =
        waitingOf h [future] ++ waitingOf h timers := by
      rw [waitingOf, waitingOf, waitingOf, ← List.filterMap_append]
      rfl
    rw [split, split, head, ih, List.filter_append]

/-- A loop that still runs shows the clock it showed before. -/
theorem Calm.running (calm : Calm s t) (on : t.eventLoop = some loop) :
    ∃ before, s.eventLoop = some before ∧ before.tick = loop.tick ∧
      before.timers = loop.timers := by
  rcases calm.clock with same | gone
  · rw [AsyncVm.clock, AsyncVm.clock, on] at same
    obtain ⟨before, found, eq⟩ := Option.map_eq_some_iff.mp same.symm
    exact ⟨before, found, congrArg Prod.fst eq, congrArg Prod.snd eq⟩
  · rw [AsyncVm.clock, on] at gone
    cases gone

theorem Timed.calm (timed : Timed s born fired) (calm : Calm s t) : Timed t born fired where
  firm := calm.firm
  known b mem := calm.issued _ (timed.known b mem)
  ended := timed.ended_of_ages calm.toAges
  alarms := by
    obtain ⟨a, right, set, rang, agrees⟩ := timed.alarms
    cases on : t.eventLoop with
    | none => exact ⟨a, right, set, rang, fun loop mem => by cases mem⟩
    | some loop =>
      obtain ⟨before, found, tick, timers⟩ := calm.running on
      obtain ⟨shows, waits⟩ := agrees before found
      refine ⟨_, right.drop fun b => (t.heap.asyncFutureTimer b.1).isSome, set, rang, ?_⟩
      rintro _ ⟨⟩
      refine ⟨shows.trans tick, ?_⟩
      rw [calm.waiting, ← timers, ← waits]
      rfl
  listed loop on := by
    obtain ⟨before, found, -, timers⟩ := calm.running on
    exact timers ▸ timed.listed before found
  kept loop on b mem := by
    obtain ⟨before, found, -, timers⟩ := calm.running on
    rcases timed.kept before found b mem with waits | ⟨state, done⟩
    · rcases calm.timer b.1 with same | ⟨-, ended⟩
      · refine .inl ?_
        obtain ⟨own, result, set⟩ := mem_waitingOf waits
        rw [← timers]
        exact List.mem_filterMap.mpr ⟨b.1, own, by rw [same, set]; rfl⟩
      · exact .inr ended
    · exact .inr ⟨state, calm.events.subset done⟩

/-- Nothing that is due waits. -/
def Sharp (s : AsyncVm) : Prop :=
  ∀ loop ∈ s.eventLoop, ∀ b ∈ waitingOf s.heap loop.timers, loop.tick < b.2

theorem Sharp.of_off (off : s.eventLoop = none) : Sharp s := by
  intro loop on
  rw [off] at on
  cases on

theorem Sharp.calm (sharp : Sharp s) (calm : Calm s t) : Sharp t := by
  intro loop on b mem
  obtain ⟨before, found, tick, timers⟩ := calm.running on
  rw [calm.waiting, ← timers] at mem
  rw [← tick]
  exact sharp before found b (List.mem_of_mem_filter mem)

/-- The loop while its clock shows a tick. -/
def showing (s : AsyncVm) (loop : EventLoopState Value) (tick : Nat) : AsyncVm :=
  { s with eventLoop := some { loop with tick } }

section Matures

variable {tick : Nat} (timed : Timed s born fired) (on : s.eventLoop = some loop)
  (matures : Matures { loop with tick } (s.showing loop tick) t)

include matures

theorem Matures.sharp : Sharp t := by
  obtain ⟨entries, running⟩ := matures.running
  rw [Sharp, running]
  rintro _ ⟨⟩ b mem
  have waiting := matures.waiting
  change b ∈ waitingOf t.heap (laterOf (s.showing loop tick).heap tick loop.timers) at mem
  rw [waiting] at mem
  exact of_decide_eq_true (List.mem_filter.mp mem).2

theorem Matures.chimed :
    chimed s t = ((waitingOf s.heap loop.timers).filter (·.2 ≤ tick)).map fun b => (b.1, tick) := by
  obtain ⟨entries, running⟩ := matures.running
  have since : AsyncVm.finishedSince s t = _ := matures.finishedSince
  rw [AsyncVm.chimed, running, Option.elim_some, since, List.map_map]
  rfl

/-- A timer that is due has fired. -/
theorem Matures.completed {b : Value × Nat} (mem : b ∈ waitingOf s.heap loop.timers)
    (due : b.2 ≤ tick) : ∃ state, .completed b.1 state ∈ t.events := by
  have own : b.1 ∈ ((waitingOf s.heap loop.timers).filter (·.2 ≤ tick)).map (·.1) :=
    List.mem_map_of_mem (List.mem_filter.mpr ⟨mem, decide_eq_true due⟩)
  rw [waitingOf_due] at own
  obtain ⟨f, fires, eq⟩ := List.mem_map.mp own
  refine ⟨.finished f.2, ?_⟩
  rw [matures.fired, ← eq]
  apply List.mem_append_left
  exact List.mem_reverse.mpr (List.mem_map.mpr ⟨f, fires, rfl⟩)

include timed on

theorem Timed.mature
    (rings : ∀ a : Alarm.State Value, Alarm.Right maxTick a → a.clock = loop.tick →
      a.waiting = waitingOf s.heap loop.timers → Alarm.Right maxTick (a.ring tick)) :
    Timed t born (fired ++ AsyncVm.chimed s t) where
  firm := matures.firm
  known b mem := matures.issued _ (timed.known b mem)
  ended v state mem := by
    have ages : Ages s t :=
      ⟨matures.firm, matures.issued, matures.timer, matures.events, matures.ended⟩
    exact timed.ended_of_ages ages v state mem
  alarms := by
    obtain ⟨a, right, set, rang, agrees⟩ := timed.alarms
    obtain ⟨shows, waits⟩ := agrees loop on
    obtain ⟨entries, running⟩ := matures.running
    refine ⟨_, rings a right shows waits, set, ?_, ?_⟩
    · rw [matures.chimed, rang, Alarm.State.ring, Alarm.State.rings, List.map_append, List.map_map,
        waits]
      rfl
    · rw [running]
      rintro _ ⟨⟩
      refine ⟨rfl, ?_⟩
      rw [Alarm.State.ring, waits]
      exact matures.waiting.symm
  listed := by
    obtain ⟨entries, running⟩ := matures.running
    rw [running]
    rintro _ ⟨⟩
    exact List.filter_sublist.trans (timed.listed loop on)
  kept := by
    obtain ⟨entries, running⟩ := matures.running
    rw [running]
    rintro _ ⟨⟩ b mem
    rcases timed.kept loop on b mem with waits | ⟨state, done⟩
    · by_cases due : b.2 ≤ tick
      · exact .inr (matures.completed waits due)
      · refine .inl ?_
        change b ∈ waitingOf t.heap (laterOf (s.showing loop tick).heap tick loop.timers)
        rw [matures.waiting]
        exact List.mem_filter.mpr ⟨waits, decide_eq_true (Nat.lt_of_not_le due)⟩
    · exact .inr ⟨state, matures.events.subset done⟩

end Matures

/-! ### The two halves of a turn -/

/-- Some timers have fired on the way, and nothing that is due waits any longer. -/
structure Struck (s t : AsyncVm) (rung : List (Value × Nat)) : Prop extends Ages s t where
  sharp : Sharp t
  paid : finishedSince s t = rung.map (·.1)
  waited : ∀ v ∈ finishedSince s t, (s.heap.asyncFutureTimer v).isSome = true

theorem Struck.quiet (calm : Calm s t) (sharp : Sharp t) (same : t.finished = s.finished) :
    Struck s t [] := by
  have none : finishedSince s t = [] := by
    apply finishedSince_eq
    rw [same, List.append_nil]
  refine ⟨calm.toAges, sharp, none, fun v mem => ?_⟩
  rw [none] at mem
  cases mem

theorem Struck.trans {first second : List (Value × Nat)} (st : Struck s t first)
    (tu : Struck t u second) : Struck s u (first ++ second) := by
  have since := finishedSince_trans st.events tu.events
  refine ⟨st.toAges.trans tu.toAges, tu.sharp, ?_, fun v mem => ?_⟩
  · rw [since, st.paid, tu.paid, List.map_append]
  · rw [since] at mem
    rcases List.mem_append.mp mem with early | late
    · exact st.waited v early
    · have set := tu.waited v late
      rcases st.timer v with same | ⟨none, -⟩
      · rwa [same] at set
      · rw [none] at set
        cases set

theorem Struck.mature {tick : Nat} (matures : Matures { loop with tick } (s.showing loop tick) t) :
    Struck s t (chimed s t) := by
  have since : finishedSince s t = _ := matures.finishedSince
  refine ⟨⟨matures.firm, matures.issued, matures.timer, matures.events, matures.ended⟩,
    matures.sharp, ?_, fun v mem => ?_⟩
  · rw [matures.chimed, since, List.map_map]
    rfl
  · rw [since] at mem
    obtain ⟨b, own, rfl⟩ := List.mem_map.mp mem
    obtain ⟨-, result, set⟩ := mem_waitingOf (List.mem_of_mem_filter own)
    change s.heap.asyncFutureTimer b.1 = _ at set
    rw [set]
    rfl

theorem Timed.showing_firm (timed : Timed s born fired) (tick : Nat) :
    (s.showing loop tick).Firm := ⟨timed.firm.sound, timed.firm.types⟩

theorem wp_strike (timed : Timed s born fired) (on : s.eventLoop = some loop) :
    wp strike (fun _ t => Struck s t (chimed s t) ∧ Timed t born (fired ++ chimed s t) ∧
      t.eventLoop.isSome = true) (fun _ => False) s := by
  have once := timed.once on
  simp only [strike, wp_bind, wp_updateLoop, on]
  refine wp_mono (wp_matureAsyncTimers (timed.showing_firm _) rfl once) ?_ fun _ => id
  intro _ t matures
  refine ⟨.mature matures, timed.mature on matures ?_, ?_⟩
  · intro a right shows _
    rw [← shows]
    exact right.tick
  · obtain ⟨entries, running⟩ := matures.running
    rw [running]
    rfl

theorem nextTick_eq (h : Heap) (timers : List Value) :
    nextTick h timers = ((waitingOf h timers).map (·.2)).min? := by
  rw [nextTick, waitingOf, List.map_filterMap]
  congr 1
  apply List.filterMap_congr
  intro future _
  cases h.asyncFutureTimer future <;> rfl

theorem wp_awaitTimer (timed : Timed s born fired) :
    wp awaitTimer (fun _ t => Struck s t (chimed s t) ∧ Timed t born (fired ++ chimed s t))
      (fun t => t = s) s := by
  simp only [awaitTimer, wp_bind, wp_runningLoop]
  cases on : s.eventLoop with
  | none => trivial
  | some loop =>
    simp only [wp_get]
    cases next : nextTick s.heap loop.timers with
    | none => rfl
    | some tick =>
      have once := timed.once on
      simp only [wp_bind, wp_updateLoop, on]
      refine wp_mono (wp_matureAsyncTimers (timed.showing_firm tick) rfl once) ?_
        fun _ => False.elim
      intro _ t matures
      refine ⟨.mature matures, timed.mature on matures fun a right _ waits => ?_⟩
      rw [nextTick_eq, ← waits] at next
      have least := List.min?_eq_some_iff.mp next
      apply right.jump
      · exact List.mem_map.mp least.1
      · intro b mem
        exact least.2 _ (List.mem_map_of_mem mem)

theorem wp_takeReady (firm : s.Firm) (ready : EventLoopReady Value) :
    wp (takeReady ready) (fun _ t => Calm s t ∧ t.finished = s.finished) (fun _ => False) s := by
  cases ready with
  | task task wake =>
    simp only [takeReady, wp_bind, wp_get]
    split
    · have calm := calms_updateLoop (s := s) firm
        (f := fun loop => { loop with currentTask := some task }) fun _ => ⟨rfl, rfl⟩
      exact ⟨calm, rfl⟩
    · exact ⟨.refl firm, rfl⟩
  | callback callback future =>
    simp only [takeReady, wp_bind]
    refine ⟨calms_record firm rfl, ?_⟩
    rw [AsyncVm.finished, List.reverse_cons, List.filterMap_append]
    exact List.append_nil _

theorem wp_popReady (timed : Timed s born fired) (sharp : Sharp s) :
    wp popReady (fun _ t => Struck s t (chimed s t) ∧ Timed t born (fired ++ chimed s t))
      (fun t => Struck s t (chimed s t) ∧ Timed t born (fired ++ chimed s t)) s := by
  have still {t} (calm : Calm s t) (same : t.finished = s.finished) :
      Struck s t (chimed s t) ∧ Timed t born (fired ++ chimed s t) := by
    have turned := Struck.quiet calm (sharp.calm calm) same
    have none : chimed s t = [] := by
      rw [chimed, show finishedSince s t = [] from turned.paid]
      cases t.eventLoop <;> rfl
    rw [none, List.append_nil]
    exact ⟨turned, timed.calm calm⟩
  simp only [popReady, wp_bind, wp_runningLoop]
  split
  · next loop on =>
    split
    · refine wp_mono (wp_awaitTimer timed) (fun _ _ both => both) ?_
      rintro _ rfl
      exact still (.refl timed.firm) rfl
    · next ready rest queue =>
      rw [wp_bind, wp_updateLoop]
      have calm : Calm s _ := calms_updateLoop timed.firm
        (f := fun loop => { loop with ready := rest }) fun _ => ⟨rfl, rfl⟩
      refine wp_mono (wp_takeReady calm.firm ready) ?_ fun _ => False.elim
      rintro _ t ⟨later, same⟩
      exact still (calm.trans later) same
  · exact still (.refl timed.firm) rfl

theorem Struck.closing {rung : List (Value × Nat)} (struck : Struck s t rung) :
    Struck s { t with eventLoop := none } rung :=
  ⟨struck.toAges.loop none, .of_off rfl, struck.paid, struck.waited⟩

/-- The chimes of a turn are what the turn completes, and the loop keeps its timers right. -/
theorem wp_iterate (timed : Timed s born fired) :
    wp iterate (fun _ t => Struck s t (chimes s) ∧ Timed t born (fired ++ chimes s))
      (fun t => Struck s t (chimes s) ∧ Timed t born (fired ++ chimes s)) s := by
  -- a loop that does not go on is closed
  have closed (off : s.mainPending = false) :
      Struck s { s with eventLoop := none } (chimes s) ∧
        Timed { s with eventLoop := none } born (fired ++ chimes s) := by
    have calm : Calm s { s with eventLoop := none } := (Calm.refl timed.firm).closing
    rw [chimes, off, if_neg Bool.false_ne_true, List.append_nil]
    exact ⟨.quiet calm (.of_off rfl) rfl, timed.calm calm⟩
  rw [iterate, wp_closing, wp_bind, wp_runningLoop]
  cases on : s.eventLoop with
  | none => exact closed (by rw [mainPending, on]; rfl)
  | some loop =>
    dsimp only
    rw [wp_bind, wp_get]
    cases main : s.heap.asyncState loop.mainTask with
    | none =>
      simp only [main]
      exact closed (by simp [mainPending, on, main])
    | some state =>
      simp only [main]
      cases state with
      | pending =>
        have going : s.mainPending = true := by simp [mainPending, on, main]
        rw [chimes, if_pos going, turn_eq, wp_bind]
        refine wp_mono (wp_and (wp_strike timed on) wp_to_final) ?_ fun _ failed => failed.1.elim
        rintro _ t ⟨⟨struck, struck', running⟩, rfl⟩
        refine wp_mono (wp_and (wp_popReady struck' struck.sharp) wp_to_final) ?_ ?_
        · rintro _ u ⟨⟨popped, popped'⟩, rfl⟩
          rw [List.append_assoc] at popped'
          exact ⟨struck.trans popped, popped'⟩
        · rintro u ⟨⟨popped, popped'⟩, rfl⟩
          rw [List.append_assoc] at popped'
          exact ⟨(struck.trans popped).closing, popped'.calm (Calm.refl popped'.firm).closing⟩
      | finished value | failed value | cancelled value =>
        exact closed (by simp [mainPending, on, main])

theorem wp_onHeap_events {α : Type} {m : HeapM α} :
    wp (onHeap m) (fun _ t => t.events = s.events) (fun t => t.events = s.events) s := by
  unfold wp onHeap
  cases m s.heap <;> rfl

theorem wp_beginStep_events (task : Value) (wake : AsyncWake Value) :
    wp (beginStep task wake) (fun _ t => t.events = s.events) (fun t => t.events = s.events) s := by
  rw [beginStep, wp_bind]
  refine wp_reading_intro rfl fun coroutine _ => ?_
  rw [wp_bind]
  refine wp_mono wp_onHeap_events (fun _ t same => ?_) fun _ => id
  rw [wp_bind]
  suffices cleared : wp (clearCancelled task wake) (fun _ u => u.events = t.events)
      (fun u => u.events = t.events) t from
    wp_mono cleared (fun _ u later => later.trans same) fun u later => later.trans same
  cases wake with
  | value v => rfl
  | exception e =>
    rw [clearCancelled, wp_bind]
    refine wp_reading_intro rfl fun cancelled _ => ?_
    split
    · exact wp_onHeap_events
    · rfl

/-- One turn of the loop, up to the resumption of a task. -/
theorem Timed.advance (timed : Timed s born fired) :
    Struck s s.advance.vm (chimes s) ∧ Timed s.advance.vm born (fired ++ chimes s) ∧
      ∀ task coroutine, s.advance.control = .task task coroutine →
        s.advance.vm.heap.Issued task := by
  have turned := wp_iterate timed
  unfold AsyncVm.advance
  unfold wp at turned
  split
  · next task wake t eq =>
    rw [eq] at turned
    obtain ⟨struck, timed⟩ := turned
    have follows {u} (calm : Calm t u) (same : u.events = t.events) :
        Struck s u (chimes s) ∧ Timed u born (fired ++ chimes s) := by
      have still := Struck.quiet calm (struck.sharp.calm calm)
        (show u.finished = t.finished by rw [AsyncVm.finished, same]; rfl)
      have whole := struck.trans still
      rw [List.append_nil] at whole
      exact ⟨whole, timed.calm calm⟩
    have began := wp_and (calms_beginStep timed.firm task wake) (wp_beginStep_events task wake)
    have closed : wp (closing (beginStep task wake))
        (fun _ u => (Calm t u ∧ u.heap.Issued task) ∧ u.events = t.events)
        (fun u => Calm t u ∧ u.events = t.events) t := by
      rw [wp_closing]
      exact wp_mono began (fun _ _ both => both) fun u both => ⟨both.1.closing, both.2⟩
    unfold wp at closed
    split
    · next eq' =>
      rw [eq'] at closed
      obtain ⟨⟨calm, issued⟩, same⟩ := closed
      obtain ⟨struck, timed⟩ := follows calm same
      refine ⟨struck, timed, ?_⟩
      rintro _ _ ⟨⟩
      exact issued
    · next eq' =>
      rw [eq'] at closed
      obtain ⟨struck, timed⟩ := follows closed.1 closed.2
      exact ⟨struck, timed, fun _ _ other => by cases other⟩
  all_goals
    next eq =>
      rw [eq] at turned
      exact ⟨turned.1, turned.2, fun _ _ other => by cases other⟩

/-! ### New timers, and new loops -/

/-- The tick at which a sleep that begins now is over. -/
def dueAt (s : AsyncVm) (delay : Nat) : Nat :=
  min maxTick (s.eventLoop.elim 0 (·.tick) + max delay 1)

theorem wp_sleep (timed : Timed s born fired) (delay : Nat) {result : Value}
    (issued : s.heap.Issued result) :
    wp (asyncioSleep delay result)
      (fun future t => Timed t (born ++ [(future, s.dueAt delay)]) fired ∧
        ∀ v, s.heap.Issued v → t.heap.Issued v)
      (Calm s) s := by
  simp only [asyncioSleep, newFuture, wp_bind, wp_runningLoop]
  cases on : s.eventLoop with
  | none => exact .refl timed.firm
  | some loop =>
    simp only [wp_get, wp_onHeap]
    have due : s.dueAt delay = min maxTick (loop.tick + max delay 1) := by rw [dueAt, on]; rfl
    rw [← due]
    refine wp_mono (wp_alloc_stores timed.firm.sound ?_) ?_ ?_
    · intro v mem
      simp only [Object.trace, AsyncState.trace, List.append_nil, List.mem_cons, List.not_mem_nil,
        or_false] at mem
      rcases mem with rfl | rfl
      · exact timed.firm.types _ (by simp [RuntimeTypes.roots])
      · exact issued
    · rintro future heap ⟨after, stores, new, made⟩
      simp only [wp_updateLoop, wp_pure, on, Option.map_some]
      have timer (v : Value) (old : s.heap.Issued v) :
          heap.asyncFutureTimer v = s.heap.asyncFutureTimer v := by
        rw [stores.timer, Function.update_of_ne]
        rintro rfl
        exact new old
      have listed := timed.listed loop on
      have waiting : waitingOf heap (loop.timers ++ [future]) =
          waitingOf s.heap loop.timers ++ [(future, s.dueAt delay)] := by
        rw [waitingOf, List.filterMap_append]
        change waitingOf heap loop.timers ++ waitingOf heap [future] = _
        rw [waitingOf_congr fun v mem => ?_]
        · congr 1
          simp [waitingOf, stores.timer, Object.timer]
        · obtain ⟨b, own, rfl⟩ := List.mem_map.mp (listed.subset mem)
          exact timer _ (timed.known b own)
      refine ⟨⟨⟨after.1, fun v mem => after.2.issued (timed.firm.types v mem)⟩, ?_, ?_, ?_, ?_, ?_⟩,
        fun v => after.2.issued⟩
      · intro b mem
        rcases List.mem_append.mp mem with old | own
        · exact after.2.issued (timed.known b old)
        · rw [List.mem_singleton.mp own]
          exact made
      · intro v state mem
        obtain ⟨old, none⟩ := timed.ended v state mem
        exact ⟨after.2.issued old, (timer v old).trans none⟩
      · obtain ⟨a, right, rfl, rang, agrees⟩ := timed.alarms
        obtain ⟨shows, waits⟩ := agrees loop on
        have fresh : future ∉ a.set.map (·.1) := by
          intro mem
          obtain ⟨b, own, rfl⟩ := List.mem_map.mp mem
          exact new (timed.known b own)
        refine ⟨a.put future (s.dueAt delay), right.put fresh ?_ ?_, rfl, rang, ?_⟩
        · rw [due]
          exact Nat.min_le_left _ _
        · rw [due]
          omega
        · rintro _ ⟨⟩
          exact ⟨shows, by rw [waiting, ← waits]; rfl⟩
      · rintro _ ⟨⟩
        rw [List.map_append]
        exact listed.append (.refl _)
      · rintro _ ⟨⟩ b mem
        rw [waiting]
        rcases List.mem_append.mp mem with old | own
        · exact (timed.kept loop on b old).imp_left (List.mem_append_left _)
        · exact .inl (List.mem_append_right _ own)
    · rintro heap ⟨after, rfl⟩
      exact .refl timed.firm

theorem wp_openEventLoop (firm : s.Firm) (coroutine : Value) :
    wp (openEventLoop coroutine)
      (fun _ t => Ages s t ∧ (t.clock = some (0, []) ∨ t.clock = none)) (Calm s) s := by
  simp only [openEventLoop, wp_bind, wp_get]
  split
  · exact .refl firm
  · next off =>
    have off : s.eventLoop = none := by simpa using off
    split
    · simp only [wp_bind, wp_modify, wp_onHeap]
      refine wp_mono (wp_alloc_quiet firm.sound ?_ rfl) ?_ ?_
      · intro v mem
        obtain rfl : v = s.types.asyncEventLoop := by simpa [Object.trace] using mem
        exact firm.types _ (by simp [RuntimeTypes.roots])
      · rintro object heap ⟨quiet, -⟩
        simp only [wp_get, wp_record, wp_closing]
        have base := Calm.heap firm quiet
        have recorded (carried : Value → List Value) : Ages { s with heap }
            { s with
              heap, events := .opened carried :: s.events, eventLoop := some (.start object)
              nextGeneration := min maxTick (s.nextGeneration + 1) } := .record base.firm rfl _ _
        have opened carried := base.toAges.trans (recorded carried)
        have made carried := calms_bind (calms_createTask (opened carried).firm coroutine)
          fun mainTask t calm =>
            calms_updateLoop calm.firm (f := fun loop => { loop with mainTask }) fun _ => ⟨rfl, rfl⟩
        refine wp_mono (made _) (fun _ t calm => ⟨(opened _).trans calm.toAges, calm.clock⟩) ?_
        intro t calm
        exact ⟨((opened _).trans calm.toAges).loop none, .inr rfl⟩
      · intro heap quiet
        have calm := Calm.heap firm quiet
        exact ⟨⟨⟨calm.firm.sound, calm.firm.types⟩, calm.issued, calm.timer, calm.events,
          calm.ended⟩,
          calm.clock⟩
    · exact .refl firm

theorem Timed.opened (timed : Timed s born fired) (ages : Ages s t)
    (fresh : t.clock = some (0, []) ∨ t.clock = none) : Timed t [] [] where
  firm := ages.firm
  known b mem := by cases mem
  ended := timed.ended_of_ages ages
  alarms := by
    refine ⟨_, Alarm.start_right maxTick, rfl, rfl, fun loop on => ?_⟩
    rw [AsyncVm.clock, show t.eventLoop = some loop from on] at fresh
    rcases fresh with zero | none
    · obtain ⟨tick, timers⟩ := Prod.mk.inj (Option.some.inj zero)
      rw [timers]
      exact ⟨tick.symm, rfl⟩
    · cases none
  listed loop on := by
    rw [AsyncVm.clock, show t.eventLoop = some loop from on] at fresh
    rcases fresh with zero | none
    · rw [(Prod.mk.inj (Option.some.inj zero)).2]
      exact .slnil
    · cases none
  kept loop on b mem := by cases mem

/-! ### The rest of the interpreter -/

/-- A change of the heap by the rest of the interpreter sets no timer, and ends only those that the
loop does not lead to. -/
structure KeepsTimers (roots : List Value) (h t : Heap) : Prop where
  kept : ∀ v, h.Reachable roots v → t.asyncFutureTimer v = h.asyncFutureTimer v
  rest : ∀ v, t.asyncFutureTimer v = h.asyncFutureTimer v ∨ t.asyncFutureTimer v = none

theorem Timed.elsewhere {heap : Heap} (timed : Timed s born fired)
    (other : Elsewhere s.held s.heap heap) (keeps : KeepsTimers s.held s.heap heap) :
    Timed { s with heap } born fired := by
  have same (loop : EventLoopState Value) (on : s.eventLoop = some loop) :
      waitingOf heap loop.timers = waitingOf s.heap loop.timers := by
    apply waitingOf_congr
    intro v mem
    apply keeps.kept
    have held : v ∈ s.held := by simp [held, on, EventLoopState.trace, mem]
    exact ⟨v, held, .refl⟩
  refine ⟨⟨other.sound, fun v mem => other.issued v (timed.firm.types v mem)⟩, ?_, ?_, ?_,
    timed.listed, ?_⟩
  · exact fun b mem => other.issued _ (timed.known b mem)
  · intro v state mem
    obtain ⟨issued, none⟩ := timed.ended v state mem
    refine ⟨other.issued v issued, ?_⟩
    rcases keeps.rest v with same | gone
    · exact same.trans none
    · exact gone
  · obtain ⟨a, right, set, rang, agrees⟩ := timed.alarms
    refine ⟨a, right, set, rang, fun loop on => ?_⟩
    rw [same loop on]
    exact agrees loop on
  · intro loop on
    rw [same loop on]
    exact timed.kept loop on

end AsyncVm

/-! ### Runs -/

/-- A run, with the timers that its loop was given and what its turns have completed. -/
structure TimedRun where
  run : AsyncRun
  born : List (Value × Nat)
  fired : List (Value × Nat)

namespace TimedRun

variable {s : TimedRun}

def after (s : TimedRun) (act : AsyncAct) : TimedRun :=
  let run := s.run.after act
  match act with
  | .call (.sleep delay result) =>
    match asyncioSleep delay result s.run.vm with
    | .ok future _ => { s with run, born := s.born ++ [(future, s.run.vm.dueAt delay)] }
    | .error _ _ => { s with run }
  | .run coroutine =>
    match openEventLoop coroutine s.run.vm with
    | .ok _ _ => ⟨run, [], []⟩
    | .error _ _ => { s with run }
  | .turn => { s with run, fired := s.fired ++ s.run.vm.chimes }
  | _ => { s with run }

/-- What can happen in a state. -/
def Enabled (s : TimedRun) (act : AsyncAct) : Prop :=
  s.run.Enabled act ∧ match act with
    | .elsewhere heap => AsyncVm.KeepsTimers s.run.vm.held s.run.vm.heap heap
    | _ => True

inductive Reachable : TimedRun → Prop where
  | start {run : AsyncRun} : run.Start → Reachable ⟨run, [], []⟩
  | next {s : TimedRun} (act : AsyncAct) : Reachable s → s.Enabled act → Reachable (s.after act)

theorem after_run (s : TimedRun) (act : AsyncAct) : (s.after act).run = s.run.after act := by
  unfold after
  split
  · split <;> rfl
  · split <;> rfl
  · rfl
  · rfl

/-- The loop keeps its timers right, and the task that runs was handed out. -/
structure Kept (s : TimedRun) : Prop where
  timed : s.run.vm.Timed s.born s.fired
  stepping : ∀ task coroutine, s.run.control = .task task coroutine → s.run.vm.heap.Issued task

theorem start_kept {run : AsyncRun} (start : run.Start) : Kept ⟨run, [], []⟩ where
  timed :=
    { firm := ⟨start.sound, start.types⟩
      known := fun b mem => by cases mem
      ended := fun v state mem => by
        rw [show run.vm.events = [] from start.events] at mem
        cases mem
      alarms := ⟨_, Alarm.start_right maxTick, rfl, rfl, fun loop on => by
        rw [show run.vm.eventLoop = none from start.stopped] at on
        cases on⟩
      listed := fun loop on => by
        rw [show run.vm.eventLoop = none from start.stopped] at on
        cases on
      kept := fun loop on b mem => by cases mem }
  stepping task coroutine control := by
    rw [show run.control = .program from start.control] at control
    cases control

theorem Kept.calm {vm : AsyncVm} (kept : s.Kept) (calm : s.run.vm.Calm vm) :
    Kept { s with run := { s.run with vm } } where
  timed := kept.timed.calm calm
  stepping task coroutine control := calm.issued _ (kept.stepping task coroutine control)

/-- Every builtin except `asyncio.sleep` leaves the timers alone. -/
theorem calms_call {vm : AsyncVm} (firm : vm.Firm) (builtin : AsyncCall)
    (other : ∀ delay result, builtin ≠ .sleep delay result)
    (held : ∀ v ∈ builtin.arguments, vm.heap.Issued v) : AsyncVm.Calms builtin.run vm := by
  cases builtin with
  | createTask => exact AsyncVm.calms_createTask firm _
  | sleep delay result => exact absurd rfl (other delay result)
  | futureNew => exact AsyncVm.calms_futureNew firm
  | futureCancel => exact AsyncVm.calms_futureCancel firm _
  | taskCancel => exact AsyncVm.calms_taskCancel firm _
  | setResult => exact AsyncVm.calms_setResult firm (held _ (by simp [AsyncCall.arguments]))
  | setException => exact AsyncVm.calms_setException firm (held _ (by simp [AsyncCall.arguments]))
  | addDoneCallback =>
    exact AsyncVm.calms_addDoneCallback firm (held _ (by simp [AsyncCall.arguments]))

/-- The step lemma of the machine. -/
theorem after_kept {act : AsyncAct} (kept : s.Kept) (enabled : s.Enabled act) :
    (s.after act).Kept := by
  have firm := kept.timed.firm
  obtain ⟨enabled, keeps⟩ := enabled
  cases act with
  | call builtin =>
    obtain ⟨-, held⟩ := enabled
    by_cases sleeps : ∃ delay result, builtin = .sleep delay result
    · obtain ⟨delay, result, rfl⟩ := sleeps
      have slept := AsyncVm.wp_sleep kept.timed delay (held result (List.mem_singleton_self _))
      simp only [after, AsyncRun.after, AsyncCall.run, final]
      unfold wp at slept
      split
      · next eq =>
        rw [eq] at slept
        simp only [eq]
        exact ⟨slept.1, fun task coroutine control =>
          slept.2 _ (kept.stepping task coroutine control)⟩
      · next eq =>
        rw [eq] at slept
        simp only [eq]
        exact kept.calm slept
    · have calm := wp_final (calms_call firm builtin
        (fun delay result eq => sleeps ⟨delay, result, eq⟩) held)
      have eq : s.after (.call builtin) =
          { s with run := { s.run with vm := final builtin.run s.run.vm } } := by
        cases builtin with
        | sleep delay result => exact absurd ⟨delay, result, rfl⟩ sleeps
        | _ => rfl
      rw [eq]
      exact kept.calm calm
  | run coroutine =>
    have opened := AsyncVm.wp_openEventLoop firm coroutine
    unfold wp at opened
    simp only [after, AsyncRun.after]
    split
    · next eq =>
      rw [eq] at opened
      simp only [eq]
      exact ⟨kept.timed.opened opened.1 opened.2, fun _ _ other => by cases other⟩
    · next eq =>
      rw [eq] at opened
      simp only [eq]
      exact kept.calm opened
  | elsewhere heap =>
    exact ⟨kept.timed.elsewhere enabled keeps, fun task coroutine control =>
      enabled.issued _ (kept.stepping task coroutine control)⟩
  | turn =>
    obtain ⟨-, timed, stepping⟩ := kept.timed.advance
    exact ⟨timed, stepping⟩
  | callbackDone => exact ⟨kept.timed, fun _ _ other => by cases other⟩
  | taskDone result exception =>
    obtain ⟨⟨task, coroutine, control⟩, returned, raised⟩ := enabled
    have done : AsyncVm.Calms (finishStep task coroutine result exception) s.run.vm :=
      AsyncVm.calms_finishStep firm (kept.stepping task coroutine control) returned raised
    unfold AsyncVm.Calms wp at done
    simp only [after, AsyncRun.after, control]
    split
    · next eq =>
      rw [eq] at done
      exact ⟨kept.timed.calm done, fun _ _ other => by cases other⟩
    · next eq =>
      rw [eq] at done
      exact ⟨kept.timed.calm done, fun _ _ other => by cases other⟩

theorem reachable_kept (reach : Reachable s) : s.Kept := by
  induction reach with
  | start start => exact start_kept start
  | next act _ enabled ih => exact after_kept ih enabled

/-- What has been completed by the timer since the loop began. -/
structure InTime (s : TimedRun) : Prop where
  /-- A sleep is not over before its tick. -/
  due : ∀ f ∈ s.fired, ∃ due ≤ f.2, (f.1, due) ∈ s.born
  /-- Sleeps are over in the order of their ticks, and of their creation where the ticks agree. -/
  ordered : s.fired.Pairwise fun f g => ∀ due due', (f.1, due) ∈ s.born → (g.1, due') ∈ s.born →
    Alarm.Before s.born (f.1, due) (g.1, due')
  once : (s.fired.map (·.1)).Nodup
  distinct : (s.born.map (·.1)).Nodup
  /-- A sleep that nothing has completed still waits for its tick. -/
  kept : ∀ loop ∈ s.run.vm.eventLoop, ∀ b ∈ s.born,
    (b.1 ∈ loop.timers ∧ ∃ result, s.run.vm.heap.asyncFutureTimer b.1 = some (b.2, result)) ∨
      ∃ state, .completed b.1 state ∈ s.run.vm.events

/-- What the next turn of the loop completes. -/
structure TurnsInTime (s : TimedRun) : Prop where
  exact : AsyncVm.finishedSince s.run.vm (s.after .turn).run.vm = s.run.vm.chimes.map (·.1)
  /-- Nothing that was completed or cancelled is completed again. -/
  pending : ∀ f ∈ s.run.vm.chimes, s.run.vm.heap.asyncState f.1 = some .pending ∧
    ∀ state, .completed f.1 state ∉ s.run.vm.events
  /-- Nothing whose tick is reached is left behind. -/
  reached : ∀ loop ∈ (s.after .turn).run.vm.eventLoop, ∀ b ∈ s.born, b.2 ≤ loop.tick →
    ∃ state, .completed b.1 state ∈ (s.after .turn).run.vm.events

theorem Kept.inTime (kept : s.Kept) : s.InTime := by
  obtain ⟨a, right, set, rang, -⟩ := kept.timed.alarms
  have own (x : Alarm.Ring Value) (mem : x ∈ a.rung) : x.key ∈ s.born :=
    set ▸ (right.inTime x mem).2.2
  have distinct : (s.born.map (·.1)).Nodup := set ▸ right.once
  have same (x : Alarm.Ring Value) (mem : x ∈ a.rung) (due : Nat)
      (found : (x.alarm, due) ∈ s.born) : (x.alarm, due) = x.key :=
    List.inj_on_of_nodup_map distinct found (own x mem) rfl
  constructor
  · intro f mem
    rw [rang] at mem
    obtain ⟨x, rung, rfl⟩ := List.mem_map.mp mem
    exact ⟨x.due, (right.inTime x rung).1, own x rung⟩
  · rw [rang, List.pairwise_map]
    have ordered := right.ordered
    rw [List.pairwise_map, set] at ordered
    refine ordered.imp_of_mem fun {x y} memx memy before due due' foundx foundy => ?_
    rw [same x memx due foundx, same y memy due' foundy]
    exact before
  · rw [rang, List.map_map]
    exact right.rung_once
  · exact distinct
  · intro loop on b mem
    rcases kept.timed.kept loop on b mem with waits | done
    · exact .inl (AsyncVm.mem_waitingOf waits)
    · exact .inr done

theorem Kept.turnsInTime (kept : s.Kept) : s.TurnsInTime := by
  obtain ⟨struck, timed, -⟩ := kept.timed.advance
  constructor
  · exact struck.paid
  · intro f mem
    have fires : f.1 ∈ AsyncVm.finishedSince s.run.vm s.run.vm.advance.vm := by
      rw [struck.paid]
      exact List.mem_map_of_mem mem
    have set := struck.waited f.1 fires
    obtain ⟨timer, found⟩ := Option.isSome_iff_exists.mp set
    constructor
    · unfold Heap.asyncFutureTimer at found
      unfold Heap.asyncState
      split at found
      · next future ho =>
        split at found
        · next pending =>
          rw [ho]
          exact congrArg some pending
        · cases found
      · cases found
    · intro state done
      rw [(kept.timed.ended f.1 state done).2] at found
      cases found
  · intro loop on b mem due
    rcases timed.kept loop on b mem with waits | done
    · exact absurd due (Nat.not_le_of_lt (struck.sharp loop on b waits))
    · exact done

end TimedRun

/-! ### Timers that are kept -/

namespace AsyncVm.KeepsTimers

variable {h : Heap} {roots : List Value}

/-- An object is made that waits for no tick. -/
theorem alloc {o : Object} (hs : Sound h) (traced : ∀ v ∈ o.trace, h.Issued v)
    (silent : o.timer = none) : KeepsTimers roots h (final (Tonic.alloc o) h) := by
  have quiet := wp_final (wp_mono (wp_alloc_quiet hs traced silent) (fun _ _ made => made.1)
    fun _ => id)
  exact ⟨fun v _ => congrFun quiet.timer v, fun v => .inl (congrFun quiet.timer v)⟩

theorem pruneDependents_timer (p : Value → Bool) (o : Object) :
    (pruneDependents p o).timer = o.timer := by
  cases o <;> rfl

theorem kept_timer {t : Heap} {v : Value} (kept : h.Kept t v) :
    t.asyncFutureTimer v = h.asyncFutureTimer v := by
  rw [asyncFutureTimer_eq, asyncFutureTimer_eq, Heap.tryGet, Heap.tryGet, kept.entry]
  cases h.entry v with
  | none => rfl
  | some e => exact pruneDependents_timer _ e.object

/-- A collection whose roots include all that the loop holds. -/
theorem collect {youngOnly : Bool} {all : List Value} (hs : Sound h) (sub : roots ⊆ all) :
    KeepsTimers roots h (final (collectWith youngOnly all) h) := by
  refine wp_final (wp_mono (wp_collectWith hs.valid) ?_ fun t failed => ?_)
  · rintro - t ⟨marked, t₁, traced, rfl⟩
    have valid := traced.queued.valid hs.valid
    constructor
    · intro v reach
      exact kept_timer (traced.kept hs.valid hs.complete
        (reach.mono fun r hr => by simp [starts, sub hr]))
    · intro v
      by_cases live : ∀ l e, t₁.location v = some l → t₁.objects[l]? = some e →
          isLive youngOnly marked l e = true
      · exact .inl (kept_timer (traced.queued.kept (swept_kept valid live)))
      · push Not at live
        obtain ⟨l, e, hl, he, dead⟩ := live
        have gone := location_swept_dead valid hl he (by simpa using dead)
        refine .inr ?_
        simp [asyncFutureTimer_eq, Heap.tryGet, Heap.entry, gone]
  · obtain ⟨_, _, _, rfl⟩ := failed.queued
    exact ⟨fun _ _ => rfl, fun _ => .inl rfl⟩

end AsyncVm.KeepsTimers

/-- In every run of the event loop the timers fire in order, in time and once, and none is lost. -/
theorem timers_in_time {s : TimedRun} (reach : TimedRun.Reachable s) :
    s.InTime ∧ (s.run.control = .loop → s.TurnsInTime) := by
  have kept := TimedRun.reachable_kept reach
  exact ⟨kept.inTime, fun _ => kept.turnsInTime⟩

section Sleeper

/-- A coroutine sleeps for three ticks, and the loop has nothing else to do. -/
def sleeper : List AsyncAct :=
  [.run (.heap 46 1), .turn, .call (.sleep 3 .none), .taskDone (.ok (.heap 49 1)) none, .turn]

def sleeperRun : TimedRun := sleeper.foldl TimedRun.after ⟨coroutineRun, [], []⟩

theorem sleeperRun_reachable : TimedRun.Reachable sleeperRun := by
  have opened : TimedRun.Reachable (TimedRun.after ⟨coroutineRun, [], []⟩ (.run (.heap 46 1))) :=
    .next _ (.start coroutineRun_start) ⟨nofun, trivial⟩
  have loop : (coroutineRun.after (.run (.heap 46 1))).control = .loop := by decide +kernel
  have stepping := opened.next .turn ⟨loop, trivial⟩
  have slept := stepping.next (.call (.sleep 3 .none))
    ⟨⟨by decide +kernel, by simp [AsyncCall.arguments, Heap.Issued]⟩, trivial⟩
  have waiting := slept.next (.taskDone (.ok (.heap 49 1)) none)
    ⟨⟨⟨.heap 48 1, .heap 46 1, by decide +kernel⟩, ?_, fun _ hv => by cases hv⟩, trivial⟩
  · have again : ((sleeper.take 4).foldl TimedRun.after
        ⟨coroutineRun, [], []⟩).run.control = .loop := by decide +kernel
    exact waiting.next .turn ⟨again, trivial⟩
  · simp only [Except.toOption, Option.mem_def, Option.some.injEq, forall_eq']
    exact ⟨⟨1, some 49⟩, by decide +kernel, .inr ⟨rfl, by decide +kernel⟩⟩

/-- The clock jumps to the tick at which the sleep is over. -/
theorem timers_in_time_sleeper :
    sleeperRun.fired = [(.heap 49 1, 4)] ∧ sleeperRun.born = [(.heap 49 1, 4)] ∧
      sleeperRun.InTime :=
  ⟨by decide +kernel, by decide +kernel, (timers_in_time sleeperRun_reachable).1⟩

end Sleeper

end Tonic
