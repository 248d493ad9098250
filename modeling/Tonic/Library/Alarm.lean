import Mathlib.Data.List.Nodup
import Mathlib.Data.List.Pairwise
import Mathlib.Tactic.Common

/-!
## Alarms

A clock with a last tick, the alarms that were set and what has rung. The clock moves on by a tick
or jumps to the next alarm, and then everything that is due rings.
-/

namespace Alarm

structure Ring (α : Type) where
  alarm : α
  due : Nat
  clock : Nat

structure State (α : Type) where
  clock : Nat
  /-- Every alarm that was set, with the tick it is due at. -/
  set : List (α × Nat)
  waiting : List (α × Nat)
  rung : List (Ring α)

variable {α : Type} {s : State α} {top due clock : Nat} {a : α} {keep : α × Nat → Bool}

namespace State

def put (s : State α) (a : α) (due : Nat) : State α :=
  { s with set := s.set ++ [(a, due)], waiting := s.waiting ++ [(a, due)] }

/-- Alarms are called off. -/
def drop (s : State α) (keep : α × Nat → Bool) : State α :=
  { s with waiting := s.waiting.filter keep }

/-- What rings when the clock shows a tick. -/
def rings (s : State α) (clock : Nat) : List (Ring α) :=
  (s.waiting.filter (·.2 ≤ clock)).map fun a => ⟨a.1, a.2, clock⟩

def ring (s : State α) (clock : Nat) : State α :=
  { s with clock, waiting := s.waiting.filter (clock < ·.2), rung := s.rung ++ s.rings clock }

end State

/-- One alarm comes before another: it is due earlier, or at the same tick and was set earlier. -/
def Before (set : List (α × Nat)) (x y : α × Nat) : Prop :=
  x.2 < y.2 ∨ x.2 = y.2 ∧ [x, y].Sublist set

def Ring.key (x : Ring α) : α × Nat := (x.alarm, x.due)

/-- Alarms ring in time and in order. -/
structure Right (top : Nat) (s : State α) : Prop where
  low : s.clock ≤ top
  kept : s.waiting.Sublist s.set
  once : (s.set.map (·.1)).Nodup
  capped : ∀ a ∈ s.set, a.2 ≤ top
  later : ∀ a ∈ s.waiting, s.clock < a.2 ∨ a.2 = top
  inTime : ∀ x ∈ s.rung, x.due ≤ x.clock ∧ x.clock ≤ s.clock ∧ x.key ∈ s.set
  ordered : (s.rung.map Ring.key).Pairwise (Before s.set)
  ahead : ∀ x ∈ s.rung, ∀ a ∈ s.waiting, Before s.set x.key a

theorem Before.mono {set set' : List (α × Nat)} {x y : α × Nat} (sub : set.Sublist set')
    (before : Before set x y) : Before set' x y :=
  before.imp_right fun same => ⟨same.1, same.2.trans sub⟩

theorem start_right (top : Nat) : Right top (⟨0, [], [], []⟩ : State α) where
  low := Nat.zero_le top
  kept := .slnil
  once := .nil
  capped a mem := by cases mem
  later a mem := by cases mem
  inTime x mem := by cases mem
  ordered := .nil
  ahead x mem := by cases mem

namespace Right

theorem put (right : Right top s) (new : a ∉ s.set.map (·.1)) (cap : due ≤ top)
    (soon : s.clock < due ∨ due = top) : Right top (s.put a due) where
  low := right.low
  kept := right.kept.append (.refl _)
  once := by
    rw [State.put, List.map_append]
    refine List.Nodup.append right.once (List.nodup_singleton a) ?_
    intro b mem own
    obtain rfl : b = a := List.mem_singleton.mp own
    exact new mem
  capped b mem := by
    rcases List.mem_append.mp mem with old | own
    · exact right.capped b old
    · rw [List.mem_singleton.mp own]
      exact cap
  later b mem := by
    rcases List.mem_append.mp mem with old | own
    · exact right.later b old
    · rw [List.mem_singleton.mp own]
      exact soon
  inTime x mem := by
    obtain ⟨le, past, old⟩ := right.inTime x mem
    exact ⟨le, past, List.mem_append_left _ old⟩
  ordered := right.ordered.imp (.mono (List.sublist_append_left _ _))
  ahead x mem b own := by
    rcases List.mem_append.mp own with old | own
    · exact (right.ahead x mem b old).mono (List.sublist_append_left _ _)
    · obtain ⟨le, past, old⟩ := right.inTime x mem
      rw [List.mem_singleton.mp own]
      by_cases earlier : x.due < due
      · exact .inl earlier
      · have low := right.low
        have same : x.due = due := by omega
        exact .inr ⟨same, (List.singleton_sublist.mpr old).append (.refl _)⟩

theorem drop (right : Right top s) (keep : α × Nat → Bool) : Right top (s.drop keep) where
  low := right.low
  kept := List.filter_sublist.trans right.kept
  once := right.once
  capped := right.capped
  later b mem := right.later b (List.mem_of_mem_filter mem)
  inTime := right.inTime
  ordered := right.ordered
  ahead x mem b own := right.ahead x mem b (List.mem_of_mem_filter own)

/-- What is due is due at that very tick. -/
theorem ring (right : Right top s) (on : s.clock ≤ clock) (cap : clock ≤ top)
    (sharp : ∀ b ∈ s.waiting, b.2 ≤ clock → b.2 = clock) : Right top (s.ring clock) where
  low := cap
  kept := List.filter_sublist.trans right.kept
  once := right.once
  capped := right.capped
  later b mem := .inl (of_decide_eq_true (List.mem_filter.mp mem).2)
  inTime x mem := by
    rcases List.mem_append.mp mem with old | new
    · obtain ⟨le, past, own⟩ := right.inTime x old
      exact ⟨le, Nat.le_trans past on, own⟩
    · obtain ⟨b, own, rfl⟩ := List.mem_map.mp new
      obtain ⟨own, due⟩ := List.mem_filter.mp own
      exact ⟨of_decide_eq_true due, Nat.le_refl _, right.kept.subset own⟩
  ordered := by
    have keys : (s.rings clock).map Ring.key = s.waiting.filter (·.2 ≤ clock) := by
      rw [State.rings, List.map_map]
      exact List.map_id _
    rw [State.ring, List.map_append, keys]
    refine List.pairwise_append.mpr ⟨right.ordered, ?_, ?_⟩
    · apply List.pairwise_iff_forall_sublist.mpr
      intro b c sub
      have sharp' : ∀ d ∈ [b, c], d.2 = clock := by
        intro d mem
        obtain ⟨own, due⟩ := List.mem_filter.mp (sub.subset mem)
        exact sharp d own (of_decide_eq_true due)
      have same : b.2 = c.2 := by
        rw [sharp' b (by simp), sharp' c (by simp)]
      exact .inr ⟨same, sub.trans (List.filter_sublist.trans right.kept)⟩
    · intro key mem b own
      obtain ⟨x, rang, rfl⟩ := List.mem_map.mp mem
      exact right.ahead x rang b (List.mem_of_mem_filter own)
  ahead x mem b own := by
    obtain ⟨own, late⟩ := List.mem_filter.mp own
    have late : clock < b.2 := of_decide_eq_true late
    rcases List.mem_append.mp mem with old | new
    · exact right.ahead x old b own
    · obtain ⟨c, rang, rfl⟩ := List.mem_map.mp new
      have due : c.2 ≤ clock := of_decide_eq_true (List.mem_filter.mp rang).2
      exact .inl (Nat.lt_of_le_of_lt due late)

/-- The clock moves on by one tick, if there is one. -/
theorem tick (right : Right top s) : Right top (s.ring (min top (s.clock + 1))) := by
  have low := right.low
  apply right.ring (by omega) (Nat.min_le_left _ _)
  intro b mem due
  have later := right.later b mem
  omega

/-- The clock jumps to the next alarm. -/
theorem jump (right : Right top s) (some : ∃ b ∈ s.waiting, b.2 = clock)
    (next : ∀ b ∈ s.waiting, clock ≤ b.2) : Right top (s.ring clock) := by
  obtain ⟨b, mem, rfl⟩ := some
  have low := right.low
  have later := right.later b mem
  apply right.ring (by omega) (right.capped b (right.kept.subset mem))
  intro c own due
  exact Nat.le_antisymm due (next c own)

/-- No alarm rings twice. -/
theorem rung_once (right : Right top s) : (s.rung.map (·.alarm)).Nodup := by
  have keys := right.ordered
  rw [List.pairwise_map] at keys
  rw [List.Nodup, List.pairwise_map]
  refine keys.imp_of_mem fun {x y} memx memy before same => ?_
  have ownx := (right.inTime x memx).2.2
  have owny := (right.inTime y memy).2.2
  have eq : x.key = y.key := List.inj_on_of_nodup_map right.once ownx owny same
  rcases before with earlier | ⟨-, twice⟩
  · rw [eq] at earlier
    exact Nat.lt_irrefl _ earlier
  · rw [eq] at twice
    have single := (twice.map (·.1)).nodup right.once
    simp at single

end Right

end Alarm
