import Mathlib.Logic.Relation
import Mathlib.Tactic.Common

/-!
## Searching for a goal

A breadth-first search for a node, which may have to leave out one other node. It stops at the goal.
-/

namespace Search

variable {ε : Type}

structure Graph (ε : Type) where
  next : Nat → Except ε (List Nat)
  outside : ε

/-- What the search knows: the nodes it has seen, and those it has still to look at. -/
structure State where
  seen : List Bool
  queue : List Nat

namespace Graph

variable (g : Graph ε) (blocked goal : Nat)

def unseen (s : State) : Nat := s.seen.count false

theorem count_set_lt {seen : List Bool} {node : Nat} (new : seen[node]? = some false) :
    (seen.set node true).count false < seen.count false := by
  obtain ⟨bound, found⟩ := List.getElem?_eq_some_iff.mp new
  have positive : 0 < seen.count false := List.count_pos_iff.mpr (found ▸ List.getElem_mem bound)
  rw [List.count_set bound, found]
  simp only [BEq.rfl, if_true, beq_iff_eq, Bool.true_eq_false, if_false]
  omega

section Unfold

variable {g blocked goal} {seen : List Bool} {node : Nat} {queue nodes : List Nat}

end Unfold

/-- A step that does not go to the blocked node. -/
def Avoids (a b : Nat) : Prop := ∃ nodes, g.next a = .ok nodes ∧ b ∈ nodes ∧ b ≠ blocked

end Graph

/-! ### What is found -/

section Found

variable {g : Graph ε} {blocked goal : Nat} {s t : State} {nodes : List Nat}

/-- Every node that was seen can be reached. -/
def Right (g : Graph ε) (blocked start : Nat) (s : State) : Prop :=
  (∀ node : Nat, s.seen[node]? = some true → Relation.ReflTransGen (g.Avoids blocked) start node) ∧
  ∀ node ∈ s.queue, s.seen[node]? = some true

/-- Every node that was seen is queued, or its successors were seen. -/
def Done (g : Graph ε) (blocked : Nat) (s : State) : Prop :=
  ∀ node : Nat, s.seen[node]? = some true →
    node ∈ s.queue ∨ ∀ next, g.Avoids blocked node next → s.seen[next]? = some true

/-- The nodes that were seen stay seen. -/
def Keeps (s t : State) : Prop :=
  (∀ node : Nat, s.seen[node]? = some true → t.seen[node]? = some true) ∧
  (∀ node ∈ s.queue, node ∈ t.queue) ∧
  ∀ node : Nat, t.seen[node]? = some true → s.seen[node]? = some true ∨ node ∈ t.queue

theorem Keeps.refl (s : State) : Keeps s s := ⟨fun _ => id, fun _ => id, fun _ => .inl⟩

theorem Keeps.trans {u : State} (first : Keeps s t) (second : Keeps t u) : Keeps s u := by
  refine ⟨fun node seen => second.1 node (first.1 node seen),
    fun node queued => second.2.1 node (first.2.1 node queued), fun node seen => ?_⟩
  cases second.2.2 node seen with
  | inr queued => exact .inr queued
  | inl before =>
    cases first.2.2 node before with
    | inl old => exact .inl old
    | inr queued => exact .inr (second.2.1 node queued)

end Found

end Search
