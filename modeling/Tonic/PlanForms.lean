import Tonic.Library.Effect
import Tonic.PlanOrder

/-!
## Forms of annotations

A plan is made of parts. A subscripted origin is decided before anything in it is resolved: it is
rejected, or it has children, whose plans make its own.
-/

namespace Tonic

namespace TypePlan

/-- The plans a plan is made of. -/
def parts : TypePlan → List TypePlan
  | .list item | .set item | .variadicTuple item => [item]
  | .dict key value => [key, value]
  | .fixedTuple items | .union items => items
  | .callable parameters result => parameters.getD [] ++ [result]
  | _ => []

/-- A plan occurs in another, at any depth. -/
inductive Occurs (q : TypePlan) : TypePlan → Prop
  | here : Occurs q q
  | inside {part p : TypePlan} : part ∈ p.parts → Occurs q part → Occurs q p

/-- A property of everything that occurs in a plan. -/
def Everywhere (P : TypePlan → Prop) (p : TypePlan) : Prop := ∀ q, Occurs q p → P q

theorem everywhere_iff {P : TypePlan → Prop} {p : TypePlan} :
    p.Everywhere P ↔ P p ∧ ∀ part ∈ p.parts, part.Everywhere P := by
  constructor
  · intro all
    exact ⟨all p .here, fun part mem q occurs => all q (.inside mem occurs)⟩
  · rintro ⟨top, below⟩ q occurs
    cases occurs with
    | here => exact top
    | inside mem occurs => exact below _ mem q occurs

end TypePlan

/-! ### One layer of an annotation -/

namespace Heap

variable (h : Heap) (b : TypePlanBuiltins)

def onePlan (f : TypePlan → TypePlan) : List TypePlan → TypePlan
  | [p] => f p
  | _ => .none

def twoPlans (f : TypePlan → TypePlan → TypePlan) : List TypePlan → TypePlan
  | [p, q] => f p q
  | _ => .none

def callablePlan (plans : List TypePlan) : TypePlan :=
  .callable (some plans.dropLast) (plans.getLastD .none)

end Heap

end Tonic
