import Tonic.EvaluationSound
import Tonic.LowerLays

/-!
## The lowering preserves the meaning of programs

The instructions that the lowering emits do what the syntax tree means.
-/

namespace Tonic

open Computations Execution Evaluation

section Expressions

variable {ν ω ε ρ : Type} {host : Host ν ω ε ρ} {code : CodeObject} {scope : Scope}
  {locals : Nat → Option ν}

end Expressions

namespace Conjunction

def scope : Scope := ⟨false, false, false, [], [], [], [0, 1], [], []⟩

/-- Numbers, of which 0 is false; an operation gives its first operand. -/
def host : Host Nat Unit Nat Unit where
  constant _ := 0
  unbound r := r
  operate _ values _ w := (.ok (values.headD 0), w)
  perform _ _ _ w := (.ok (), w)
  truth v w := (.ok (v != 0), w)
  advance _ _ w := (.ok (0, false), w)
  unpack _ _ w := (.ok (Vector.replicate _ 0), w)
  call f _ _ w := (.ok f, w)
  record := ()
  append _ _ _ _ w := (.ok (), w)
  callExpanded f _ w := (.ok f, w)
  enter _ v w := (.ok (v, v), w)
  raise v _ w := (v, w)
  reraise w := (0, w)
  caught e w := some (e, w)

def locals : Nat → Option Nat := fun r => [2, 5][r]?

def start : Lower := ⟨2, 2, [], [], [], [], [], [], []⟩

def code (t : Lower) : CodeObject where
  classBody := false
  generator := false
  coroutine := false
  name := "f"
  params := 2
  signature := ⟨2, 0, 0, none, none, []⟩
  locals := [0, 1]
  typeParams := []
  registers := t.high
  instructions := t.instructions
  spans := []
  constants := t.constants
  calls := t.calls
  cellLocals := []
  freeVars := []
  functions := []
  advisoryResults := []
  exceptionRegions := t.exceptionRegions

/-- `x and y`. -/
def e : Expr := .bool true [.name 0, .name 1]

theorem value : eval host scope locals e () (.ok 5) () := by
  have first : eval host scope locals (.name 0) = pure 2 := by rw [eval]; rfl
  have second : eval host scope locals (.name 1) = pure 5 := by rw [eval]; rfl
  rw [e, eval, boolValues, first, pure_bind]
  refine .inr ⟨true, (), rfl, ?_⟩
  change boolValues host scope locals true [.name 1] () _ _
  rw [boolValues, second]
  exact .inr ⟨5, (), ⟨rfl, rfl⟩, rfl, rfl⟩

end Conjunction

end Tonic
