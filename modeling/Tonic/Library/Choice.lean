import Mathlib.Tactic.Common

/-!
## Programs that may guess

A program over a state that may guess a value and check it later, as the relation between the states
it starts in, its results and the states it ends in.
-/

/-- A program on states `σ` that guesses. -/
def Choice (σ α : Type) : Type := σ → α → σ → Prop

namespace Choice

variable {σ α β : Type}

instance : Monad (Choice σ) where
  pure a := fun s b t => b = a ∧ t = s
  bind m f := fun s b t => ∃ a u, m s a u ∧ f a u b t

def guess : Choice σ α := fun s _ t => t = s

/-- The program goes on only where something holds. -/
def check (p : σ → Prop) : Choice σ Unit := fun s _ t => p s ∧ t = s

theorem pure_iff {a b : α} {s t : σ} : (pure a : Choice σ α) s b t ↔ b = a ∧ t = s := Iff.rfl

theorem bind_iff {m : Choice σ α} {f : α → Choice σ β} {b : β} {s t : σ} :
    (m >>= f) s b t ↔ ∃ a u, m s a u ∧ f a u b t := Iff.rfl

theorem guess_iff {a : α} {s t : σ} : (guess : Choice σ α) s a t ↔ t = s := Iff.rfl

theorem check_iff {p : σ → Prop} {u : Unit} {s t : σ} : check p s u t ↔ p s ∧ t = s := Iff.rfl

end Choice
