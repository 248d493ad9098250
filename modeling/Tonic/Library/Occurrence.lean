import Mathlib.Data.Set.Function

/-!
## Occurrences

A structure with places for values, seen through the function that rewrites every place: a value
occurs in the structure when rewriting it alone makes a difference. A set of values determines
the structure when rewritings that agree on the set have the same result; then nothing else
occurs in it.
-/

namespace Occurrence

variable {ν α : Type}

/-- Rewriting `v`, and nothing else, can be seen in the result. -/
def Occurs (rewritten : (ν → ν) → α) (v : ν) : Prop :=
  ∃ f : ν → ν, (∀ w, w ≠ v → f w = w) ∧ rewritten f ≠ rewritten id

/-- Rewritings that agree on `s` have the same result. -/
def Determined (rewritten : (ν → ν) → α) (s : Set ν) : Prop :=
  ∀ f g : ν → ν, Set.EqOn f g s → rewritten f = rewritten g

theorem Determined.mem {rewritten : (ν → ν) → α} {s : Set ν} (h : Determined rewritten s) {v : ν}
    (occurs : Occurs rewritten v) : v ∈ s := by
  obtain ⟨f, only, differs⟩ := occurs
  by_contra absent
  exact differs (h f id fun w hw => only w fun eq => absent (eq ▸ hw))

end Occurrence
