import Mathlib.Tactic.Common

/-!
## Computations by what they do

A computation relates the state it starts in to the outcomes it can have and the states it can end
in. One that never ends is related to nothing.
-/

namespace Computations

/-- A computation on states `σ` that ends with a value or fails. -/
def Comp (σ ε α : Type) : Type := σ → Except ε α → σ → Prop

variable {σ ε α β γ : Type}

namespace Comp

instance : Monad (Comp σ ε) where
  pure a := fun s out t => out = .ok a ∧ t = s
  bind m f := fun s out t =>
    (∃ e, m s (.error e) t ∧ out = .error e) ∨ ∃ a u, m s (.ok a) u ∧ f a u out t

/-- A computation that the state determines. -/
def lift (f : σ → Except ε α × σ) : Comp σ ε α := fun s out t => f s = (out, t)

def fail (e : ε) : Comp σ ε α := fun s out t => out = .error e ∧ t = s

def never : Comp σ ε α := fun _ _ _ => False

/-- A computation is repeated until it comes to a value. -/
inductive Repeats (body : α → Comp σ ε (α ⊕ β)) : α → Comp σ ε β where
  | fails {a : α} {s t : σ} {e : ε} (run : body a s (.error e) t) : Repeats body a s (.error e) t
  | ends {a : α} {b : β} {s t : σ} (run : body a s (.ok (.inr b)) t) : Repeats body a s (.ok b) t
  | again {a next : α} {s u t : σ} {out : Except ε β} (run : body a s (.ok (.inl next)) u)
    (rest : Repeats body next u out t) : Repeats body a s out t

variable {m : Comp σ ε α} {f : α → Comp σ ε β} {s t : σ}

theorem pure_iff {a : α} {out : Except ε α} :
    (pure a : Comp σ ε α) s out t ↔ out = .ok a ∧ t = s := Iff.rfl

theorem bind_iff {out : Except ε β} : (m >>= f) s out t ↔
    (∃ e, m s (.error e) t ∧ out = .error e) ∨ ∃ a u, m s (.ok a) u ∧ f a u out t := Iff.rfl

theorem ext {m m' : Comp σ ε α} (same : ∀ s out t, m s out t ↔ m' s out t) : m = m' := by
  funext s out t
  exact propext (same s out t)

instance : LawfulMonad (Comp σ ε) := LawfulMonad.mk' (Comp σ ε)
  (fun m => by
    apply ext
    intro s out t
    constructor
    · rintro (⟨e, failed, rfl⟩ | ⟨a, u, went, rfl, rfl⟩)
      · exact failed
      · exact went
    · intro run
      cases out with
      | error e => exact .inl ⟨e, run, rfl⟩
      | ok a => exact .inr ⟨a, t, run, rfl, rfl⟩)
  (fun a f => by
    apply ext
    intro s out t
    constructor
    · rintro (⟨e, ⟨no, -⟩, -⟩ | ⟨b, u, ⟨same, rfl⟩, run⟩)
      · cases no
      · cases same
        exact run
    · intro run
      exact .inr ⟨a, s, ⟨rfl, rfl⟩, run⟩)
  (fun m f g => by
    apply ext
    intro s out t
    constructor
    · rintro (⟨e, ⟨e', failed, same⟩ | ⟨a, u, went, failed⟩, rfl⟩ |
        ⟨b, v, ⟨e', failed, same⟩ | ⟨a, u, went, went'⟩, run⟩)
      · cases same
        exact .inl ⟨e, failed, rfl⟩
      · exact .inr ⟨a, u, went, .inl ⟨e, failed, rfl⟩⟩
      · cases same
      · exact .inr ⟨a, u, went, .inr ⟨b, v, went', run⟩⟩
    · rintro (⟨e, failed, rfl⟩ | ⟨a, u, went, ⟨e, failed, rfl⟩ | ⟨b, v, went', run⟩⟩)
      · exact .inl ⟨e, .inl ⟨e, failed, rfl⟩, rfl⟩
      · exact .inl ⟨e, .inr ⟨a, u, went, failed⟩, rfl⟩
      · exact .inr ⟨b, v, .inr ⟨a, u, went, went'⟩, run⟩)

theorem lift_iff {g : σ → Except ε α × σ} {out : Except ε α} :
    lift g s out t ↔ g s = (out, t) := Iff.rfl

end Comp

end Computations
