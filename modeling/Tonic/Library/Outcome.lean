import Mathlib.Tactic.Common

/-!
## Computations that may fail

What a successful `Except` computation went through: its steps succeeded one after the other, and so
did every pass of a loop.
-/

namespace Outcome

variable {ε α β : Type}

theorem ok_bind (x : α) (f : α → Except ε β) : (.ok x : Except ε α) >>= f = f x := rfl

theorem bind_ok {x : Except ε α} {f : α → Except ε β} {b : β} (run : (x >>= f) = .ok b) :
    ∃ a, x = .ok a ∧ f a = .ok b := by
  cases x with
  | error e => cases run
  | ok a => exact ⟨a, rfl, run⟩

theorem map_ok {x : Except ε α} {f : α → β} {b : β} (run : f <$> x = .ok b) :
    ∃ a, x = .ok a ∧ f a = b := by
  cases x with
  | error e => cases run
  | ok a => exact ⟨a, rfl, Except.ok.inj run⟩

theorem mapM_cons_ok {f : α → Except ε β} {x : α} {xs : List α} {ys : List β}
    (run : (x :: xs).mapM f = .ok ys) : ∃ z zs, ys = z :: zs ∧ f x = .ok z ∧ xs.mapM f = .ok zs := by
  rw [List.mapM_cons] at run
  obtain ⟨z, hz, run⟩ := bind_ok run
  obtain ⟨zs, hzs, run⟩ := bind_ok run
  cases run
  exact ⟨z, zs, rfl, hz, hzs⟩

/-- A loop whose passes succeed with the values of a function. -/
theorem mapM_eq_ok {f : α → Except ε β} {g : α → β} {xs : List α}
    (each : ∀ x ∈ xs, f x = .ok (g x)) : xs.mapM f = .ok (xs.map g) := by
  induction xs with
  | nil => rfl
  | cons x xs ih =>
    rw [List.mapM_cons, each x List.mem_cons_self, ih fun y hy => each y (List.mem_cons_of_mem _ hy)]
    rfl

theorem mapM_append_ok {f : α → Except ε β} {xs xs' : List α} {ys ys' : List β}
    (first : xs.mapM f = .ok ys) (rest : xs'.mapM f = .ok ys') :
    (xs ++ xs').mapM f = .ok (ys ++ ys') := by
  rw [List.mapM_append, first, ok_bind, rest]
  rfl

theorem seq_ok {x : Except ε PUnit} {f : PUnit → Except ε β} {b : β} :
    (x >>= f) = .ok b ↔ x = .ok () ∧ f () = .ok b := by
  constructor
  · intro run
    obtain ⟨_, first, rest⟩ := bind_ok run
    exact ⟨first, rest⟩
  · rintro ⟨first, rest⟩
    rw [first, ok_bind, rest]

theorem forM_cons_ok {f : α → Except ε PUnit} {x : α} {xs : List α} :
    (x :: xs).forM f = .ok () ↔ f x = .ok () ∧ xs.forM f = .ok () := by
  show (f x >>= fun _ => xs.forM f) = .ok () ↔ _
  exact seq_ok

theorem forM_ok {f : α → Except ε PUnit} {xs : List α} :
    xs.forM f = .ok () ↔ ∀ x ∈ xs, f x = .ok () := by
  induction xs with
  | nil => exact ⟨fun _ x hx => (List.not_mem_nil hx).elim, fun _ => rfl⟩
  | cons x xs ih => rw [forM_cons_ok, ih, List.forall_mem_cons]

/-! ### Failures -/

/-- A computation that fails only with what the predicate allows. -/
def FailsOnly (P : ε → Prop) (x : Except ε α) : Prop := ∀ e, x = .error e → P e

namespace FailsOnly

variable {P : ε → Prop}

theorem ok (a : α) : FailsOnly P (.ok a) := by
  intro e failed
  cases failed

theorem error {e : ε} (allowed : P e) : FailsOnly P (.error e : Except ε α) := by
  intro e' failed
  cases failed
  exact allowed

theorem bind {x : Except ε α} {f : α → Except ε β} (first : FailsOnly P x)
    (rest : ∀ a, x = .ok a → FailsOnly P (f a)) : FailsOnly P (x >>= f) := by
  cases run : x with
  | error e => exact error (first e run)
  | ok a => exact rest a run

theorem ite {c : Prop} [Decidable c] {x y : Except ε α} (yes : c → FailsOnly P x)
    (no : ¬ c → FailsOnly P y) : FailsOnly P (if c then x else y) := by
  split
  · exact yes ‹_›
  · exact no ‹_›

theorem foldlM {f : β → α → Except ε β} (each : ∀ b a, FailsOnly P (f b a)) (xs : List α) (b : β) :
    FailsOnly P (xs.foldlM f b) := by
  induction xs generalizing b with
  | nil => exact ok b
  | cons x xs ih =>
    rw [List.foldlM_cons]
    exact bind (each b x) fun b' _ => ih b'

theorem anyM {f : α → Except ε Bool} {xs : List α} (each : ∀ x ∈ xs, FailsOnly P (f x)) :
    FailsOnly P (xs.anyM f) := by
  induction xs with
  | nil => exact ok false
  | cons x xs ih =>
    refine bind (each x List.mem_cons_self) fun found _ => ?_
    cases found with
    | true => exact ok true
    | false => exact ih fun y hy => each y (List.mem_cons_of_mem _ hy)

end FailsOnly

end Outcome
