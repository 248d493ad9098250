import Mathlib.Logic.Function.Basic
import Mathlib.Logic.Relation

/-!
# Chains of links

A partial function links an element to at most one other. A chain ends when following the links
comes to an element without one, and a new link is harmless unless it closes a cycle.
-/

namespace Chains

variable {α : Type} {next : α → Option α} {a b c v : α}

/-- Following the links from an element comes to an end. -/
inductive Ends (next : α → Option α) : α → Prop where
  | last {a : α} : next a = none → Ends next a
  | link {a b : α} : next a = some b → Ends next b → Ends next a

/-- Following the links from `a` comes to `b`. -/
def Reaches (next : α → Option α) : α → α → Prop :=
  Relation.ReflTransGen fun a b => next a = some b

theorem Ends.rest (ends : Ends next a) (link : next a = some b) : Ends next b := by
  cases ends with
  | last none =>
    rw [none] at link
    cases link
  | link other rest =>
    rw [link] at other
    cases other
    exact rest

theorem Ends.of_reaches (ends : Ends next a) (path : Reaches next a b) : Ends next b := by
  induction path with
  | refl => exact ends
  | tail _ link ih => exact ih.rest link

/-- Fewer links. -/
theorem Ends.of_fewer {fewer : α → Option α} (sub : ∀ a b, fewer a = some b → next a = some b)
    (ends : Ends next a) : Ends fewer a := by
  induction ends with
  | @last a none =>
    refine .last ?_
    cases linked : fewer a with
    | none => rfl
    | some b =>
      rw [sub a b linked] at none
      cases none
  | @link a b next_a _ ih =>
    cases linked : fewer a with
    | none => exact .last linked
    | some c =>
      rw [sub a c linked] at next_a
      cases next_a
      exact .link linked ih

/-- What lies on a cycle has no end. -/
theorem not_ends_of_cycle (link : next a = some b) (back : Reaches next b a) : ¬ Ends next a := by
  intro ends
  induction ends generalizing b with
  | last none =>
    rw [none] at link
    cases link
  | @link a c next_a _ ih =>
    rw [link] at next_a
    cases next_a
    rcases Relation.ReflTransGen.cases_head back with same | ⟨d, onward, rest⟩
    · subst same
      exact ih link .refl
    · exact ih onward (rest.tail link)

variable [DecidableEq α]

theorem Reaches.update (path : Reaches next b a) :
    Reaches (Function.update next a (some c)) b a := by
  induction path using Relation.ReflTransGen.head_induction_on with
  | refl => exact .refl
  | @head x y link _ ih =>
    by_cases same : x = a
    · rw [same]
      exact .refl
    · refine .head ?_ ih
      rw [Function.update_of_ne same]
      exact link

theorem Ends.update (ends : Ends next v) (bare : next a = none)
    (target : Ends (Function.update next a (some c)) c) :
    Ends (Function.update next a (some c)) v := by
  have linked : Function.update next a (some c) a = some c := Function.update_self ..
  induction ends with
  | @last v none =>
    by_cases same : v = a
    · rw [same]
      exact .link linked target
    · refine .last ?_
      rw [Function.update_of_ne same]
      exact none
  | @link v w next_v _ ih =>
    have apart : v ≠ a := by
      rintro rfl
      rw [bare] at next_v
      cases next_v
    refine .link ?_ ih
    rw [Function.update_of_ne apart]
    exact next_v

/-- A chain that does not pass the new link is as before. -/
theorem Ends.avoids (ends : Ends next v) (apart : ¬ Reaches next v a) :
    Ends (Function.update next a (some c)) v := by
  induction ends with
  | @last v none =>
    have other : v ≠ a := by
      rintro rfl
      exact apart .refl
    refine .last ?_
    rw [Function.update_of_ne other]
    exact none
  | @link v w next_v _ ih =>
    have other : v ≠ a := by
      rintro rfl
      exact apart .refl
    refine .link ?_ (ih fun path => apart (.head next_v path))
    rw [Function.update_of_ne other]
    exact next_v

/-- A new link leaves all chains with an end exactly when its target does not lead back to it. -/
theorem ends_update_iff (ends : ∀ v, Ends next v) (bare : next a = none) :
    (∀ v, Ends (Function.update next a (some c)) v) ↔ ¬ Reaches next c a := by
  constructor
  · intro all path
    exact not_ends_of_cycle (Function.update_self ..) path.update (all a)
  · intro apart v
    exact (ends v).update bare ((ends c).avoids apart)

end Chains
