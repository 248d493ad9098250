import Mathlib.Tactic.Common

/-!
## Exploring with labels

A worklist carries places together with labels. A place keeps the label it is first met with, and
leads on from there; to meet it with another label ends the search. The search succeeds exactly if
nothing that can be met is refused, lies outside, or is met with two labels.
-/

namespace Exploration

variable {φ ε : Type}

structure System (φ ε : Type) where
  size : Nat
  visit : Nat → φ → Except ε (List (Nat × φ))
  outside : ε
  clash : ε

theorem count_set_lt [DecidableEq φ] {labels : List (Option φ)} {place : Nat} {label : φ}
    (new : labels[place]? = some none) :
    (labels.set place (some label)).count none < labels.count none := by
  obtain ⟨bound, found⟩ := List.getElem?_eq_some_iff.mp new
  have unlabelled : 0 < labels.count none := List.count_pos_iff.mpr (found ▸ List.getElem_mem bound)
  rw [List.count_set bound, found]
  simp only [BEq.rfl, if_true, reduceCtorEq, beq_iff_eq, if_false]
  omega

namespace System

variable (g : System φ ε)

/-- What the search comes to. -/
inductive Met (seeds : List (Nat × φ)) : Nat → φ → Prop where
  | seed {place : Nat} {label : φ} (found : (place, label) ∈ seeds) : Met seeds place label
  | step {place next : Nat} {label other : φ} {successors : List (Nat × φ)}
      (before : Met seeds place label) (visited : g.visit place label = .ok successors)
      (found : (next, other) ∈ successors) : Met seeds next other

structure Coherent (seeds : List (Nat × φ)) : Prop where
  inside {place : Nat} {label : φ} : g.Met seeds place label → place < g.size
  visited {place : Nat} {label : φ} : g.Met seeds place label →
    ∃ successors, g.visit place label = .ok successors
  single {place : Nat} {label other : φ} : g.Met seeds place label → g.Met seeds place other →
    label = other

variable [DecidableEq φ]

def explore (labels : List (Option φ)) (work : List (Nat × φ)) : Except ε (List (Option φ)) :=
  match work with
  | [] => .ok labels
  | (place, label) :: work =>
    match _found : labels[place]? with
    | none => .error g.outside
    | some (some previous) =>
      if previous ≠ label then .error g.clash else explore labels work
    | some none =>
      match g.visit place label with
      | .error fault => .error fault
      | .ok successors => explore (labels.set place (some label)) (successors ++ work)
termination_by (labels.count none, work.length)
decreasing_by
  · exact .right _ (Nat.lt_succ_self _)
  · exact .left _ _ (count_set_lt _found)

section Cases

variable {g} {labels : List (Option φ)} {work : List (Nat × φ)} {place : Nat} {label previous : φ}

theorem explore_nil : g.explore labels [] = .ok labels := by rw [explore]

theorem explore_outside (found : labels[place]? = none) :
    g.explore labels ((place, label) :: work) = .error g.outside := by
  rw [explore]
  split <;> simp_all only [reduceCtorEq]

theorem explore_seen (found : labels[place]? = some (some previous)) :
    g.explore labels ((place, label) :: work) =
      if previous ≠ label then .error g.clash else g.explore labels work := by
  rw [explore]
  split <;> simp_all only [reduceCtorEq, Option.some.injEq]

theorem explore_new (found : labels[place]? = some none) :
    g.explore labels ((place, label) :: work) =
      match g.visit place label with
      | .error fault => .error fault
      | .ok successors => g.explore (labels.set place (some label)) (successors ++ work) := by
  rw [explore]
  split <;> simp_all only [reduceCtorEq, Option.some.injEq]

end Cases

/-! ### A search that succeeds -/

/-- What a finished search keeps of the labels and the work it started with. -/
structure Finished (labels : List (Option φ)) (work : List (Nat × φ))
    (final : List (Option φ)) : Prop where
  length : final.length = labels.length
  kept {place : Nat} {label : φ} : labels[place]? = some (some label) →
    final[place]? = some (some label)
  done {place : Nat} {label : φ} : (place, label) ∈ work → final[place]? = some (some label)
  closed {place : Nat} {label : φ} : final[place]? = some (some label) →
    labels[place]? = some (some label) ∨ ∃ successors, g.visit place label = .ok successors ∧
      ∀ next other, (next, other) ∈ successors → final[next]? = some (some other)

theorem explore_finished {labels final : List (Option φ)} {work : List (Nat × φ)}
    (run : g.explore labels work = .ok final) : g.Finished labels work final := by
  induction labels, work using explore.induct g with
  | case1 labels =>
    rw [explore_nil] at run
    cases run
    exact ⟨rfl, id, fun member => absurd member List.not_mem_nil, .inl⟩
  | case2 labels place label work outside =>
    rw [explore_outside outside] at run
    cases run
  | case3 labels place label work previous found differs =>
    rw [explore_seen found, if_pos differs] at run
    cases run
  | case4 labels place label work previous found same ih =>
    rw [explore_seen found, if_neg same] at run
    have rest := ih run
    refine ⟨rest.length, rest.kept, fun {p l} member => ?_, rest.closed⟩
    cases List.mem_cons.mp member with
    | inl here =>
      cases here
      rw [not_not] at same
      exact rest.kept (same ▸ found)
    | inr later => exact rest.done later
  | case5 labels place label work found fault failed =>
    rw [explore_new found, failed] at run
    cases run
  | case6 labels place label work found successors visited ih =>
    rw [explore_new found, visited] at run
    have rest := ih run
    have bound : place < labels.length := (List.getElem?_eq_some_iff.mp found).1
    have labelled : final[place]? = some (some label) :=
      rest.kept (by rw [List.getElem?_set_self bound])
    refine ⟨?_, fun {p l} old => ?_, fun {p l} member => ?_, fun {p l} at' => ?_⟩
    · rw [rest.length, List.length_set]
    · apply rest.kept
      by_cases same : place = p
      · rw [same, old] at found
        cases found
      · rw [List.getElem?_set_ne same, old]
    · cases List.mem_cons.mp member with
      | inl here =>
        cases here
        exact labelled
      | inr later => exact rest.done (List.mem_append_right _ later)
    · by_cases same : place = p
      · subst same
        rw [labelled] at at'
        cases at'
        exact .inr ⟨successors, visited, fun next other inside =>
          rest.done (List.mem_append_left _ inside)⟩
      · have := rest.closed at'
        rwa [List.getElem?_set_ne same] at this

omit [DecidableEq φ] in
theorem Finished.met {seeds : List (Nat × φ)} {labels final : List (Option φ)}
    (finished : g.Finished labels seeds final)
    (fresh : ∀ (place : Nat) (label : φ), labels[place]? ≠ some (some label)) {place : Nat} {label : φ}
    (met : g.Met seeds place label) : final[place]? = some (some label) := by
  induction met with
  | seed found => exact finished.done found
  | step before visited found ih =>
    cases finished.closed ih with
    | inl old => exact absurd old (fresh _ _)
    | inr later =>
      obtain ⟨successors, again, labelled⟩ := later
      rw [visited] at again
      cases again
      exact labelled _ _ found

/-! ### A search without conflicts -/

theorem explore_ok {seeds : List (Nat × φ)} (coherent : g.Coherent seeds)
    {labels : List (Option φ)} {work : List (Nat × φ)} (size : labels.length = g.size)
    (right : ∀ (place : Nat) (label : φ), labels[place]? = some (some label) → g.Met seeds place label)
    (met : ∀ place label, (place, label) ∈ work → g.Met seeds place label) :
    ∃ final, g.explore labels work = .ok final := by
  induction labels, work using explore.induct g with
  | case1 labels => exact ⟨labels, explore_nil⟩
  | case2 labels place label work outside =>
    have inside := coherent.inside (met place label (List.mem_cons_self ..))
    rw [List.getElem?_eq_none_iff] at outside
    omega
  | case3 labels place label work previous found differs =>
    have here := met place label (List.mem_cons_self ..)
    exact absurd (coherent.single (right place previous found) here) differs
  | case4 labels place label work previous found same ih =>
    rw [explore_seen found, if_neg same]
    exact ih size right fun p l member => met p l (List.mem_cons_of_mem _ member)
  | case5 labels place label work found fault failed =>
    obtain ⟨successors, visited⟩ := coherent.visited (met place label (List.mem_cons_self ..))
    rw [failed] at visited
    cases visited
  | case6 labels place label work found successors visited ih =>
    have here := met place label (List.mem_cons_self ..)
    have bound : place < labels.length := (List.getElem?_eq_some_iff.mp found).1
    rw [explore_new found, visited]
    refine ih (by rw [List.length_set, size]) (fun p l at' => ?_) (fun p l member => ?_)
    · by_cases same : place = p
      · subst same
        rw [List.getElem?_set_self bound] at at'
        cases at'
        exact here
      · rw [List.getElem?_set_ne same] at at'
        exact right p l at'
    · cases List.mem_append.mp member with
      | inl next => exact .step here visited next
      | inr rest => exact met p l (List.mem_cons_of_mem _ rest)

/-- The search succeeds exactly if it meets nothing it would have to refuse. -/
theorem explore_iff {seeds : List (Nat × φ)} :
    (∃ final, g.explore (List.replicate g.size none) seeds = .ok final) ↔ g.Coherent seeds := by
  have fresh : ∀ (place : Nat) (label : φ),
      (List.replicate g.size (none : Option φ))[place]? ≠ some (some label) := by
    intro place label found
    rw [List.getElem?_replicate] at found
    split at found <;> cases found
  constructor
  · rintro ⟨final, run⟩
    have finished := g.explore_finished run
    have labelled {place : Nat} {label : φ} (met : g.Met seeds place label) :=
      finished.met g fresh met
    refine ⟨fun met => ?_, fun met => ?_, fun met other => ?_⟩
    · have bound := (List.getElem?_eq_some_iff.mp (labelled met)).1
      rwa [finished.length, List.length_replicate] at bound
    · cases finished.closed (labelled met) with
      | inl old => exact absurd old (fresh _ _)
      | inr later =>
        obtain ⟨successors, visited, -⟩ := later
        exact ⟨successors, visited⟩
    · have same := (labelled met).symm.trans (labelled other)
      cases same
      rfl
  · intro coherent
    refine g.explore_ok coherent (List.length_replicate ..) (fun place label found => ?_)
      fun place label found => .seed found
    exact absurd found (fresh _ _)

end System

end Exploration
