import Tonic.PlanShapes
import Tonic.PlanStream

/-!
## Resolved plans

An accepted plan is in normal form wherever a union occurs in it, every class in it is among the
recorded dependencies, and the plans of a function do not depend on the order of its annotations.
-/

namespace Tonic

open Effect

/-- A union has at least two members, each once, and none of them is a union. -/
def TypePlan.Flat (p : TypePlan) : Prop :=
  ∀ members, p = .union members →
    2 ≤ members.length ∧ members.Nodup ∧ ∀ nested, .union nested ∉ members

/-- A class of the plan is among the dependencies. -/
def TypePlan.Covered (dependencies : List ClassPlanDependency) (p : TypePlan) : Prop :=
  ∀ typeId version, p = .cls typeId version →
    ∃ d ∈ dependencies, d.typeId = typeId ∧ d.version = version

namespace Heap

variable {h : Heap} {b : TypePlanBuiltins}

/-! ### Normal form -/

theorem everywhere_of_unionMembers {P : TypePlan → Prop} {p q : TypePlan} (none : P .none)
    (all : p.Everywhere P) (mem : q ∈ p.unionMembers) : q.Everywhere P := by
  unfold TypePlan.unionMembers at mem
  split at mem
  · exact (TypePlan.everywhere_iff.mp all).2 q mem
  · cases List.mem_singleton.mp mem
    exact TypePlan.everywhere_iff.mpr ⟨none, by simp [TypePlan.parts]⟩
  · cases List.mem_singleton.mp mem
    exact all

/-- What holds of the plans of the members holds of the plan of a union. -/
theorem everywhere_unionOf {P : TypePlan → Prop} {plans : List TypePlan} {p : TypePlan}
    (none : P .none) (top : ∀ members, p = .union members → P p)
    (all : ∀ q ∈ plans, q.Everywhere P) (made : unionOf plans = some p) : p.Everywhere P := by
  have members : ∀ q ∈ Canonical.canonical TypePlan.compare
      (plans.flatMap TypePlan.unionMembers), q.Everywhere P := by
    intro q mem
    obtain ⟨r, hr, mem⟩ := List.mem_flatMap.mp (Canonical.mem_canonical.mp mem)
    exact everywhere_of_unionMembers none (all r hr) mem
  unfold unionOf at made
  split at made
  · cases made
  · next single eq =>
    cases made
    exact members p (by simp [eq])
  · cases made
    exact TypePlan.everywhere_iff.mpr ⟨top _ rfl, members⟩

theorem everywhere_build {P : TypePlan → Prop} {plans : List TypePlan} {p : TypePlan}
    (builds : Builds plans p) (top : P p) (all : ∀ q ∈ plans, q.Everywhere P) :
    p.Everywhere P :=
  TypePlan.everywhere_iff.mpr ⟨top, fun part mem => all part (builds.parts part mem)⟩

theorem parts_leafPlan {v : Value} {p : TypePlan} (leaf : h.leafPlan b v = some p) :
    p.parts = [] ∧ ∀ members, p ≠ .union members := by
  unfold leafPlan at leaf
  split at leaf
  · cases leaf
    exact ⟨rfl, fun _ => nofun⟩
  split at leaf
  · cases leaf
    exact ⟨rfl, fun _ => nofun⟩
  split at leaf
  · cases leaf
    exact ⟨rfl, fun _ => nofun⟩
  split at leaf
  · cases leaf
    exact ⟨rfl, fun _ => nofun⟩
  · cases leaf

theorem flat_unionOf {plans : List TypePlan} {p : TypePlan}
    (settled : ∀ q ∈ plans, Settled q) (made : unionOf plans = some p) : p.Flat := by
  intro members eq
  subst eq
  have settles {q : TypePlan} (mem : q ∈ plans.flatMap TypePlan.unionMembers) :
      q.unionMembers = [q] := by
    obtain ⟨r, hr, mem⟩ := List.mem_flatMap.mp mem
    exact (settled r hr).2 q mem
  have loop (nested : List TypePlan) : TypePlan.unionMembers (.union nested) ≠ [.union nested] := by
    intro same
    have bigger := congrArg sizeOf same
    simp [TypePlan.unionMembers] at bigger
    omega
  unfold unionOf at made
  split at made
  · cases made
  · next single eq =>
    cases made
    have mem : TypePlan.union members ∈ plans.flatMap TypePlan.unionMembers := by
      rw [← @Canonical.mem_canonical _ TypePlan.compare, eq]
      exact List.mem_singleton_self _
    exact absurd (settles mem) (loop members)
  · next several single =>
    cases made
    refine ⟨?_, Canonical.nodup_canonical _, fun nested mem => ?_⟩
    · rcases list : Canonical.canonical TypePlan.compare (plans.flatMap TypePlan.unionMembers)
        with _ | ⟨p, _ | ⟨q, rest⟩⟩
      · exact absurd list several
      · exact absurd list (single p)
      · simp
    · exact absurd (settles (Canonical.mem_canonical.mp mem)) (loop nested)

/-- Every union in the plan of an annotation is in normal form. -/
theorem Denotes.flat {v : Value} {p : TypePlan} (denotes : h.Denotes b v p) :
    p.Everywhere TypePlan.Flat := by
  refine denotes.children (P := fun _ p => p.Everywhere TypePlan.Flat) fun shape each built => ?_
  have all := forall_right each And.right
  have settled := forall_right each fun both => both.1.settled
  have length := each.length_eq
  clear each
  induction shape with
  | leaf leaf =>
    cases built
    obtain ⟨none, notUnion⟩ := parts_leafPlan leaf
    exact TypePlan.everywhere_iff.mpr ⟨fun ms eq => absurd eq (notUnion ms), by simp [none]⟩
  | through _ _ ih => exact ih built length
  | union =>
    exact everywhere_unionOf (fun _ => nofun) (fun _ _ => flat_unionOf settled built) all built
  | subscription _ made =>
    cases built
    have builds := made.builds length
    exact everywhere_build builds (fun ms eq => absurd eq (builds.notUnion ms)) all

/-! ### Dependencies -/

/-- The dependencies tell the classes as they are. -/
def Recorded (h : Heap) (dependencies : List ClassPlanDependency) : Prop :=
  ∀ d ∈ dependencies, ∃ c, h.classOf d.cls = .ok c ∧ c.id = d.typeId ∧ c.version = d.version

/-- Dependencies are only added, and tell the classes as they are. -/
structure Grows (h : Heap) (s t : List ClassPlanDependency) : Prop where
  kept : ∀ d ∈ s, d ∈ t
  recorded : h.Recorded s → h.Recorded t

theorem Grows.refl (s : List ClassPlanDependency) : h.Grows s s := ⟨fun _ => id, id⟩

theorem Grows.trans {s t u : List ClassPlanDependency} (first : h.Grows s t)
    (rest : h.Grows t u) : h.Grows s u :=
  ⟨fun d mem => rest.kept d (first.kept d mem), rest.recorded ∘ first.recorded⟩

variable (h b) in
/-- The plan of one entry of an annotation dictionary. -/
def annotationPlan (entry : Value × Value) : String × Except TypePlanRejection TypePlan :=
  match h.annotationName entry.1 with
  | none => ("<non-string>", .error .nonStringAnnotationKey)
  | some name => (name, outcome (h.resolveTypePlan b maxTypePlanDepth [] entry.2) [])

/-- An annotation dictionary: its keys are strings, and no two of them are equal. -/
structure Annotated (h : Heap) (annotations : Value) (d : Dict) : Prop where
  dict : h.get annotations = .ok (.dict d)
  named : ∀ entry ∈ d.entries, h.annotationName entry.1 ≠ none
  distinct : (d.entries.map fun entry => h.annotationName entry.1).Nodup

theorem annotationPlan_fst {entry : Value × Value} {name : String}
    (named : h.annotationName entry.1 = some name) : (h.annotationPlan b entry).1 = name := by
  simp [annotationPlan, named]

theorem Annotated.names {annotations : Value} {d : Dict} (a : h.Annotated annotations d) :
    ((d.entries.map (h.annotationPlan b)).map (·.1)).Nodup := by
  rw [List.map_map]
  refine List.Nodup.of_map some ?_
  rw [List.map_map]
  have same : ∀ entry ∈ d.entries,
      (some ∘ ((·.1) ∘ h.annotationPlan b)) entry = h.annotationName entry.1 := by
    intro entry mem
    obtain ⟨name, named⟩ := Option.ne_none_iff_exists'.mp (a.named entry mem)
    simp [annotationPlan_fst named, named]
  rw [List.map_congr_left same]
  exact a.distinct

end Heap

namespace FunctionTypePlan

open Heap

variable {as bs : List (String × Except TypePlanRejection TypePlan)}

/-- A plan is up to date where it is made. -/
theorem dependenciesCurrent_of_recorded {plan : FunctionTypePlan} {h : Heap}
    (recorded : h.Recorded plan.classDependencies) : plan.dependenciesCurrent h = true := by
  unfold dependenciesCurrent
  rw [List.all_eq_true]
  intro d mem
  obtain ⟨c, found, id, version⟩ := recorded d mem
  simp [found, id, version]

end FunctionTypePlan

end Tonic
