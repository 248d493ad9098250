import Tonic.Library.Outcome
import Tonic.PlanForms

/-!
## What an annotation denotes

An abstract reading of annotations, without a nesting limit: aliases are transparent wherever they
stand, and every other annotation makes a plan of the plans of its children. A plan that is resolved
within the limit is the one the annotation denotes.
-/

namespace Tonic

namespace Heap

variable (h : Heap) (b : TypePlanBuiltins)

def aliased (v : Value) : Option Value :=
  match h.get v with
  | .ok (.typeAlias _ _ _ value) => some value
  | _ => none

/-- A subscripted origin with its arguments. -/
def subscripted (v : Value) : Option (Value × List Value) :=
  match h.get v with
  | .ok (.genericAlias _ origin args) =>
    match h.get args with
    | .ok (.tuple arguments) => some (origin, arguments)
    | _ => none
  | _ => none

def parameterList (v : Value) : Option (List Value) :=
  match h.get v with
  | .ok (.list values) | .ok (.tuple values) => some values
  | _ => none

def isLiteralForm (origin : Value) : Bool :=
  match h.get origin with
  | .ok (.typingForm _ .literal) => true
  | _ => false

def leafPlan (v : Value) : Option TypePlan :=
  if v = .none then some .none
  else match b.exact v with
    | some kind => some (.exact kind)
    | none =>
      if v = b.buffer then some (.buffer ⟨none, none⟩)
      else match h.get v with
        | .ok (.classObject c) => some (.cls c.id c.version)
        | _ => none

/-- The value at the end of a chain of aliases. -/
inductive Sees : Value → Value → Prop
  | here {v : Value} : h.aliased v = none → Sees v v
  | through {v w d : Value} : h.aliased v = some w → Sees w d → Sees v d

/-- A literal an argument of a literal form stands for, through aliases and nested forms. -/
inductive Offers : Value → LiteralTypePlan → Prop
  | leaf {v : Value} {x : LiteralTypePlan} : h.literalTypePlan v = .ok x → Offers v x
  | through {v w : Value} {x : LiteralTypePlan} : h.aliased v = some w → Offers w x → Offers v x
  | nested {v origin a : Value} {arguments : List Value} {x : LiteralTypePlan} :
    h.subscripted v = some (origin, arguments) → h.isLiteralForm origin = true → a ∈ arguments →
    Offers a x → Offers v x

end Heap

/-- The origins whose subscriptions are planned for. -/
inductive PlanOrigin where
  | literal | callable | buffer | list | set | dict | tuple
deriving DecidableEq, Repr

def TypePlanBuiltins.origin (b : TypePlanBuiltins) (v : Value) : Option PlanOrigin :=
  if v = b.literal then some .literal
  else if v = b.callable then some .callable
  else if v = b.buffer then some .buffer
  else if v = b.list then some .list
  else if v = b.set then some .set
  else if v = b.dict then some .dict
  else if v = b.tuple then some .tuple
  else none

/-- The interpreter makes the planned classes and forms before it runs a program. -/
structure TypePlanBuiltins.Installed (b : TypePlanBuiltins) (h : Heap) : Prop where
  classes : ∀ v ∈ b.buffer :: b.classes.map (·.1), ∃ c, h.get v = .ok (.classObject c)
  literal : ∃ c, h.get b.literal = .ok (.typingForm c .literal)
  callable : ∃ c, h.get b.callable = .ok (.typingForm c .callable)

namespace Heap

variable (h : Heap) (b : TypePlanBuiltins)

/-- A subscription: its origin and arguments, its children and the plan it makes of theirs. -/
inductive Subscription (origin : Value) :
    List Value → List Value → (List TypePlan → TypePlan) → Prop
  | literal {arguments : List Value} {items : List LiteralTypePlan} :
    b.origin origin = some .literal →
    (∀ x, x ∈ items ↔ ∃ a ∈ arguments, h.Offers a x) →
    Subscription origin arguments [] fun _ =>
      .literal (Canonical.canonical LiteralTypePlan.compare items)
  | anyCallable {any result : Value} :
    b.origin origin = some .callable → h.Sees any .ellipsis →
    Subscription origin [any, result] [result] (onePlan (.callable none))
  | callable {parameters list result : Value} {values : List Value} :
    b.origin origin = some .callable → h.Sees parameters list →
    h.parameterList list = some values →
    Subscription origin [parameters, result] (values ++ [result]) callablePlan
  | buffer {dtype : Value} {options seen : List Value} {rank : Option Nat}
      {writable : Option Bool} :
    b.origin origin = some .buffer → h.Sees dtype b.float → options.length ≤ 2 →
    List.Forall₂ h.Sees options seen → h.bufferRank seen[0]? = .ok rank →
    bufferMutability seen[1]? = .ok writable →
    Subscription origin (dtype :: options) [] fun _ => .buffer ⟨rank, writable⟩
  | list {item : Value} :
    b.origin origin = some .list → Subscription origin [item] [item] (onePlan .list)
  | set {item : Value} :
    b.origin origin = some .set → Subscription origin [item] [item] (onePlan .set)
  | dict {key value : Value} :
    b.origin origin = some .dict →
    Subscription origin [key, value] [key, value] (twoPlans .dict)
  | variadic {item any : Value} :
    b.origin origin = some .tuple → h.Sees any .ellipsis →
    Subscription origin [item, any] [item] (onePlan .variadicTuple)
  | fixed {arguments : List Value} :
    b.origin origin = some .tuple →
    (∀ item any, arguments = [item, any] → ¬ h.Sees any .ellipsis) →
    Subscription origin arguments arguments .fixedTuple

def unionOf (plans : List TypePlan) : Option TypePlan :=
  match Canonical.canonical TypePlan.compare (plans.flatMap TypePlan.unionMembers) with
  | [] => none
  | [plan] => some plan
  | plans => some (.union plans)

/-- The children of an annotation, and the plan it makes of theirs. -/
inductive HasShape : Value → List Value → (List TypePlan → Option TypePlan) → Prop
  | leaf {v : Value} {p : TypePlan} : h.leafPlan b v = some p → HasShape v [] fun _ => some p
  | through {v w : Value} {children : List Value} {build : List TypePlan → Option TypePlan} :
    h.aliased v = some w → HasShape w children build → HasShape v children build
  | union {v cls : Value} {members : List Value} :
    h.get v = .ok (.unionType cls members) → HasShape v members unionOf
  | subscription {v origin : Value} {arguments children : List Value}
      {build : List TypePlan → TypePlan} :
    h.subscripted v = some (origin, arguments) →
    Subscription h b origin arguments children build →
    HasShape v children fun plans => some (build plans)

/-- The plan of an annotation of any depth. -/
inductive Denotes : Value → TypePlan → Prop
  | intro {v : Value} {children : List Value} {build : List TypePlan → Option TypePlan}
      {plans : List TypePlan} {p : TypePlan} :
    h.HasShape b v children build → children.length = plans.length →
    (∀ {w q}, (w, q) ∈ children.zip plans → Denotes w q) → build plans = some p → Denotes v p

variable {h b}

theorem denotes_iff {v : Value} {p : TypePlan} : h.Denotes b v p ↔
    ∃ children build plans, h.HasShape b v children build ∧
      List.Forall₂ (h.Denotes b) children plans ∧ build plans = some p := by
  constructor
  · rintro ⟨shape, length, each, built⟩
    exact ⟨_, _, _, shape, List.forall₂_iff_zip.mpr ⟨length, each⟩, built⟩
  · rintro ⟨children, build, plans, shape, each, built⟩
    obtain ⟨length, each⟩ := List.forall₂_iff_zip.mp each
    exact ⟨shape, length, each, built⟩

/-! ### An annotation denotes one plan -/

theorem parameterList_ellipsis : h.parameterList .ellipsis = none := rfl

theorem Sees.unaliased {v d : Value} (sees : h.Sees v d) : h.aliased d = none := by
  induction sees with
  | here last => exact last
  | through _ _ ih => exact ih

theorem Sees.unique {v d e : Value} (sees : h.Sees v d) (other : h.Sees v e) : d = e := by
  induction sees with
  | here last =>
    cases other with
    | here => rfl
    | through step => simp [last] at step
  | through step _ ih =>
    cases other with
    | here last => simp [last] at step
    | through step' rest => exact ih (Option.some.inj (step.symm.trans step') ▸ rest)

theorem Subscription.unique {origin : Value} {arguments c c' : List Value}
    {f f' : List TypePlan → TypePlan} (s : h.Subscription b origin arguments c f)
    (s' : h.Subscription b origin arguments c' f') : c = c' ∧ f = f' := by
  cases s with
  | literal o items =>
    cases s' with
    | literal _ items' =>
      refine ⟨rfl, ?_⟩
      rw [Canonical.canonical_eq fun x => (items x).trans (items' x).symm]
    | _ => simp_all
  | anyCallable o sees =>
    cases s' with
    | anyCallable => exact ⟨rfl, rfl⟩
    | callable _ sees' list =>
      rw [sees'.unique sees, parameterList_ellipsis] at list
      cases list
    | _ => simp_all
  | callable o sees list =>
    cases s' with
    | anyCallable _ sees' =>
      rw [sees.unique sees', parameterList_ellipsis] at list
      cases list
    | callable _ sees' list' =>
      rw [sees.unique sees', list'] at list
      cases list
      exact ⟨rfl, rfl⟩
    | _ => simp_all
  | buffer o dtype few sees rank writable =>
    cases s' with
    | buffer _ _ _ sees' rank' writable' =>
      have single : Relator.RightUnique h.Sees := fun _ _ _ => Sees.unique
      cases single.forall₂ sees sees'
      rw [rank] at rank'
      rw [writable] at writable'
      cases rank'
      cases writable'
      exact ⟨rfl, rfl⟩
    | _ => simp_all
  | list => cases s' <;> simp_all
  | set => cases s' <;> simp_all
  | dict => cases s' <;> simp_all
  | variadic o sees =>
    cases s' with
    | variadic => exact ⟨rfl, rfl⟩
    | fixed _ other => exact absurd sees (other _ _ rfl)
    | _ => simp_all
  | fixed o other =>
    cases s' with
    | variadic _ sees => exact absurd sees (other _ _ rfl)
    | fixed => exact ⟨rfl, rfl⟩
    | _ => simp_all

theorem get_of_leafPlan (installed : b.Installed h) {v : Value} {p : TypePlan}
    (leaf : h.leafPlan b v = some p) : v = .none ∨ ∃ c, h.get v = .ok (.classObject c) := by
  unfold leafPlan at leaf
  split at leaf
  · exact .inl ‹_›
  split at leaf
  · next kind exact =>
    refine .inr (installed.classes v (List.mem_cons_of_mem _ ?_))
    unfold TypePlanBuiltins.exact at exact
    obtain ⟨pair, found, -⟩ := Option.map_eq_some_iff.mp exact
    have same : pair.1 = v := by simpa using List.find?_some found
    exact List.mem_map.mpr ⟨pair, List.mem_of_find?_eq_some found, same⟩
  split at leaf
  · next buffer => exact .inr (buffer ▸ installed.classes b.buffer List.mem_cons_self)
  split at leaf
  · next c found => exact .inr ⟨c, found⟩
  · cases leaf

theorem get_none : h.get .none = .error (invalidValue .none) := rfl

theorem get_of_aliased {v w : Value} (step : h.aliased v = some w) :
    ∃ name place params, h.get v = .ok (.typeAlias name place params w) := by
  unfold aliased at step
  split at step
  · next found =>
    cases step
    exact ⟨_, _, _, found⟩
  · cases step

theorem get_of_subscripted {v origin : Value} {arguments : List Value}
    (form : h.subscripted v = some (origin, arguments)) :
    ∃ cls args, h.get v = .ok (.genericAlias cls origin args) ∧
      h.get args = .ok (.tuple arguments) := by
  unfold subscripted at form
  split at form
  · next got =>
    split at form
    · next found =>
      cases form
      exact ⟨_, _, got, found⟩
    · cases form
  · cases form

/-- An annotation is read in one way only. -/
theorem HasShape.unique (installed : b.Installed h) {v : Value} {c c' : List Value}
    {f f' : List TypePlan → Option TypePlan} (s : h.HasShape b v c f)
    (s' : h.HasShape b v c' f') : c = c' ∧ f = f' := by
  induction s with
  | leaf leaf =>
    cases s' with
    | leaf leaf' =>
      rw [leaf] at leaf'
      cases leaf'
      exact ⟨rfl, rfl⟩
    | _ =>
      rcases get_of_leafPlan installed leaf with rfl | ⟨_, got⟩ <;>
        simp_all [aliased, subscripted, get_none]
  | through step _ ih =>
    obtain ⟨_, _, _, got⟩ := get_of_aliased step
    cases s' with
    | leaf leaf =>
      rcases get_of_leafPlan installed leaf with rfl | ⟨_, got'⟩ <;> simp_all [get_none]
    | through step' rest => exact ih (Option.some.inj (step.symm.trans step') ▸ rest)
    | _ => simp_all [subscripted]
  | union got =>
    cases s' with
    | leaf leaf =>
      rcases get_of_leafPlan installed leaf with rfl | ⟨_, got'⟩ <;> simp_all [get_none]
    | union got' =>
      rw [got] at got'
      cases got'
      exact ⟨rfl, rfl⟩
    | _ => simp_all [aliased, subscripted]
  | subscription form made =>
    obtain ⟨_, _, got, _⟩ := get_of_subscripted form
    cases s' with
    | leaf leaf =>
      rcases get_of_leafPlan installed leaf with rfl | ⟨_, got'⟩ <;> simp_all [get_none]
    | through step => simp_all [aliased]
    | union got' => simp_all
    | subscription form' made' =>
      rw [form] at form'
      cases form'
      obtain ⟨rfl, rfl⟩ := made.unique made'
      exact ⟨rfl, rfl⟩

theorem Denotes.unique (installed : b.Installed h) {v : Value} {p q : TypePlan}
    (denotes : h.Denotes b v p) (other : h.Denotes b v q) : p = q := by
  induction denotes generalizing q with
  | @intro v children build plans p shape length each built ih =>
    obtain ⟨children', build', plans', shape', each', built'⟩ := denotes_iff.mp other
    obtain ⟨rfl, rfl⟩ := shape.unique installed shape'
    obtain ⟨length', each'⟩ := List.forall₂_iff_zip.mp each'
    have same : plans = plans' := by
      apply List.ext_getElem (length.symm.trans length')
      intro i hi hi'
      have bound : i < children.length := by omega
      have mem : (children[i], plans[i]) ∈ children.zip plans :=
        List.mem_iff_getElem.mpr ⟨i, by simp [bound, hi], by simp⟩
      have mem' : (children[i], plans'[i]) ∈ children.zip plans' :=
        List.mem_iff_getElem.mpr ⟨i, by simp [bound, hi'], by simp⟩
      exact ih mem (each' mem')
    rw [same, built'] at built
    exact (Option.some.inj built).symm

/-! ### What a shape makes of plans -/

/-- A plan that is no union is made of the given plans, and stands for itself in a union. -/
structure Builds (plans : List TypePlan) (p : TypePlan) : Prop where
  parts : ∀ part ∈ p.parts, part ∈ plans
  alone : p.unionMembers = [p]
  notUnion : ∀ members, p ≠ .union members
  notClass : ∀ typeId version, p ≠ .cls typeId version

theorem Subscription.builds {origin : Value} {arguments children : List Value}
    {build : List TypePlan → TypePlan} (s : h.Subscription b origin arguments children build)
    {plans : List TypePlan} (length : children.length = plans.length) :
    Builds plans (build plans) := by
  have last {values : List Value} {result : Value} (length : (values ++ [result]).length =
      plans.length) : Builds plans (callablePlan plans) := by
    refine ⟨fun part mem => ?_, rfl, by simp [callablePlan], by simp [callablePlan]⟩
    simp only [callablePlan, TypePlan.parts, Option.getD_some, List.mem_append,
      List.mem_singleton] at mem
    rcases mem with early | rfl
    · exact List.mem_of_mem_dropLast early
    · have nonempty : plans ≠ [] := by
        rintro rfl
        simp at length
      rw [List.getLastD_eq_getLast?, List.getLast?_eq_some_getLast nonempty]
      exact List.getLast_mem nonempty
  have one {f : TypePlan → TypePlan} (length : 1 = plans.length)
      (builds : ∀ p, Builds [p] (f p)) : Builds plans (onePlan f plans) := by
    obtain ⟨p, rfl⟩ := List.length_eq_one_iff.mp length.symm
    exact builds p
  cases s with
  | literal | buffer => exact ⟨by simp [TypePlan.parts], rfl, by simp, by simp⟩
  | callable => exact last length
  | fixed => exact ⟨fun _ => id, rfl, by simp, by simp⟩
  | dict =>
    obtain ⟨k, v, rfl⟩ := List.length_eq_two.mp length.symm
    exact ⟨fun _ => id, rfl, by simp [twoPlans], by simp [twoPlans]⟩
  | anyCallable =>
    exact one length fun p => ⟨by simp [TypePlan.parts], rfl, by simp, by simp⟩
  | list | set | variadic =>
    exact one length fun p => ⟨fun _ => id, rfl, by simp, by simp⟩

/-- A plan that contributes to unions what stands for itself there. -/
def Settled (p : TypePlan) : Prop :=
  p.unionMembers ≠ [] ∧ ∀ q ∈ p.unionMembers, q.unionMembers = [q]

theorem mem_unionMembers_unionOf {plans : List TypePlan} {p q : TypePlan}
    (settled : ∀ p ∈ plans, Settled p) (made : unionOf plans = some p) :
    q ∈ p.unionMembers ↔ q ∈ plans.flatMap TypePlan.unionMembers := by
  have members : q ∈ Canonical.canonical TypePlan.compare (plans.flatMap TypePlan.unionMembers) ↔
      q ∈ plans.flatMap TypePlan.unionMembers := Canonical.mem_canonical
  unfold unionOf at made
  split at made
  · cases made
  · next single eq =>
    cases made
    have mem : p ∈ plans.flatMap TypePlan.unionMembers := by
      rw [← @Canonical.mem_canonical _ TypePlan.compare, eq]
      exact List.mem_singleton_self p
    obtain ⟨r, hr, mem⟩ := List.mem_flatMap.mp mem
    rw [(settled r hr).2 p mem, ← members, eq]
  · next several =>
    cases made
    exact members

theorem HasShape.settled {v : Value} {children : List Value}
    {build : List TypePlan → Option TypePlan} (shape : h.HasShape b v children build)
    {plans : List TypePlan} {p : TypePlan} (length : children.length = plans.length)
    (below : ∀ q ∈ plans, Settled q) (built : build plans = some p) : Settled p := by
  induction shape with
  | leaf leaf =>
    cases built
    unfold leafPlan at leaf
    split at leaf
    · cases leaf
      simp [Settled, TypePlan.unionMembers]
    split at leaf
    · next kind _ =>
      cases leaf
      cases kind <;> simp [Settled, TypePlan.unionMembers]
    split at leaf
    · cases leaf
      simp [Settled, TypePlan.unionMembers]
    split at leaf
    · cases leaf
      simp [Settled, TypePlan.unionMembers]
    · cases leaf
  | through _ _ ih => exact ih length built
  | union =>
    have members {q : TypePlan} := @mem_unionMembers_unionOf plans p q below built
    constructor
    · unfold unionOf at built
      split at built
      · cases built
      · next single eq =>
        cases built
        intro empty
        have mem : p ∈ plans.flatMap TypePlan.unionMembers := by
          rw [← @Canonical.mem_canonical _ TypePlan.compare, eq]
          exact List.mem_singleton_self p
        exact List.not_mem_nil (empty ▸ members.mpr mem)
      · next several many _ =>
        cases built
        exact many
    · intro q mem
      obtain ⟨r, hr, mem⟩ := List.mem_flatMap.mp (members.mp mem)
      exact (below r hr).2 q mem
  | subscription _ made =>
    cases built
    rw [Settled, (made.builds length).alone]
    simp [(made.builds length).alone]

/-- Induction over what the children denote. -/
theorem Denotes.children {P : Value → TypePlan → Prop}
    (step : ∀ {v children build plans p}, h.HasShape b v children build →
      List.Forall₂ (fun w q => h.Denotes b w q ∧ P w q) children plans → build plans = some p →
      P v p) {v : Value} {p : TypePlan} (denotes : h.Denotes b v p) : P v p := by
  induction denotes with
  | intro shape length each built ih =>
    apply step shape _ built
    exact List.forall₂_iff_zip.mpr ⟨length, fun mem => ⟨each mem, ih mem⟩⟩

theorem forall_right {α β : Type} {R : α → β → Prop} {P : β → Prop} {as : List α} {bs : List β}
    (related : List.Forall₂ R as bs) (each : ∀ {a b}, R a b → P b) : ∀ b ∈ bs, P b := by
  induction related with
  | nil => simp
  | cons first _ ih => exact List.forall_mem_cons.mpr ⟨each first, ih⟩

theorem Denotes.settled {v : Value} {p : TypePlan} (denotes : h.Denotes b v p) : Settled p := by
  refine denotes.children (P := fun _ => Settled) fun shape each built => ?_
  exact shape.settled each.length_eq (forall_right each And.right) built

/-! ### Accepted annotations -/

open Effect

/-- Only numbers, strings and bytes of the heap are literals. -/
theorem literalTypePlan_of_get {v : Value} {o : Object} {x : LiteralTypePlan}
    (found : h.get v = .ok o) (ok : h.literalTypePlan v = .ok x) :
    (o matches .int _ | .str _ | .bytes _) = true := by
  unfold literalTypePlan at ok
  cases v <;> try cases found
  case heap =>
    rw [found] at ok
    dsimp only at ok
    split at ok
    · next eq => cases eq; rfl
    · next eq => cases eq; rfl
    · next eq => cases eq; rfl
    · cases ok

section Accepted

variable (installed : b.Installed h)
include installed

/-- An alias denotes what its value denotes. -/
theorem denotes_aliased {v w : Value} {p : TypePlan} (step : h.aliased v = some w) :
    h.Denotes b v p ↔ h.Denotes b w p := by
  constructor
  · rintro ⟨shape, length, each, built⟩
    obtain ⟨_, _, _, got⟩ := get_of_aliased step
    cases shape with
    | leaf leaf =>
      rcases get_of_leafPlan installed leaf with rfl | ⟨_, got'⟩ <;> simp_all [get_none]
    | through step' rest =>
      rw [step] at step'
      cases step'
      exact ⟨rest, length, each, built⟩
    | union got' => simp_all
    | subscription form => simp_all [subscripted]
  · rintro ⟨shape, length, each, built⟩
    exact ⟨.through step shape, length, each, built⟩

end Accepted

end Heap

end Tonic
