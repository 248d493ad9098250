import Tonic.ResolvedPlans

/-!
## Rewriting annotations

Two spellings of an annotation: members of a union are permuted, repeated, nested or written as
`None`, arguments of a literal form are permuted, repeated or nested, and an alias stands for its
value, at any depth and any number of times. What an annotation denotes does not change.
-/

namespace Tonic

namespace Heap

/-- What a list of annotations lists. -/
inductive Listing where
  | members | literals | positions
deriving DecidableEq, Repr

/-- The items of a value that may be listed in its place. -/
def nested (h : Heap) : Listing → Value → Option (List Value)
  | .members, v =>
    match h.get v with
    | .ok (.unionType _ members) => some members
    | _ => none
  | .literals, v =>
    match h.subscripted v with
    | some (origin, arguments) => if h.isLiteralForm origin then some arguments else none
    | none => none
  | .positions, _ => none

mutual

/-- One annotation is a rewriting of the other. -/
inductive Rewrites (h : Heap) (b : TypePlanBuiltins) : Value → Value → Prop
  | refl (v : Value) : Rewrites h b v v
  | symm {v w : Value} : Rewrites h b v w → Rewrites h b w v
  | trans {u v w : Value} : Rewrites h b u v → Rewrites h b v w → Rewrites h b u w
  | value {v w : Value} : h.aliased v = some w → Rewrites h b v w
  | union {v w cls cls' : Value} {ms ns : List Value} :
    h.get v = .ok (.unionType cls ms) → h.get w = .ok (.unionType cls' ns) →
    Relists h b .members ms ns → Rewrites h b v w
  | subscription {v w origin : Value} {as bs : List Value} :
    h.subscripted v = some (origin, as) → h.subscripted w = some (origin, bs) →
    Relists h b (if h.isLiteralForm origin then .literals else .positions) as bs →
    Rewrites h b v w
  | list {v w : Value} {as bs : List Value} :
    h.get v = .ok (.list as) → h.get w = .ok (.list bs) → Relists h b .positions as bs →
    Rewrites h b v w
  | tuple {v w : Value} {as bs : List Value} :
    h.get v = .ok (.tuple as) → h.get w = .ok (.tuple bs) → Relists h b .positions as bs →
    Rewrites h b v w

/-- One list of annotations is a rewriting of the other. -/
inductive Relists (h : Heap) (b : TypePlanBuiltins) : Listing → List Value → List Value → Prop
  | nil {l : Listing} : Relists h b l [] []
  | cons {l : Listing} {v w : Value} {vs ws : List Value} :
    Rewrites h b v w → Relists h b l vs ws → Relists h b l (v :: vs) (w :: ws)
  | symm {l : Listing} {vs ws : List Value} : Relists h b l vs ws → Relists h b l ws vs
  | trans {l : Listing} {us vs ws : List Value} :
    Relists h b l us vs → Relists h b l vs ws → Relists h b l us ws
  | permute {l : Listing} {vs ws : List Value} :
    l ≠ .positions → vs.Perm ws → Relists h b l vs ws
  | duplicate {l : Listing} {v : Value} {vs : List Value} :
    l ≠ .positions → Relists h b l (v :: v :: vs) (v :: vs)
  | nest {l : Listing} {u n : Value} {ns vs : List Value} :
    h.nested l u = some (n :: ns) → Relists h b l (u :: vs) (n :: ns ++ vs)
  | none {vs : List Value} : Relists h b .members (.none :: vs) (b.noneType :: vs)

end

variable (h : Heap) (b : TypePlanBuiltins)

/-- A value whose end of a chain of aliases can be told from its rewritings. -/
def Atom (d : Value) : Prop :=
  match h.get d with
  | .ok (.list _) | .ok (.tuple _) | .ok (.genericAlias _ _ _) | .ok (.unionType _ _) => False
  | _ => True

/-- The plans of a list of parameters. -/
def Parameters (v : Value) (plans : List TypePlan) : Prop :=
  ∃ list values, h.Sees v list ∧ h.parameterList list = some values ∧
    List.Forall₂ (h.Denotes b) values plans

/-- The values mean the same wherever an annotation, a literal or a parameter list may stand. -/
structure SamePlans (v w : Value) : Prop where
  denotes : ∀ p, h.Denotes b v p ↔ h.Denotes b w p
  offers : ∀ x, h.Offers v x ↔ h.Offers w x
  sees : ∀ d, h.Atom d → (h.Sees v d ↔ h.Sees w d)
  parameters : ∀ plans, h.Parameters b v plans ↔ h.Parameters b w plans

/-- The plans a list of members contributes to a union. -/
def Contributes (members : List Value) (s : Set TypePlan) : Prop :=
  ∃ plans, List.Forall₂ (h.Denotes b) members plans ∧
    ∀ q, q ∈ s ↔ q ∈ plans.flatMap TypePlan.unionMembers

/-- The lists mean the same. -/
def AlikeLists : Listing → List Value → List Value → Prop
  | .members, vs, ws => ∀ s, h.Contributes b vs s ↔ h.Contributes b ws s
  | .literals, vs, ws => ∀ x, (∃ v ∈ vs, h.Offers v x) ↔ ∃ w ∈ ws, h.Offers w x
  | .positions, vs, ws => List.Forall₂ (h.SamePlans b) vs ws

variable {h b}

theorem SamePlans.refl (v : Value) : h.SamePlans b v v :=
  ⟨fun _ => .rfl, fun _ => .rfl, fun _ _ => .rfl, fun _ => .rfl⟩

theorem SamePlans.symm {v w : Value} (alike : h.SamePlans b v w) : h.SamePlans b w v :=
  ⟨fun p => (alike.denotes p).symm, fun x => (alike.offers x).symm,
    fun d atom => (alike.sees d atom).symm, fun ps => (alike.parameters ps).symm⟩

theorem SamePlans.trans {u v w : Value} (first : h.SamePlans b u v) (rest : h.SamePlans b v w) :
    h.SamePlans b u w where
  denotes p := (first.denotes p).trans (rest.denotes p)
  offers x := (first.offers x).trans (rest.offers x)
  sees d atom := (first.sees d atom).trans (rest.sees d atom)
  parameters ps := (first.parameters ps).trans (rest.parameters ps)

/-! ### One layer -/

theorem sees_unaliased {v d : Value} (last : h.aliased v = none) : h.Sees v d ↔ d = v := by
  constructor
  · intro sees
    cases sees with
    | here => rfl
    | through step => simp [last] at step
  · rintro rfl
    exact .here last

theorem sees_aliased {v w d : Value} (step : h.aliased v = some w) :
    h.Sees v d ↔ h.Sees w d := by
  constructor
  · intro sees
    cases sees with
    | here last => simp [last] at step
    | through step' rest => exact Option.some.inj (step'.symm.trans step) ▸ rest
  · exact .through step

theorem offers_aliased {v w : Value} {x : LiteralTypePlan} (step : h.aliased v = some w) :
    h.Offers v x ↔ h.Offers w x := by
  obtain ⟨_, _, _, got⟩ := get_of_aliased step
  constructor
  · intro offers
    cases offers with
    | leaf leaf => cases literalTypePlan_of_get got leaf
    | through step' rest => exact Option.some.inj (step'.symm.trans step) ▸ rest
    | nested form => simp [subscripted, got] at form
  · exact .through step

theorem offers_subscripted {v origin : Value} {arguments : List Value} {x : LiteralTypePlan}
    (form : h.subscripted v = some (origin, arguments)) :
    h.Offers v x ↔ h.isLiteralForm origin = true ∧ ∃ a ∈ arguments, h.Offers a x := by
  obtain ⟨_, _, got, _⟩ := get_of_subscripted form
  constructor
  · intro offers
    cases offers with
    | leaf leaf => cases literalTypePlan_of_get got leaf
    | through step => simp [aliased, got] at step
    | nested form' literal mem offers =>
      rw [form] at form'
      cases form'
      exact ⟨literal, _, mem, offers⟩
  · rintro ⟨literal, a, mem, offers⟩
    exact .nested form literal mem offers

section Layers

variable (installed : b.Installed h)
include installed

theorem denotes_union {v cls : Value} {members : List Value} {p : TypePlan}
    (got : h.get v = .ok (.unionType cls members)) :
    h.Denotes b v p ↔
      ∃ plans, List.Forall₂ (h.Denotes b) members plans ∧ unionOf plans = some p := by
  rw [denotes_iff]
  constructor
  · rintro ⟨children, build, plans, shape, each, built⟩
    obtain ⟨rfl, rfl⟩ := shape.unique installed (.union got)
    exact ⟨plans, each, built⟩
  · rintro ⟨plans, each, built⟩
    exact ⟨_, _, plans, .union got, each, built⟩

theorem denotes_subscripted {v origin : Value} {arguments : List Value} {p : TypePlan}
    (form : h.subscripted v = some (origin, arguments)) :
    h.Denotes b v p ↔ ∃ children build plans,
      h.Subscription b origin arguments children build ∧
        List.Forall₂ (h.Denotes b) children plans ∧ build plans = p := by
  rw [denotes_iff]
  constructor
  · rintro ⟨children, build, plans, shape, each, built⟩
    obtain ⟨_, _, got, _⟩ := get_of_subscripted form
    cases shape with
    | leaf leaf =>
      rcases get_of_leafPlan installed leaf with rfl | ⟨_, got'⟩ <;> simp_all [get_none]
    | through step => simp [aliased, got] at step
    | union got' => simp [got] at got'
    | subscription form' made =>
      rw [form] at form'
      cases form'
      exact ⟨_, _, plans, made, each, Option.some.inj built⟩
  · rintro ⟨children, build, plans, made, each, rfl⟩
    exact ⟨_, _, plans, .subscription form made, each, rfl⟩

/-- A list of parameters is no annotation. -/
theorem not_denotes_parameterList {v : Value} {values : List Value} {p : TypePlan}
    (list : h.parameterList v = some values) : ¬ h.Denotes b v p := by
  rintro ⟨shape, -, -, -⟩
  unfold parameterList at list
  cases shape with
  | leaf leaf =>
    rcases get_of_leafPlan installed leaf with rfl | ⟨_, got⟩ <;> simp_all [get_none]
  | through step =>
    obtain ⟨_, _, _, got⟩ := get_of_aliased step
    simp [got] at list
  | union got => simp [got] at list
  | subscription form =>
    obtain ⟨_, _, got, _⟩ := get_of_subscripted form
    simp [got] at list

/-! ### Rewritten values are alike -/

theorem alike_of_aliased {v w : Value} (step : h.aliased v = some w) : h.SamePlans b v w where
  denotes _ := denotes_aliased installed step
  offers _ := offers_aliased step
  sees _ _ := sees_aliased step
  parameters plans := by simp only [Parameters, sees_aliased step]

omit installed in
theorem denotes_each {as bs : List Value} {plans : List TypePlan}
    (alike : List.Forall₂ (h.SamePlans b) as bs) (each : List.Forall₂ (h.Denotes b) as plans) :
    List.Forall₂ (h.Denotes b) bs plans := by
  induction alike generalizing plans with
  | nil => exact each
  | cons first _ ih =>
    cases each with
    | cons denotes rest => exact .cons ((first.denotes _).mp denotes) (ih rest)

omit installed in
theorem alike_symm {as bs : List Value} (alike : List.Forall₂ (h.SamePlans b) as bs) :
    List.Forall₂ (h.SamePlans b) bs as :=
  (alike.imp fun _ _ => SamePlans.symm).flip

omit installed in
/-- No chain of aliases that reaches a value which is no atom ends in an atom. -/
theorem sees_alike {v w : Value} (last : h.aliased v = none) (last' : h.aliased w = none)
    (notAtom : ¬ h.Atom v) (notAtom' : ¬ h.Atom w) (d : Value) (atom : h.Atom d) :
    h.Sees v d ↔ h.Sees w d := by
  rw [sees_unaliased last, sees_unaliased last']
  constructor
  · rintro rfl
    exact absurd atom notAtom
  · rintro rfl
    exact absurd atom notAtom'

omit installed in
theorem not_offers {v : Value} {o : Object} {x : LiteralTypePlan} (got : h.get v = .ok o)
    (plain : ¬ (o matches .int _ | .str _ | .bytes _) = true) (last : h.aliased v = none)
    (form : h.subscripted v = none) : ¬ h.Offers v x := by
  intro offers
  cases offers with
  | leaf leaf => exact plain (literalTypePlan_of_get got leaf)
  | through step => simp [last] at step
  | nested form' => simp [form] at form'

omit installed in
theorem get_of_parameterList {v : Value} {values : List Value}
    (list : h.parameterList v = some values) :
    h.get v = .ok (.list values) ∨ h.get v = .ok (.tuple values) := by
  unfold parameterList at list
  split at list
  · cases list
    exact .inl ‹_›
  · cases list
    exact .inr ‹_›
  · cases list

theorem alike_parameterList {v w : Value} {as bs : List Value}
    (list : h.parameterList v = some as) (list' : h.parameterList w = some bs)
    (each : List.Forall₂ (h.SamePlans b) as bs) : h.SamePlans b v w := by
  have facts {v : Value} {as : List Value} (list : h.parameterList v = some as) :
      h.aliased v = none ∧ ¬ h.Atom v ∧ ∀ x, ¬ h.Offers v x := by
    rcases get_of_parameterList list with got | got <;>
      exact ⟨by simp [aliased, got], by simp [Atom, got],
        fun _ => not_offers got (by simp) (by simp [aliased, got]) (by simp [subscripted, got])⟩
  obtain ⟨last, notAtom, noOffer⟩ := facts list
  obtain ⟨last', notAtom', noOffer'⟩ := facts list'
  have parameters {v : Value} {as : List Value} (list : h.parameterList v = some as)
      (last : h.aliased v = none) (plans : List TypePlan) :
      h.Parameters b v plans ↔ List.Forall₂ (h.Denotes b) as plans := by
    simp [Parameters, sees_unaliased last, list]
  refine ⟨fun p => ?_, fun x => ?_, sees_alike last last' notAtom notAtom', fun plans => ?_⟩
  · exact iff_of_false (not_denotes_parameterList installed list)
      (not_denotes_parameterList installed list')
  · exact iff_of_false (noOffer x) (noOffer' x)
  · rw [parameters list last, parameters list' last']
    exact ⟨denotes_each each, denotes_each (alike_symm each)⟩

/-- Lists that contribute the same make the same union. -/
theorem alike_union {v w cls cls' : Value} {ms ns : List Value}
    (got : h.get v = .ok (.unionType cls ms)) (got' : h.get w = .ok (.unionType cls' ns))
    (same : ∀ s, h.Contributes b ms s ↔ h.Contributes b ns s) : h.SamePlans b v w := by
  have facts {v cls : Value} {ms : List Value} (got : h.get v = .ok (.unionType cls ms)) :
      h.aliased v = none ∧ ¬ h.Atom v ∧ (∀ x, ¬ h.Offers v x) ∧
        ∀ plans, ¬ h.Parameters b v plans := by
    have last : h.aliased v = none := by simp [aliased, got]
    have form : h.subscripted v = none := by simp [subscripted, got]
    refine ⟨last, by simp [Atom, got], fun _ => not_offers got (by simp) last form, ?_⟩
    rintro plans ⟨list, values, sees, listed, -⟩
    cases (sees_unaliased last).mp sees
    simp [parameterList, got] at listed
  have carried {ms ns : List Value} (same : ∀ s, h.Contributes b ms s → h.Contributes b ns s)
      {p : TypePlan} : (∃ plans, List.Forall₂ (h.Denotes b) ms plans ∧ unionOf plans = some p) →
      ∃ plans, List.Forall₂ (h.Denotes b) ns plans ∧ unionOf plans = some p := by
    rintro ⟨plans, each, made⟩
    obtain ⟨plans', each', members⟩ :=
      same {q | q ∈ plans.flatMap TypePlan.unionMembers} ⟨plans, each, fun _ => .rfl⟩
    refine ⟨plans', each', ?_⟩
    rw [← made, unionOf, unionOf, Canonical.canonical_eq members]
  obtain ⟨last, notAtom, noOffer, noList⟩ := facts got
  obtain ⟨last', notAtom', noOffer', noList'⟩ := facts got'
  refine ⟨fun p => ?_, fun x => iff_of_false (noOffer x) (noOffer' x),
    sees_alike last last' notAtom notAtom', fun plans => iff_of_false (noList plans)
      (noList' plans)⟩
  rw [denotes_union installed got, denotes_union installed got']
  exact ⟨carried fun s => (same s).mp, carried fun s => (same s).mpr⟩

theorem isLiteralForm_literal : h.isLiteralForm b.literal = true := by
  obtain ⟨_, got⟩ := installed.literal
  simp [isLiteralForm, got]

/-- No other planned origin is a literal form. -/
theorem origin_of_literalForm {origin : Value} {k : PlanOrigin}
    (form : h.isLiteralForm origin = true) (planned : b.origin origin = some k) :
    k = .literal := by
  have notClass (mem : origin ∈ b.buffer :: b.classes.map (·.1)) : False := by
    obtain ⟨_, got⟩ := installed.classes origin mem
    simp [isLiteralForm, got] at form
  unfold TypePlanBuiltins.origin at planned
  split at planned
  · cases planned
    rfl
  split at planned
  · next callable =>
    obtain ⟨_, got⟩ := installed.callable
    simp [isLiteralForm, callable, got] at form
  split at planned
  · next buffer => exact (notClass (by simp [buffer])).elim
  split at planned
  · next list => exact (notClass (by simp [list, TypePlanBuiltins.classes])).elim
  split at planned
  · next set => exact (notClass (by simp [set, TypePlanBuiltins.classes])).elim
  split at planned
  · next dict => exact (notClass (by simp [dict, TypePlanBuiltins.classes])).elim
  split at planned
  · next tuple => exact (notClass (by simp [tuple, TypePlanBuiltins.classes])).elim
  · cases planned

omit installed in
theorem atom_ellipsis : h.Atom .ellipsis := trivial

omit installed in
theorem atom_of_bufferRank {v : Value} {rank : Option Nat}
    (ok : h.bufferRank (some v) = .ok rank) : h.Atom v := by
  cases v with
  | heap index generation =>
    simp only [bufferRank, Value.asInt] at ok
    split at ok
    · next found => simp [Atom, found]
    · cases ok
  | _ => trivial

omit installed in
theorem atom_of_bufferMutability {v : Value} {writable : Option Bool}
    (ok : bufferMutability (some v) = .ok writable) : h.Atom v := by
  cases v with
  | heap index generation => cases ok
  | _ => trivial

omit installed in
/-- The options of a buffer are atoms, so their rewritings end in the same values. -/
theorem sees_options {options options' seen : List Value} {rank : Option Nat}
    {writable : Option Bool} (few : options.length ≤ 2)
    (sees : List.Forall₂ h.Sees options seen) (ranked : h.bufferRank seen[0]? = .ok rank)
    (mutability : bufferMutability seen[1]? = .ok writable)
    (alike : List.Forall₂ (h.SamePlans b) options options') : List.Forall₂ h.Sees options' seen := by
  cases alike with
  | nil => exact sees
  | cons first rest =>
    cases sees with
    | cons see sees =>
      refine .cons ((first.sees _ (atom_of_bufferRank ranked)).mp see) ?_
      cases rest with
      | nil => exact sees
      | cons second rest =>
        cases sees with
        | cons see sees =>
          refine .cons ((second.sees _ (atom_of_bufferMutability mutability)).mp see) ?_
          cases rest with
          | nil => exact sees
          | cons => simp at few

omit installed in
theorem forall₂_snoc {α β : Type} {R : α → β → Prop} {as : List α} {a : α} {bs : List β}
    (each : List.Forall₂ R (as ++ [a]) bs) :
    ∃ init last, bs = init ++ [last] ∧ List.Forall₂ R as init ∧ R a last := by
  induction as generalizing bs with
  | nil =>
    rcases each with _ | ⟨first, _ | _⟩
    exact ⟨[], _, rfl, .nil, first⟩
  | cons x as ih =>
    rcases each with _ | ⟨first, rest⟩
    obtain ⟨init, last, rfl, each, final⟩ := ih rest
    exact ⟨_ :: init, last, rfl, .cons first each, final⟩

/-- A subscription of rewritten arguments makes the same plan of the same plans. -/
theorem Subscription.samePlans {origin : Value} {as bs children : List Value}
    {build : List TypePlan → TypePlan} {plans : List TypePlan}
    (made : h.Subscription b origin as children build)
    (notLiteral : h.isLiteralForm origin = false) (alike : List.Forall₂ (h.SamePlans b) as bs)
    (each : List.Forall₂ (h.Denotes b) children plans) :
    ∃ children', h.Subscription b origin bs children' build ∧
      List.Forall₂ (h.Denotes b) children' plans := by
  have sees_ellipsis {v w : Value} (alike : h.SamePlans b v w) := alike.sees _ atom_ellipsis
  cases made with
  | literal o =>
    unfold TypePlanBuiltins.origin at o
    split at o
    · next literal =>
      rw [literal, isLiteralForm_literal installed] at notLiteral
      cases notLiteral
    · repeat' split at o
      all_goals cases o
  | anyCallable o sees =>
    rcases alike with _ | ⟨first, _ | ⟨second, _ | _⟩⟩
    have sees' := (sees_ellipsis first).mp sees
    exact ⟨_, .anyCallable o sees', denotes_each (.cons second .nil) each⟩
  | callable o sees list =>
    rcases alike with _ | ⟨first, _ | ⟨second, _ | _⟩⟩
    obtain ⟨init, last, rfl, parameters, result⟩ := forall₂_snoc each
    obtain ⟨l, values, sees', list', parameters'⟩ :=
      (first.parameters init).mp ⟨_, _, sees, list, parameters⟩
    have result' := (second.denotes last).mp result
    exact ⟨_, .callable o sees' list', List.rel_append parameters' (.cons result' .nil)⟩
  | buffer o dtype few sees rank writable =>
    rcases alike with _ | ⟨first, rest⟩
    have float : h.Atom b.float := by
      obtain ⟨_, got⟩ := installed.classes b.float (by simp [TypePlanBuiltins.classes])
      simp [Atom, got]
    have few' := rest.length_eq ▸ few
    exact ⟨_, .buffer o ((first.sees _ float).mp dtype) few'
      (sees_options few sees rank writable rest) rank writable, each⟩
  | list o =>
    rcases alike with _ | ⟨first, _ | _⟩
    exact ⟨_, .list o, denotes_each (.cons first .nil) each⟩
  | set o =>
    rcases alike with _ | ⟨first, _ | _⟩
    exact ⟨_, .set o, denotes_each (.cons first .nil) each⟩
  | dict o =>
    rcases alike with _ | ⟨first, _ | ⟨second, _ | _⟩⟩
    exact ⟨_, .dict o, denotes_each (.cons first (.cons second .nil)) each⟩
  | variadic o sees =>
    rcases alike with _ | ⟨first, _ | ⟨second, _ | _⟩⟩
    have sees' := (sees_ellipsis second).mp sees
    exact ⟨_, .variadic o sees', denotes_each (.cons first .nil) each⟩
  | fixed o other =>
    refine ⟨bs, .fixed o ?_, denotes_each alike each⟩
    rintro item any rfl sees
    rcases alike with _ | ⟨first, _ | ⟨second, _ | _⟩⟩
    exact other _ _ rfl ((sees_ellipsis second).mpr sees)

omit installed in
theorem subscription_facts {v origin : Value} {arguments : List Value}
    (form : h.subscripted v = some (origin, arguments)) :
    h.aliased v = none ∧ ¬ h.Atom v ∧ ∀ plans, ¬ h.Parameters b v plans := by
  obtain ⟨_, _, got, _⟩ := get_of_subscripted form
  have last : h.aliased v = none := by simp [aliased, got]
  refine ⟨last, by simp [Atom, got], ?_⟩
  rintro plans ⟨list, values, sees, listed, -⟩
  cases (sees_unaliased last).mp sees
  simp [parameterList, got] at listed

omit installed in
/-- Subscriptions of one origin are alike if they denote and offer the same. -/
theorem alike_of_subscripted {v w origin : Value} {as bs : List Value}
    (form : h.subscripted v = some (origin, as)) (form' : h.subscripted w = some (origin, bs))
    (denotes : ∀ p, h.Denotes b v p ↔ h.Denotes b w p)
    (offers : ∀ x, h.Offers v x ↔ h.Offers w x) : h.SamePlans b v w := by
  obtain ⟨last, notAtom, noList⟩ := subscription_facts (b := b) form
  obtain ⟨last', notAtom', noList'⟩ := subscription_facts (b := b) form'
  exact ⟨denotes, offers, sees_alike last last' notAtom notAtom',
    fun plans => iff_of_false (noList plans) (noList' plans)⟩

theorem alike_positions {v w origin : Value} {as bs : List Value}
    (form : h.subscripted v = some (origin, as)) (form' : h.subscripted w = some (origin, bs))
    (notLiteral : h.isLiteralForm origin = false) (alike : List.Forall₂ (h.SamePlans b) as bs) :
    h.SamePlans b v w := by
  apply alike_of_subscripted form form'
  · intro p
    rw [denotes_subscripted installed form, denotes_subscripted installed form']
    constructor
    · rintro ⟨children, build, plans, made, each, built⟩
      obtain ⟨children', made', each'⟩ := made.samePlans installed notLiteral alike each
      exact ⟨children', build, plans, made', each', built⟩
    · rintro ⟨children, build, plans, made, each, built⟩
      obtain ⟨children', made', each'⟩ := made.samePlans installed notLiteral (alike_symm alike) each
      exact ⟨children', build, plans, made', each', built⟩
  · intro x
    rw [offers_subscripted form, offers_subscripted form', notLiteral]
    simp

theorem alike_literals {v w origin : Value} {as bs : List Value}
    (form : h.subscripted v = some (origin, as)) (form' : h.subscripted w = some (origin, bs))
    (literal : h.isLiteralForm origin = true)
    (same : ∀ x, (∃ a ∈ as, h.Offers a x) ↔ ∃ a ∈ bs, h.Offers a x) : h.SamePlans b v w := by
  have moved {as bs : List Value} (same : ∀ x, (∃ a ∈ as, h.Offers a x) ↔ ∃ a ∈ bs, h.Offers a x)
      {children : List Value} {build : List TypePlan → TypePlan}
      (made : h.Subscription b origin as children build) :
      h.Subscription b origin bs children build := by
    cases made with
    | literal o items => exact .literal o fun x => (items x).trans (same x)
    | anyCallable o | callable o | buffer o | list o | set o | dict o | variadic o | fixed o =>
      cases origin_of_literalForm installed literal o
  apply alike_of_subscripted form form'
  · intro p
    rw [denotes_subscripted installed form, denotes_subscripted installed form']
    constructor
    · rintro ⟨children, build, plans, made, each, built⟩
      exact ⟨children, build, plans, moved same made, each, built⟩
    · rintro ⟨children, build, plans, made, each, built⟩
      exact ⟨children, build, plans, moved (fun x => (same x).symm) made, each, built⟩
  · intro x
    rw [offers_subscripted form, offers_subscripted form', same]

/-! ### Rewritten lists are alike -/

omit installed in
theorem contributes_append {us vs : List Value} {s : Set TypePlan} :
    h.Contributes b (us ++ vs) s ↔
      ∃ t u, h.Contributes b us t ∧ h.Contributes b vs u ∧ s = t ∪ u := by
  constructor
  · rintro ⟨plans, each, members⟩
    obtain ⟨ps, qs, rfl, first, rest⟩ : ∃ ps qs, plans = ps ++ qs ∧
        List.Forall₂ (h.Denotes b) us ps ∧ List.Forall₂ (h.Denotes b) vs qs := by
      have split := List.forall₂_take_append plans us vs each.flip
      have split' := List.forall₂_drop_append plans us vs each.flip
      exact ⟨_, _, (List.take_append_drop us.length plans).symm, split.flip, split'.flip⟩
    refine ⟨{q | q ∈ ps.flatMap _}, {q | q ∈ qs.flatMap _}, ⟨ps, first, fun _ => .rfl⟩,
      ⟨qs, rest, fun _ => .rfl⟩, ?_⟩
    ext q
    simp [members]
  · rintro ⟨t, u, ⟨ps, first, mt⟩, ⟨qs, rest, mu⟩, rfl⟩
    refine ⟨ps ++ qs, List.rel_append first rest, fun q => ?_⟩
    simp [mt, mu]

omit installed in
theorem contributes_singleton {v : Value} {s : Set TypePlan} :
    h.Contributes b [v] s ↔ ∃ p, h.Denotes b v p ∧ s = {q | q ∈ p.unionMembers} := by
  constructor
  · rintro ⟨plans, each, members⟩
    rcases each with _ | ⟨denotes, _ | _⟩
    refine ⟨_, denotes, ?_⟩
    ext q
    simp [members]
  · rintro ⟨p, denotes, rfl⟩
    exact ⟨[p], .cons denotes .nil, by simp⟩

omit installed in
theorem contributes_cons {v : Value} {vs : List Value} {s : Set TypePlan} :
    h.Contributes b (v :: vs) s ↔ ∃ t u, h.Contributes b [v] t ∧ h.Contributes b vs u ∧
      s = t ∪ u :=
  @contributes_append h b [v] vs s

theorem contributes_unique {vs : List Value} {s t : Set TypePlan} (first : h.Contributes b vs s)
    (other : h.Contributes b vs t) : s = t := by
  obtain ⟨ps, each, members⟩ := first
  obtain ⟨qs, each', members'⟩ := other
  have single : Relator.RightUnique (h.Denotes b) := fun _ _ _ => Denotes.unique installed
  cases single.forall₂ each each'
  ext q
  rw [members, members']

omit installed in
theorem contributes_of_perm {vs ws : List Value} (perm : vs.Perm ws) {s : Set TypePlan}
    (contributes : h.Contributes b vs s) : h.Contributes b ws s := by
  obtain ⟨plans, each, members⟩ := contributes
  obtain ⟨plans', each', perm'⟩ := List.perm_comp_forall₂ perm.symm each
  refine ⟨plans', each', fun q => ?_⟩
  rw [members, (perm'.flatMap_right _).mem_iff]

/-- A union contributes what its members contribute. -/
theorem contributes_union {u cls n : Value} {ns : List Value} {s : Set TypePlan}
    (got : h.get u = .ok (.unionType cls (n :: ns))) :
    h.Contributes b [u] s ↔ h.Contributes b (n :: ns) s := by
  rw [contributes_singleton]
  constructor
  · rintro ⟨p, denotes, rfl⟩
    obtain ⟨plans, each, made⟩ := (denotes_union installed got).mp denotes
    have settled := forall_right each Denotes.settled
    exact ⟨plans, each, fun q => mem_unionMembers_unionOf settled made⟩
  · rintro ⟨plans, each, members⟩
    have settled := forall_right each Denotes.settled
    obtain ⟨p, made⟩ : ∃ p, unionOf plans = some p := by
      rcases each with _ | @⟨_, q, _, qs, first, rest⟩
      obtain ⟨r, mem⟩ := List.exists_mem_of_ne_nil _ first.settled.1
      have listed : r ∈ Canonical.canonical TypePlan.compare
          ((q :: qs).flatMap TypePlan.unionMembers) := by simp [mem]
      unfold unionOf
      split
      · next empty =>
        rw [empty] at listed
        cases listed
      · exact ⟨_, rfl⟩
      · exact ⟨_, rfl⟩
    refine ⟨p, (denotes_union installed got).mpr ⟨plans, each, made⟩, ?_⟩
    ext q
    rw [members]
    exact (mem_unionMembers_unionOf settled made).symm

omit installed in
theorem alikeLists_members_cons {v w : Value} {vs ws : List Value} (first : h.SamePlans b v w)
    (rest : h.AlikeLists b .members vs ws) : h.AlikeLists b .members (v :: vs) (w :: ws) := by
  intro s
  rw [contributes_cons, contributes_cons]
  simp only [contributes_singleton, first.denotes, rest _]

theorem alikeLists_nest {l : Listing} {u n : Value} {ns vs : List Value}
    (nested : h.nested l u = some (n :: ns)) :
    h.AlikeLists b l (u :: vs) (n :: ns ++ vs) := by
  unfold Heap.nested at nested
  split at nested
  · split at nested
    · next got =>
      cases nested
      intro s
      rw [contributes_cons, contributes_append]
      simp only [contributes_union installed got]
    · cases nested
  · split at nested
    · next form =>
      split at nested
      · next literal =>
        cases nested
        intro x
        simp only [List.cons_append, List.mem_cons, List.mem_append, or_and_right, exists_or,
          exists_eq_left, offers_subscripted form, literal, true_and, or_assoc]
      · cases nested
    · cases nested
  · cases nested

theorem denotes_noneType {p : TypePlan} :
    h.Denotes b b.noneType p ↔ p = .exact .noneType := by
  have mem : b.noneType ∈ b.buffer :: b.classes.map (·.1) := by simp [TypePlanBuiltins.classes]
  obtain ⟨_, got⟩ := installed.classes _ mem
  have leaf : h.leafPlan b b.noneType = some (.exact .noneType) := by
    have notNone : b.noneType ≠ .none := by
      intro eq
      rw [eq, get_none] at got
      cases got
    simp [leafPlan, notNone, TypePlanBuiltins.exact, TypePlanBuiltins.classes]
  have denotes : h.Denotes b b.noneType (.exact .noneType) :=
    denotes_iff.mpr ⟨[], _, [], .leaf leaf, .nil, rfl⟩
  exact ⟨fun other => other.unique installed denotes, fun eq => eq ▸ denotes⟩

theorem denotes_none {p : TypePlan} : h.Denotes b .none p ↔ p = .none := by
  have denotes : h.Denotes b .none .none :=
    denotes_iff.mpr ⟨[], _, [], .leaf (by simp [leafPlan]), .nil, rfl⟩
  exact ⟨fun other => other.unique installed denotes, fun eq => eq ▸ denotes⟩

theorem alikeLists_none {vs : List Value} :
    h.AlikeLists b .members (.none :: vs) (b.noneType :: vs) := by
  intro s
  rw [contributes_cons, contributes_cons]
  simp [contributes_singleton, denotes_none installed, denotes_noneType installed,
    TypePlan.unionMembers]

theorem alikeLists_duplicate {l : Listing} {v : Value} {vs : List Value} (l' : l ≠ .positions) :
    h.AlikeLists b l (v :: v :: vs) (v :: vs) := by
  cases l with
  | positions => exact absurd rfl l'
  | literals => exact fun x => by simp
  | members =>
    intro s
    rw [contributes_cons, contributes_cons]
    constructor
    · rintro ⟨t, u, first, rest, rfl⟩
      obtain ⟨t', u', second, last, rfl⟩ := contributes_cons.mp rest
      cases contributes_unique installed first second
      exact ⟨t, u', first, last, by rw [← Set.union_assoc, Set.union_self]⟩
    · rintro ⟨t, u, first, rest, rfl⟩
      refine ⟨t, t ∪ u, first, contributes_cons.mpr ⟨t, u, first, rest, rfl⟩, ?_⟩
      rw [← Set.union_assoc, Set.union_self]

omit installed in
theorem alikeLists_permute {l : Listing} {vs ws : List Value} (l' : l ≠ .positions)
    (perm : vs.Perm ws) : h.AlikeLists b l vs ws := by
  cases l with
  | positions => exact absurd rfl l'
  | literals => exact fun x => by simp [perm.mem_iff]
  | members => exact fun s => ⟨contributes_of_perm perm, contributes_of_perm perm.symm⟩

omit installed in
theorem alikeLists_cons {l : Listing} {v w : Value} {vs ws : List Value} (first : h.SamePlans b v w)
    (rest : h.AlikeLists b l vs ws) : h.AlikeLists b l (v :: vs) (w :: ws) := by
  cases l with
  | positions => exact .cons first rest
  | literals =>
    intro x
    have rest := rest x
    simp only [List.mem_cons, or_and_right, exists_or, exists_eq_left, first.offers, rest]
  | members => exact alikeLists_members_cons first rest

omit installed in
theorem alikeLists_symm {l : Listing} {vs ws : List Value} (alike : h.AlikeLists b l vs ws) :
    h.AlikeLists b l ws vs := by
  cases l with
  | positions => exact alike_symm alike
  | literals => exact fun x => (alike x).symm
  | members => exact fun s => (alike s).symm

omit installed in
theorem alikeLists_trans {l : Listing} {us vs ws : List Value}
    (first : h.AlikeLists b l us vs) (rest : h.AlikeLists b l vs ws) :
    h.AlikeLists b l us ws := by
  cases l with
  | positions =>
    simp only [AlikeLists] at *
    induction first generalizing ws with
    | nil => exact rest
    | cons alike _ ih =>
      rcases rest with _ | ⟨alike', rest⟩
      exact .cons (alike.trans alike') (ih rest)
  | literals => exact fun x => (first x).trans (rest x)
  | members => exact fun s => (first s).trans (rest s)

omit installed in
theorem alikeLists_nil {l : Listing} : h.AlikeLists b l [] [] := by
  cases l with
  | positions => exact .nil
  | literals => exact fun x => .rfl
  | members => exact fun s => .rfl

mutual

/-- Rewritings of an annotation mean the same. -/
theorem Rewrites.samePlans {v w : Value} : h.Rewrites b v w → h.SamePlans b v w
  | .refl v => .refl v
  | .symm rewrites => rewrites.samePlans.symm
  | .trans first rest => first.samePlans.trans rest.samePlans
  | .value step => alike_of_aliased installed step
  | .union got got' lists => alike_union installed got got' lists.samePlans
  | .subscription form form' lists => by
    have alike := lists.samePlans
    cases literal : h.isLiteralForm _ with
    | true =>
      rw [literal] at alike
      exact alike_literals installed form form' literal alike
    | false =>
      rw [literal] at alike
      exact alike_positions installed form form' literal alike
  | .list got got' lists => by
    apply alike_parameterList installed _ _ lists.samePlans
    · simp [parameterList, got]
    · simp [parameterList, got']
  | .tuple got got' lists => by
    apply alike_parameterList installed _ _ lists.samePlans
    · simp [parameterList, got]
    · simp [parameterList, got']

theorem Relists.samePlans {l : Listing} {vs ws : List Value} :
    h.Relists b l vs ws → h.AlikeLists b l vs ws
  | .nil => alikeLists_nil
  | .cons first rest => alikeLists_cons first.samePlans rest.samePlans
  | .symm lists => alikeLists_symm lists.samePlans
  | .trans first rest => alikeLists_trans first.samePlans rest.samePlans
  | .permute l' perm => alikeLists_permute l' perm
  | .duplicate l' => alikeLists_duplicate installed l'
  | .nest nested => alikeLists_nest installed nested
  | .none => alikeLists_none installed

end

end Layers

end Heap

end Tonic
