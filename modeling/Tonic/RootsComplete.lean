import Tonic.Roots

namespace Tonic

open Effect Heap Occurrence

variable {ν : Type} {f g : Value → ν}

/-! ### Tracing is complete -/

theorem option_map_eq {o : Option Value} : o.map f = o.map g ↔ ∀ v ∈ o.toList, f v = g v := by
  cases o <;> simp

theorem mapPairs_eq {l : List (Value × Value)} :
    mapPairs f l = mapPairs g l ↔ ∀ v ∈ pairs l, f v = g v := by
  simp only [mapPairs, pairs, List.map_inj_left, List.mem_flatMap, Prod.mk.injEq]
  constructor
  · rintro h v ⟨e, he, hv⟩
    simp only [List.mem_cons, List.not_mem_nil, or_false] at hv
    rcases hv with rfl | rfl
    · exact (h e he).1
    · exact (h e he).2
  · exact fun h e he => ⟨h e.1 ⟨e, he, by simp⟩, h e.2 ⟨e, he, by simp⟩⟩

theorem ExpandedArgs.map_congr {s : ExpandedArgs Value} (h : ∀ v ∈ s.trace, f v = g v) :
    s.map f = s.map g := by
  simp only [trace, List.forall_mem_append, List.forall_mem_map] at h
  obtain ⟨⟨⟨⟨receiver, positional⟩, keywords⟩, star⟩, invalid⟩ := h
  simp only [map, ExpandedArgs.mk.injEq, option_map_eq, mapPairs_eq, List.map_inj_left]
  exact ⟨receiver, positional, fun k hk => by rw [keywords k hk], star, invalid⟩

theorem elim_map_congr {α β : Type} {trace : α → List Value} {map : (Value → ν) → α → β}
    {o : Option α} (congr : ∀ a, (∀ v ∈ trace a, f v = g v) → map f a = map g a)
    (h : ∀ v ∈ o.elim [] trace, f v = g v) : o.map (map f) = o.map (map g) := by
  cases o with
  | none => rfl
  | some a => exact congrArg some (congr a h)

theorem flatMap_map_congr {α β : Type} {trace : α → List Value} {map : (Value → ν) → α → β}
    {l : List α} (congr : ∀ a, (∀ v ∈ trace a, f v = g v) → map f a = map g a)
    (h : ∀ v ∈ l.flatMap trace, f v = g v) : l.map (map f) = l.map (map g) :=
  List.map_congr_left fun a ha => congr a fun v hv => h v (List.mem_flatMap.mpr ⟨a, ha, hv⟩)

theorem NativeSubclassFinish.map_congr {s : NativeSubclassFinish Value}
    (h : ∀ v ∈ s.trace, f v = g v) : s.map f = s.map g := by
  simp only [trace, List.forall_mem_cons] at h
  simp only [map, NativeSubclassFinish.mk.injEq]
  exact ⟨h.1, elim_map_congr (fun _ => ExpandedArgs.map_congr) h.2⟩

theorem DictConstructionStart.map_congr {s : DictConstructionStart Value}
    (h : ∀ v ∈ s.trace, f v = g v) : s.map f = s.map g := by
  simp only [trace, List.forall_mem_cons, List.forall_mem_append] at h
  obtain ⟨result, ⟨keywords, native⟩, returned⟩ := h
  simp only [map, DictConstructionStart.mk.injEq, mapPairs_eq, option_map_eq (o := s.returnValue)]
  exact ⟨result, keywords, elim_map_congr (fun _ => NativeSubclassFinish.map_congr) native, returned⟩

theorem DictConstruction.map_congr {s : DictConstruction Value} (h : ∀ v ∈ s.trace, f v = g v) :
    s.map f = s.map g := by
  simp only [trace, List.forall_mem_append, List.forall_mem_singleton] at h
  simp only [map, DictConstruction.mk.injEq, and_true]
  exact ⟨DictConstructionStart.map_congr h.1, h.2⟩

theorem DictPairConstruction.map_congr {s : DictPairConstruction Value}
    (h : ∀ v ∈ s.trace, f v = g v) : s.map f = s.map g := by
  simp only [trace, List.forall_mem_append, List.forall_mem_cons] at h
  simp only [map, DictPairConstruction.mk.injEq, List.map_inj_left]
  exact ⟨DictConstruction.map_congr h.1, h.2⟩

theorem DictMergeState.map_congr {s : DictMergeState Value} (h : ∀ v ∈ s.trace, f v = g v) :
    s.map f = s.map g := by
  obtain ⟨target, entries, next, finish⟩ := s
  simp only [trace, List.forall_mem_cons, List.forall_mem_append] at h
  obtain ⟨target, entries, finish'⟩ := h
  simp only [map, DictMergeState.mk.injEq, mapPairs_eq, true_and]
  refine ⟨target, entries, ?_⟩
  cases finish with
  | preserve => rfl
  | construction state => exact congrArg _ (DictConstructionStart.map_congr finish')

theorem Membership.map_congr {s : Membership Value} (h : ∀ v ∈ s.trace, f v = g v) :
    s.map f = s.map g := by
  simp only [trace, List.forall_mem_cons] at h
  simp only [map, Membership.mk.injEq, and_true]
  exact ⟨h.1, h.2.1⟩

mutual

theorem DictOperationKind.map_congr : {s : DictOperationKind Value} →
    (∀ v ∈ s.trace, f v = g v) → s.map f = s.map g
  | .get, _ | .matchKey, _ | .matchUnique _, _ | .setAdd, _ | .contains _, _ | .delete, _ => rfl
  | .set value, h => by
    simp only [DictOperationKind.trace, List.forall_mem_singleton] at h
    rw [DictOperationKind.map, DictOperationKind.map, h]
  | .setAndContinue value state, h => by
    simp only [DictOperationKind.trace, List.forall_mem_cons] at h
    rw [DictOperationKind.map, DictOperationKind.map, h.1, DictConstruction.map_congr h.2]
  | .setAndMerge value state, h => by
    simp only [DictOperationKind.trace, List.forall_mem_cons] at h
    rw [DictOperationKind.map, DictOperationKind.map, h.1, DictMergeState.map_congr h.2]
  | .compareValue expected action, h => by
    simp only [DictOperationKind.trace, List.forall_mem_cons] at h
    rw [DictOperationKind.map, DictOperationKind.map, h.1, EqualityAction.map_congr h.2]

theorem DictOperationStart.map_congr : {s : DictOperationStart Value} →
    (∀ v ∈ s.trace, f v = g v) → s.map f = s.map g
  | .mk owner key kind, h => by
    simp only [DictOperationStart.trace, List.forall_mem_cons] at h
    rw [DictOperationStart.map, DictOperationStart.map, h.1, h.2.1, DictOperationKind.map_congr h.2.2]

theorem DictOperation.map_congr : {s : DictOperation Value} →
    (∀ v ∈ s.trace, f v = g v) → s.map f = s.map g
  | .mk start _ _ _ _ _, h => by
    simp only [DictOperation.trace] at h
    rw [DictOperation.map, DictOperation.map, DictOperationStart.map_congr h]

theorem EqualityAction.map_congr : {s : EqualityAction Value} →
    (∀ v ∈ s.trace, f v = g v) → s.map f = s.map g
  | .ret _, _ => rfl
  | .sequence left right _ _ outer, h => by
    simp only [EqualityAction.trace, List.forall_mem_append] at h
    rw [EqualityAction.map, EqualityAction.map, List.map_congr_left h.1.1, List.map_congr_left h.1.2,
      EqualityAction.map_congr h.2]
  | .dictCandidate state _, h => by
    simp only [EqualityAction.trace] at h
    rw [EqualityAction.map, EqualityAction.map, DictOperation.map_congr h]
  | .dictEntries left right entries _ _ _ _ outer, h => by
    simp only [EqualityAction.trace, List.forall_mem_cons, List.forall_mem_append] at h
    rw [EqualityAction.map, EqualityAction.map, h.1, h.2.1, mapPairs_eq.mpr h.2.2.1, EqualityAction.map_congr h.2.2.2]
  | .sequenceOrder state, h => by
    simp only [EqualityAction.trace, List.forall_mem_append] at h
    rw [EqualityAction.map, EqualityAction.map, SequenceOrder.map, SequenceOrder.map, List.map_congr_left h.1,
      List.map_congr_left h.2]
  | .membership state, h => by
    simp only [EqualityAction.trace] at h
    rw [EqualityAction.map, EqualityAction.map, Membership.map_congr h]

end

theorem HashAction.map_congr {s : HashAction Value} (h : ∀ v ∈ s.trace, f v = g v) :
    s.map f = s.map g := by
  induction s with
  | ret => rfl
  | dict state => rw [map, map, DictOperationStart.map_congr h]
  | sequence values next accumulator depth outer ih =>
    simp only [trace, List.forall_mem_append] at h
    rw [map, map, List.map_congr_left h.1, ih h.2]

section Unbound

variable (u : f .unbound = g .unbound)
include u

theorem ExtremumConfig.map_congr {s : ExtremumConfig Value} (h : ∀ v ∈ s.trace, f v = g v) :
    s.map f = s.map g := by
  simp only [trace, List.forall_mem_append] at h
  simp only [map, ExtremumConfig.mk.injEq, option_map_eq, and_true]
  refine ⟨h.1, ?_⟩
  by_cases absent : s.default = .unbound
  · rw [absent, u]
  · exact h.2 s.default (by simp [absent])

theorem ExtremumState.map_congr {s : ExtremumState Value} (h : ∀ v ∈ s.trace, f v = g v) :
    s.map f = s.map g := by
  obtain ⟨source, config, best⟩ := s
  simp only [trace, List.forall_mem_append] at h
  obtain ⟨⟨source', config'⟩, best'⟩ := h
  simp only [map, ExtremumState.mk.injEq]
  refine ⟨?_, ExtremumConfig.map_congr u config', ?_⟩
  · cases source with
    | iterator value => exact congrArg _ (source' value (by simp))
    | values items next =>
      exact congrArg (ExtremumSource.values · next) (List.map_congr_left source')
  · cases best with
    | none => rfl
    | some b =>
      simp only [Option.elim_some, List.forall_mem_cons] at best'
      simp [best'.1, best'.2.1]

theorem ExtremumCandidate.map_congr {s : ExtremumCandidate Value}
    (h : ∀ v ∈ s.trace, f v = g v) : s.map f = s.map g := by
  simp only [trace, List.forall_mem_append, List.forall_mem_cons] at h
  simp only [map, ExtremumCandidate.mk.injEq]
  exact ⟨ExtremumState.map_congr u h.1, h.2.1, h.2.2.1⟩

theorem BinaryCompletion.map_congr {s : BinaryCompletion Value} (h : ∀ v ∈ s.trace, f v = g v) :
    s.map f = s.map g := by
  cases s with
  | value => rfl
  | equality action => exact congrArg _ (EqualityAction.map_congr h)
  | sum iterator => exact congrArg _ (h iterator (by simp [trace]))
  | extremum candidate => exact congrArg _ (ExtremumCandidate.map_congr u h)

theorem TruthAction.map_congr {s : TruthAction Value} (h : ∀ v ∈ s.trace, f v = g v) :
    s.map f = s.map g := by
  cases s with
  | not | ret => rfl
  | jump cond target pc original =>
    exact congrArg (TruthAction.jump cond target pc) (h original (by simp [trace]))
  | equality action => exact congrArg _ (EqualityAction.map_congr h)
  | boolReduce state =>
    have := h state.iterator (by simp [trace])
    simp [map, BoolReduceState.map, this]
  | extremum candidate => exact congrArg _ (ExtremumCandidate.map_congr u h)

theorem IndexContinuation.map_congr {s : IndexContinuation Value}
    (h : ∀ v ∈ s.trace, f v = g v) : s.map f = s.map g := by
  cases s with
  | length => rfl
  | truth action => exact congrArg _ (TruthAction.map_congr u h)
  | round value => exact congrArg _ (h value (by simp [trace]))
  | range state =>
    have values : state.values.map f = state.values.map g := List.map_congr_left h
    rw [map, map, RangeConstruction.map, RangeConstruction.map, values]
  | intBase argument finish =>
    simp only [trace, List.forall_mem_cons] at h
    rw [map, map, h.1, elim_map_congr (fun _ => NativeSubclassFinish.map_congr) h.2]
  | getItem owner | delItem owner => exact congrArg _ (h owner (by simp [trace]))
  | setItem owner value =>
    simp only [trace, List.forall_mem_cons] at h
    rw [map, map, h.1, h.2.1]
  | slice owner components next =>
    simp only [trace, List.forall_mem_cons] at h
    rw [map, map, h.1, List.map_congr_left h.2]

end Unbound

theorem BoundCall.map_congr {s : BoundCall Value}
    (h : ∀ v ∈ s.callable :: s.receiver.toList, f v = g v) : s.map f = s.map g := by
  simp only [List.forall_mem_cons] at h
  simp only [map, BoundCall.mk.injEq, option_map_eq]
  exact h

theorem BinaryCandidate.map_congr {s : BinaryCandidate Value} (h : ∀ v ∈ s.trace, f v = g v) :
    s.map f = s.map g := by
  rw [trace, ← List.cons_append, List.forall_mem_append] at h
  simp only [map, BinaryCandidate.mk.injEq, and_true]
  exact ⟨BoundCall.map_congr h.1, List.map_congr_left h.2⟩

theorem IterableCollectionKind.map_congr {s : IterableCollectionKind Value}
    (h : ∀ v ∈ s.trace, f v = g v) : s.map f = s.map g := by
  cases s with
  | list | tuple | bytes | unpack first count => rfl
  | nativeList state | nativeTuple state | nativeBytes state =>
    exact congrArg _ (NativeSubclassFinish.map_congr h)
  | listInit owner result =>
    simp only [trace, List.forall_mem_cons] at h
    rw [map, map, h.1, h.2.1]

theorem SetNameCall.map_congr {s : SetNameCall Value} (h : ∀ v ∈ s.trace, f v = g v) :
    s.map f = s.map g := by
  rw [trace, ← List.cons_append, List.forall_mem_append] at h
  simp only [map, SetNameCall.mk.injEq]
  exact ⟨BoundCall.map_congr h.1, h.2 s.name (by simp)⟩

theorem ClassHookState.map_congr {s : ClassHookState Value} (h : ∀ v ∈ s.trace, f v = g v) :
    s.map f = s.map g := by
  simp only [trace, List.forall_mem_append, List.forall_mem_cons] at h
  obtain ⟨⟨ns, mapping, metaclass, name, bases, -⟩, cell⟩ := h
  simp only [map, ClassHookState.mk.injEq, option_map_eq]
  exact ⟨ns, mapping, metaclass, name, bases, cell⟩

/-! ### What a continuation still needs -/

namespace BinaryProtocol

/-- The candidates tried so far are forgotten. -/
def remaining (s : BinaryProtocol ν) : BinaryProtocol ν :=
  { s with candidates := s.candidates.drop s.next, next := 0 }

/-- Forgetting the candidates that were tried makes no difference to what follows. -/
theorem attempt_remaining (s : BinaryProtocol ν) :
    (s.remaining.attempt).map (fun a => (a.1, a.2.remaining)) =
      (s.attempt).map (fun a => (a.1, a.2.remaining)) := by
  simp only [attempt, remaining, List.getElem?_drop, Nat.add_zero, Option.map_map]
  congr 1
  funext c
  simp [Function.comp]

theorem map_congr {s : BinaryProtocol Value} (u : f .unbound = g .unbound)
    (h : ∀ v ∈ s.trace, f v = g v) : (s.map f).remaining = (s.map g).remaining := by
  obtain ⟨kind, left, right, candidates, next, negateResult, completion⟩ := s
  simp only [trace, List.forall_mem_cons, List.forall_mem_append] at h
  obtain ⟨left, right, ⟨kind', candidates'⟩, completion'⟩ := h
  simp only [map, remaining, mk.injEq, true_and, ← List.map_drop]
  refine ⟨?_, left, right, flatMap_map_congr (fun _ => BinaryCandidate.map_congr) candidates',
    BinaryCompletion.map_congr u completion'⟩
  cases kind with
  | opcode op => rfl
  | divMod => rfl
  | powMod modulus => exact congrArg _ (kind' modulus (by simp))

end BinaryProtocol

def ReturnAction.remaining : ReturnAction ν → ReturnAction ν
  | .binaryProtocol state => .binaryProtocol state.remaining
  | action => action

theorem ReturnAction.map_congr {s : ReturnAction Value} (u : f .unbound = g .unbound)
    (h : ∀ v ∈ s.trace, f v = g v) : (s.map f).remaining = (s.map g).remaining := by
  cases s with
  | value | iterator | asyncIterator | awaitable | close | iteratorNext target pc
  | expandIterableStart resumePc | length | stringConversion ascii repr | formatResult
  | membershipContains negate | importModule index | setter | boolReduceIterStart any => rfl
  | next default | namespaceLookup target symbol default =>
    simp only [map, remaining, option_map_eq.mpr h]
  | yieldFrom target pc source | yieldFromClose source | sumIterStart source
  | unaryProtocol kind source | initializer source | metaclassInit source
  | membershipIterStart source negate =>
    simp only [map, remaining, h source (by simp [trace])]
  | generatorThrowInit source traceback thrown | asyncGeneratorThrowInit source traceback thrown
  | asyncGeneratorAwaitThrowInit source traceback thrown =>
    simp only [trace, List.forall_mem_cons, List.forall_mem_append] at h
    simp only [map, remaining, h.1, option_map_eq.mpr h.2.1, h.2.2.1]
  | asyncGeneratorDrive source closing completion =>
    simp only [trace, List.forall_mem_cons] at h
    cases completion with
    | direct | closeMethod =>
      simp only [map, remaining, AsyncGeneratorCompletion.map, h.1]
    | yieldFrom target pc inner =>
      simp only [map, remaining, AsyncGeneratorCompletion.map, h.1, h.2 inner (by simp)]
    | yieldFromClose inner =>
      simp only [map, remaining, AsyncGeneratorCompletion.map, h.1, h.2 inner (by simp)]
  | collectIterableStart kind =>
    simp only [map, remaining, IterableCollectionKind.map_congr h]
  | collectIterableNext state =>
    simp only [trace, List.forall_mem_cons, List.forall_mem_append] at h
    simp only [map, remaining, IterableCollection.map, IterableCollectionKind.map_congr h.1, h.2.1,
      List.map_congr_left h.2.2]
  | sumNext state =>
    obtain ⟨source, total⟩ := state
    simp only [trace, List.forall_mem_cons] at h
    cases total with
    | int value | float high low => simp only [map, remaining, SumState.map, SumTotal.map, h.1]
    | generic value =>
      simp only [map, remaining, SumState.map, SumTotal.map, h.1, h.2 value (by simp)]
  | boolReduceNext state =>
    simp only [map, remaining, BoolReduceState.map, h state.iterator (by simp [trace])]
  | extremumIterStart config => simp only [map, remaining, ExtremumConfig.map_congr u h]
  | extremumNext state => simp only [map, remaining, ExtremumState.map_congr u h]
  | extremumKey state item =>
    simp only [trace, List.forall_mem_append] at h
    simp only [map, remaining, ExtremumState.map_congr u h.1, h.2 item (by simp)]
  | expandIterableNext state =>
    simp only [map, remaining, ArgumentExpansion.map, h state.iterator (by simp [trace])]
  | dictIterableStart state => simp only [map, remaining, DictConstructionStart.map_congr h]
  | dictIterableNext state | dictPairStart state | dictPairIteratorStart state =>
    simp only [map, remaining, DictConstruction.map_congr h]
  | dictPairNext state => simp only [map, remaining, DictPairConstruction.map_congr h]
  | membershipNext state => simp only [map, remaining, Membership.map_congr h]
  | truth protocol action => simp only [map, remaining, TruthAction.map_congr u h]
  | new cls arguments =>
    simp only [trace, List.forall_mem_cons] at h
    simp only [map, remaining, h.1, ExpandedArgs.map_congr h.2]
  | classPrepare build =>
    simp only [trace, List.forall_mem_cons, List.forall_mem_append] at h
    simp only [map, remaining, ClassBuild.map, h.1, List.map_congr_left h.2.1.1,
      List.map_congr_left h.2.1.2, h.2.2.1]
  | classBody body =>
    simp only [trace, List.forall_mem_cons, List.forall_mem_append] at h
    simp only [map, remaining, ClassBody.map, h.1, List.map_congr_left h.2.1, h.2.2.1]
  | metaclassNew state => simp only [map, remaining, ClassHookState.map_congr h]
  | setNames cls pending after =>
    simp only [trace, List.forall_mem_cons, List.forall_mem_append] at h
    simp only [map, remaining, h.1, flatMap_map_congr (fun _ => SetNameCall.map_congr) h.2.1,
      elim_map_congr (fun _ => ClassHookState.map_congr) h.2.2]
  | attributeGet state =>
    obtain ⟨owner, name, missing, phase⟩ := state
    simp only [trace, List.forall_mem_cons] at h
    cases missing with
    | raise | hasAttr =>
      simp only [map, remaining, AttributeGet.map, AttributeMissing.map, h.1]
    | default v =>
      simp only [map, remaining, AttributeGet.map, AttributeMissing.map, h.1, h.2 v (by simp)]
  | binaryProtocol state =>
    exact congrArg ReturnAction.binaryProtocol (BinaryProtocol.map_congr u h)
  | numericConversion kind finish =>
    simp only [map, remaining, elim_map_congr (fun _ => NativeSubclassFinish.map_congr) h]
  | indexConversion continuation =>
    simp only [map, remaining, IndexContinuation.map_congr u h]
  | hash action => simp only [map, remaining, HashAction.map_congr h]

theorem RuntimeTypes.map_congr {s : RuntimeTypes Value} (h : ∀ v ∈ s.roots, f v = g v)
    (bytes : f s.bytes = g s.bytes) : s.map f = s.map g := by
  simp only [roots, List.forall_mem_append, List.forall_mem_cons, List.forall_mem_map] at h
  simp only [map, mk.injEq, h, bytes, true_and]
  exact List.map_congr_left fun e he => by rw [h.2 e he]

theorem EventLoopReady.map_congr {s : EventLoopReady Value} (h : ∀ v ∈ s.trace, f v = g v) :
    s.map f = s.map g := by
  cases s with
  | task t wake =>
    cases wake with
    | value v | exception v =>
      simp only [trace, List.forall_mem_cons] at h
      simp only [map, AsyncWake.map, h.1, h.2.1]
  | callback c future =>
    simp only [trace, List.forall_mem_cons] at h
    simp only [map, h.1, h.2.1]

theorem EventLoopState.map_congr {s : EventLoopState Value} (h : ∀ v ∈ s.trace, f v = g v) :
    s.map f = s.map g := by
  simp only [trace, List.forall_mem_cons, List.forall_mem_append] at h
  obtain ⟨object, mainTask, ⟨⟨current, ready⟩, timers⟩, tasks⟩ := h
  simp only [map, mk.injEq, true_and, option_map_eq]
  exact ⟨object, current, mainTask, flatMap_map_congr (fun _ => EventLoopReady.map_congr) ready,
    List.map_congr_left timers, List.map_congr_left tasks⟩

/-! ### What the interpreter still needs -/

namespace Frame

def remaining (s : Frame ν) : Frame ν := { s with action := s.action.remaining }

theorem map_congr {s : Frame Value} (u : f .unbound = g .unbound)
    (callable : ∀ v ∈ s.callable.toList, f v = g v) (ns : ∀ v ∈ s.ns.toList, f v = g v)
    (generator : ∀ v ∈ s.generator.toList, f v = g v)
    (yieldFrom : ∀ v ∈ s.yieldFrom.toList, f v = g v)
    (injected : ∀ v ∈ s.injectedException.toList, f v = g v)
    (exceptions : ∀ v ∈ s.exceptionStack, f v = g v)
    (action : ∀ v ∈ s.action.trace, f v = g v) :
    (s.map f).remaining = (s.map g).remaining := by
  simp only [map, remaining, ReturnAction.map_congr u action, option_map_eq.mpr callable,
    option_map_eq.mpr ns, option_map_eq.mpr generator, option_map_eq.mpr yieldFrom,
    option_map_eq.mpr injected, List.map_congr_left exceptions]

end Frame

namespace Vm

end Vm

/-- Where a collection can happen: between two instructions, or in compiled code, which works on
a copy of the register window from `base` to `stop`. -/
inductive Safepoint where
  | instruction
  | compiled (base stop : Nat) (window : List Value)

namespace Safepoint

/-- The state that execution goes on from. -/
def state (s : Vm Value) : Safepoint → Vm Value
  | instruction => s
  | compiled base stop window =>
    { s with registers :=
        s.registers.take base ++ window.take (stop - base) ++ s.registers.drop stop }

def roots (s : Vm Value) : Safepoint → List Value
  | instruction => s.appendGcRoots none true
  | compiled base stop window =>
    s.appendGcRoots (some (base, stop)) false ++ window ++ s.handles.flatMap (·.roots)

theorem mem_roots {s : Vm Value} {p : Safepoint} {v : Value}
    (h : v ∈ (p.state s).appendGcRoots none true) : v ∈ p.roots s := by
  cases p with
  | instruction => exact h
  | compiled base stop window =>
    simp only [state, roots, Vm.appendGcRoots, List.mem_append, if_true] at h ⊢
    rcases h with (((before | inside) | after) | fixed) | handle
    · exact .inl (.inl (.inl (.inl (.inl before))))
    · exact .inl (.inr (List.mem_of_mem_take inside))
    · exact .inl (.inl (.inl (.inl (.inr after))))
    · exact .inl (.inl (.inl (.inr fixed)))
    · exact .inr handle

end Safepoint

section Caches

def startedTypes : RuntimeTypes Value :=
  ⟨.heap 2 1, .heap 3 1, .heap 4 1, .heap 5 1, .heap 6 1, .heap 7 1, .heap 8 1, .heap 9 1,
    .heap 10 1, .heap 11 1, .heap 12 1, .heap 13 1, .heap 14 1, .heap 15 1, .heap 16 1, .heap 17 1,
    .heap 18 1, .heap 19 1, .heap 20 1, .heap 21 1, .heap 22 1, .heap 23 1, .heap 24 1, .heap 25 1,
    .heap 26 1, .heap 27 1, .heap 28 1, .heap 29 1, .heap 30 1, .heap 31 1, .heap 32 1, .heap 33 1,
    .heap 34 1, .heap 35 1, .heap 36 1, .heap 37 1, .heap 38 1, .heap 39 1, .heap 40 1, .heap 41 1,
    .heap 42 1, .heap 43 1, .heap 44 1, .heap 45 1, []⟩

end Caches

end Tonic
