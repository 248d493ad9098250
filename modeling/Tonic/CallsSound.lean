import Tonic.Calls
import Tonic.Library.Outcome

/-!
## Bound calls

A callee stands for another callee with receivers in front of the arguments. A call hands these on
through one receiver slot, so it behaves like the call of that other callee as long as the slot is
filled at most once, and the object at the end takes its arguments from there.
-/

namespace Tonic

open Effect Outcome

namespace Interpreter

variable {s : Interpreter}

/-! ### What a callee stands for -/

/-- The object a callee leads to, with the receivers that a call puts in front of its arguments and
the number of redirections on the way. -/
inductive Reaches (s : Interpreter) : Value → List Value → Value → Nat → Prop
  | here {target : Value} : s.redirect target = .ok none → Reaches s target [] target 0
  | next {callee target : Value} {call : DescriptorCall} {receivers : List Value} {n : Nat} :
    s.redirect callee = .ok (some call) → Reaches s call.callable receivers target n →
    Reaches s callee (receivers ++ call.receiver.toList) target (n + 1)

/-! ### One slot -/

theorem bindCall_none (args : Arguments) : bindCall args none = .ok args := rfl

theorem bindCall_free {args : Arguments} (free : args.receiver = none) (r : Value) :
    bindCall args (some r) = .ok (args.withReceiver (some r)) := by
  simp [bindCall, Arguments.bind, free]
  rfl

def duplicateReceiver : Fault := bytecodeError "duplicate bound receiver"

theorem bindCall_bound {args : Arguments} {r₀ : Value} (bound : args.receiver = some r₀)
    (r : Value) : bindCall args (some r) = .error duplicateReceiver := by
  simp [bindCall, Arguments.bind, bound]
  rfl

theorem follow_of_reaches {callee target : Value} {receivers : List Value} {n : Nat}
    (reaches : s.Reaches callee receivers target n) {room : Nat} {args : Arguments}
    (near : n ≤ room) (single : (receivers ++ args.receiver.toList).length ≤ 1) :
    ∃ bound, s.follow room callee args = .ok (target, bound) ∧
      bound.receiver.toList = receivers ++ args.receiver.toList ∧
      s.list bound =
        { s.list args with positional := receivers ++ (s.list args).positional } := by
  induction reaches generalizing room args with
  | here stop =>
    refine ⟨args, ?_, rfl, rfl⟩
    unfold follow
    rw [stop]
  | @next callee target call receivers n step _ ih =>
    obtain ⟨room, rfl⟩ : ∃ k, room = k + 1 := ⟨room - 1, by omega⟩
    unfold follow
    rw [step]
    dsimp only
    cases found : call.receiver with
    | none =>
      simp only [found, Option.toList_none, List.append_nil] at single ⊢
      exact ih (by omega) single
    | some r =>
      have free : args.receiver = none := by
        cases eq : args.receiver <;> simp_all
      have empty : receivers = [] := by
        cases receivers <;> simp_all
      subst empty
      rw [bindCall_free free]
      obtain ⟨bound, run, slot, list⟩ := @ih room (args.withReceiver (some r)) (by omega) (by simp)
      refine ⟨bound, run, ?_, ?_⟩
      · rw [slot, free]
        simp
      · rw [list]
        exact Arguments.list_withReceiver r free

/-- The faults of a chain that was not followed to its end. -/
def Unfollowed (e : Fault) : Prop := e = chainTooDeep ∨ e = duplicateReceiver

theorem follow_stops {callee target : Value} {receivers : List Value} {n : Nat}
    (reaches : s.Reaches callee receivers target n) {room : Nat} {args : Arguments}
    (far : ¬ (n ≤ room ∧ (receivers ++ args.receiver.toList).length ≤ 1)) :
    ∃ e, s.follow room callee args = .error e ∧ Unfollowed e := by
  induction reaches generalizing room args with
  | here stop =>
    refine (far ⟨Nat.zero_le _, ?_⟩).elim
    cases args.receiver <;> simp
  | @next callee target call receivers n step _ ih =>
    unfold follow
    rw [step]
    dsimp only
    cases room with
    | zero => exact ⟨chainTooDeep, rfl, .inl rfl⟩
    | succ room =>
      cases found : call.receiver with
      | none =>
        simp only [found, Option.toList_none, List.append_nil] at far ⊢
        exact ih (by omega)
      | some r =>
        cases slot : args.receiver with
        | some r₀ =>
          rw [bindCall_bound slot]
          exact ⟨duplicateReceiver, rfl, .inr rfl⟩
        | none =>
          rw [bindCall_free slot]
          refine ih (fun near => far ⟨by omega, ?_⟩)
          simpa [found, slot] using near.2

/-! ### The object at the end -/

/-- The classes that are instantiated from an argument list of their own: the exceptions and the
classes of the program, but not `type` and its subclasses nor the builtin types. -/
def ownsArguments (s : Interpreter) (cls : Value) : Bool :=
  cls ≠ s.vm.typeClass && (s.types.builtinTypeKind cls).isNone &&
    match s.subclassOf cls s.types.baseException, s.subclassOf cls s.vm.typeClass with
    | .ok true, _ | .ok false, .ok false => true
    | _, _ => false

/-- Objects that take their arguments over into a list without a receiver. -/
def refusesReceiver (s : Interpreter) (target : Value) (arguments : ArgumentList) : Bool :=
  match s.heap.tryGet target with
  | some (.classObject _) => s.ownsArguments target
  | some (.builtin b) =>
    match b.nativeNewKind, arguments.positional with
    | some kind, cls :: _ => (s.validateNativeNewClass cls kind).isOk
    | _, _ => false
  | _ => false

/-- `invalid builtin __new__ call` is raised for a receiver only. -/
theorem invokeNativeNew_eq (target : Value) (kind : RuntimeTypeKind) (args : Arguments) :
    s.invokeNativeNew target kind args =
      match (s.list args).positional with
      | [] => .error (typeError "builtin __new__ expects a class argument")
      | cls :: _ => s.validateNativeNewClass cls kind >>= fun _ =>
        if args.receiver.isSome then .error (typeError "invalid builtin __new__ call")
        else .ok ⟨target, s.list args⟩ := by
  unfold invokeNativeNew
  cases count : args.count with
  | zero => simp [list, Arguments.list, count]; rfl
  | succ n =>
    have head : (s.list args).positional =
        args.positional s.vm.registers 0 ::
          (List.range' 1 n).map fun i => args.positional s.vm.registers i := by
      simp [list, Arguments.list, count, List.range_eq_range', List.range'_succ]
    have owned : s.list (.expanded (args.owned s.program.symbols s.vm.registers)) = s.list args :=
      Arguments.list_owned
    have filled : args.receiver = none →
        (args.owned s.program.symbols s.vm.registers).positional ≠ [] := by
      intro free
      simp [Arguments.count, free] at count
      simp [Arguments.owned, count]
    have slot : (args.owned s.program.symbols s.vm.registers).receiver = args.receiver := rfl
    simp only [head, owned, slot, Nat.add_one_ne_zero, if_false]
    cases free : args.receiver with
    | none => simp [filled free]; rfl
    | some r => simp; rfl

theorem invokeClass_eq (cls : Value) (args : Arguments) :
    s.invokeClass cls args =
      if cls = s.vm.typeClass ∨ (s.types.builtinTypeKind cls).isSome then .ok ⟨cls, s.list args⟩
      else s.subclassOf cls s.types.baseException >>= fun raisable =>
        if raisable then
          if args.receiver.isSome then .error (bytecodeError "bound exception class call")
          else .ok ⟨cls, s.list args⟩
        else s.subclassOf cls s.vm.typeClass >>= fun metaclass =>
          if metaclass then .error (.raise "UnsupportedFeature"
            "direct custom metaclass calls require metaclass __new__/__init__ support")
          else if args.receiver.isSome then .error (bytecodeError "bound class call")
          else .ok ⟨cls, s.list args⟩ := by
  have owned : s.list (.expanded (args.owned s.program.symbols s.vm.registers)) = s.list args :=
    Arguments.list_owned
  have slot : (args.owned s.program.symbols s.vm.registers).receiver = args.receiver := rfl
  unfold invokeClass
  simp only [owned, slot]
  rfl

section Plain

variable {args plain : Arguments} (free : plain.receiver = none) (same : s.list plain = s.list args)
include free same

theorem invokeClass_plain (cls : Value) :
    s.invokeClass cls args = s.invokeClass cls plain ↔
      args.receiver = none ∨ s.ownsArguments cls = false := by
  rw [invokeClass_eq, invokeClass_eq, same, free]
  unfold ownsArguments
  by_cases builtin : cls = s.vm.typeClass ∨ (s.types.builtinTypeKind cls).isSome
  · rw [if_pos builtin, if_pos builtin]
    have native :
        (decide (cls ≠ s.vm.typeClass) && (s.types.builtinTypeKind cls).isNone) = false := by
      rcases builtin with same | kind
      · simp [same]
      · simp [Option.isNone_eq_false_iff.mpr kind]
    exact ⟨fun _ => .inr (by rw [native, Bool.false_and]), fun _ => rfl⟩
  · rw [if_neg builtin, if_neg builtin]
    obtain ⟨other, none⟩ := not_or.mp builtin
    rw [Option.not_isSome_iff_eq_none] at none
    cases raisable : s.subclassOf cls s.types.baseException with
    | error e => simp [bind, Except.bind]
    | ok found =>
      cases found with
      | true => cases args.receiver <;> simp [bind, Except.bind, other, none]
      | false =>
        cases metaclass : s.subclassOf cls s.vm.typeClass with
        | error e => simp [bind, Except.bind]
        | ok found =>
          cases found <;> cases args.receiver <;> simp [bind, Except.bind, other, none]

theorem invokeNativeNew_plain (target : Value) (kind : RuntimeTypeKind) :
    s.invokeNativeNew target kind args = s.invokeNativeNew target kind plain ↔
      args.receiver = none ∨ ∀ cls rest, (s.list args).positional = cls :: rest →
        (s.validateNativeNewClass cls kind).isOk = false := by
  rw [invokeNativeNew_eq, invokeNativeNew_eq, same, free]
  cases positional : (s.list args).positional with
  | nil => simp
  | cons cls rest =>
    cases valid : s.validateNativeNewClass cls kind with
    | error e => simp [bind, Except.bind, valid, Except.isOk, Except.toBool]
    | ok exact =>
      cases args.receiver <;> simp [bind, Except.bind, valid, Except.isOk, Except.toBool]

/-- The object takes the arguments from the slot as from the list, unless it refuses a receiver. -/
theorem invokeObject_plain (target : Value) :
    s.invokeObject target args = s.invokeObject target plain ↔
      args.receiver = none ∨ s.refusesReceiver target (s.list args) = false := by
  unfold invokeObject refusesReceiver Heap.get
  cases object : s.heap.tryGet target with
  | none => simp [bind, Except.bind]
  | some o =>
    cases o with
    | classObject c => exact invokeClass_plain free same target
    | function f => simp [bind, Except.bind, invokeFunction, same]
    | builtin b =>
      cases kind : b.nativeNewKind with
      | none => simp [bind, Except.bind, kind, same]
      | some kind =>
        simp only [bind, Except.bind, kind]
        rw [invokeNativeNew_plain free same]
        cases (s.list args).positional <;> simp
    | _ => simp [bind, Except.bind, same]

end Plain

/-! ### The faults of the object -/

theorem followed_classOf (h : Heap) (v : Value) :
    FailsOnly (fun e => ¬ Unfollowed e) (h.classOf v) := by
  unfold Heap.classOf Heap.get
  intro e failed
  cases object : h.tryGet v with
  | none =>
    rw [object] at failed
    cases failed
    cases v <;> simp [Unfollowed, invalidValue, chainTooDeep, duplicateReceiver, bytecodeError,
      typeError, Fault.raise]
  | some o =>
    rw [object] at failed
    cases o <;> cases failed <;>
      simp [Unfollowed, chainTooDeep, duplicateReceiver, bytecodeError, typeError, Fault.raise]

theorem followed_instanceCheck (objectClass : Value) (types : RuntimeTypes Value) (h : Heap)
    (cls : Value) (fuel : Nat) (target : Value) :
    FailsOnly (fun e => ¬ Unfollowed e) (instanceCheck objectClass types h cls true fuel target) := by
  induction fuel generalizing target with
  | zero =>
    exact .error (by simp [Unfollowed, chainTooDeep, duplicateReceiver, bytecodeError, Fault.raise])
  | succ fuel ih =>
    unfold instanceCheck
    split
    · exact .anyM fun target _ => ih target
    · exact .anyM fun target _ => ih target
    · refine .bind (followed_classOf h target) fun _ _ => ?_
      refine .bind (.bind (followed_classOf h cls) fun _ _ => .ok cls) fun _ _ => ?_
      exact .ok _

theorem followed_subclassOf (cls base : Value) :
    FailsOnly (fun e => ¬ Unfollowed e) (s.subclassOf cls base) :=
  followed_instanceCheck _ _ _ _ _ _

/-- A diagnostic of another kind than those of the chain. -/
theorem followed_raise {kind message : String} (other : kind ≠ "RecursionError")
    (unbound : kind ≠ "BytecodeError") : ¬ Unfollowed (.raise kind message) := by
  simp [Unfollowed, chainTooDeep, duplicateReceiver, bytecodeError, Fault.raise, other, unbound]

theorem followed_invokeClass (cls : Value) {args : Arguments} (free : args.receiver = none) :
    FailsOnly (fun e => ¬ Unfollowed e) (s.invokeClass cls args) := by
  rw [invokeClass_eq, free]
  refine .ite (fun _ => .ok _) fun _ => ?_
  refine .bind (followed_subclassOf _ _) fun raisable _ => ?_
  refine .ite (fun _ => .ok _) fun _ => ?_
  refine .bind (followed_subclassOf _ _) fun metaclass _ => ?_
  exact .ite (fun _ => .error (followed_raise (by decide) (by decide))) fun _ => .ok _

theorem followed_validateNativeNewClass (cls : Value) (kind : RuntimeTypeKind) :
    FailsOnly (fun e => ¬ Unfollowed e) (s.validateNativeNewClass cls kind) := by
  refine .bind (followed_classOf _ _) fun _ _ => .bind ?_ fun exact _ => ?_
  · cases kind
    case exception => exact .error (by simp [Unfollowed, chainTooDeep, duplicateReceiver,
      bytecodeError, Fault.raise])
    all_goals exact .ok _
  · refine .ite (fun _ => .ok _) fun _ => .ite (fun _ => ?_) fun _ => .ok _
    exact .error (followed_raise (by decide) (by decide))

theorem followed_invokeNativeNew (target : Value) (kind : RuntimeTypeKind) {args : Arguments}
    (free : args.receiver = none) :
    FailsOnly (fun e => ¬ Unfollowed e) (s.invokeNativeNew target kind args) := by
  rw [invokeNativeNew_eq, free]
  split
  · exact .error (followed_raise (by decide) (by decide))
  · exact .bind (followed_validateNativeNewClass _ _) fun _ _ => .ok _

theorem followed_invokeFunction (target : Value) (f : Function) (args : Arguments) :
    FailsOnly (fun e => ¬ Unfollowed e) (s.invokeFunction target f args) := by
  refine .ite (fun _ => .error (followed_raise (by decide) (by decide))) fun _ => ?_
  refine .ite (fun _ => .error ?_) fun _ => .ok _
  simp [Unfollowed, chainTooDeep, duplicateReceiver, bytecodeError, Fault.raise]

theorem followed_invokeObject (target : Value) {args : Arguments} (free : args.receiver = none) :
    FailsOnly (fun e => ¬ Unfollowed e) (s.invokeObject target args) := by
  refine .bind ?_ fun o _ => ?_
  · unfold Heap.get
    cases s.heap.tryGet target with
    | some o => exact .ok o
    | none => cases target <;> exact .error (followed_raise (by decide) (by decide))
  · cases o with
    | classObject c => exact followed_invokeClass target free
    | function f => exact followed_invokeFunction target f args
    | builtin b =>
      dsimp only
      cases b.nativeNewKind with
      | none => exact .ok _
      | some kind => exact followed_invokeNativeNew target kind free
    | propertyDeleter _ | propertySetter _ | native _ => exact .ok _
    | _ => exact .error (followed_raise (by decide) (by decide))

/-! ### Bound calls compose -/

theorem redirect_of_reaches {callee target : Value} {receivers : List Value} {n : Nat}
    (reaches : s.Reaches callee receivers target n) : s.redirect target = .ok none := by
  induction reaches with
  | here stop => exact stop
  | next _ _ ih => exact ih

/-- An object that takes arguments itself is called without a redirection. -/
theorem invokeTarget_here {target : Value} (stop : s.redirect target = .ok none)
    {args : Arguments} (named : args.invalidKeywords = []) :
    s.invokeTarget target args = s.invokeObject target args := by
  unfold invokeTarget follow
  simp [named, stop]

/-- A call that fills the slot at most once hands its arguments to the object it leads to. -/
theorem invokeTarget_single {callee target : Value} {receivers : List Value} {n : Nat}
    (reaches : s.Reaches callee receivers target n) {args : Arguments}
    (named : args.invalidKeywords = []) (near : n ≤ 100)
    (single : (receivers ++ args.receiver.toList).length ≤ 1) :
    ∃ bound, s.invokeTarget callee args = s.invokeObject target bound ∧
      bound.receiver.toList = receivers ++ args.receiver.toList ∧
      s.list (s.prepend receivers args) = s.list bound := by
  obtain ⟨bound, run, slot, list⟩ := follow_of_reaches reaches near single
  refine ⟨bound, ?_, slot, (Arguments.list_prepend receivers).trans list.symm⟩
  simp [invokeTarget, named, run]

/-- A bound method is called like its function with the receiver in front. -/
theorem bound_method_call {method function r target : Value} {n : Nat}
    (bound : s.redirect method = .ok (some ⟨function, some r⟩))
    (reaches : s.Reaches function [] target n) (near : n < 100) {args : Arguments}
    (named : args.invalidKeywords = []) (free : args.receiver = none)
    (taken : s.refusesReceiver target (s.list (s.prepend [r] args)) = false) :
    s.invokeTarget method args = s.invokeTarget function (s.prepend [r] args) := by
  obtain ⟨inSlot, method_call, _, method_list⟩ :=
    invokeTarget_single (.next bound reaches) named (by omega) (by simp [free])
  obtain ⟨inList, function_call, slot, function_list⟩ :=
    @invokeTarget_single s _ _ _ _ reaches (s.prepend [r] args) named (by omega)
      (Nat.zero_le 1)
  have empty : inList.receiver = none := Option.toList_eq_nil_iff.mp slot
  have same : s.list (s.prepend [r] args) = s.list inList :=
    (Arguments.list_prepend []).symm.trans function_list
  rw [method_call, function_call]
  rw [(invokeObject_plain rfl method_list target).mpr (.inr (method_list ▸ taken))]
  exact ((invokeObject_plain rfl same target).mpr (.inl empty)).symm

/-- A call behaves like the call of the object it leads to with the receivers in front of the
arguments, exactly if the object is near enough, the slot is filled at most once, and the object
does not refuse what is in it. Keywords that are no strings are refused before. -/
theorem bound_call_composes {callee target : Value} {receivers : List Value} {n : Nat}
    (reaches : s.Reaches callee receivers target n) (args : Arguments) :
    s.invokeTarget callee args = s.invokeTarget target (s.prepend receivers args) ↔
      args.invalidKeywords ≠ [] ∨
        n ≤ 100 ∧ (receivers ++ args.receiver.toList).length ≤ 1 ∧
          (receivers ++ args.receiver.toList = [] ∨
            s.refusesReceiver target (s.list (s.prepend receivers args)) = false) := by
  by_cases named : args.invalidKeywords = []
  · have here : s.invokeTarget target (s.prepend receivers args) =
        s.invokeObject target (s.prepend receivers args) :=
      invokeTarget_here (redirect_of_reaches reaches) named
    rw [here]
    by_cases single : n ≤ 100 ∧ (receivers ++ args.receiver.toList).length ≤ 1
    · obtain ⟨bound, reached, slot, same⟩ := invokeTarget_single reaches named single.1 single.2
      rw [reached, invokeObject_plain rfl same, same]
      simp only [named, ne_eq, not_true_eq_false, false_or, single.1, single.2, true_and]
      rw [← slot, Option.toList_eq_nil_iff]
    · obtain ⟨e, run, unfollowed⟩ := @follow_stops s _ _ _ _ reaches 100 args single
      have stopped : s.invokeTarget callee args = .error e := by simp [invokeTarget, named, run]
      rw [stopped]
      constructor
      · intro same
        exact (followed_invokeObject target rfl e same.symm unfollowed).elim
      · rintro (invalid | ⟨near, alone, _⟩)
        · exact (invalid named).elim
        · exact (single ⟨near, alone⟩).elim
  · have refused {v : Value} {args : Arguments} (named : args.invalidKeywords ≠ []) :
        s.invokeTarget v args = .error (typeError "keywords must be strings") := if_pos named
    rw [refused named, @refused target (s.prepend receivers args) named]
    exact ⟨fun _ => .inl named, fun _ => rfl⟩

/-- An object that is called through a bound method. -/
def callables : Heap :=
  final (do
    let method ← alloc (.function ⟨0, 0, false, [], [], none, none, none⟩)
    let cls ← alloc (.classObject
      { root := false, id := 0, version := 0, name := "C", metaclass := .unbound
        namespaceMapping := none, attributes := [("__call__", method)]
        extraAttributes := [], dictionaryOrder := [.string "__call__"]
        bases := [], mro := [], dependents := [] })
    let object ← alloc (.instanceObject cls .empty none)
    let _ ← alloc (.boundMethod method cls)
    alloc (.boundMethod object cls)) .empty

def caller : Interpreter := ⟨callables, default, ⟨bytecodeVersion, [], [], []⟩, 0⟩

/-- A bound method of a function. -/
theorem bound_function_composes :
    caller.invokeTarget (.heap 3 1) (.inline none (Vector.replicate 3 .none) 1) =
      caller.invokeTarget (.heap 0 1)
        (caller.prepend [.heap 1 1] (.inline none (Vector.replicate 3 .none) 1)) :=
  (bound_call_composes
    (@Reaches.next _ _ _ ⟨.heap 0 1, some (.heap 1 1)⟩ _ _ rfl (.here rfl)) _).mpr
    (.inr ⟨by decide, by decide, .inr rfl⟩)

theorem bound_object_reaches :
    caller.Reaches (.heap 4 1) [.heap 2 1, .heap 1 1] (.heap 0 1) 2 := by
  have called : caller.Reaches (.heap 2 1) [.heap 2 1] (.heap 0 1) 1 :=
    @Reaches.next _ _ _ ⟨.heap 0 1, some (.heap 2 1)⟩ _ _ rfl (.here rfl)
  exact @Reaches.next _ _ _ ⟨.heap 2 1, some (.heap 1 1)⟩ _ _ rfl called

/-- The call of an object adds a receiver to the one of the bound method. -/
theorem bound_object_fails : ¬ ∀ (s : Interpreter) (callee target : Value)
    (receivers : List Value) (n : Nat), s.Reaches callee receivers target n → n ≤ 100 →
    ∀ args : Arguments, s.invokeTarget callee args =
      s.invokeTarget target (s.prepend receivers args) := by
  intro composes
  have same := composes caller _ _ _ _ bound_object_reaches (by decide)
    (.inline none (Vector.replicate 3 .none) 1)
  have fails : caller.invokeTarget (.heap 4 1) (.inline none (Vector.replicate 3 .none) 1) =
      .error duplicateReceiver := rfl
  rw [fails] at same
  cases same

end Interpreter

end Tonic
