import Mathlib
import Tonic.Library.Outcome
import Tonic.Operators

/-!
## The order of operator methods

The methods that an operator may call are known before the first call. They are called one after
the other, each once, until one accepts.
-/

namespace Tonic

open Effect Outcome

/-! ### What is tried -/

/-- How the class of the right operand is related to the class of the left one. -/
inductive Kinship where
  | same
  | subclass
  | other
deriving DecidableEq, Repr

/-- A method that is looked up on the left operand or on the right one. -/
structure Attempt where
  onRight : Bool
  method : String
  negate : Bool
deriving DecidableEq, Repr

/-- The method of the left operand and the reflected one of the right operand. -/
def Kinship.inOrder (direct reflected : String) (negate : Bool) : Kinship → List Attempt
  | same => [⟨false, direct, negate⟩]
  | subclass => [⟨true, reflected, negate⟩, ⟨false, direct, negate⟩]
  | other => [⟨false, direct, negate⟩, ⟨true, reflected, negate⟩]

/-- The order of the methods: in place, then the operator itself; `!=` goes on with `==`. -/
def OperatorMethods.attempts (methods : OperatorMethods) (op : Op) (kinship : Kinship) :
    List Attempt :=
  (methods.inplace.toList.map fun name => ⟨false, name, false⟩) ++
    kinship.inOrder methods.direct methods.reflected false ++
    if op = .ne then kinship.inOrder "__eq__" "__eq__" true else []

namespace Heap

variable (h : Heap) (objectClass : Value) (types : RuntimeTypes Value) (left right : Value)

def kinship : Except Fault Kinship := do
  let leftClass ← runtimeClass objectClass types h left
  let rightClass ← runtimeClass objectClass types h right
  return if leftClass = rightClass then .same
    else if h.inherits rightClass leftClass then .subclass else .other

/-- The call of a method, if the operand has it. -/
def attempted (attempt : Attempt) : Except Fault (List (BinaryCandidate Value)) := do
  let call ← h.operatorMethodCall (if attempt.onRight then right else left) attempt.method
  return binaryCandidate (if attempt.onRight then left else right) none attempt.negate call

end Heap

section Candidates

variable {h : Heap} {objectClass : Value} {types : RuntimeTypes Value} {left right : Value} {op : Op}
  {methods : OperatorMethods}

theorem attempted_ok {attempt : Attempt} {call : Option DescriptorCall}
    (found : h.operatorMethodCall (if attempt.onRight then right else left) attempt.method =
      .ok call) :
    h.attempted left right attempt = .ok (binaryCandidate
      (if attempt.onRight then left else right) none attempt.negate call) := by
  unfold Heap.attempted
  rw [found, ok_bind]
  rfl

/-- The calls of one pair of methods, as `binary_protocol_candidates` arranges them. -/
theorem inOrder_attempted {direct reflected : String} {negate : Bool} {leftClass rightClass : Value}
    {leftCall rightCall : Option DescriptorCall} {kinship : Kinship}
    (related : kinship = if leftClass = rightClass then .same
      else if h.inherits rightClass leftClass then .subclass else .other)
    (ofLeft : h.operatorMethodCall left direct = .ok leftCall)
    (ofRight : h.reflectedCall leftClass rightClass right reflected = .ok rightCall) :
    ∃ found, (kinship.inOrder direct reflected negate).mapM (h.attempted left right) = .ok found ∧
      found.flatten =
        if leftClass ≠ rightClass && h.inherits rightClass leftClass then
          binaryCandidate left none negate rightCall ++ binaryCandidate right none negate leftCall
        else
          binaryCandidate right none negate leftCall ++
            binaryCandidate left none negate rightCall := by
  unfold Heap.reflectedCall at ofRight
  have forward : h.attempted left right ⟨false, direct, negate⟩ = _ := attempted_ok ofLeft
  by_cases same : leftClass = rightClass
  · rw [if_pos same] at related ofRight
    cases ofRight
    subst related
    refine ⟨[binaryCandidate right none negate leftCall], ?_, ?_⟩
    · rw [Kinship.inOrder, List.mapM_cons, forward]
      rfl
    · simp [same, binaryCandidate]
  · rw [if_neg same] at related ofRight
    have backward : h.attempted left right ⟨true, reflected, negate⟩ = _ := attempted_ok ofRight
    by_cases inherits : h.inherits rightClass leftClass = true
    · rw [if_pos inherits] at related
      subst related
      refine ⟨[binaryCandidate left none negate rightCall,
        binaryCandidate right none negate leftCall], ?_, ?_⟩
      · rw [Kinship.inOrder, List.mapM_cons, backward, ok_bind, List.mapM_cons, forward]
        rfl
      · simp [same, inherits]
    · rw [if_neg inherits] at related
      subst related
      refine ⟨[binaryCandidate right none negate leftCall,
        binaryCandidate left none negate rightCall], ?_, ?_⟩
      · rw [Kinship.inOrder, List.mapM_cons, forward, ok_bind, List.mapM_cons, backward]
        rfl
      · simp [inherits]

theorem inplaceCandidates_attempted {inplace : Option String}
    {candidates : List (BinaryCandidate Value)}
    (run : h.inplaceCandidates left right inplace = .ok candidates) :
    ∃ found, (inplace.toList.map fun name => (⟨false, name, false⟩ : Attempt)).mapM
      (h.attempted left right) = .ok found ∧ found.flatten = candidates := by
  cases inplace with
  | none =>
    cases run
    exact ⟨[], rfl, rfl⟩
  | some name =>
    obtain ⟨call, found, rfl⟩ := map_ok run
    refine ⟨[binaryCandidate right none false call], ?_, List.append_nil _⟩
    have tried : h.attempted left right ⟨false, name, false⟩ = _ := attempted_ok found
    rw [Option.toList_some, List.map_singleton, List.mapM_cons, tried]
    rfl

theorem binaryProtocolCandidates_attempts {result : Option (BinaryProtocol Value)}
    (run : h.binaryProtocolCandidates objectClass types (.opcode op) left right none methods =
      .ok result) :
    ∃ kinship found, h.kinship objectClass types left right = .ok kinship ∧
      (methods.attempts op kinship).mapM (h.attempted left right) = .ok found ∧
      result = if found.flatten.isEmpty then none
        else some ⟨.opcode op, left, right, found.flatten, 0, false, .value⟩ := by
  obtain ⟨inplace, hi, run⟩ := bind_ok run
  obtain ⟨leftCall, hl, run⟩ := bind_ok run
  obtain ⟨leftClass, lc, run⟩ := bind_ok run
  obtain ⟨rightClass, rc, run⟩ := bind_ok run
  obtain ⟨rightCall, hr, run⟩ := bind_ok run
  obtain ⟨unequal, hn, run⟩ := bind_ok run
  have related : h.kinship objectClass types left right = .ok (if leftClass = rightClass then .same
      else if h.inherits rightClass leftClass then .subclass else .other) := by
    unfold Heap.kinship
    rw [lc, ok_bind, rc]
    rfl
  obtain ⟨before, tried, rfl⟩ := inplaceCandidates_attempted hi
  obtain ⟨first, triedFirst, eq⟩ := @inOrder_attempted h left right _ _ false _ _ _ _ _ rfl hl hr
  have last : ∃ found, (if op = .ne then Kinship.inOrder "__eq__" "__eq__" true
      (if leftClass = rightClass then .same
        else if h.inherits rightClass leftClass then .subclass else .other) else []).mapM
        (h.attempted left right) = .ok found ∧ found.flatten = unequal := by
    by_cases ne : op = .ne
    · subst ne
      obtain ⟨leftEq, hl, hn⟩ := bind_ok hn
      obtain ⟨rightEq, hr, hn⟩ := bind_ok hn
      cases hn
      exact inOrder_attempted rfl hl hr
    · rw [if_neg ne]
      have none : (BinaryProtocolKind.opcode op : BinaryProtocolKind Value).isNe = false := by
        unfold BinaryProtocolKind.isNe
        split
        · next eq =>
          cases eq
          exact absurd rfl ne
        · rfl
      rw [none] at hn
      cases hn
      exact ⟨[], rfl, rfl⟩
  obtain ⟨rest, triedRest, rfl⟩ := last
  refine ⟨_, _, related, mapM_append_ok (mapM_append_ok tried triedFirst) triedRest, ?_⟩
  cases run
  simp only [List.flatten_append, eq]

end Candidates

/-! ### A dispatch -/

/-- The candidates called so far; the last one may still run. -/
def Dispatch.called (d : Dispatch) : List (BinaryCandidate Value) :=
  d.answered.map (·.1) ++ match d.turn with
    | .waiting c _ => [c]
    | _ => []

def Declined (answered : List (BinaryCandidate Value × Value)) : Prop :=
  ∀ a ∈ answered, a.2 = .notImplemented

theorem prefix_snoc {α : Type} {xs ys : List α} {y : α} (front : xs <+: ys)
    (next : ys[xs.length]? = some y) : xs ++ [y] <+: ys := by
  obtain ⟨rest, rfl⟩ := front
  rw [List.getElem?_append_right (Nat.le_refl _), Nat.sub_self] at next
  cases rest with
  | nil => cases next
  | cons z rest =>
    cases next
    exact ⟨rest, by simp⟩

theorem Declined.snoc {answered : List (BinaryCandidate Value × Value)} {c : BinaryCandidate Value}
    (declined : Declined answered) : Declined (answered ++ [(c, .notImplemented)]) := by
  intro a mem
  rcases List.mem_append.mp mem with old | new
  · exact declined a old
  · rw [List.mem_singleton.mp new]

/-- No candidate is left: all were called. -/
theorem called_all {s : BinaryProtocol Value} {answered : List (BinaryCandidate Value × Value)} {t : BinaryProtocol Value}
    (called : answered.map (·.1) <+: s.candidates)
    (same : t = { s with next := answered.length, negateResult := t.negateResult })
    (none : t.attempt = none) : answered.map (·.1) = s.candidates := by
  unfold BinaryProtocol.attempt at none
  rw [same, Option.map_eq_none_iff, List.getElem?_eq_none_iff] at none
  exact called.eq_of_length_le (by rwa [List.length_map])

section Run

variable [HostLibrary] [FloatLibrary] {divide : Int → Int → HeapM Value}
  {floats : Op → F64 → F64 → HeapM Value} {extend : Value → Value → HeapM Unit}
  {powMod : Value → Value → Value → HeapM Value} {s : BinaryProtocol Value} {d d' : Dispatch}

/-- Methods are called in the order of the candidates, each once, as long as all decline. The first
that accepts gives the result; when there is none, the operator of the builtin types does. -/
def Dispatch.Follows (divide : Int → Int → HeapM Value) (floats : Op → F64 → F64 → HeapM Value)
    (extend : Value → Value → HeapM Unit) (powMod : Value → Value → Value → HeapM Value)
    (s : BinaryProtocol Value) (d : Dispatch) : Prop :=
  d.called <+: s.candidates ∧ match d.turn with
    | .ready t => Declined d.answered ∧
        t = { s with next := d.answered.length, negateResult := t.negateResult }
    | .waiting c t => Declined d.answered ∧
        t = { s with next := d.answered.length + 1, negateResult := c.negate }
    | .value v negate =>
        (∃ before c, d.answered = before ++ [(c, v)] ∧ Declined before ∧ v ≠ .notImplemented ∧
          negate = c.negate) ∨
        (d.called = s.candidates ∧ Declined d.answered ∧ negate = false ∧
          ∃ h, s.fallback divide floats extend powMod h = .ok v d.heap)
    | .failed _ => Declined d.answered

theorem step_follows (step : DispatchStep divide floats extend powMod d d')
    (follows : d.Follows divide floats extend powMod s) :
    d'.Follows divide floats extend powMod s := by
  obtain ⟨called, turn⟩ := follows
  cases step with
  | call next =>
    obtain ⟨declined, same⟩ := turn
    unfold BinaryProtocol.attempt at next
    obtain ⟨c, found, eq⟩ := Option.map_eq_some_iff.mp next
    cases eq
    rw [same] at found ⊢
    refine ⟨?_, declined, rfl⟩
    simp only [Dispatch.called, List.append_nil] at called ⊢
    exact prefix_snoc called (by rwa [List.length_map])
  | decline h' =>
    obtain ⟨declined, same⟩ := turn
    simp only [Dispatch.called] at called
    refine ⟨?_, declined.snoc, ?_⟩
    · simpa [Dispatch.called] using called
    · rw [same]
      simp
  | answer h' v accepts =>
    obtain ⟨declined, same⟩ := turn
    simp only [Dispatch.called] at called
    refine ⟨?_, .inl ⟨_, _, rfl, declined, accepts, by rw [same]⟩⟩
    simpa [Dispatch.called] using called
  | raise h' fault =>
    refine ⟨?_, turn.1⟩
    simp only [Dispatch.called, List.append_nil] at called ⊢
    exact (List.prefix_append _ _).trans called
  | fallback none run =>
    obtain ⟨declined, same⟩ := turn
    simp only [Dispatch.called, List.append_nil] at called
    have all := called_all called same none
    rw [same] at run
    refine ⟨by simpa [Dispatch.called] using called, .inr ⟨?_, declined, rfl, _, run⟩⟩
    simpa [Dispatch.called] using all
  | refuse none run =>
    refine ⟨?_, turn.1⟩
    simpa [Dispatch.called] using called

theorem run_follows {h : Heap} (start : s.next = 0)
    (run : Relation.ReflTransGen (DispatchStep divide floats extend powMod)
      ⟨h, [], .ready s⟩ d) : d.Follows divide floats extend powMod s := by
  induction run with
  | refl =>
    refine ⟨List.nil_prefix, fun a mem => (List.not_mem_nil mem).elim, ?_⟩
    rw [List.length_nil, ← start]
  | tail _ step ih => exact step_follows step ih

end Run

/-! ### Operands without builtin behaviour -/

/-- An object that the operators of the builtin types know nothing about. -/
def Heap.plain (h : Heap) (v : Value) : Bool :=
  match h.tryGet v with
  | some (.instanceObject _ _ none) | some (.classObject _) | some (.exception _) => true
  | _ => false

section Plain

variable {h : Heap} {a b v : Value} {op : Op}

theorem native_of_plain (plain : h.plain v = true) : h.nativeValue v = v := by
  unfold Heap.plain at plain
  unfold Heap.nativeValue
  split at plain
  · next found => rw [found]
  · next found => rw [found]
  · next found => rw [found]
  · cases plain

/-- A plain object is none of those that the operators look for. -/
theorem plain_object (plain : h.plain v = true) :
    (∃ cls attributes, h.tryGet (h.nativeValue v) = some (.instanceObject cls attributes none)) ∨
      (∃ c, h.tryGet (h.nativeValue v) = some (.classObject c)) ∨
      ∃ e, h.tryGet (h.nativeValue v) = some (.exception e) := by
  rw [native_of_plain plain]
  unfold Heap.plain at plain
  split at plain
  · next cls attributes found => exact .inl ⟨cls, attributes, found⟩
  · next c found => exact .inr (.inl ⟨c, found⟩)
  · next e found => exact .inr (.inr ⟨e, found⟩)
  · cases plain

theorem not_immediate_of_plain (plain : h.plain v = true) : v.integer = none ∧ v.asBool = none := by
  cases v with
  | heap index generation => exact ⟨rfl, rfl⟩
  | _ => cases plain

theorem not_numeric_of_plain (plain : h.plain v = true) :
    h.isInteger v = false ∧ h.isFloat v = false := by
  have immediate := (not_immediate_of_plain plain).1
  unfold Heap.isInteger Heap.isFloat
  rw [native_of_plain plain]
  have object := plain_object plain
  rw [native_of_plain plain] at object
  rcases object with ⟨cls, attributes, found⟩ | ⟨c, found⟩ | ⟨e, found⟩ <;>
    simp [found, immediate]

variable (plain : h.plain a = true ∨ h.plain b = true)
include plain

theorem not_both_numeric : (h.numeric a && h.numeric b) = false := by
  unfold Heap.numeric
  rcases plain with plain | plain
  · simp [not_numeric_of_plain plain]
  · simp [not_numeric_of_plain plain]

theorem equal_of_plain [HostLibrary] : h.equal a b 0 = .ok (decide (a = b)) := by
  show h.equalAt 101 a b = _
  unfold Heap.equalAt
  simp only [not_both_numeric plain, Bool.false_eq_true, if_false]
  by_cases same : a = b
  · rw [if_pos same, decide_eq_true same]
  · rw [if_neg same, decide_eq_false same]
    rcases plain with plain | plain
    · rcases plain_object plain with ⟨cls, attributes, found⟩ | ⟨c, found⟩ | ⟨e, found⟩ <;> rw [found]
    · rcases plain_object plain with ⟨cls, attributes, found⟩ | ⟨c, found⟩ | ⟨e, found⟩ <;>
        rw [found] <;> cases h.tryGet (h.nativeValue a) with
        | none => rfl
        | some o => cases o <;> rfl

theorem order_of_plain [HostLibrary] : h.order a b 0 = .error unsupported := by
  show h.orderAt 101 a b = _
  unfold Heap.orderAt
  simp only [not_both_numeric plain, Bool.false_eq_true, if_false]
  rcases plain with plain | plain
  · rcases plain_object plain with ⟨cls, attributes, found⟩ | ⟨c, found⟩ | ⟨e, found⟩ <;> rw [found] <;>
      rfl
  · rcases plain_object plain with ⟨cls, attributes, found⟩ | ⟨c, found⟩ | ⟨e, found⟩ <;>
      rw [found] <;> cases h.tryGet (h.nativeValue a) with
      | none => rfl
      | some o => cases o <;> rfl

theorem repeatBytes_of_plain : repeatBytes a b h = .error unsupported h := by
  simp only [repeatBytes, bind, EStateM.bind, get, getThe, MonadStateOf.get, EStateM.get]
  rcases plain with plain | plain
  · rcases plain_object plain with ⟨cls, attributes, found⟩ | ⟨c, found⟩ | ⟨e, found⟩ <;>
      simp only [found, (not_numeric_of_plain plain).1] <;> split <;> simp_all <;> rfl
  · rcases plain_object plain with ⟨cls, attributes, found⟩ | ⟨c, found⟩ | ⟨e, found⟩ <;>
      simp only [found, (not_numeric_of_plain plain).1] <;> split <;> simp_all <;> rfl

theorem concatenate_of_plain : concatenate a b h = .error unsupported h := by
  simp only [concatenate, bind, EStateM.bind, get, getThe, MonadStateOf.get, EStateM.get]
  rcases plain with plain | plain
  · rcases plain_object plain with ⟨cls, attributes, found⟩ | ⟨c, found⟩ | ⟨e, found⟩ <;>
      rw [found] <;> rfl
  · rcases plain_object plain with ⟨cls, attributes, found⟩ | ⟨c, found⟩ | ⟨e, found⟩ <;>
      rw [found] <;> cases h.tryGet (h.nativeValue a) with
      | none => rfl
      | some o => cases o <;> rfl

theorem not_both_integers : (h.isInteger a && h.isInteger b) = false := by
  rcases plain with plain | plain
  · simp [not_numeric_of_plain plain]
  · simp [not_numeric_of_plain plain]

variable (divide : Int → Int → HeapM Value) (floats : Op → F64 → F64 → HeapM Value)

theorem otherBinary_of_plain : otherBinary divide floats op a b h = .error unsupported h := by
  simp only [otherBinary, bind, EStateM.bind, get, getThe, MonadStateOf.get, EStateM.get,
    not_both_integers plain, not_both_numeric plain, Bool.false_eq_true, if_false]
  split
  · exact repeatBytes_of_plain plain
  · split
    · exact concatenate_of_plain plain
    · rfl

theorem binaryValues_of_plain [FloatLibrary] :
    binaryValues divide floats op a b h = .error unsupported h := by
  have noBools : boolBinary op a b = none := by
    unfold boolBinary
    rcases plain with plain | plain
    · rw [(not_immediate_of_plain plain).2]
    · rw [(not_immediate_of_plain plain).2]
      split <;> simp_all
  have big : bigBinary (otherBinary divide floats op a b) op a b h = .error unsupported h := by
    simp only [bigBinary, bind, EStateM.bind, get, getThe, MonadStateOf.get, EStateM.get,
      not_both_integers plain, Bool.false_eq_true, if_false]
    exact otherBinary_of_plain plain divide floats
  unfold binaryValues binary
  rw [noBools]
  rcases plain with plain | plain
  · rw [(not_immediate_of_plain plain).1]
    exact big
  · rw [(not_immediate_of_plain plain).1]
    cases a.integer <;> exact big

/-- Comparisons of plain objects: only `==` and `!=` are defined. -/
theorem compareValues_of_plain [HostLibrary] : h.compareValues op a b =
    if op = .eq then .ok (.bool (decide (a = b)))
    else if op = .ne then .ok (.bool (decide (a ≠ b))) else .error unsupported := by
  unfold Heap.compareValues
  rw [equal_of_plain plain, order_of_plain plain]
  split
  · rfl
  · rw [if_neg (by decide), if_pos rfl, decide_not]
    rfl
  · next notEq notNe =>
    rw [if_neg notEq, if_neg notNe]
    rfl

omit plain in
theorem inplaceAdd_of_no_list [FloatLibrary] {extend : Value → Value → HeapM Unit}
    (noList : ∀ values, h.tryGet (h.nativeValue a) ≠ some (.list values)) :
    inplaceAdd divide floats extend a b h = binaryValues divide floats .add a b h := by
  simp only [inplaceAdd, bind, EStateM.bind, get, getThe, MonadStateOf.get, EStateM.get]

/-- When all candidates decline, `==` and `!=` fall back to identity, and nothing else is defined. -/
theorem fallback_of_plain [HostLibrary] [FloatLibrary] {extend : Value → Value → HeapM Unit}
    {powMod : Value → Value → Value → HeapM Value} {s : BinaryProtocol Value}
    (kind : s.kind = .opcode op) (left : s.left = a) (right : s.right = b)
    (noList : op = .inplaceAdd → ∀ values, h.tryGet (h.nativeValue a) ≠ some (.list values)) :
    s.fallback divide floats extend powMod h =
      if op = .eq then .ok (.bool (decide (a = b))) h
      else if op = .ne then .ok (.bool (decide (a ≠ b))) h else .error unsupported h := by
  subst left right
  unfold BinaryProtocol.fallback
  rw [kind]
  have binary (op : Op) : binaryValues divide floats op s.left s.right h = .error unsupported h :=
    binaryValues_of_plain plain divide floats
  cases op
  case inplaceAdd =>
    show inplaceAdd divide floats extend s.left s.right h = _
    rw [inplaceAdd_of_no_list divide floats (noList rfl)]
    exact binary .add
  case eq | ne | lt | le | gt | ge =>
    simp only [reading, compareValues_of_plain plain]
    rfl
  all_goals exact binary _

end Plain

/-! ### Operators on instances -/

section Order

variable [HostLibrary] [FloatLibrary] {divide : Int → Int → HeapM Value}
  {floats : Op → F64 → F64 → HeapM Value} {extend : Value → Value → HeapM Unit}
  {powMod : Value → Value → Value → HeapM Value} {h : Heap} {objectClass : Value}
  {types : RuntimeTypes Value} {left right : Value} {op : Op} {methods : OperatorMethods}
  {result : Option (BinaryProtocol Value)}

/-- The methods of an operator are those that its attempts find, in this order. They are called one
after the other; when all decline, the operator of the builtin types is left. -/
theorem operator_dispatch_order (known : op.methods = some methods)
    (capable : h.operatorProtocolCapable left = true ∨ h.operatorProtocolCapable right = true)
    (run : h.binaryProtocol objectClass types op left right = .ok result) :
    ∃ kinship found, h.kinship objectClass types left right = .ok kinship ∧
      (methods.attempts op kinship).mapM (h.attempted left right) = .ok found ∧
      (result = none ↔ found.flatten = []) ∧
      ∀ s, result = some s → s.candidates = found.flatten ∧
        (∀ d, Relation.ReflTransGen (DispatchStep divide floats extend powMod) ⟨h, [], .ready s⟩ d →
          d.Follows divide floats extend powMod s) ∧
        ∀ h' : Heap, h'.plain left = true ∨ h'.plain right = true →
          (op = .inplaceAdd → ∀ values, h'.tryGet (h'.nativeValue left) ≠ some (.list values)) →
          s.fallback divide floats extend powMod h' =
            if op = .eq then .ok (.bool (decide (left = right))) h'
            else if op = .ne then .ok (.bool (decide (left ≠ right))) h'
            else .error unsupported h' := by
  unfold Heap.binaryProtocol at run
  rw [known, if_neg (by rcases capable with c | c <;> simp [c])] at run
  obtain ⟨kinship, found, related, tried, rfl⟩ := binaryProtocolCandidates_attempts run
  refine ⟨kinship, found, related, tried, ?_, ?_⟩
  · cases found.flatten with
    | nil => simp
    | cons c rest => simp
  · intro s eq
    split at eq
    · cases eq
    · cases eq
      exact ⟨rfl, fun d run => run_follows rfl run,
        fun h' plain noList => fallback_of_plain plain divide floats rfl rfl rfl noList⟩

end Order

/-! ### The data model of Python -/

/-- The order that the data model prescribes: the right operand comes first when its class is a
proper subclass that overrides the reflected method, and comparisons are always swapped. -/
def OperatorMethods.dataModelAttempts (methods : OperatorMethods) (op : Op) (kinship : Kinship)
    (overrides : Bool) : List Attempt :=
  let forward : Attempt := ⟨false, methods.direct, false⟩
  let backward : Attempt := ⟨true, methods.reflected, false⟩
  (methods.inplace.toList.map fun name => ⟨false, name, false⟩) ++
    match kinship with
    | .same => if op ∈ [.eq, .ne, .lt, .le, .gt, .ge] then [forward, backward] else [forward]
    | .subclass => if overrides then [backward, forward] else [forward, backward]
    | .other => [forward, backward]

/-- Whether the class of the right operand provides another implementation of a method. -/
def Heap.overrides (h : Heap) (objectClass : Value) (types : RuntimeTypes Value)
    (left right : Value) (name : String) : Except Fault Bool := do
  let leftClass ← runtimeClass objectClass types h left
  let rightClass ← runtimeClass objectClass types h right
  return (← h.classLookup leftClass name) ≠ (← h.classLookup rightClass name)

/-- Two instances of a class that defines `<` and `>`. -/
def comparable : Heap :=
  final (do
    let method ← alloc (.function ⟨0, 0, false, [], [], none, none, none⟩)
    let cls ← alloc (.classObject
      { root := false, id := 0, version := 0, name := "C", metaclass := .unbound
        namespaceMapping := none, attributes := [("__lt__", method), ("__gt__", method)]
        extraAttributes := [], dictionaryOrder := [.string "__lt__", .string "__gt__"]
        bases := [], mro := [], dependents := [] })
    let _ ← alloc (.instanceObject cls .empty none)
    alloc (.instanceObject cls .empty none)) .empty

def comparison : BinaryProtocol Value :=
  ⟨.opcode .lt, .heap 2 1, .heap 3 1, [⟨⟨.heap 0 1, some (.heap 2 1)⟩, [.heap 3 1], false⟩], 0,
    false, .value⟩

theorem comparable_protocol : comparable.binaryProtocol .none default .lt (.heap 2 1) (.heap 3 1) =
    .ok (some comparison) := rfl

theorem comparison_dispatched :
    let _ : HostLibrary := ⟨String.length, List.length, fun _ => ""⟩
    let _ : FloatLibrary := ⟨fun x _ => x⟩
    ∀ d, Relation.ReflTransGen (DispatchStep (fun _ _ => throw unsupported)
      (fun _ _ _ => throw unsupported) (fun _ _ => throw unsupported)
      (fun _ _ _ => throw unsupported)) ⟨comparable, [], .ready comparison⟩ d →
      d.Follows (fun _ _ => throw unsupported) (fun _ _ _ => throw unsupported)
        (fun _ _ => throw unsupported) (fun _ _ _ => throw unsupported) comparison := by
  intro _ _
  obtain ⟨_, _, _, _, _, follows⟩ := operator_dispatch_order rfl (.inl rfl) comparable_protocol
  exact (follows _ rfl).2.1

/-- Instances of one class do not try the swapped comparison of the right operand. -/
theorem comparison_not_swapped : ¬ ∀ (h : Heap) (objectClass : Value) (types : RuntimeTypes Value)
    (left right : Value) (op : Op) (methods : OperatorMethods) (kinship : Kinship)
    (overrides : Bool) (found : List (List (BinaryCandidate Value))) (s : BinaryProtocol Value),
    op.methods = some methods → h.kinship objectClass types left right = .ok kinship →
    h.overrides objectClass types left right methods.reflected = .ok overrides →
    (methods.dataModelAttempts op kinship overrides).mapM (h.attempted left right) = .ok found →
    h.binaryProtocol objectClass types op left right = .ok (some s) →
    s.candidates = found.flatten := by
  intro follows
  have attempts : (OperatorMethods.dataModelAttempts ⟨none, "__lt__", "__gt__"⟩ .lt .same
      false).mapM (comparable.attempted (.heap 2 1) (.heap 3 1)) =
      .ok [[⟨⟨.heap 0 1, some (.heap 2 1)⟩, [.heap 3 1], false⟩],
        [⟨⟨.heap 0 1, some (.heap 3 1)⟩, [.heap 2 1], false⟩]] := rfl
  have same := follows comparable .none default (.heap 2 1) (.heap 3 1) .lt _ .same false _ _ rfl rfl
    rfl attempts comparable_protocol
  exact absurd (congrArg List.length same) (by decide)

end Tonic
