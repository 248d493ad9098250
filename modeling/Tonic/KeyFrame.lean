import Tonic.QuietKeys

/-!
## What a store into a container leaves alone

Keys, and what makes a value a plain one, are read off objects that are neither dictionaries nor
sets.
-/

namespace Tonic

open Outcome

def Object.isContainer : Object → Bool
  | dict _ | set _ => true
  | _ => false

namespace Heap

/-- The objects of the held values are the same, but for what dictionaries and sets contain. -/
structure Alike (h t : Heap) (held : Value → Prop) : Prop where
  same : ∀ {v}, held v → t.tryGet v = h.tryGet v ∨ ∃ o o', h.tryGet v = some o ∧
    t.tryGet v = some o' ∧ o.isContainer = true ∧ o'.isContainer = true
  closed : ∀ {v o w}, held v → h.tryGet v = some o → w ∈ o.trace → held w

section Alike

variable {h t : Heap} {held : Value → Prop} {v : Value} {n : Nat} {structural : Bool}
  {values : List Value}

namespace Alike

/-- A reading that does not look into containers has the same result. -/
theorem reading {α : Type} (alike : h.Alike t held) (hv : held v) (f : Option Object → α)
    (blind : ∀ o o', o.isContainer = true → o'.isContainer = true → f (some o) = f (some o')) :
    f (t.tryGet v) = f (h.tryGet v) := by
  rcases alike.same hv with eq | ⟨o, o', ho, ho', c, c'⟩
  · rw [eq]
  · rw [ho, ho', blind o o' c c']

theorem nativeValue (alike : h.Alike t held) (hv : held v) : t.nativeValue v = h.nativeValue v := by
  unfold Heap.nativeValue
  rcases alike.same hv with eq | ⟨o, o', ho, ho', c, c'⟩
  · rw [eq]
  · rw [ho, ho']
    cases o <;> cases c <;> cases o' <;> cases c' <;> rfl

theorem held_native (alike : h.Alike t held) (hv : held v) : held (h.nativeValue v) := by
  unfold Heap.nativeValue
  split
  · next ho => exact alike.closed hv ho (by simp [Object.trace])
  · exact hv

theorem mapM {ε β : Type} {f g : Value → Except ε β} (same : ∀ w ∈ values, f w = g w) :
    values.mapM f = values.mapM g := by
  induction values with
  | nil => rfl
  | cons w values ih =>
    rw [List.mapM_cons, List.mapM_cons, same w List.mem_cons_self,
      ih fun w hw => same w (List.mem_cons_of_mem _ hw)]

theorem get (alike : h.Alike t held) (hv : held v) :
    t.get v = h.get v ∨ ∃ o o', h.get v = .ok o ∧ t.get v = .ok o' ∧ o.isContainer = true ∧
      o'.isContainer = true := by
  rcases alike.same hv with eq | ⟨o, o', ho, ho', c, c'⟩
  · exact .inl (by rw [Heap.get, eq, Heap.get])
  · exact .inr ⟨o, o', get_ok ho, get_ok ho', c, c'⟩

theorem number (alike : h.Alike t held) (hv : held v) : t.number v = h.number v := by
  unfold Heap.number
  rw [alike.nativeValue hv]
  rcases alike.same (alike.held_native hv) with eq | ⟨o, o', ho, ho', c, c'⟩
  · rw [eq]
  · rw [ho, ho']
    cases o <;> cases c <;> cases o' <;> cases c' <;> rfl

theorem content (alike : h.Alike t held) (hv : held v) :
    t.content v = h.content v ∨ ∃ o o', h.content v = some o ∧ t.content v = some o' ∧
      o.isContainer = true ∧ o'.isContainer = true := by
  unfold Heap.content
  rw [alike.nativeValue hv]
  exact alike.same (alike.held_native hv)

theorem held_content {o : Object} (alike : h.Alike t held) (hv : held v) (hc : h.content v = some o)
    {w : Value} (hw : w ∈ o.trace) : held w :=
  alike.closed (alike.held_native hv) hc hw

/-! ### Literal arguments -/

theorem literalTypePlan (alike : h.Alike t held) (hv : held v) :
    t.literalTypePlan v = h.literalTypePlan v := by
  unfold Heap.literalTypePlan
  rcases alike.get hv with eq | ⟨o, o', ho, ho', c, c'⟩
  · rw [eq]
  · rw [ho, ho']
    cases o <;> cases c <;> cases o' <;> cases c' <;> rfl

theorem literalArguments (alike : h.Alike t held) (depth : Nat) {args : Value} (ha : held args) :
    t.literalArguments depth args = h.literalArguments depth args := by
  induction depth generalizing args with
  | zero => rfl
  | succ depth ih =>
    unfold Heap.literalArguments
    rcases alike.get ha with eq | ⟨o, o', ho, ho', c, c'⟩
    · rw [eq]
      split
      · next first rest found =>
        have inside {w : Value} (hw : w ∈ first :: rest) : held w :=
          alike.closed ha (get_eq_ok found) (by simpa [Object.trace] using hw)
        rw [mapM fun w hw => ?_]
        rcases alike.get (inside hw) with eq | ⟨o, o', ho, ho', c, c'⟩
        · rw [eq, alike.literalTypePlan (inside hw)]
          split
          · next cls origin args found =>
            have traced := fun w => alike.closed (w := w) (inside hw) (get_eq_ok found)
            have same := ih (traced args (by simp [Object.trace]))
            rcases alike.get (traced origin (by simp [Object.trace])) with
              eq | ⟨o, o', ho, ho', c, c'⟩
            · rw [eq]
              cases h.get origin with
              | error => rfl
              | ok o =>
                cases o
                case typingForm cls kind =>
                  cases kind with
                  | literal => exact same
                  | callable => rfl
                all_goals rfl
            · rw [ho, ho']
              cases o <;> cases c <;> cases o' <;> cases c' <;> rfl
          · rfl
        · rw [ho, ho', alike.literalTypePlan (inside hw)]
          cases o <;> cases c <;> cases o' <;> cases c' <;> rfl
      · rfl
    · rw [ho, ho']
      cases o <;> cases c <;> cases o' <;> cases c' <;> rfl

theorem canonicalLiteralArguments (alike : h.Alike t held) {args : Value} (ha : held args) :
    t.canonicalLiteralArguments args = h.canonicalLiteralArguments args := by
  unfold Heap.canonicalLiteralArguments
  rw [alike.literalArguments _ ha]

/-- The key of a callable form, from the keys of the values in it. -/
theorem callableKey (alike : h.Alike t held) {originKey : Key} {args : Value}
    (inner : ∀ {w}, held w → t.dictKeyAt n w = h.dictKeyAt n w) (ha : held args) :
    (do
      let .tuple [first, result] ← t.get args | throw (typeError "invalid Callable arguments")
      let parameters ←
        if first = Value.ellipsis then pure none
        else match ← t.get first with
          | .list values | .tuple values => some <$> values.mapM (t.dictKeyAt n)
          | _ => throw (typeError "invalid Callable parameters")
      return Key.callableAlias originKey parameters (← t.dictKeyAt n result)) = do
      let .tuple [first, result] ← h.get args | throw (typeError "invalid Callable arguments")
      let parameters ←
        if first = Value.ellipsis then pure none
        else match ← h.get first with
          | .list values | .tuple values => some <$> values.mapM (h.dictKeyAt n)
          | _ => throw (typeError "invalid Callable parameters")
      return Key.callableAlias originKey parameters (← h.dictKeyAt n result) := by
  rcases alike.get ha with eq | ⟨o, o', ho, ho', c, c'⟩
  · rw [eq]
    cases found : h.get args with
    | error => rfl
    | ok o =>
      cases o
      case tuple values =>
        have traced := fun w => alike.closed (w := w) ha (get_eq_ok found)
        rcases values with _ | ⟨first, _ | ⟨result, _ | _⟩⟩
        case cons.cons.nil =>
          have heldFirst := traced first (by simp [Object.trace])
          simp only [ok_bind]
          rw [inner (traced result (by simp [Object.trace]))]
          rcases alike.get heldFirst with eq | ⟨o, o', ho, ho', c, c'⟩
          · rw [eq]
            cases found : h.get first with
            | error => rfl
            | ok o =>
              have traced := fun w => alike.closed (w := w) heldFirst (get_eq_ok found)
              cases o
              case list values | tuple values =>
                simp only [ok_bind]
                rw [mapM fun w hw => inner (traced w (by simpa [Object.trace] using hw))]
              all_goals simp only [ok_bind]
          · rw [ho, ho']
            cases o <;> cases c <;> cases o' <;> cases c' <;> rfl
        all_goals simp only [ok_bind]
      all_goals simp only [ok_bind]
  · rw [ho, ho']
    cases o <;> cases c <;> cases o' <;> cases c' <;> rfl

theorem dictKeyAt (alike : h.Alike t held) (hv : held v) : t.dictKeyAt n v = h.dictKeyAt n v := by
  induction n generalizing v with
  | zero => rfl
  | succ n ih =>
    have inside {values : List Value} (hw : ∀ w ∈ values, held w) :
        values.mapM (t.dictKeyAt n) = values.mapM (h.dictKeyAt n) := mapM fun w mem => ih (hw w mem)
    have native := alike.held_native hv
    unfold Heap.dictKeyAt
    rw [alike.nativeValue hv]
    generalize h.nativeValue v = w at native ⊢
    cases w
    case heap i g =>
      simp only
      rcases alike.get native with eq | ⟨o, o', ho, ho', c, c'⟩
      · rw [eq]
        cases found : h.get (.heap i g) with
        | error => rfl
        | ok o =>
          have traced := fun w => alike.closed (w := w) native (get_eq_ok found)
          simp only [ok_bind]
          cases o
          case tuple values =>
            simp only
            rw [inside fun w hw => traced w (by simpa [Object.trace] using hw)]
          case slice start stop step =>
            simp only
            rw [inside fun w hw => traced w (by simpa [Object.trace] using hw)]
          case boundMethod callee receiver =>
            simp only
            rw [ih (traced callee (by simp [Object.trace])),
              ih (traced receiver (by simp [Object.trace]))]
          case unionType cls members =>
            simp only
            rw [inside fun w hw => traced w (by simp [Object.trace, hw])]
          case genericAlias cls origin args =>
            have heldOrigin := traced origin (by simp [Object.trace])
            have heldArgs := traced args (by simp [Object.trace])
            simp only
            rw [ih heldOrigin, ih heldArgs, alike.canonicalLiteralArguments heldArgs]
            refine congrArg _ (funext fun originKey => ?_)
            rcases alike.get heldOrigin with eq | ⟨o, o', ho, ho', c, c'⟩
            · rw [eq]
              cases h.get origin with
              | error => rfl
              | ok o =>
                cases o
                case typingForm form kind =>
                  cases kind with
                  | literal => rfl
                  | callable => exact alike.callableKey ih heldArgs
                all_goals rfl
            · rw [ho, ho']
              cases o <;> cases c <;> cases o' <;> cases c' <;> rfl
          all_goals rfl
      · rw [ho, ho']
        cases o <;> cases c <;> cases o' <;> cases c' <;> rfl
    all_goals rfl

/-! ### Special methods -/

theorem classOf (alike : h.Alike t held) (hv : held v) : t.classOf v = h.classOf v := by
  unfold Heap.classOf
  rcases alike.get hv with eq | ⟨o, o', ho, ho', c, c'⟩
  · rw [eq]
  · rw [ho, ho']
    cases o <;> cases c <;> cases o' <;> cases c' <;> rfl

theorem firstAttribute (alike : h.Alike t held) {name : String} {classes : List Value}
    (hv : ∀ cls ∈ classes, held cls) :
    t.firstAttribute name classes = h.firstAttribute name classes := by
  induction classes with
  | nil => rfl
  | cons cls classes ih =>
    unfold Heap.firstAttribute
    rw [alike.classOf (hv cls List.mem_cons_self), ih fun c hc => hv c (List.mem_cons_of_mem _ hc)]

theorem held_lineage (alike : h.Alike t held) {owner : Value} (ho : held owner) {c : Class}
    (hc : h.classOf owner = .ok c) : ∀ cls ∈ owner :: c.mro, held cls := by
  intro cls mem
  rcases List.mem_cons.mp mem with rfl | mem
  · exact ho
  · exact alike.closed ho (classOf_eq_ok hc) (by simp [Object.trace, Class.trace, mem])

theorem classLookup (alike : h.Alike t held) {owner : Value} {name : String} (ho : held owner) :
    t.classLookup owner name = h.classLookup owner name := by
  unfold Heap.classLookup
  rw [alike.classOf ho]
  cases hc : h.classOf owner with
  | error => rfl
  | ok c => exact alike.firstAttribute (alike.held_lineage ho hc)

theorem held_firstAttribute (alike : h.Alike t held) {name : String} {classes : List Value}
    (hv : ∀ cls ∈ classes, held cls) {value : Value}
    (found : h.firstAttribute name classes = .ok (some value)) : held value := by
  induction classes with
  | nil => cases found
  | cons cls classes ih =>
    unfold Heap.firstAttribute at found
    obtain ⟨c, hc, found⟩ := bind_ok found
    split at found
    · next value' member =>
      cases found
      obtain ⟨entry, mem, rfl⟩ := Option.map_eq_some_iff.mp member
      refine alike.closed (hv cls List.mem_cons_self) (classOf_eq_ok hc) ?_
      have mem' : entry.2 ∈ c.attributes.map (·.2) :=
        List.mem_map_of_mem (List.mem_of_find?_eq_some mem)
      simp only [Object.trace, Class.trace, List.mem_cons, List.mem_append]
      tauto
    · exact ih (fun c hc => hv c (List.mem_cons_of_mem _ hc)) found

theorem held_classLookup (alike : h.Alike t held) {owner value : Value} {name : String}
    (ho : held owner) (found : h.classLookup owner name = .ok (some value)) : held value := by
  obtain ⟨c, hc, found⟩ := bind_ok found
  exact alike.held_firstAttribute (alike.held_lineage ho hc) found

theorem descriptorCallable (alike : h.Alike t held) {value owner cls : Value} (hv : held value) :
    t.descriptorCallable value owner cls = h.descriptorCallable value owner cls := by
  unfold Heap.descriptorCallable
  rcases alike.same hv with eq | ⟨o, o', ho, ho', c, c'⟩
  · rw [eq]
  · rw [ho, ho']
    cases o <;> cases c <;> cases o' <;> cases c' <;> rfl

theorem held_descriptorCallable (alike : h.Alike t held) {value owner cls : Value}
    (hv : held value) : held (h.descriptorCallable value owner cls).callable := by
  unfold Heap.descriptorCallable
  split
  · next ho => exact alike.closed hv ho (by simp [Object.trace])
  · next ho => exact alike.closed hv ho (by simp [Object.trace])
  all_goals exact hv

/-- The method that an object's class has, and that it is held. -/
theorem lookupCall (alike : h.Alike t held) {owner receiver : Value} {name : String}
    (ho : held owner) :
    (do match ← t.classLookup owner name with
        | none => return none
        | some callable => return some (t.descriptorCallable callable receiver owner)) =
      (do match ← h.classLookup owner name with
          | none => return none
          | some callable => return some (h.descriptorCallable callable receiver owner)) := by
  rw [alike.classLookup ho]
  cases found : h.classLookup owner name with
  | error => rfl
  | ok value =>
    cases value with
    | none => rfl
    | some value =>
      simp only [ok_bind]
      rw [alike.descriptorCallable (alike.held_classLookup ho found)]

theorem mem_trace_class {o : Object} {cls : Value} (hc : o.instanceClass = some cls) :
    cls ∈ o.trace := by
  cases o <;> cases hc <;> simp [Object.trace]

theorem operatorMethodCall (alike : h.Alike t held) {name : String} (hv : held v) :
    t.operatorMethodCall v name = h.operatorMethodCall v name := by
  unfold Heap.operatorMethodCall
  have special : t.specialMethodCall v name = h.specialMethodCall v name := by
    unfold Heap.specialMethodCall
    rcases alike.same hv with eq | ⟨o, o', ho, ho', c, c'⟩
    · rw [eq]
      cases ho : h.tryGet v with
      | none => rfl
      | some o =>
        simp only [Option.bind_some]
        cases hc : o.instanceClass with
        | none => rfl
        | some cls => exact alike.lookupCall (alike.closed hv ho (mem_trace_class hc))
    · rw [ho, ho']
      cases o <;> cases c <;> cases o' <;> cases c' <;> rfl
  have metaclass : t.metaclassMethodCall v name = h.metaclassMethodCall v name := by
    unfold Heap.metaclassMethodCall
    rw [alike.classOf hv]
    cases hc : h.classOf v with
    | error => rfl
    | ok c =>
      have held : held c.metaclass :=
        alike.closed hv (classOf_eq_ok hc) (by simp [Object.trace, Class.trace])
      simp only [ok_bind]
      split
      · rfl
      · exact alike.lookupCall held
  rw [special, metaclass]
  rcases alike.same hv with eq | ⟨o, o', ho, ho', c, c'⟩
  · rw [eq]
  · rw [ho, ho']
    cases o <;> cases c <;> cases o' <;> cases c' <;> rfl

theorem held_lookupCall (alike : h.Alike t held) {owner receiver : Value} {name : String}
    (ho : held owner) {call : DescriptorCall}
    (found : (do match ← h.classLookup owner name with
                 | none => return none
                 | some callable => return some (h.descriptorCallable callable receiver owner)) =
      .ok (some call)) : held call.callable := by
  obtain ⟨value, lookup, found⟩ := bind_ok found
  cases value with
  | none => cases found
  | some value =>
    cases found
    exact alike.held_descriptorCallable (alike.held_classLookup ho lookup)

theorem held_call (alike : h.Alike t held) {name : String} (hv : held v) {call : DescriptorCall}
    (found : h.operatorMethodCall v name = .ok (some call)) : held call.callable := by
  unfold Heap.operatorMethodCall at found
  split at found
  · obtain ⟨c, hc, found⟩ := bind_ok found
    simp only at found
    split at found
    · cases found
    · exact alike.held_lookupCall
        (alike.closed hv (classOf_eq_ok hc) (by simp [Object.trace, Class.trace])) found
  · unfold Heap.specialMethodCall at found
    split at found
    · cases found
    · next cls hc =>
      obtain ⟨o, ho, hc⟩ := Option.bind_eq_some_iff.mp hc
      exact alike.held_lookupCall (alike.closed hv ho (mem_trace_class hc)) found

/-! ### Plain values -/

theorem nativelyBacked (alike : h.Alike t held) (hv : held v) :
    t.nativelyBacked v = h.nativelyBacked v := by
  unfold Heap.nativelyBacked
  rw [alike.number hv]
  rcases alike.content hv with eq | ⟨o, o', ho, ho', c, c'⟩
  · rw [eq]
  · rw [ho, ho']
    cases o <;> cases c <;> cases o' <;> cases c' <;> rfl

theorem hashesNatively (alike : h.Alike t held) (hv : held v) :
    t.hashesNatively v = h.hashesNatively v := by
  unfold Heap.hashesNatively
  rw [alike.number hv, alike.operatorMethodCall hv]
  cases found : h.operatorMethodCall v "__hash__" with
  | error => rfl
  | ok call =>
    cases call with
    | none => rfl
    | some call =>
      rcases alike.same (alike.held_call hv found) with eq | ⟨o, o', ho, ho', c, c'⟩
      · simp only [eq]
      · simp only [ho, ho']
        cases o <;> cases c <;> cases o' <;> cases c' <;> rfl

theorem distinctKeys (alike : h.Alike t held) (hv : ∀ w ∈ values, held w) :
    t.distinctKeys n values = h.distinctKeys n values := by
  unfold Heap.distinctKeys
  rw [mapM fun w hw => alike.dictKeyAt (hv w hw)]

theorem all {p q : Value → Bool} (same : ∀ w ∈ values, p w = q w) : values.all p = values.all q := by
  induction values with
  | nil => rfl
  | cons w values ih =>
    rw [List.all_cons, List.all_cons, same w List.mem_cons_self,
      ih fun w hw => same w (List.mem_cons_of_mem _ hw)]

theorem plainParameters (alike : h.Alike t held) {first : Value}
    (inner : ∀ w, held w → t.plainAt true n w = h.plainAt true n w) (hf : held first) :
    t.plainParameters (t.plainAt true n) first = h.plainParameters (h.plainAt true n) first := by
  unfold Heap.plainParameters
  rcases alike.same hf with eq | ⟨o, o', ho, ho', c, c'⟩
  · rw [eq]
    cases found : h.tryGet first with
    | none => rfl
    | some o =>
      have traced := fun w => alike.closed (w := w) hf found
      cases o
      case list values =>
        simp only
        rw [all fun w hw => inner w (traced w (by simpa [Object.trace] using hw))]
      all_goals rfl
  · rw [ho, ho']
    cases o <;> cases c <;> cases o' <;> cases c' <;> rfl

theorem plainAlias (alike : h.Alike t held) {origin args : Value}
    (inner : ∀ w, held w → t.plainAt true n w = h.plainAt true n w) (ho : held origin)
    (ha : held args) :
    t.plainAlias (t.plainAt true n) origin args = h.plainAlias (h.plainAt true n) origin args := by
  unfold Heap.plainAlias
  rw [alike.canonicalLiteralArguments ha, inner args ha]
  rcases alike.same ho with eq | ⟨o, o', ho, ho', c, c'⟩
  rotate_left
  · rw [ho, ho']
    cases o <;> cases c <;> cases o' <;> cases c' <;> rfl
  rw [eq]
  cases h.tryGet origin with
  | none => rfl
  | some o =>
    rcases alike.same ha with eq | ⟨p, p', hp, hp', c, c'⟩
    rotate_left
    · rw [hp, hp']
      cases o
      case typingForm form kind =>
        cases kind <;> cases p <;> cases c <;> cases p' <;> cases c' <;> rfl
      case classObject => cases p <;> cases c <;> cases p' <;> cases c' <;> rfl
      all_goals rfl
    rw [eq]
    cases o
    case typingForm form kind =>
      cases kind with
      | literal => rfl
      | callable =>
        cases found : h.tryGet args with
        | none => rfl
        | some p =>
          have traced := fun w => alike.closed (w := w) ha found
          cases p
          case tuple values =>
            rcases values with _ | ⟨first, _ | ⟨result, _ | _⟩⟩
            case cons.cons.nil =>
              simp only
              rw [inner result (traced result (by simp [Object.trace])),
                alike.plainParameters inner (traced first (by simp [Object.trace]))]
            all_goals rfl
          all_goals rfl
    all_goals rfl

theorem plainAt (alike : h.Alike t held) (hv : held v) :
    t.plainAt structural n v = h.plainAt structural n v := by
  induction n generalizing v structural with
  | zero => rfl
  | succ n ih =>
    have inside {s : Bool} {values : List Value} (hw : ∀ w ∈ values, held w) :
        values.all (t.plainAt s n) = values.all (h.plainAt s n) := all fun w mem => ih (hw w mem)
    unfold Heap.plainAt
    simp only
    rw [alike.nativeValue hv, alike.nativeValue (alike.held_native hv), alike.nativelyBacked hv,
      alike.hashesNatively hv]
    rcases alike.content hv with eq | ⟨o, o', ho, ho', c, c'⟩
    · rw [eq]
      congr 1
      cases hc : h.content v with
      | none => rfl
      | some o =>
        have traced := fun w => alike.held_content (w := w) hv hc
        cases o
        case tuple values => exact inside fun w hw => traced w (by simpa [Object.trace] using hw)
        case slice start stop step =>
          simp only
          rw [inside fun w hw => traced w (by simpa [Object.trace] using hw)]
        case boundMethod callee receiver =>
          simp only
          rw [ih (traced callee (by simp [Object.trace])),
            ih (traced receiver (by simp [Object.trace]))]
        case unionType cls members =>
          have members' := fun w (hw : w ∈ members) => traced w (by simp [Object.trace, hw])
          simp only
          rw [inside members', alike.distinctKeys members']
        case genericAlias cls origin args =>
          have heldOrigin := traced origin (by simp [Object.trace])
          have heldArgs := traced args (by simp [Object.trace])
          exact alike.plainAlias (fun w hw => ih hw) heldOrigin heldArgs
        all_goals rfl
    · rw [ho, ho']
      cases o <;> cases c <;> cases o' <;> cases c' <;> rfl

theorem builtinHash (alike : h.Alike t held) (hv : held v) : t.builtinHash v = h.builtinHash v := by
  have kind (b : Builtin) : (t.nativeHashAccepts v b).isSome = (h.nativeHashAccepts v b).isSome := by
    unfold Heap.nativeHashAccepts
    split <;> rfl
  unfold Heap.builtinHash
  rw [alike.operatorMethodCall hv]
  cases found : h.operatorMethodCall v "__hash__" with
  | error => rfl
  | ok call =>
    cases call with
    | none => rfl
    | some call =>
      simp only [kind]
      rcases alike.same (alike.held_call hv found) with eq | ⟨o, o', ho, ho', c, c'⟩
      · rw [eq]
      · rw [ho, ho']
        cases o <;> cases c <;> cases o' <;> cases c' <;> rfl

theorem quietAt (alike : h.Alike t held) (hv : held v) : t.quietAt n v = h.quietAt n v := by
  induction n generalizing v with
  | zero => rfl
  | succ n ih =>
    have inside {values : List Value} (hw : ∀ w ∈ values, held w) :
        values.all (t.quietAt n) = values.all (h.quietAt n) := all fun w mem => ih (hw w mem)
    unfold Heap.quietAt
    rw [alike.plainAt hv, alike.operatorMethodCall hv, alike.builtinHash hv]
    rcases alike.content hv with eq | ⟨o, o', ho, ho', c, c'⟩
    · rw [eq]
      congr 1
      cases hc : h.content v with
      | none => rfl
      | some o =>
        have traced := fun w => alike.held_content (w := w) hv hc
        cases o
        case tuple values => exact inside fun w hw => traced w (by simpa [Object.trace] using hw)
        case slice start stop step =>
          exact inside fun w hw => traced w (by simpa [Object.trace] using hw)
        case boundMethod callee receiver =>
          simp only
          rw [ih (traced callee (by simp [Object.trace])),
            ih (traced receiver (by simp [Object.trace]))]
        all_goals rfl
    · rw [ho, ho']
      cases o <;> cases c <;> cases o' <;> cases c' <;> rfl

theorem native (alike : h.Alike t held) (hv : held v) : t.Native v ↔ h.Native v := by
  unfold Native
  simp only [alike.quietAt hv]

end Alike

end Alike

end Heap

end Tonic
