import Tonic.FloatKeys
import Tonic.KeyOrder
import Tonic.Library.Outcome
import Tonic.Remembered

/-!
## What a key is made of

A key is read back to the values it was made from: each variant comes from one kind of object.
-/

namespace Tonic

open Outcome

/-- The kinds of objects that are keys by their identity. -/
def Object.keyedByIdentity : Object → Bool
  | function _ | builtin _ | native _ | typingForm _ _ | classObject _ | instanceObject _ _ _
  | exception _ | staticMethod _ | classMethod _ | property _ _ _ | propertySetter _ => true
  | _ => false

def Object.number : Object → Option Number
  | int n => some (.int n)
  | float x => some (.float x)
  | _ => none

theorem fitsI64_small (n : SmallInt) : fitsI64 n.val = true := by
  have := n.lower
  have := n.upper
  simp only [minInt, maxInt] at *
  simp only [fitsI64, Bool.and_eq_true, decide_eq_true_eq]
  omega

def Key.isNumber : Key → Bool
  | smallInt _ | int _ | float _ | nan _ => true
  | _ => false

theorem integerKey_isNumber (n : Int) : (integerKey n).isNumber = true := by
  rcases integerKey_cases n with eq | eq <;> rw [eq] <;> rfl

theorem Number.key_isNumber (p : Number) (identity : Value) :
    (p.key identity).isNumber = true := by
  cases p with
  | int m => exact integerKey_isNumber m
  | float x =>
    rw [key]
    cases nan : x.isNaN with
    | true => rw [floatKey_nan nan]; rfl
    | false =>
      cases integral : x.integral? with
      | none => rw [floatKey_bits nan integral]; rfl
      | some m => rw [floatKey_integral integral]; exact integerKey_isNumber m

namespace Heap

variable {h : Heap} {n m : Nat} {v w : Value} {j k : Key} {o : Object}

/-- The object behind a value, where it has one. -/
def content (h : Heap) (v : Value) : Option Object := h.tryGet (h.nativeValue v)

/-- The parameters of a callable form: the ellipsis stands for any. -/
def parameterKeys (h : Heap) (n : Nat) (first : Value) : Option (List Key) → Prop
  | none => first = .ellipsis
  | some keys => first ≠ .ellipsis ∧ ∃ values,
      (h.tryGet first = some (.list values) ∨ h.tryGet first = some (.tuple values)) ∧
      values.mapM (h.dictKeyAt n) = .ok keys

/-- The values that a key of the given nesting was made from. -/
def MadeFrom (h : Heap) (n : Nat) (v : Value) : Key → Prop
  | .none => h.nativeValue v = .none
  | .notImplemented => h.nativeValue v = .notImplemented
  | .ellipsis => h.nativeValue v = .ellipsis
  | .smallInt m => ∃ p, h.number v = some p ∧ p.key v = .smallInt m
  | .int m => ∃ p, h.number v = some p ∧ p.key v = .int m
  | .float bits => ∃ p, h.number v = some p ∧ p.key v = .float bits
  | .nan raw => ∃ p, h.number v = some p ∧ p.key v = .nan raw
  | .str text => h.content v = some (.str text)
  | .bytes value => h.content v = some (.bytes value)
  | .tuple keys => ∃ values, h.content v = some (.tuple values) ∧
      values.mapM (h.dictKeyAt n) = .ok keys
  | .slice keys => ∃ start stop step, h.content v = some (.slice start stop step) ∧
      [start, stop, step].mapM (h.dictKeyAt n) = .ok keys
  | .range length first stride => ∃ start stop step, h.content v = some (.range start stop step) ∧
      length = rangeLength start stop step ∧ first = (if length ≠ 0 then some start else none) ∧
      stride = if 1 < length then some step else none
  | .identity raw => ∃ o, h.content v = some o ∧ o.keyedByIdentity = true ∧
      raw = (h.nativeValue v).raw
  | .method f x => ∃ callee receiver, h.content v = some (.boundMethod callee receiver) ∧
      h.dictKeyAt n callee = .ok f ∧ h.dictKeyAt n receiver = .ok x
  | .genericAlias origin args => ∃ cls from' given,
      h.content v = some (.genericAlias cls from' given) ∧ h.dictKeyAt n from' = .ok origin ∧
      h.dictKeyAt n given = .ok args ∧ (∀ c, h.tryGet from' ≠ some (.typingForm c .callable)) ∧
      ∀ c, h.tryGet from' = some (.typingForm c .literal) →
        ∃ why, h.canonicalLiteralArguments given = .error why
  | .literalAlias origin items => ∃ cls from' given,
      h.content v = some (.genericAlias cls from' given) ∧ h.dictKeyAt n from' = .ok origin ∧
      (∃ c, h.tryGet from' = some (.typingForm c .literal)) ∧
      h.canonicalLiteralArguments given = .ok items
  | .callableAlias origin parameters result => ∃ cls from' given first last,
      h.content v = some (.genericAlias cls from' given) ∧ h.dictKeyAt n from' = .ok origin ∧
      (∃ c, h.tryGet from' = some (.typingForm c .callable)) ∧
      h.tryGet given = some (.tuple [first, last]) ∧ h.parameterKeys n first parameters ∧
      h.dictKeyAt n last = .ok result
  | .union keys => ∃ cls members keys', h.content v = some (.unionType cls members) ∧
      members.mapM (h.dictKeyAt n) = .ok keys' ∧
      keys = keys'.mergeSort fun a b => a.compare b != .gt

theorem number_of_made (made : h.MadeFrom n v k) (number : k.isNumber = true) :
    ∃ p, h.number v = some p ∧ p.key v = k := by
  cases k <;> first | exact made | cases number

/-- The key of a number is made from that number. -/
theorem madeFrom_number {p : Number} (hp : h.number v = some p) : h.MadeFrom n v (p.key v) := by
  have made {k : Key} (eq : p.key v = k) : ∃ p, h.number v = some p ∧ p.key v = k := ⟨p, hp, eq⟩
  have number := p.key_isNumber v
  cases eq : p.key v with
  | smallInt | int | float | nan => exact made eq
  | _ => rw [eq] at number; cases number

theorem dictKeyAt_made (hk : h.dictKeyAt (n + 1) v = .ok k) : h.MadeFrom n v k := by
  unfold dictKeyAt at hk
  simp only at hk
  split at hk
  · cases hk; assumption
  · cases hk; assumption
  · cases hk; assumption
  · next m native =>
    have fits := fitsI64_small m
    cases hk
    have number : h.number v = some (.int m.val) := by simp [number, native, Value.integer]
    have made := madeFrom_number (n := n) number
    rwa [Number.key, integerKey, if_pos fits] at made
  · next b native =>
    cases hk
    have number : h.number v = some (.int b.toInt) := by simp [number, native, Value.integer]
    have made := madeFrom_number (n := n) number
    rwa [Number.key, integerKey, if_pos (by cases b <;> rfl)] at made
  · next native =>
    obtain ⟨o, ho, hk⟩ := bind_ok hk
    have content : h.content v = some o := get_eq_ok ho
    have heap : (h.nativeValue v).integer = none := by
      cases imm : (h.nativeValue v).integer with
      | none => rfl
      | some m =>
        rw [Heap.content, tryGet_of_integer imm] at content
        cases content
    cases o
    all_goals simp only at hk
    case int m =>
      have number : h.number v = some (.int m) := by
        rw [Heap.content] at content
        simp [number, heap, content]
      cases hk
      exact madeFrom_number number
    case float x =>
      have number : h.number v = some (.float x) := by
        rw [Heap.content] at content
        simp [number, heap, content]
      cases hk
      exact madeFrom_number number
    case str | bytes => cases hk; exact content
    case function | builtin | native | typingForm | classObject | instanceObject | exception
        | staticMethod | classMethod | property | propertySetter =>
      cases hk
      exact ⟨_, content, rfl, rfl⟩
    case tuple values =>
      obtain ⟨keys, run, hk⟩ := bind_ok hk
      cases hk
      exact ⟨values, content, run⟩
    case slice start stop step =>
      obtain ⟨keys, run, hk⟩ := bind_ok hk
      cases hk
      exact ⟨start, stop, step, content, run⟩
    case range start stop step =>
      cases hk
      exact ⟨start, stop, step, content, rfl, rfl, rfl⟩
    case boundMethod callee receiver =>
      obtain ⟨f, hf, hk⟩ := bind_ok hk
      obtain ⟨x, hx, hk⟩ := bind_ok hk
      cases hk
      exact ⟨callee, receiver, content, hf, hx⟩
    case unionType cls members =>
      obtain ⟨keys, run, hk⟩ := bind_ok hk
      cases hk
      exact ⟨cls, members, keys, content, run, rfl⟩
    case genericAlias cls origin args =>
      obtain ⟨originKey, hOrigin, hk⟩ := bind_ok hk
      split at hk
      · next c form =>
        split at hk
        · next items canonical =>
          cases hk
          exact ⟨cls, origin, args, content, hOrigin, ⟨c, get_eq_ok form⟩, canonical⟩
        · next why canonical =>
          obtain ⟨argsKey, hArgs, hk⟩ := bind_ok hk
          cases hk
          refine ⟨cls, origin, args, content, hOrigin, hArgs, fun c other => ?_,
            fun _ _ => ⟨why, canonical⟩⟩
          rw [get_eq_ok form] at other
          cases other
      · next c form =>
        obtain ⟨given, hGiven, hk⟩ := bind_ok hk
        split at hk
        rotate_left
        · cases hk
        next first last =>
        have made (parameters : Option (List Key)) (named : h.parameterKeys n first parameters)
            (hk : (do let result ← h.dictKeyAt n last
                      pure (Key.callableAlias originKey parameters result)) = .ok k) :
            h.MadeFrom n v k := by
          obtain ⟨result, hResult, hk⟩ := bind_ok hk
          cases hk
          exact ⟨cls, origin, args, first, last, content, hOrigin, ⟨c, get_eq_ok form⟩,
            get_eq_ok hGiven, named, hResult⟩
        split at hk
        · next eq => exact made none eq hk
        · next ne =>
          obtain ⟨o, ho, hk⟩ := bind_ok hk
          split at hk
          · next values =>
            obtain ⟨parameters, hParameters, hk⟩ := bind_ok hk
            obtain ⟨keys, run, rfl⟩ := map_ok hParameters
            exact made (some keys) ⟨ne, values, .inl (get_eq_ok ho), run⟩ hk
          · next values =>
            obtain ⟨parameters, hParameters, hk⟩ := bind_ok hk
            obtain ⟨keys, run, rfl⟩ := map_ok hParameters
            exact made (some keys) ⟨ne, values, .inr (get_eq_ok ho), run⟩ hk
          · obtain ⟨_, fails, _⟩ := bind_ok hk
            cases fails
      · next other other' =>
        obtain ⟨argsKey, hArgs, hk⟩ := bind_ok hk
        cases hk
        refine ⟨cls, origin, args, content, hOrigin, hArgs, fun c form => ?_, fun c form => ?_⟩
        · exact other' c (by simp [get, form])
        · exact absurd (by simp [get, form]) (other c)
    all_goals cases hk

/-! ### The key of an object -/

theorem content_heap (hc : h.content v = some o) : ∃ i g, h.nativeValue v = .heap i g := by
  unfold content at hc
  cases native : h.nativeValue v with
  | heap i g => exact ⟨i, g, rfl⟩
  | _ => rw [native] at hc; cases hc

theorem number_of_content (hc : h.content v = some o) : h.number v = o.number := by
  obtain ⟨i, g, native⟩ := content_heap hc
  unfold content at hc
  rw [number, native, show Value.integer (.heap i g) = none from rfl, ← native, hc]
  cases o <;> rfl

theorem key_number {p : Number} (hp : h.number v = some p) :
    h.dictKeyAt (n + 1) v = .ok (p.key v) := by
  unfold number at hp
  split at hp
  · next m imm =>
    cases hp
    cases native : h.nativeValue v <;> rw [native] at imm <;> cases imm
    case refl.bool.refl b => cases b <;> simp [dictKeyAt, native, Number.key, integerKey] <;> rfl
    case refl.small.refl m =>
      have fits := fitsI64_small m
      simp [dictKeyAt, native, Number.key, integerKey, fits]
      rfl
  · split at hp <;> cases hp
    · next hc =>
      obtain ⟨i, g, native⟩ := content_heap hc
      rw [native] at hc
      simp [dictKeyAt, native, get, hc]
      rfl
    · next hc =>
      obtain ⟨i, g, native⟩ := content_heap hc
      rw [native] at hc
      simp [dictKeyAt, native, get, hc]
      rfl

theorem key_str {text : String} (hc : h.content v = some (.str text)) :
    h.dictKeyAt (n + 1) v = .ok (.str text) := by
  obtain ⟨i, g, native⟩ := content_heap hc
  rw [content, native] at hc
  simp [dictKeyAt, native, get, hc]
  rfl

theorem key_bytes {value : List UInt8} (hc : h.content v = some (.bytes value)) :
    h.dictKeyAt (n + 1) v = .ok (.bytes value) := by
  obtain ⟨i, g, native⟩ := content_heap hc
  rw [content, native] at hc
  simp [dictKeyAt, native, get, hc]
  rfl

theorem key_tuple {values : List Value} (hc : h.content v = some (.tuple values)) :
    h.dictKeyAt (n + 1) v = .tuple <$> values.mapM (h.dictKeyAt n) := by
  obtain ⟨i, g, native⟩ := content_heap hc
  rw [content, native] at hc
  simp [dictKeyAt, native, get, hc]
  rfl

theorem key_slice {start stop step : Value} (hc : h.content v = some (.slice start stop step)) :
    h.dictKeyAt (n + 1) v = .slice <$> [start, stop, step].mapM (h.dictKeyAt n) := by
  obtain ⟨i, g, native⟩ := content_heap hc
  rw [content, native] at hc
  simp [dictKeyAt, native, get, hc]
  rfl

theorem key_range {start stop step : Int} (hc : h.content v = some (.range start stop step)) :
    h.dictKeyAt (n + 1) v = .ok (.range (rangeLength start stop step)
      (if rangeLength start stop step ≠ 0 then some start else none)
      (if 1 < rangeLength start stop step then some step else none)) := by
  obtain ⟨i, g, native⟩ := content_heap hc
  rw [content, native] at hc
  simp [dictKeyAt, native, get, hc]
  rfl

theorem key_boundMethod {callee receiver : Value}
    (hc : h.content v = some (.boundMethod callee receiver)) :
    h.dictKeyAt (n + 1) v = (do
      return .method (← h.dictKeyAt n callee) (← h.dictKeyAt n receiver)) := by
  obtain ⟨i, g, native⟩ := content_heap hc
  rw [content, native] at hc
  simp [dictKeyAt, native, get, hc]
  rfl

theorem key_union {cls : Value} {members : List Value}
    (hc : h.content v = some (.unionType cls members)) :
    h.dictKeyAt (n + 1) v = (do
      return .union ((← members.mapM (h.dictKeyAt n)).mergeSort fun a b => a.compare b != .gt)) := by
  obtain ⟨i, g, native⟩ := content_heap hc
  rw [content, native] at hc
  simp [dictKeyAt, native, get, hc]
  rfl

/-- The containers that are compared by content and can change are no keys. -/
theorem key_mutable (hc : h.content v = some o)
    (mutable : (∃ values, o = .list values) ∨ (∃ d, o = .dict d) ∨ ∃ d, o = .set d) :
    h.dictKeyAt (n + 1) v = .error (typeError "unhashable dictionary key") := by
  obtain ⟨i, g, native⟩ := content_heap hc
  rw [content, native] at hc
  rcases mutable with ⟨_, rfl⟩ | ⟨_, rfl⟩ | ⟨_, rfl⟩ <;> simp [dictKeyAt, native, get, hc] <;> rfl

theorem get_ok (ho : h.tryGet v = some o) : h.get v = .ok o := by simp [get, ho]

theorem key_alias {cls origin args : Value} (hc : h.content v = some (.genericAlias cls origin args)) :
    h.dictKeyAt (n + 1) v = (do
      let originKey ← h.dictKeyAt n origin
      match h.get origin with
      | .ok (.typingForm _ .literal) =>
        match h.canonicalLiteralArguments args with
        | .ok items => return .literalAlias originKey items
        | .error _ => return .genericAlias originKey (← h.dictKeyAt n args)
      | .ok (.typingForm _ .callable) =>
        let .tuple [first, result] ← h.get args
          | throw (typeError "invalid Callable arguments")
        let parameters ←
          if first = .ellipsis then pure none
          else match ← h.get first with
            | .list values | .tuple values => some <$> values.mapM (h.dictKeyAt n)
            | _ => throw (typeError "invalid Callable parameters")
        return .callableAlias originKey parameters (← h.dictKeyAt n result)
      | _ => return .genericAlias originKey (← h.dictKeyAt n args)) := by
  obtain ⟨i, g, native⟩ := content_heap hc
  rw [content, native] at hc
  simp only [dictKeyAt, native, get_ok hc]
  rfl

/-- A key is the key of exactly the values it can be made from. -/
theorem dictKeyAt_iff : h.dictKeyAt (n + 1) v = .ok k ↔ h.MadeFrom n v k := by
  refine ⟨dictKeyAt_made, fun made => ?_⟩
  cases k
  case none | notImplemented | ellipsis =>
    simp only [MadeFrom] at made
    simp [dictKeyAt, made]
    rfl
  case smallInt | int | float | nan =>
    obtain ⟨p, hp, key⟩ := made
    rw [key_number hp, key]
  case str => exact key_str made
  case bytes => exact key_bytes made
  case tuple =>
    obtain ⟨values, hc, run⟩ := made
    rw [key_tuple hc, run]
    rfl
  case slice =>
    obtain ⟨start, stop, step, hc, run⟩ := made
    rw [key_slice hc, run]
    rfl
  case range =>
    obtain ⟨start, stop, step, hc, rfl, rfl, rfl⟩ := made
    exact key_range hc
  case method =>
    obtain ⟨callee, receiver, hc, hf, hx⟩ := made
    rw [key_boundMethod hc, hf, hx]
    rfl
  case union =>
    obtain ⟨cls, members, keys, hc, run, rfl⟩ := made
    rw [key_union hc, run]
    rfl
  case identity =>
    obtain ⟨o, hc, kind, rfl⟩ := made
    obtain ⟨i, g, native⟩ := content_heap hc
    rw [content, native] at hc
    cases o <;> cases kind <;> simp [dictKeyAt, native, get, hc] <;> rfl
  case genericAlias =>
    obtain ⟨cls, origin, args, hc, hx, hy, notCallable, notLiteral⟩ := made
    rw [key_alias hc, hx]
    simp only [ok_bind, hy]
    split
    · next c form =>
      obtain ⟨why, canonical⟩ := notLiteral c (get_eq_ok form)
      rw [canonical]
      rfl
    · next c form => exact absurd (get_eq_ok form) (notCallable c)
    · rfl
  case literalAlias =>
    obtain ⟨cls, origin, args, hc, hx, ⟨c, form⟩, canonical⟩ := made
    rw [key_alias hc, hx]
    simp only [ok_bind, get_ok form, canonical]
    rfl
  case callableAlias _ parameters _ =>
    obtain ⟨cls, origin, args, first, last, hc, hx, ⟨c, form⟩, pair, named, hr⟩ := made
    rw [key_alias hc, hx]
    simp only [ok_bind, get_ok form, get_ok pair, hr]
    cases parameters with
    | none =>
      rw [if_pos (show first = .ellipsis from named)]
      rfl
    | some keys =>
      obtain ⟨apart, values, values', run⟩ := named
      rw [if_neg apart]
      rcases values' with ho | ho <;> simp only [get_ok ho, ok_bind, run] <;> rfl

/-- An alias has one of three keys. -/
theorem made_alias {cls origin args : Value} (made : h.MadeFrom n v k)
    (hc : h.content v = some (.genericAlias cls origin args)) :
    (∃ x y, k = .genericAlias x y ∧ h.dictKeyAt n origin = .ok x ∧ h.dictKeyAt n args = .ok y ∧
      (∀ c, h.tryGet origin ≠ some (.typingForm c .callable)) ∧
      ∀ c, h.tryGet origin = some (.typingForm c .literal) →
        ∃ why, h.canonicalLiteralArguments args = .error why) ∨
    (∃ x items, k = .literalAlias x items ∧ h.dictKeyAt n origin = .ok x ∧
      (∃ c, h.tryGet origin = some (.typingForm c .literal)) ∧
      h.canonicalLiteralArguments args = .ok items) ∨
    ∃ x parameters result first last, k = .callableAlias x parameters result ∧
      h.dictKeyAt n origin = .ok x ∧ (∃ c, h.tryGet origin = some (.typingForm c .callable)) ∧
      h.tryGet args = some (.tuple [first, last]) ∧ h.parameterKeys n first parameters ∧
      h.dictKeyAt n last = .ok result := by
  have none := number_of_content hc
  cases k
  case genericAlias x y =>
    obtain ⟨_, _, _, hc', hx, hy, literal⟩ := made
    rw [hc] at hc'
    cases hc'
    exact .inl ⟨x, y, rfl, hx, hy, literal⟩
  case literalAlias x items =>
    obtain ⟨_, _, _, hc', hx, form, canonical⟩ := made
    rw [hc] at hc'
    cases hc'
    exact .inr (.inl ⟨x, items, rfl, hx, form, canonical⟩)
  case callableAlias x parameters result =>
    obtain ⟨_, _, _, first, last, hc', hx, form, given, named, hr⟩ := made
    rw [hc] at hc'
    cases hc'
    exact .inr (.inr ⟨x, parameters, result, first, last, rfl, hx, form, given, named, hr⟩)
  case identity raw =>
    obtain ⟨o, hc', kind, -⟩ := made
    rw [hc] at hc'
    cases hc'
    cases kind
  case none | notImplemented | ellipsis =>
    obtain ⟨i, g, native⟩ := content_heap hc
    rw [MadeFrom, native] at made
    cases made
  all_goals simp [MadeFrom, hc, none, Object.number] at made

/-! ### More nesting -/

theorem mapM_mono {values : List Value} {keys : List Key}
    (grow : ∀ v k, h.dictKeyAt n v = .ok k → h.dictKeyAt m v = .ok k)
    (run : values.mapM (h.dictKeyAt n) = .ok keys) : values.mapM (h.dictKeyAt m) = .ok keys := by
  induction values generalizing keys with
  | nil => exact run
  | cons v values ih =>
    obtain ⟨k, ks, rfl, hk, hks⟩ := mapM_cons_ok run
    rw [List.mapM_cons, grow v k hk, ih hks]
    rfl

theorem MadeFrom.mono (grow : ∀ v k, h.dictKeyAt n v = .ok k → h.dictKeyAt m v = .ok k)
    (made : h.MadeFrom n v k) : h.MadeFrom m v k := by
  cases k
  case none | notImplemented | ellipsis | smallInt | int | float | nan | str | bytes | range
      | identity => exact made
  case tuple =>
    obtain ⟨values, hc, run⟩ := made
    exact ⟨values, hc, mapM_mono grow run⟩
  case slice =>
    obtain ⟨start, stop, step, hc, run⟩ := made
    exact ⟨start, stop, step, hc, mapM_mono grow run⟩
  case method =>
    obtain ⟨callee, receiver, hc, hf, hx⟩ := made
    exact ⟨callee, receiver, hc, grow _ _ hf, grow _ _ hx⟩
  case genericAlias =>
    obtain ⟨cls, origin, args, hc, hx, hy, forms⟩ := made
    exact ⟨cls, origin, args, hc, grow _ _ hx, grow _ _ hy, forms⟩
  case literalAlias =>
    obtain ⟨cls, origin, args, hc, hx, forms⟩ := made
    exact ⟨cls, origin, args, hc, grow _ _ hx, forms⟩
  case callableAlias _ parameters _ =>
    obtain ⟨cls, origin, args, first, last, hc, hx, form, pair, named, hr⟩ := made
    refine ⟨cls, origin, args, first, last, hc, grow _ _ hx, form, pair, ?_, grow _ _ hr⟩
    cases parameters with
    | none => exact named
    | some keys =>
      obtain ⟨apart, values, ho, run⟩ := named
      exact ⟨apart, values, ho, mapM_mono grow run⟩
  case union =>
    obtain ⟨cls, members, keys, hc, run, eq⟩ := made
    exact ⟨cls, members, keys, hc, mapM_mono grow run, eq⟩

theorem dictKeyAt_mono (le : n ≤ m) (hk : h.dictKeyAt n v = .ok k) : h.dictKeyAt m v = .ok k := by
  induction n generalizing m v k with
  | zero =>
    rw [dictKeyAt_zero] at hk
    cases hk
  | succ n ih =>
    cases m with
    | zero => omega
    | succ m => exact dictKeyAt_iff.mpr ((dictKeyAt_iff.mp hk).mono fun _ _ => ih (by omega))

/-- The nesting that is allowed decides whether there is a key, not which. -/
theorem dictKeyAt_unique (hj : h.dictKeyAt n v = .ok j) (hk : h.dictKeyAt m v = .ok k) : j = k := by
  rcases Nat.le_total n m with le | le
  · rw [dictKeyAt_mono le hj] at hk
    exact Except.ok.inj hk
  · rw [dictKeyAt_mono le hk] at hj
    exact (Except.ok.inj hj).symm

end Heap

end Tonic
