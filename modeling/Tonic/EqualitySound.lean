import Tonic.KeySound

/-!
## Equal values have equal keys

Over values as the interpreter builds them, the equality of the heap and that of the protocols
identify what the key material identifies, and the hash of the protocol is the hash of the key.
-/

namespace Tonic

open Outcome

namespace Object

/-- The kinds that an instance of a builtin subclass can have as its storage. -/
def isStorage : Object → Bool
  | int _ | float _ | str _ | bytes _ | tuple _ | range _ _ _ => true
  | _ => false

/-- The kinds whose hash is that of their key, also for the protocol. -/
def keyedByStructure : Object → Bool
  | genericAlias _ _ _ | unionType _ _ => true
  | _ => false

/-- The kinds that the protocol leaves to the comparison of the heap. -/
def comparedByHeap : Object → Bool
  | genericAlias _ _ _ | unionType _ _ | range _ _ _ => true
  | _ => false

/-- Two objects of one kind whose keys are made from their content. -/
def comparesWith : Object → Object → Bool
  | str _, str _ | bytes _, bytes _ | tuple _, tuple _ | range _ _ _, range _ _ _
  | slice _ _ _, slice _ _ _ | boundMethod _ _, boundMethod _ _
  | genericAlias _ _ _, genericAlias _ _ _ | unionType _ _, unionType _ _ => true
  | _, _ => false

end Object

namespace Heap

variable {h : Heap} {n m room : Nat} {a b v w : Value} {j k : Key} {o : Object} {e : Bool}

/-! ### Which values are meant -/

/-- What an instance of a builtin subclass may hold: an integer, or one of the storage kinds. -/
def nativelyBacked (h : Heap) (v : Value) : Bool :=
  (h.number v).isSome || (h.content v).any (·.isStorage)

/-- The class of an instance with native storage leaves the hash to the storage, which is no NaN. -/
def hashesNatively (h : Heap) (v : Value) : Bool :=
  (match h.number v with
    | some (.float x) => !x.isNaN
    | _ => true) &&
  match h.operatorMethodCall v "__hash__" with
  | .ok (some call) => !(h.tryGet call.callable matches some (.builtin .objectHash))
  | _ => true

def distinctKeys (h : Heap) (n : Nat) (values : List Value) : Bool :=
  match values.mapM (h.dictKeyAt n) with
  | .ok keys => decide (keys.Pairwise fun a b => a.compare b ≠ .eq)
  | .error _ => false

/-- The parameters of a callable form: any, or a list. -/
def plainParameters (h : Heap) (plain : Value → Bool) (first : Value) : Bool :=
  first == .ellipsis || match h.tryGet first with
    | some (.list values) => values.all plain
    | _ => false

/-- A literal form with literal arguments, a callable form, or a class with a tuple of arguments. -/
def plainAlias (h : Heap) (plain : Value → Bool) (origin args : Value) : Bool :=
  match h.tryGet origin with
  | some (.typingForm _ .literal) => (h.canonicalLiteralArguments args matches .ok _)
  | some (.typingForm _ .callable) =>
    match h.tryGet args with
    | some (.tuple [first, result]) => h.plainParameters plain first && plain result
    | _ => false
  | some (.classObject _) =>
    match h.tryGet args with
    | some (.tuple _) => plain args
    | _ => false
  | _ => false

/-- A value as the interpreter builds it. Inside an alias or a union (`structural`), where only the
heap compares, there is no slice, and the members of a union differ. -/
def plainAt (h : Heap) (structural : Bool) : Nat → Value → Bool
  | 0, _ => false
  | n + 1, v =>
    let native := h.nativeValue v
    h.nativeValue native == native &&
    (v == native || h.nativelyBacked v && (structural || h.hashesNatively v)) &&
    match h.content v with
    | some (.tuple values) => values.all (h.plainAt structural n)
    | some (.slice start stop step) =>
      !structural && [start, stop, step].all (h.plainAt structural n)
    | some (.boundMethod callee receiver) =>
      h.plainAt structural n callee && h.plainAt structural n receiver
    | some (.genericAlias _ origin args) => h.plainAlias (h.plainAt true n) origin args
    | some (.unionType _ members) => members.all (h.plainAt true n) && h.distinctKeys n members
    | some o => o.keyedByIdentity || o.isStorage
    | none => true

/-! ### Handles as words -/

theorem encodable_of_tryGet (hv : h.Valid) (ho : h.tryGet v = some o) : v.Encodable := by
  obtain ⟨e, he, -⟩ := tryGet_eq_some.mp ho
  obtain ⟨l, hl, -⟩ := entry_eq_some.mp he
  obtain ⟨i, s, rfl, hs, -⟩ := location_eq_some.mp hl
  have generation := hv.generations hs
  have below := (List.getElem?_eq_some_iff.mp hs).1
  exact ⟨Nat.lt_of_lt_of_le below hv.capacity, generation⟩

theorem encodable_of_number (hv : h.Valid) {p : Number} (hp : h.number v = some p) :
    v.Encodable := by
  cases ho : h.tryGet v with
  | some o => exact encodable_of_tryGet hv ho
  | none =>
    have native : h.nativeValue v = v := by simp [nativeValue, ho]
    rw [number, native, ho] at hp
    cases v <;> simp [Value.integer] at hp <;> trivial

/-! ### Sequences and members -/

section Lists

variable {ε : Type} {key : Value → Except Fault Key} {equal : Value → Value → Except ε Bool}
  {as bs : List Value} {js ks : List Key}

theorem length_of_mapM (run : as.mapM key = .ok js) : js.length = as.length := by
  induction as generalizing js with
  | nil => cases run; rfl
  | cons a as ih =>
    obtain ⟨k, ks, rfl, -, hks⟩ := mapM_cons_ok run
    rw [List.length_cons, List.length_cons, ih hks]

/-- The comparison of two values decides whether their keys are the same. -/
def Decides (key : Value → Except Fault Key) (equal : Value → Value → Except ε Bool) (a b : Value) :
    Prop :=
  ∀ {j k e}, key a = .ok j → key b = .ok k → equal a b = .ok e → (e = true ↔ j = k)

theorem pairwise_decides (ha : as.mapM key = .ok js) (hb : bs.mapM key = .ok ks)
    (agree : ∀ a ∈ as, ∀ b ∈ bs, Decides key equal a b) (run : pairwise equal as bs = .ok e) :
    e = true ↔ js = ks := by
  unfold pairwise at run
  split at run
  · next lengths =>
    cases run
    refine ⟨(fun eq => by cases eq), fun same => absurd ?_ lengths⟩
    rw [← length_of_mapM ha, ← length_of_mapM hb, same]
  · next lengths =>
    replace lengths : as.length = bs.length := by simpa using lengths
    induction as generalizing bs js ks e with
    | nil =>
      cases bs with
      | cons => cases lengths
      | nil => cases ha; cases hb; cases run; simp
    | cons a as ih =>
      cases bs with
      | nil => cases lengths
      | cons b bs =>
        obtain ⟨j, js, rfl, hj, hjs⟩ := mapM_cons_ok ha
        obtain ⟨k, ks, rfl, hk, hks⟩ := mapM_cons_ok hb
        rw [List.zip_cons_cons, List.foldr_cons] at run
        obtain ⟨first, hfirst, run⟩ := bind_ok run
        have head := agree a List.mem_cons_self b List.mem_cons_self hj hk hfirst
        rw [List.cons.injEq, ← head]
        cases first with
        | false =>
          cases run
          simp
        | true =>
          simp only [true_and]
          exact ih hjs hks (fun a ha b hb => agree a (List.mem_cons_of_mem _ ha) b
            (List.mem_cons_of_mem _ hb)) run (by simpa using lengths)

theorem sameOr_decides (differ : a ≠ b → Decides key equal a b) : Decides key (sameOr equal) a b := by
  intro j k e ha hb run
  unfold sameOr at run
  split at run
  · next same =>
    cases run
    rw [same, hb] at ha
    simp [Except.ok.inj ha]
  · next apart => exact differ apart ha hb run

theorem anyEqual_decides (ha : key a = .ok k) (hb : bs.mapM key = .ok ks)
    (agree : ∀ b ∈ bs, Decides key (sameOr equal) a b) (run : anyEqual equal a bs = .ok e) :
    e = true ↔ k ∈ ks := by
  induction bs generalizing ks e with
  | nil => cases hb; cases run; simp
  | cons b bs ih =>
    obtain ⟨l, ls, rfl, hl, hls⟩ := mapM_cons_ok hb
    unfold anyEqual at run
    obtain ⟨first, hfirst, run⟩ := bind_ok run
    have head := agree b List.mem_cons_self ha hl hfirst
    rw [List.mem_cons, ← head]
    cases first with
    | true => cases run; simp
    | false =>
      simp only [Bool.false_eq_true, false_or]
      exact ih hls (fun b hb => agree b (List.mem_cons_of_mem _ hb)) run

/-- Two unions of the same size agree if every member of the one is found in the other. -/
theorem members_decide (ha : as.mapM key = .ok js) (hb : bs.mapM key = .ok ks)
    (agree : ∀ a ∈ as, ∀ b ∈ bs, Decides key (sameOr equal) a b)
    (run : as.foldr (fun a rest => do if ← anyEqual equal a bs then rest else return false)
      (.ok true) = .ok e) : e = true ↔ ∀ j ∈ js, j ∈ ks := by
  induction as generalizing js e with
  | nil => cases ha; cases run; simp
  | cons a as ih =>
    obtain ⟨j, js, rfl, hj, hjs⟩ := mapM_cons_ok ha
    rw [List.foldr_cons] at run
    obtain ⟨found, hfound, run⟩ := bind_ok run
    have head := anyEqual_decides hj hb (agree a List.mem_cons_self) hfound
    rw [List.forall_mem_cons, ← head]
    cases found with
    | false => cases run; simp
    | true =>
      simp only [true_and]
      exact ih hjs (fun a ha => agree a (List.mem_cons_of_mem _ ha)) run

end Lists

/-! ### The equality of the heap -/

section Structural

variable {structural : Bool}

theorem plain_native (plain : h.plainAt structural (n + 1) v = true) :
    h.nativeValue (h.nativeValue v) = h.nativeValue v := by
  simp only [plainAt, Bool.and_eq_true, beq_iff_eq] at plain
  exact plain.1.1

/-- Only an instance of a builtin subclass has native storage. -/
theorem plain_own (plain : h.plainAt structural (n + 1) v = true)
    (own : h.nativelyBacked v = false) : h.nativeValue v = v := by
  simp only [plainAt, Bool.and_eq_true, own, Bool.false_and, Bool.or_false, beq_iff_eq] at plain
  exact plain.1.2.symm

theorem distinctKeys_mono {values : List Value} (le : n ≤ m)
    (distinct : h.distinctKeys n values = true) : h.distinctKeys m values = true := by
  unfold distinctKeys at *
  split at distinct
  · next keys run => rwa [mapM_mono (fun _ _ => dictKeyAt_mono le) run]
  · cases distinct

theorem plainAt_mono (le : n ≤ m) (plain : h.plainAt structural n v = true) :
    h.plainAt structural m v = true := by
  induction n generalizing m v structural with
  | zero => cases plain
  | succ n ih =>
    cases m with
    | zero => omega
    | succ m =>
      replace le : n ≤ m := by omega
      have grow {s : Bool} {values : List Value} (inside : values.all (h.plainAt s n) = true) :
          values.all (h.plainAt s m) = true :=
        List.all_eq_true.mpr fun w hw => ih le (List.all_eq_true.mp inside w hw)
      unfold plainAt at plain ⊢
      simp only [Bool.and_eq_true] at plain ⊢
      refine ⟨plain.1, ?_⟩
      replace plain := plain.2
      split at plain
      · exact grow plain
      · simp only [Bool.and_eq_true] at plain ⊢
        exact ⟨plain.1, grow plain.2⟩
      · simp only [Bool.and_eq_true] at plain ⊢
        exact ⟨ih le plain.1, ih le plain.2⟩
      · unfold plainAlias at plain ⊢
        split at plain
        · exact plain
        · split at plain
          · simp only [plainParameters, Bool.and_eq_true, Bool.or_eq_true] at plain ⊢
            refine ⟨plain.1.imp id fun inside => ?_, ih le plain.2⟩
            split at inside
            · exact grow inside
            · cases inside
          · cases plain
        · split at plain
          · exact ih le plain
          · cases plain
        · cases plain
      · simp only [Bool.and_eq_true] at plain ⊢
        exact ⟨grow plain.1, distinctKeys_mono le plain.2⟩
      · exact plain
      · rfl

theorem own_of_content (hc : h.content v = some o) (own : o.isStorage = false) :
    h.nativelyBacked v = false := by
  unfold nativelyBacked
  rw [number_of_content hc, hc]
  cases o <;> first | rfl | cases own

theorem own_of_singleton (native : h.nativeValue v = .none ∨ h.nativeValue v = .notImplemented ∨
    h.nativeValue v = .ellipsis) : h.nativelyBacked v = false := by
  unfold nativelyBacked content number
  rcases native with native | native | native <;> rw [native] <;> rfl

/-- Distinct values that both are numbers. -/
theorem number_decides (hv : h.Valid) (apart : a ≠ b) {p q : Number} (hp : h.number a = some p)
    (hq : h.number b = some q) (ha : h.dictKeyAt (n + 1) a = .ok j)
    (hb : h.dictKeyAt (n + 1) b = .ok k) : (p.order q == some .eq) = true ↔ j = k := by
  have words : a.raw ≠ b.raw := fun same =>
    apart (Value.raw_injective (encodable_of_number hv hp) (encodable_of_number hv hq) same)
  rw [key_number hp] at ha
  rw [key_number hq] at hb
  cases ha
  cases hb
  rw [Number.key_eq_key words, beq_iff_eq]

/-- Not an instance of a builtin subclass. -/
def isDirect : Object → Bool
  | .instanceObject _ _ (some _) => false
  | _ => true

theorem native_of_tryGet (ho : h.tryGet v = some o) (direct : isDirect o = true) :
    h.nativeValue v = v := by
  unfold nativeValue
  rw [ho]
  split
  · next c a s eq =>
    cases eq
    cases direct
  · rfl

theorem content_of_tryGet (ho : h.tryGet v = some o) (direct : isDirect o = true) :
    h.content v = some o := by
  rw [content, native_of_tryGet ho direct, ho]

theorem number_of_tryGet (ho : h.tryGet v = some o) (direct : isDirect o = true) :
    h.number v = o.number :=
  number_of_content (content_of_tryGet ho direct)

/-- The origins an alias is built from. -/
def isForm : Object → Bool
  | .classObject _ | .typingForm _ _ => true
  | _ => false

theorem form_content {c : Object} (ho : h.tryGet v = some c) (form : isForm c = true) :
    h.content v = some c :=
  content_of_tryGet ho (by cases c <;> first | rfl | cases form)

theorem form_native {c : Object} (ho : h.tryGet v = some c) (form : isForm c = true) :
    h.nativeValue v = v :=
  native_of_tryGet ho (by cases c <;> first | rfl | cases form)

theorem form_key {c : Object} (ho : h.tryGet v = some c) (form : isForm c = true)
    (hk : h.dictKeyAt n v = .ok k) : k = .identity v.raw := by
  cases n with
  | zero => cases hk
  | succ n =>
    obtain ⟨i, g, native⟩ := content_heap (form_content ho form)
    have own := form_native ho form
    rw [native] at own
    subst own
    cases c <;> cases form
    all_goals
      simp [dictKeyAt, native, get, ho] at hk
      exact (Except.ok.inj hk).symm

variable [HostLibrary]

theorem form_decides {c c' : Object} (ho : h.tryGet v = some c) (ho' : h.tryGet w = some c')
    (form : isForm c = true) (form' : isForm c' = true) (run : h.equalAt room v w = .ok e) :
    e = true ↔ v = w := by
  cases room with
  | zero => cases run
  | succ room =>
    unfold equalAt at run
    rw [numeric_eq, numeric_eq, number_of_content (form_content ho form),
      number_of_content (form_content ho' form')] at run
    simp only [form_native ho form, form_native ho' form', ho, ho'] at run
    have number : c.number = none := by cases c <;> first | rfl | cases form
    simp only [number, Option.isSome_none, Bool.false_and, Bool.false_eq_true, if_false] at run
    by_cases same : v = w
    · rw [if_pos same] at run
      cases run
      simp [same]
    · rw [if_neg same] at run
      cases c <;> cases form <;> cases c' <;> cases form' <;> cases run <;> simp [same]

/-- Comparing a value with itself, once more, changes nothing: no number is asked for itself. -/
theorem sameOr_equalAt (own : h.number v = none) (run : h.equalAt room v w = .ok e) :
    sameOr (h.equalAt room) v w = .ok e := by
  unfold sameOr
  split
  · next same =>
    subst same
    cases room with
    | zero => cases run
    | succ room =>
      unfold equalAt at run
      rw [numeric_eq, own] at run
      simpa using run
  · exact run

omit [HostLibrary] in
theorem distinct_keys {values : List Value} {js : List Key}
    (distinct : h.distinctKeys n values = true) (run : values.mapM (h.dictKeyAt n) = .ok js) :
    js.Nodup := by
  unfold distinctKeys at distinct
  rw [run] at distinct
  refine (of_decide_eq_true distinct).imp fun differ same => differ ?_
  rw [same, Key.compare_eq]

omit [HostLibrary] in
theorem unions_decide {ε : Type} {key : Value → Except Fault Key}
    {equal : Value → Value → Except ε Bool} {xs ys : List Value} {js ks : List Key}
    (hjs : xs.mapM key = .ok js) (hks : ys.mapM key = .ok ks) (distinct : js.Nodup)
    (agree : ∀ x ∈ xs, ∀ y ∈ ys, Decides key (sameOr equal) x y)
    (run : (if xs.length ≠ ys.length then .ok false
      else xs.foldr (fun x rest => do if ← anyEqual equal x ys then rest else return false)
        (.ok true)) = .ok e) : e = true ↔ js.Perm ks := by
  have lengths := length_of_mapM hjs
  have lengths' := length_of_mapM hks
  split at run
  · next differ =>
    cases run
    refine ⟨(fun eq => by cases eq), fun perm => absurd ?_ differ⟩
    rw [← lengths, ← lengths', perm.length_eq]
  · next same =>
    rw [members_decide hjs hks agree run]
    refine ⟨fun sub => ?_, fun perm j hj => perm.mem_iff.mp hj⟩
    refine (List.subperm_of_subset distinct sub).perm_of_length_le ?_
    simp only [ne_eq, not_not] at same
    omega

omit [HostLibrary] in
theorem rangeLength_nonneg (start stop step : Int) : 0 ≤ rangeLength start stop step := by
  unfold rangeLength
  split
  · split
    · exact Int.le_refl 0
    · have := Int.ediv_nonneg (a := stop - 1 - start) (b := step) (by omega) (by omega)
      omega
  · split
    · exact Int.le_refl 0
    · have := Int.ediv_nonneg (a := start - 1 - stop) (b := -step) (by omega) (by omega)
      omega

omit [HostLibrary] in
theorem ranges_decide {a b c x y z : Int} :
    (rangeLength a b c == rangeLength x y z && (rangeLength a b c == 0 || (a == x &&
      (rangeLength a b c == 1 || c == z)))) = true ↔
    Key.range (rangeLength a b c) (if rangeLength a b c ≠ 0 then some a else none)
        (if 1 < rangeLength a b c then some c else none) =
      Key.range (rangeLength x y z) (if rangeLength x y z ≠ 0 then some x else none)
        (if 1 < rangeLength x y z then some z else none) := by
  have nonneg := rangeLength_nonneg a b c
  generalize rangeLength a b c = n at *
  generalize rangeLength x y z = m at *
  simp only [Bool.and_eq_true, Bool.or_eq_true, beq_iff_eq, Key.range.injEq]
  constructor
  · rintro ⟨rfl, rfl | ⟨rfl, rfl | rfl⟩⟩ <;> simp
  · rintro ⟨rfl, first, stride⟩
    refine ⟨rfl, ?_⟩
    by_cases empty : n = 0
    · exact .inl empty
    · rw [if_pos empty, if_pos empty] at first
      refine .inr ⟨Option.some.inj first, ?_⟩
      by_cases single : n = 1
      · exact .inl single
      · rw [if_pos (by omega), if_pos (by omega)] at stride
        exact .inr (Option.some.inj stride)

omit [HostLibrary] in
theorem identity_decides (hv : h.Valid) {raw : Nat} (ha : h.plainAt structural (n + 1) a = true)
    (hb : h.plainAt structural (n + 1) b = true) (ma : h.MadeFrom n a (.identity raw))
    (mb : h.MadeFrom n b (.identity raw)) : a = b := by
  obtain ⟨o, ma, kind, same⟩ := ma
  obtain ⟨o', mb, kind', same'⟩ := mb
  have own := plain_own ha (own_of_content ma (by cases o <;> first | rfl | cases kind))
  have own' := plain_own hb (own_of_content mb (by cases o' <;> first | rfl | cases kind'))
  rw [content] at ma mb
  rw [own] at same
  rw [own'] at same'
  rw [own] at ma
  rw [own'] at mb
  exact Value.raw_injective (encodable_of_tryGet hv ma) (encodable_of_tryGet hv mb)
    (same.symm.trans same')

omit [HostLibrary] in
/-- Distinct values with one key that are not both numbers are of one kind. -/
theorem compares_of_made (hv : h.Valid) (apart : a ≠ b)
    (ha : h.plainAt structural (n + 1) a = true) (hb : h.plainAt structural (n + 1) b = true)
    (ma : h.MadeFrom n a k) (mb : h.MadeFrom n b k)
    (differ : (h.number a).isSome = true → h.number b = none) :
    ∃ o o', h.content a = some o ∧ h.content b = some o' ∧ o.comparesWith o' = true := by
  cases k
  case none | notImplemented | ellipsis =>
    have native := plain_own ha (own_of_singleton
      (by first | exact .inl ma | exact .inr (.inl ma) | exact .inr (.inr ma)))
    have native' := plain_own hb (own_of_singleton
      (by first | exact .inl mb | exact .inr (.inl mb) | exact .inr (.inr mb)))
    rw [← native, ← native', ma, mb] at apart
    exact absurd rfl apart
  case smallInt | int | float | nan =>
    obtain ⟨p, hp, -⟩ := ma
    obtain ⟨q, hq, -⟩ := mb
    simp [hp, hq] at differ
  case str | bytes => exact ⟨_, _, ma, mb, rfl⟩
  case tuple =>
    obtain ⟨_, ma, -⟩ := ma
    obtain ⟨_, mb, -⟩ := mb
    exact ⟨_, _, ma, mb, rfl⟩
  case slice | range | genericAlias | literalAlias =>
    obtain ⟨_, _, _, ma, -⟩ := ma
    obtain ⟨_, _, _, mb, -⟩ := mb
    exact ⟨_, _, ma, mb, rfl⟩
  case method =>
    obtain ⟨_, _, ma, -⟩ := ma
    obtain ⟨_, _, mb, -⟩ := mb
    exact ⟨_, _, ma, mb, rfl⟩
  case callableAlias =>
    obtain ⟨_, _, _, _, _, ma, -⟩ := ma
    obtain ⟨_, _, _, _, _, mb, -⟩ := mb
    exact ⟨_, _, ma, mb, rfl⟩
  case union =>
    obtain ⟨_, _, _, ma, -⟩ := ma
    obtain ⟨_, _, _, mb, -⟩ := mb
    exact ⟨_, _, ma, mb, rfl⟩
  case identity => exact absurd (identity_decides hv ha hb ma mb) apart

/-- What is known of the values inside: the heap decides their keys, at any nesting. -/
def Inner (h : Heap) (n : Nat) : Prop :=
  ∀ {room : Nat} {a b : Value}, h.plainAt true n a = true → h.plainAt true n b = true →
    Decides (h.dictKeyAt n) (sameOr (h.equalAt room)) a b

omit [HostLibrary] in
theorem plainParameters_cases {first : Value} (plain : h.plainParameters (h.plainAt true n) first = true) :
    first = .ellipsis ∨ ∃ values, h.tryGet first = some (.list values) ∧
      ∀ value ∈ values, h.plainAt true n value = true := by
  simp only [plainParameters, Bool.or_eq_true, beq_iff_eq] at plain
  refine plain.imp id fun plain => ?_
  split at plain
  · next values ho => exact ⟨values, ho, List.all_eq_true.mp plain⟩
  · cases plain

omit [HostLibrary] in
theorem listKeys {first : Value} {values : List Value} {ps : Option (List Key)}
    (ho : h.tryGet first = some (.list values)) (hp : h.parameterKeys n first ps) :
    ∃ keys, ps = some keys ∧ values.mapM (h.dictKeyAt n) = .ok keys := by
  cases ps with
  | none =>
    rw [show first = .ellipsis from hp] at ho
    cases ho
  | some keys =>
    obtain ⟨-, values', ho' | ho', run⟩ := hp
    · rw [ho] at ho'
      cases ho'
      exact ⟨keys, rfl, run⟩
    · rw [ho] at ho'
      cases ho'

omit [HostLibrary] in
theorem parameterKeys_unique {first : Value} {ps qs : Option (List Key)}
    (plain : h.plainParameters (h.plainAt true n) first = true) (hp : h.parameterKeys n first ps)
    (hq : h.parameterKeys n first qs) : ps = qs := by
  rcases plainParameters_cases plain with rfl | ⟨values, ho, -⟩
  · cases ps with
    | some keys => exact absurd rfl hp.1
    | none =>
      cases qs with
      | some keys => exact absurd rfl hq.1
      | none => rfl
  · obtain ⟨js, rfl, hjs⟩ := listKeys ho hp
    obtain ⟨ks, rfl, hks⟩ := listKeys ho hq
    rw [hjs] at hks
    cases hks
    rfl

omit [HostLibrary] in
theorem tryGet_ellipsis : h.tryGet .ellipsis = none := rfl

omit [HostLibrary] in
theorem ellipsis_native : h.nativeValue .ellipsis = .ellipsis := rfl

theorem equalAt_ellipsis {values : List Value} (ho : h.tryGet v = some (.list values)) :
    h.equalAt (room + 1) .ellipsis v = .ok false := by
  have apart : .ellipsis ≠ v := by
    rintro rfl
    cases ho
  unfold equalAt
  simp [numeric_eq, number_of_tryGet ho rfl, Object.number,
    native_of_tryGet ho rfl, ho, apart, ellipsis_native, tryGet_ellipsis]

theorem equalAt_ellipsis' {values : List Value} (ho : h.tryGet v = some (.list values)) :
    h.equalAt (room + 1) v .ellipsis = .ok false := by
  have apart : v ≠ .ellipsis := by
    rintro rfl
    cases ho
  unfold equalAt
  simp [numeric_eq, number_of_tryGet ho rfl, Object.number,
    native_of_tryGet ho rfl, ho, apart, ellipsis_native, tryGet_ellipsis]

theorem equalAt_lists {xs ys : List Value} (apart : v ≠ w) (hv : h.tryGet v = some (.list xs))
    (hw : h.tryGet w = some (.list ys)) :
    h.equalAt (room + 1) v w = pairwise (sameOr (h.equalAt room)) xs ys := by
  unfold equalAt
  simp [numeric_eq, number_of_tryGet hv rfl, Object.number, native_of_tryGet hv rfl,
    native_of_tryGet hw rfl, hv, hw, apart]

theorem parameters_decide (inner : h.Inner n) {first first' : Value}
    {ps qs : Option (List Key)} (plain : h.plainParameters (h.plainAt true n) first = true)
    (plain' : h.plainParameters (h.plainAt true n) first' = true) (hp : h.parameterKeys n first ps)
    (hq : h.parameterKeys n first' qs) (run : sameOr (h.equalAt room) first first' = .ok e) :
    e = true ↔ ps = qs := by
  unfold sameOr at run
  split at run
  · next same =>
    subst same
    cases run
    simp [parameterKeys_unique plain hp hq]
  next apart =>
  cases room with
  | zero => cases run
  | succ room =>
    rcases plainParameters_cases plain with rfl | ⟨xs, hxs, insideX⟩
    · rcases plainParameters_cases plain' with rfl | ⟨ys, hys, -⟩
      · exact absurd rfl apart
      · rw [equalAt_ellipsis hys] at run
        cases run
        cases ps with
        | some keys => exact absurd rfl hp.1
        | none =>
          cases qs with
          | none => exact absurd hq.symm apart
          | some keys => simp
    · rcases plainParameters_cases plain' with rfl | ⟨ys, hys, insideY⟩
      · rw [equalAt_ellipsis' hxs] at run
        cases run
        cases qs with
        | some keys => exact absurd rfl hq.1
        | none =>
          cases ps with
          | none => exact absurd hp apart
          | some keys => simp
      · rw [equalAt_lists apart hxs hys] at run
        obtain ⟨js, rfl, hjs⟩ := listKeys hxs hp
        obtain ⟨ks, rfl, hks⟩ := listKeys hys hq
        rw [Option.some.injEq]
        exact pairwise_decides hjs hks (fun x hx y hy => inner (insideX x hx) (insideY y hy)) run

theorem equalAt_tuples {xs ys : List Value} (apart : v ≠ w) (hv : h.tryGet v = some (.tuple xs))
    (hw : h.tryGet w = some (.tuple ys)) :
    h.equalAt (room + 1) v w = pairwise (sameOr (h.equalAt room)) xs ys := by
  unfold equalAt
  simp [numeric_eq, number_of_tryGet hv rfl, Object.number, native_of_tryGet hv rfl,
    native_of_tryGet hw rfl, hv, hw, apart]

omit [HostLibrary] in
/-- The aliases that the interpreter builds. -/
theorem plain_alias {cls origin args : Value} (plain : h.plainAt structural (n + 1) v = true)
    (hc : h.content v = some (.genericAlias cls origin args)) :
    (∃ c items, h.tryGet origin = some (.typingForm c .literal) ∧
      h.canonicalLiteralArguments args = .ok items) ∨
    (∃ c first last, h.tryGet origin = some (.typingForm c .callable) ∧
      h.tryGet args = some (.tuple [first, last]) ∧ h.plainParameters (h.plainAt true n) first = true ∧
      h.plainAt true n last = true) ∨
    ∃ c values, h.tryGet origin = some (.classObject c) ∧
      h.tryGet args = some (.tuple values) ∧ h.plainAt true n args = true := by
  simp only [plainAt, hc, Bool.and_eq_true, plainAlias] at plain
  obtain ⟨-, plain⟩ := plain
  split at plain
  · next c form =>
    split at plain
    · next items canonical => exact .inl ⟨c, items, form, canonical⟩
    · cases plain
  · next c form =>
    split at plain
    · next first last pair =>
      rw [Bool.and_eq_true] at plain
      exact .inr (.inl ⟨c, first, last, form, pair, plain⟩)
    · cases plain
  · next c form =>
    split at plain
    · next values pair => exact .inr (.inr ⟨c, values, form, pair, plain⟩)
    · cases plain
  · cases plain

omit [HostLibrary] in
theorem alias_form {cls origin args : Value} (plain : h.plainAt structural (n + 1) v = true)
    (hc : h.content v = some (.genericAlias cls origin args)) :
    ∃ c, h.tryGet origin = some c ∧ isForm c = true := by
  rcases plain_alias plain hc with ⟨c, _, form, -⟩ | ⟨c, _, _, form, -⟩ | ⟨c, _, form, -⟩
  all_goals exact ⟨_, form, rfl⟩

/-- The key of the form an alias is built from. -/
def originKey : Key → Option Key
  | .genericAlias origin _ | .literalAlias origin _ | .callableAlias origin _ _ => some origin
  | _ => none

omit [HostLibrary] in
theorem alias_origin {cls origin args : Value} (plain : h.plainAt structural (n + 1) v = true)
    (hc : h.content v = some (.genericAlias cls origin args)) (made : h.MadeFrom n v k) :
    originKey k = some (.identity origin.raw) := by
  obtain ⟨c, ho, form⟩ := alias_form plain hc
  rcases made_alias made hc with ⟨x, _, rfl, hx, -⟩ | ⟨x, _, rfl, hx, -⟩ | ⟨x, _, _, _, _, rfl, hx, -⟩
  all_goals rw [originKey, form_key ho form hx]

/-- Two callable forms agree in their parameters and in their result. -/
theorem callables_decide (inner : h.Inner n) {args args' first first' last last' : Value}
    {ps qs : Option (List Key)} {x y : Key} (ha : h.tryGet args = some (.tuple [first, last]))
    (hb : h.tryGet args' = some (.tuple [first', last']))
    (plain : h.plainParameters (h.plainAt true n) first = true) (plain' : h.plainParameters (h.plainAt true n) first' = true)
    (ends : h.plainAt true n last = true) (ends' : h.plainAt true n last' = true)
    (hp : h.parameterKeys n first ps) (hq : h.parameterKeys n first' qs)
    (hx : h.dictKeyAt n last = .ok x) (hy : h.dictKeyAt n last' = .ok y)
    (run : h.equalAt room args args' = .ok e) : e = true ↔ ps = qs ∧ x = y := by
  replace run := sameOr_equalAt (number_of_tryGet ha rfl) run
  unfold sameOr at run
  split at run
  · next same =>
    subst same
    cases run
    rw [ha] at hb
    cases hb
    rw [hx] at hy
    cases hy
    simp [parameterKeys_unique plain hp hq]
  next apart =>
  cases room with
  | zero => cases run
  | succ room =>
    rw [equalAt_tuples apart ha hb] at run
    simp only [pairwise, List.length_cons, List.length_nil, ne_eq, not_true_eq_false, if_false,
      List.zip_cons_cons, List.zip_nil_right, List.foldr_cons, List.foldr_nil] at run
    obtain ⟨begin, hbegin, run⟩ := bind_ok run
    have head := parameters_decide inner plain plain' hp hq hbegin
    rw [← head]
    cases begin with
    | false => cases run; simp
    | true =>
      obtain ⟨finish, hfinish, run⟩ := bind_ok run
      have tail := inner ends ends' hx hy hfinish
      rw [← tail]
      cases finish <;> cases run <;> simp

theorem alias_decides (hv : h.Valid) (inner : h.Inner n)
    {cls cls' origin origin' args args' : Value}
    (ha : h.plainAt true (n + 1) a = true) (hb : h.plainAt true (n + 1) b = true)
    (hca : h.content a = some (.genericAlias cls origin args))
    (hcb : h.content b = some (.genericAlias cls' origin' args'))
    (hj : h.dictKeyAt (n + 1) a = .ok j) (hk : h.dictKeyAt (n + 1) b = .ok k)
    (run : (do
      if ← h.equalAt room origin origin' then
        match h.tryGet origin with
        | some (.typingForm _ .literal) =>
          match h.canonicalLiteralArguments args, h.canonicalLiteralArguments args' with
          | .ok left, .ok right => return left == right
          | _, _ => h.equalAt room args args'
        | _ => h.equalAt room args args'
      else return false) = .ok e) : e = true ↔ j = k := by
  have ma := dictKeyAt_made hj
  have mb := dictKeyAt_made hk
  obtain ⟨c, ho, form⟩ := alias_form ha hca
  obtain ⟨c', ho', form'⟩ := alias_form hb hcb
  obtain ⟨agree, hagree, rest⟩ := bind_ok run
  clear run
  have same := form_decides ho ho' form form' hagree
  cases agree with
  | false =>
    cases rest
    refine ⟨(fun eq => by cases eq), fun eq => ?_⟩
    subst eq
    have words := (alias_origin ha hca ma).symm.trans (alias_origin hb hcb mb)
    rw [Option.some.injEq, Key.identity.injEq] at words
    exact absurd (same.mpr (Value.raw_injective (encodable_of_tryGet hv ho)
      (encodable_of_tryGet hv ho') words)) (by simp)
  | true =>
    obtain rfl := same.mp rfl
    have ka := made_alias ma hca
    have kb := made_alias mb hcb
    rcases plain_alias ha hca with ⟨c, items, literal, canonical⟩ |
      ⟨c, first, last, callable, pair, parameters, ends⟩ | ⟨c, values, cls, pair, inside⟩
    · rcases plain_alias hb hcb with ⟨c', items', -, canonical'⟩ | ⟨c', _, _, other, -⟩ |
        ⟨c', _, other, -⟩
      rotate_left
      · rw [literal] at other; cases other
      · rw [literal] at other; cases other
      rcases ka with ⟨_, _, _, _, _, _, none⟩ | ⟨x, _, rfl, hx, -, hitems⟩ | ⟨_, _, _, _, _, _, _, ⟨_, none⟩, -⟩
      · obtain ⟨why, none⟩ := none c literal
        rw [canonical] at none
        cases none
      rotate_left
      · rw [literal] at none; cases none
      rcases kb with ⟨_, _, _, _, _, _, none⟩ | ⟨y, _, rfl, hy, -, hitems'⟩ | ⟨_, _, _, _, _, _, _, ⟨_, none⟩, -⟩
      · obtain ⟨why, none⟩ := none c literal
        rw [canonical'] at none
        cases none
      rotate_left
      · rw [literal] at none; cases none
      simp only [if_true, literal, hitems, hitems'] at rest
      cases rest
      rw [hx] at hy
      cases hy
      simp
    · rcases plain_alias hb hcb with ⟨c', _, other, -⟩ |
        ⟨c', first', last', -, pair', parameters', ends'⟩ | ⟨c', _, other, -⟩
      · rw [callable] at other; cases other
      rotate_left
      · rw [callable] at other; cases other
      rcases ka with ⟨_, _, _, _, _, none, _⟩ | ⟨_, _, _, _, ⟨_, none⟩, -⟩ |
        ⟨x, ps, p, _, _, rfl, hx, -, hpair, hps, hp⟩
      · exact absurd callable (none c)
      · rw [callable] at none; cases none
      rcases kb with ⟨_, _, _, _, _, none, _⟩ | ⟨_, _, _, _, ⟨_, none⟩, -⟩ |
        ⟨y, qs, q, _, _, rfl, hy, -, hpair', hqs, hq⟩
      · exact absurd callable (none c)
      · rw [callable] at none; cases none
      rw [pair] at hpair
      rw [pair'] at hpair'
      cases hpair
      cases hpair'
      simp only [if_true, callable] at rest
      rw [callables_decide inner pair pair' parameters parameters' ends ends' hps hqs hp hq rest]
      rw [hx] at hy
      cases hy
      simp
    · rcases plain_alias hb hcb with ⟨c', _, other, -⟩ | ⟨c', _, _, other, -⟩ |
        ⟨c', values', -, pair', inside'⟩
      · rw [cls] at other; cases other
      · rw [cls] at other; cases other
      rcases ka with ⟨x, p, rfl, hx, hp, -⟩ | ⟨_, _, _, _, ⟨_, none⟩, -⟩ |
        ⟨_, _, _, _, _, _, _, ⟨_, none⟩, -⟩
      rotate_left
      · rw [cls] at none; cases none
      · rw [cls] at none; cases none
      rcases kb with ⟨y, q, rfl, hy, hq, -⟩ | ⟨_, _, _, _, ⟨_, none⟩, -⟩ |
        ⟨_, _, _, _, _, _, _, ⟨_, none⟩, -⟩
      rotate_left
      · rw [cls] at none; cases none
      · rw [cls] at none; cases none
      simp only [if_true, cls] at rest
      rw [inner inside inside' hp hq (sameOr_equalAt (number_of_tryGet pair rfl) rest)]
      rw [hx] at hy
      cases hy
      simp

theorem equalAt_decides (hv : h.Valid) : ∀ {n}, h.Inner n
  | 0, _, _, _, ha, _ => by cases ha
  | n + 1, 0, _, _, _, _ => sameOr_decides fun _ _ _ _ _ _ run => by cases run
  | n + 1, room + 1, a, b, ha, hb => sameOr_decides fun apart {j k e} hj hk run => by
    have inner : h.Inner n := equalAt_decides hv
    unfold equalAt at run
    simp only at run
    rw [numeric_eq, numeric_eq] at run
    split at run
    · next numbers =>
      rw [Bool.and_eq_true, Option.isSome_iff_exists, Option.isSome_iff_exists] at numbers
      obtain ⟨⟨p, hp⟩, q, hq⟩ := numbers
      rw [numberOrder_eq hp hq] at run
      cases run
      exact number_decides hv apart hp hq hj hk
    next differ =>
    split at run
    case h_1 f x g y hca hcb =>
      rw [key_boundMethod hca] at hj
      rw [key_boundMethod hcb] at hk
      obtain ⟨jf, hjf, hj⟩ := bind_ok hj
      obtain ⟨jx, hjx, hj⟩ := bind_ok hj
      obtain ⟨kg, hkg, hk⟩ := bind_ok hk
      obtain ⟨ky, hky, hk⟩ := bind_ok hk
      cases hj
      cases hk
      simp only [plainAt, content, hca, hcb, Bool.and_eq_true] at ha hb
      obtain ⟨first, hfirst, run⟩ := bind_ok run
      have head := inner ha.2.1 hb.2.1 hjf hkg hfirst
      rw [Key.method.injEq, ← head]
      cases first with
      | false => cases run; simp
      | true =>
        simp only [true_and]
        exact inner ha.2.2 hb.2.2 hjx hky run
    case h_2 d d' hca hcb =>
      rw [key_mutable hca (.inr (.inl ⟨d, rfl⟩))] at hj
      cases hj
    case h_3 x y hca hcb =>
      rw [key_str hca] at hj
      rw [key_str hcb] at hk
      cases hj
      cases hk
      cases run
      simp
    case h_4 x y hca hcb =>
      rw [key_bytes hca] at hj
      rw [key_bytes hcb] at hk
      cases hj
      cases hk
      cases run
      simp
    case h_5 xs ys hca hcb =>
      rw [key_tuple hca] at hj
      rw [key_tuple hcb] at hk
      obtain ⟨js, hjs, rfl⟩ := map_ok hj
      obtain ⟨ks, hks, rfl⟩ := map_ok hk
      simp only [plainAt, content, hca, hcb, Bool.and_eq_true, List.all_eq_true] at ha hb
      rw [Key.tuple.injEq]
      exact pairwise_decides hjs hks (fun x hx y hy => inner (ha.2 x hx) (hb.2 y hy)) run
    case h_6 xs ys hca hcb =>
      rw [key_mutable hca (.inl ⟨xs, rfl⟩)] at hj
      cases hj
    case h_7 hca hcb => exact alias_decides hv inner ha hb hca hcb hj hk run
    case h_8 cls xs cls' ys hca hcb =>
      rw [key_union hca] at hj
      rw [key_union hcb] at hk
      obtain ⟨js, hjs, hj⟩ := bind_ok hj
      obtain ⟨ks, hks, hk⟩ := bind_ok hk
      cases hj
      cases hk
      simp only [plainAt, content, hca, hcb, Bool.and_eq_true, List.all_eq_true] at ha hb
      rw [Key.union.injEq, Key.mergeSort_eq]
      exact unions_decide hjs hks (distinct_keys ha.2.2 hjs)
        (fun x hx y hy => inner (ha.2.1 x hx) (hb.2.1 y hy)) run
    case h_9 a' b' c' x y z hca hcb =>
      rw [key_range hca] at hj
      rw [key_range hcb] at hk
      cases hj
      cases hk
      cases run
      exact ranges_decide
    case h_10 methods dicts strs bytes tuples lists aliases unions ranges =>
      cases run
      refine ⟨(fun eq => by cases eq), fun same => ?_⟩
      subst same
      obtain ⟨o, o', hca, hcb, same⟩ := compares_of_made hv apart ha hb (dictKeyAt_made hj)
        (dictKeyAt_made hk) (by simpa using differ)
      unfold Object.comparesWith at same
      split at same
      · exact (strs _ _ hca hcb).elim
      · exact (bytes _ _ hca hcb).elim
      · exact (tuples _ _ hca hcb).elim
      · exact (ranges _ _ _ _ _ _ hca hcb).elim
      · simp [plainAt, hca] at ha
      · exact (methods _ _ _ _ hca hcb).elim
      · exact (aliases _ _ _ _ _ _ hca hcb).elim
      · exact (unions _ _ _ _ hca hcb).elim
      · cases same

end Structural

end Heap

end Tonic
