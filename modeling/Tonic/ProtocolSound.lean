import Tonic.EqualitySound
import Tonic.Run

/-!
## The protocols agree with the keys

A value that the protocols can hash without a method of the program has a key of that hash, and
those they find equal are those with one key.
-/

namespace Tonic

theorem integerKey_hash [HostLibrary] (n : Int) : (integerKey n).hash = normalizeBigint n := by
  unfold integerKey normalizeBigint
  split <;> simp [Key.hash, normalizeBigint, *]

theorem hashes_length [HostLibrary] (keys : List Key) : (Key.hashes keys).length = keys.length := by
  induction keys with
  | nil => simp [Key.hashes]
  | cons k keys ih => simp [Key.hashes, ih]

open Effect Outcome

namespace Heap

variable [HostLibrary] {h : Heap} {n m room : Nat} {a b v w : Value} {j k : Key} {o : Object}
  {e : Bool} {x y : Int}

omit [HostLibrary] in
theorem lift_ok {α : Type} {result : Except Fault α} {r : α} (run : Stop.lift result = .ok r) :
    result = .ok r := by
  cases result with
  | error f => cases run
  | ok r' => cases run; rfl

/-! ### The hash -/

/-- A value has a key, at some nesting, whose hash is the number. -/
def KeyHash (h : Heap) (v : Value) (x : Int) : Prop := ∃ n k, h.dictKeyAt n v = .ok k ∧ x = k.hash

theorem keyHash_made (made : h.MadeFrom n v k) : h.KeyHash v k.hash :=
  ⟨n + 1, k, dictKeyAt_iff.mpr made, rfl⟩

theorem keyHash_integer {i : Int} (hp : h.number v = some (.int i)) :
    h.KeyHash v (normalizeBigint i) :=
  ⟨1, _, key_number hp, (integerKey_hash i).symm⟩

theorem mapM_keyHash {item : Value → Except Stop Int} {values : List Value} {hashes : List Int}
    (inner : ∀ w ∈ values, ∀ y, item w = .ok y → h.KeyHash w y) (run : values.mapM item = .ok hashes) :
    ∃ n keys, values.mapM (h.dictKeyAt n) = .ok keys ∧ hashes = Key.hashes keys := by
  induction values generalizing hashes with
  | nil =>
    cases run
    exact ⟨0, [], rfl, by simp [Key.hashes]⟩
  | cons v values ih =>
    rw [List.mapM_cons] at run
    obtain ⟨y, hy, run⟩ := bind_ok run
    obtain ⟨ys, hys, run⟩ := bind_ok run
    cases run
    obtain ⟨n, k, hk, rfl⟩ := inner v List.mem_cons_self y hy
    obtain ⟨m, ks, hks, rfl⟩ := ih (fun w hw => inner w (List.mem_cons_of_mem _ hw)) hys
    refine ⟨max n m, k :: ks, ?_, by simp [Key.hashes]⟩
    rw [List.mapM_cons, dictKeyAt_mono (Nat.le_max_left n m) hk,
      mapM_mono (fun _ _ => dictKeyAt_mono (Nat.le_max_right n m)) hks]
    rfl

omit [HostLibrary] in
/-- A NaN is hashed by the identity of the value that its key has. -/
theorem plain_nan {f : F64} (plain : h.plainAt false (n + 1) v = true)
    (number : h.number v = some (.float f)) (nan : f.isNaN = true) : h.nativeValue v = v := by
  simp only [plainAt, Bool.and_eq_true, Bool.or_eq_true, beq_iff_eq] at plain
  rcases plain.1.2 with own | ⟨-, hash⟩
  · exact own.symm
  · simp [hashesNatively, number, nan] at hash

/-- The hash of a value whose class leaves it to the value is the hash of its key. -/
theorem nativeHash_key {item : Value → Except Stop Int}
    (inner : ∀ w y, h.plainAt false n w = true → item w = .ok y → h.KeyHash w y)
    (plain : h.plainAt false (n + 1) v = true)
    (direct : ∀ o, h.tryGet v = some o → o.keyedByStructure = false)
    (run : h.nativeHash item v = .ok x) : h.KeyHash v x := by
  unfold nativeHash at run
  simp only at run
  split at run
  case h_1 native => cases run; exact keyHash_made (k := .none) (n := 0) native
  case h_2 native => cases run; exact keyHash_made (k := .notImplemented) (n := 0) native
  case h_3 native => cases run; exact keyHash_made (k := .ellipsis) (n := 0) native
  case h_4 => cases run
  case h_5 i native =>
    cases run
    have number : h.number v = some (.int i.val) := by simp [number, native, Value.integer]
    have fits := fitsI64_small i
    have key := keyHash_integer number
    rwa [normalizeBigint, if_pos fits] at key
  case h_6 b native =>
    cases run
    have number : h.number v = some (.int b.toInt) := by simp [number, native, Value.integer]
    have key := keyHash_integer number
    rwa [normalizeBigint, if_pos (by cases b <;> rfl)] at key
  case h_7 =>
    obtain ⟨o, ho, run⟩ := bind_ok run
    have hc : h.content v = some o := get_eq_ok (lift_ok ho)
    have number := number_of_content hc
    cases o
    case int i =>
      cases run
      exact keyHash_integer number
    case float f =>
      replace number : h.number v = some (.float f) := number
      refine ⟨1, _, key_number number, ?_⟩
      simp only [Number.key]
      cases nan : f.isNaN with
      | true =>
        simp only [nan, if_true] at run
        cases run
        rw [floatKey_nan nan, plain_nan plain number nan, Key.hash]
      | false =>
        simp only [nan, Bool.false_eq_true, if_false] at run
        cases integral : f.integral? with
        | none =>
          rw [integral] at run
          cases run
          rw [floatKey_bits nan integral, Key.hash]
        | some i =>
          rw [integral] at run
          cases run
          rw [floatKey_integral integral, integerKey_hash]
    case str text => cases run; exact keyHash_made (k := .str text) (n := 0) hc
    case bytes value => cases run; exact keyHash_made (k := .bytes value) (n := 0) hc
    case range start stop step =>
      cases run
      exact ⟨1, _, key_range hc, by simp [hashRange, Key.hash]⟩
    case tuple values =>
      obtain ⟨hashes, hhashes, run⟩ := bind_ok run
      cases run
      simp only [plainAt, hc, Bool.and_eq_true, List.all_eq_true] at plain
      obtain ⟨m, keys, hkeys, rfl⟩ := mapM_keyHash (fun w hw y => inner w y (plain.2 w hw)) hhashes
      have made : h.MadeFrom m v (.tuple keys) := ⟨values, hc, hkeys⟩
      have key := keyHash_made made
      rwa [Key.hash, length_of_mapM hkeys] at key
    case slice start stop step =>
      obtain ⟨hashes, hhashes, run⟩ := bind_ok run
      cases run
      simp only [plainAt, hc, Bool.and_eq_true, List.all_eq_true] at plain
      obtain ⟨m, keys, hkeys, rfl⟩ := mapM_keyHash (fun w hw y => inner w y (plain.2.2 w hw)) hhashes
      have made : h.MadeFrom m v (.slice keys) := ⟨start, stop, step, hc, hkeys⟩
      have key := keyHash_made made
      rwa [Key.hash, length_of_mapM hkeys] at key
    case boundMethod callee receiver =>
      obtain ⟨hashes, hhashes, run⟩ := bind_ok run
      cases run
      simp only [plainAt, hc, Bool.and_eq_true] at plain
      obtain ⟨m, keys, hkeys, rfl⟩ := mapM_keyHash (fun w hw y => inner w y (by
        rcases List.mem_cons.mp hw with rfl | hw
        · exact plain.2.1
        · rcases List.mem_cons.mp hw with rfl | hw
          · exact plain.2.2
          · cases hw)) hhashes
      obtain ⟨f, ks, rfl, hf, hks⟩ := mapM_cons_ok hkeys
      obtain ⟨g, ks, rfl, hg, hks⟩ := mapM_cons_ok hks
      cases hks
      have made : h.MadeFrom m v (.method f g) := ⟨callee, receiver, hc, hf, hg⟩
      have key := keyHash_made made
      rwa [Key.hash] at key
    case function | builtin | native | typingForm | classObject | instanceObject | exception
        | staticMethod | classMethod | property | propertySetter =>
      cases run
      have made : h.MadeFrom 0 v (.identity (h.nativeValue v).raw) := ⟨_, hc, rfl, rfl⟩
      have key := keyHash_made made
      rwa [Key.hash] at key
    case genericAlias | unionType =>
      have native := plain_own plain (own_of_content hc rfl)
      rw [content, native] at hc
      cases direct _ hc
    all_goals simp [plainAt, hc, Object.keyedByIdentity, Object.isStorage] at plain

omit [HostLibrary] in
/-- An instance of a builtin subclass leaves the hash to its storage. -/
theorem plain_objectHash {call : DescriptorCall} (plain : h.plainAt false (n + 1) v = true)
    (found : h.operatorMethodCall v "__hash__" = .ok (some call))
    (hash : h.tryGet call.callable = some (.builtin .objectHash)) : h.nativeValue v = v := by
  simp only [plainAt, Bool.and_eq_true, Bool.or_eq_true, beq_iff_eq] at plain
  rcases plain.1.2 with own | ⟨-, hash'⟩
  · exact own.symm
  · simp [hashesNatively, found, hash] at hash'

omit [HostLibrary] in
/-- Only an object whose class is asked has a method; its key is its identity, unless it is an
instance of a builtin subclass. -/
theorem identity_of_call {name : String} {call : DescriptorCall}
    (plain : h.plainAt false (n + 1) v = true) (native : h.nativeValue v = v)
    (direct : ∀ o, h.tryGet v = some o → o.keyedByStructure = false)
    (found : h.operatorMethodCall v name = .ok (some call)) : h.MadeFrom n v (.identity v.raw) := by
  cases ho : h.tryGet v with
  | none => simp [operatorMethodCall, specialMethodCall, ho] at found
  | some o =>
    have hc : h.content v = some o := by rw [content, native, ho]
    suffices o.keyedByIdentity = true from ⟨o, hc, this, by rw [native]⟩
    replace direct := direct o ho
    cases o
    case function | builtin | native | typingForm | classObject | instanceObject | exception
        | staticMethod | classMethod | property | propertySetter => rfl
    case int | float | str | bytes | tuple | range | slice | boundMethod =>
      simp [operatorMethodCall, specialMethodCall, ho, Object.instanceClass] at found
    case genericAlias | unionType => cases direct
    all_goals simp [plainAt, hc, Object.keyedByIdentity, Object.isStorage] at plain

theorem nativeHash_native {item : Value → Except Stop Int}
    (native : h.nativeValue (h.nativeValue v) = h.nativeValue v) :
    h.nativeHash item (h.nativeValue v) = h.nativeHash item v := by
  unfold nativeHash
  rw [native]

/-- The hash that the protocol computes, without a method of the program, is that of a key. -/
theorem hashAt_key (plain : h.plainAt false n v = true) (run : h.hashAt room v = .ok x) :
    h.KeyHash v x := by
  induction room generalizing n v x with
  | zero => cases run
  | succ room ih =>
    cases n with
    | zero => cases plain
    | succ n =>
      have inner (w y) (plain : h.plainAt false n w = true) (run : h.hashAt room w = .ok y) :
          h.KeyHash w y := ih plain run
      unfold hashAt at run
      split at run
      case h_3 notAlias notUnion =>
        have direct (o) (ho : h.tryGet v = some o) : o.keyedByStructure = false := by
          cases o <;> first | rfl | exact absurd ho (notAlias _ _ _) | exact absurd ho (notUnion _ _)
        obtain ⟨found, hfound, run⟩ := bind_ok run
        cases found with
        | none => exact nativeHash_key inner plain direct run
        | some call =>
          simp only at run
          split at run
          · cases run
          split at run
          · next objectHash =>
            cases run
            have native := plain_objectHash plain (lift_ok hfound) objectHash
            have key := keyHash_made (identity_of_call plain native direct (lift_ok hfound))
            rwa [Key.hash] at key
          · split at run
            · rw [nativeHash_native (plain_native plain)] at run
              exact nativeHash_key inner plain direct run
            · cases run
            · cases run
          · cases run
      all_goals
        obtain ⟨k, hk, run⟩ := bind_ok (lift_ok run)
        cases run
        exact ⟨101, k, hk, rfl⟩

/-! ### The equality -/

section

omit [HostLibrary]

variable {structural : Bool}

theorem content_native (native : h.nativeValue (h.nativeValue v) = h.nativeValue v) :
    h.content (h.nativeValue v) = h.content v := by
  rw [content, native, content]

/-- A value that is no float has the key of its native storage. -/
theorem key_native (native : h.nativeValue (h.nativeValue v) = h.nativeValue v)
    (number : h.number v = none) (hk : h.dictKeyAt n v = .ok k) :
    h.dictKeyAt n (h.nativeValue v) = .ok k := by
  cases n with
  | zero => cases hk
  | succ n =>
    have made := dictKeyAt_made hk
    refine dictKeyAt_iff.mpr ?_
    cases k
    case smallInt | int | float | nan =>
      obtain ⟨p, hp, -⟩ := made
      rw [number] at hp
      cases hp
    all_goals simpa only [MadeFrom, native, content_native native] using made

theorem number_native (native : h.nativeValue (h.nativeValue v) = h.nativeValue v) :
    h.number (h.nativeValue v) = h.number v := by
  unfold number
  rw [native]

theorem plain_structural {o : Object} (plain : h.plainAt false (n + 1) v = true)
    (hc : h.content v = some o)
    (kind : o.comparedByHeap = true) :
    h.plainAt true (n + 1) (h.nativeValue v) = true := by
  have native := plain_native plain
  unfold plainAt at plain ⊢
  rw [content_native native, hc]
  simp only [native, beq_self_eq_true, Bool.true_or, Bool.true_and]
  simp only [hc, Bool.and_eq_true] at plain
  cases o <;> cases kind <;> exact plain.2

end

/-- Objects that the protocol leaves to the heap. -/
theorem structure_decides (hv : h.Valid) (ha : h.plainAt false (n + 1) a = true)
    (hb : h.plainAt false (n + 1) b = true) {o o' : Object} (hca : h.content a = some o)
    (hcb : h.content b = some o')
    (kind : o.comparedByHeap = true)
    (kind' : o'.comparedByHeap = true)
    (hj : h.dictKeyAt (n + 1) a = .ok j) (hk : h.dictKeyAt (n + 1) b = .ok k)
    (run : h.equalAt room (h.nativeValue a) (h.nativeValue b) = .ok e) : e = true ↔ j = k := by
  have none {o : Object} (kind : o.comparedByHeap = true) :
      o.number = none := by cases o <;> cases kind <;> rfl
  have number := (number_of_content hca).trans (none kind)
  have number' := (number_of_content hcb).trans (none kind')
  have native := plain_native ha
  have native' := plain_native hb
  refine equalAt_decides hv (plain_structural ha hca kind) (plain_structural hb hcb kind')
    (key_native native number hj) (key_native native' number' hk)
    (sameOr_equalAt ?_ run)
  rw [number_native native, number]

omit [HostLibrary] in
/-- A number and a value that is none have different keys. -/
theorem number_apart {p : Number} (hp : h.number a = some p) (none : h.number b = none)
    (hj : h.dictKeyAt (n + 1) a = .ok j) (hk : h.dictKeyAt (n + 1) b = .ok k) : j ≠ k := by
  rintro rfl
  rw [key_number hp] at hj
  cases hj
  obtain ⟨q, hq, -⟩ := number_of_made (dictKeyAt_made hk) (p.key_isNumber a)
  rw [none] at hq
  cases hq

/-- A number differs from what is none. -/
theorem equalAt_number (apart : a ≠ b)
    (one : ((h.number a).isSome && (h.number b).isSome) = false)
    (other : (h.number a).isSome = true ∨ (h.number b).isSome = true)
    (run : h.equalAt (room + 1) a b = .ok e) : e = false := by
  have none {v : Value} {o : Object} (hc : h.content v = some o) (kind : o.number = none) :
      h.number v = none := (number_of_content hc).trans kind
  unfold equalAt at run
  simp only at run
  rw [numeric_eq, numeric_eq, one, if_neg (by simp), if_neg apart] at run
  split at run
  case h_10 => cases run; rfl
  all_goals
    next hca hcb =>
    rw [none hca rfl, none hcb rfl] at other
    simp at other

theorem numbers_decide (hv : h.Valid) (apart : a ≠ b) (hj : h.dictKeyAt (n + 1) a = .ok j)
    (hk : h.dictKeyAt (n + 1) b = .ok k) (one : (h.numeric a || h.numeric b) = true)
    (run : h.equalAt (room + 1) a b = .ok e) : e = true ↔ j = k := by
  rw [numeric_eq, numeric_eq] at one
  cases hp : h.number a with
  | some p =>
    cases hq : h.number b with
    | some q =>
      unfold equalAt at run
      simp only [numeric_eq, hp, hq, Option.isSome_some, Bool.and_self, if_true] at run
      rw [numberOrder_eq hp hq] at run
      cases run
      exact number_decides hv apart hp hq hj hk
    | none =>
      rw [equalAt_number apart (by simp [hq]) (.inl (by simp [hp])) run]
      simp [number_apart hp hq hj hk]
  | none =>
    cases hq : h.number b with
    | none => simp [hp, hq] at one
    | some q =>
      rw [equalAt_number apart (by simp [hp]) (.inr (by simp [hq])) run]
      simp [(number_apart hq hp hk hj).symm]

omit [HostLibrary] in
theorem mapM_pair (hj : h.dictKeyAt n a = .ok j) (hk : h.dictKeyAt n b = .ok k) :
    [a, b].mapM (h.dictKeyAt n) = .ok [j, k] := by
  rw [List.mapM_cons, hj, List.mapM_cons, hk]
  rfl

/-- The comparison of the items decides whether two sequences have the same keys. -/
def SequenceDecides (h : Heap) (n : Nat)
    (sequence : List Value → List Value → Except Stop Bool) : Prop :=
  ∀ {as bs : List Value} {js ks : List Key} {e : Bool}, (∀ a ∈ as, h.plainAt false n a = true) →
    (∀ b ∈ bs, h.plainAt false n b = true) → as.mapM (h.dictKeyAt n) = .ok js →
    bs.mapM (h.dictKeyAt n) = .ok ks → sequence as bs = .ok e → (e = true ↔ js = ks)

theorem equalityStep_key {sequence : List Value → List Value → Except Stop Bool} {depth : Nat}
    (hv : h.Valid) (items : h.SequenceDecides n sequence)
    (ha : h.plainAt false (n + 1) a = true) (hb : h.plainAt false (n + 1) b = true) :
    Decides (h.dictKeyAt (n + 1)) (h.equalityStep sequence depth) a b := by
  intro j k e hj hk run
  unfold equalityStep at run
  split at run
  · next same =>
    cases run
    subst same
    rw [hj] at hk
    simp [Except.ok.inj hk]
  next apart =>
  obtain ⟨overloads, -, run⟩ := bind_ok run
  cases overloads with
  | true => cases run
  | false =>
  simp only [Bool.false_eq_true, if_false] at run
  split at run
  · next one => exact numbers_decide hv apart hj hk one (lift_ok run)
  next none =>
  split at run
  case h_1 x y hca hcb =>
    cases run
    rw [key_str hca] at hj
    rw [key_str hcb] at hk
    cases hj
    cases hk
    simp
  case h_2 x y hca hcb =>
    cases run
    rw [key_bytes hca] at hj
    rw [key_bytes hcb] at hk
    cases hj
    cases hk
    simp
  case h_3 hca hcb => exact structure_decides hv ha hb hca hcb rfl rfl hj hk (lift_ok run)
  case h_4 hca hcb => exact structure_decides hv ha hb hca hcb rfl rfl hj hk (lift_ok run)
  case h_5 hca hcb => exact structure_decides hv ha hb hca hcb rfl rfl hj hk (lift_ok run)
  case h_6 xs ys hca hcb =>
    rw [key_tuple hca] at hj
    rw [key_tuple hcb] at hk
    obtain ⟨js, hjs, rfl⟩ := map_ok hj
    obtain ⟨ks, hks, rfl⟩ := map_ok hk
    simp only [plainAt, content, hca, hcb, Bool.and_eq_true, List.all_eq_true] at ha hb
    rw [Key.tuple.injEq]
    exact items ha.2 hb.2 hjs hks run
  case h_7 xs ys hca hcb =>
    rw [key_mutable hca (.inl ⟨xs, rfl⟩)] at hj
    cases hj
  case h_8 a' b' c' x y z hca hcb =>
    rw [key_slice hca] at hj
    rw [key_slice hcb] at hk
    obtain ⟨js, hjs, rfl⟩ := map_ok hj
    obtain ⟨ks, hks, rfl⟩ := map_ok hk
    simp only [plainAt, content, hca, hcb, Bool.and_eq_true, List.all_eq_true] at ha hb
    rw [Key.slice.injEq]
    exact items ha.2.2 hb.2.2 hjs hks run
  case h_9 f x g y hca hcb =>
    rw [key_boundMethod hca] at hj
    rw [key_boundMethod hcb] at hk
    obtain ⟨jf, hjf, hj⟩ := bind_ok hj
    obtain ⟨jx, hjx, hj⟩ := bind_ok hj
    obtain ⟨kg, hkg, hk⟩ := bind_ok hk
    obtain ⟨ky, hky, hk⟩ := bind_ok hk
    cases hj
    cases hk
    simp only [plainAt, content, hca, hcb, Bool.and_eq_true] at ha hb
    have both := items (by simpa using ha.2) (by simpa using hb.2) (mapM_pair hjf hjx)
      (mapM_pair hkg hky) run
    rw [Key.method.injEq, both]
    simp
  case h_10 => cases run
  case h_11 => cases run
  case h_12 strs bytes ranges aliases unions tuples lists slices methods dicts sets =>
    cases run
    refine ⟨(fun eq => by cases eq), fun same => ?_⟩
    subst same
    obtain ⟨o, o', hca, hcb, same⟩ := compares_of_made hv apart ha hb (dictKeyAt_made hj)
      (dictKeyAt_made hk) (by
        simp only [numeric_eq, Bool.or_eq_true, not_or, Bool.not_eq_true] at none
        simp [none.1])
    unfold Object.comparesWith at same
    split at same
    · exact (strs _ _ hca hcb).elim
    · exact (bytes _ _ hca hcb).elim
    · exact (tuples _ _ hca hcb).elim
    · exact (ranges _ _ _ _ _ _ hca hcb).elim
    · exact (slices _ _ _ _ _ _ hca hcb).elim
    · exact (methods _ _ _ _ hca hcb).elim
    · exact (aliases _ _ _ _ _ _ hca hcb).elim
    · exact (unions _ _ _ _ hca hcb).elim
    · cases same

/-- Two values that the protocol compares, without a method of the program, are equal exactly if
they have one key. -/
theorem equalityAt_key (hv : h.Valid) (ha : h.plainAt false n a = true)
    (hb : h.plainAt false n b = true) : Decides (h.dictKeyAt n) (h.equalityAt room) a b := by
  induction n generalizing room a b with
  | zero => cases ha
  | succ n ih =>
    cases room with
    | zero => exact equalityStep_key hv (fun _ _ _ _ run => by cases run) ha hb
    | succ room =>
      exact equalityStep_key hv (fun ha hb hjs hks run =>
        pairwise_decides hjs hks (fun a ma b mb => ih (ha a ma) (hb b mb)) run) ha hb

/-! ### Equality and hash -/

/-- Two values for which the equality and the hash of the protocols agree with each other and with
the keys of the heap. -/
structure Consistent (h : Heap) (a b : Value) : Prop where
  hashes {x y : Int} : h.equalityProtocol a b = .ok true → h.hashProtocol a = .ok x →
    h.hashProtocol b = .ok y → x = y
  keys {x y : Int} : h.hashProtocol a = .ok x → h.structuralHash a = .ok y → x = y
  equals {e e' : Bool} : h.equalityProtocol a b = .ok e → h.dictKeysEqual a b = .ok e' → e = e'

end Heap

section HashOverride

end HashOverride

end Tonic
