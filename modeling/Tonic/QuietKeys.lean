import Tonic.ProtocolSound

/-!
## Keys without methods of the program

The protocols stay among the builtin methods for a value whose classes, and those of its items,
define neither equality nor hash.
-/

namespace Tonic

namespace Heap

variable [HostLibrary] {h : Heap} {n m room depth : Nat} {a b v : Value} {s : Stop}

omit [HostLibrary] in
/-- The class of the value leaves the hash to a builtin method, or has none. -/
def builtinHash (h : Heap) (v : Value) : Bool :=
  match h.operatorMethodCall v "__hash__" with
  | .ok (some call) =>
    call.callable == .none || match h.tryGet call.callable with
      | some (.builtin .objectHash) => true
      | some (.builtin b) => (h.nativeHashAccepts v b).isSome
      | _ => false
  | _ => true

omit [HostLibrary] in
/-- A plain value, and no method of the program takes part when it is hashed or compared. -/
def quietAt (h : Heap) : Nat → Value → Bool
  | 0, _ => false
  | n + 1, v =>
    h.plainAt false (n + 1) v && (h.operatorMethodCall v "__eq__" matches .ok none) &&
    h.builtinHash v &&
    match h.content v with
    | some (.tuple values) => values.all (h.quietAt n)
    | some (.slice start stop step) => [start, stop, step].all (h.quietAt n)
    | some (.boundMethod callee receiver) => h.quietAt n callee && h.quietAt n receiver
    | _ => true

omit [HostLibrary] in
theorem quiet_plain (quiet : h.quietAt n v = true) : h.plainAt false n v = true := by
  cases n with
  | zero => cases quiet
  | succ n =>
    simp only [quietAt, Bool.and_eq_true] at quiet
    exact quiet.1.1.1

omit [HostLibrary] in
theorem quiet_equal (quiet : h.quietAt (n + 1) v = true) :
    h.operatorMethodCall v "__eq__" = .ok none := by
  simp only [quietAt, Bool.and_eq_true] at quiet
  have none := quiet.1.1.2
  split at none
  · assumption
  · cases none

omit [HostLibrary] in
theorem quiet_hash (quiet : h.quietAt (n + 1) v = true) : h.builtinHash v = true := by
  simp only [quietAt, Bool.and_eq_true] at quiet
  exact quiet.1.2

omit [HostLibrary] in
theorem quietAt_mono (le : n ≤ m) (quiet : h.quietAt n v = true) : h.quietAt m v = true := by
  induction n generalizing m v with
  | zero => cases quiet
  | succ n ih =>
    cases m with
    | zero => omega
    | succ m =>
      replace le : n ≤ m := by omega
      have plain := plainAt_mono (Nat.succ_le_succ le) (quiet_plain quiet)
      unfold quietAt at quiet ⊢
      simp only [Bool.and_eq_true] at quiet ⊢
      refine ⟨⟨⟨plain, quiet.1.1.2⟩, quiet.1.2⟩, ?_⟩
      replace quiet := quiet.2
      split at quiet
      · exact List.all_eq_true.mpr fun w hw => ih le (List.all_eq_true.mp quiet w hw)
      · exact List.all_eq_true.mpr fun w hw => ih le (List.all_eq_true.mp quiet w hw)
      · rw [Bool.and_eq_true] at quiet ⊢
        exact ⟨ih le quiet.1, ih le quiet.2⟩
      · rfl

/-! ### Protocols that stay -/

/-- A protocol that may fail, but neither enters a method of the program nor looks up keys. -/
def Stays {α : Type} (result : Except Stop α) : Prop :=
  ∀ s, result = .error s → ∃ fault, s = .fails fault

section Stays

variable {α β : Type}

omit [HostLibrary] in
theorem stays_ok (x : α) : Stays (.ok x) := fun _ eq => by cases eq

omit [HostLibrary] in
theorem stays_fails (fault : Fault) : Stays (.error (.fails fault) : Except Stop α) :=
  fun _ eq => ⟨fault, (Except.error.inj eq).symm⟩

omit [HostLibrary] in
theorem stays_lift (result : Except Fault α) : Stays (Stop.lift result) := by
  cases result with
  | error fault => exact stays_fails fault
  | ok x => exact stays_ok x

omit [HostLibrary] in
theorem Stays.bind {result : Except Stop α} {next : α → Except Stop β} (first : Stays result)
    (rest : ∀ x, result = .ok x → Stays (next x)) : Stays (result >>= next) := by
  cases eq : result with
  | error s =>
    obtain ⟨fault, rfl⟩ := first s eq
    exact stays_fails fault
  | ok x => exact rest x eq

omit [HostLibrary] in
theorem stays_mapM {f : Value → Except Stop α} {values : List Value}
    (each : ∀ v ∈ values, Stays (f v)) : Stays (values.mapM f) := by
  induction values with
  | nil => exact stays_ok []
  | cons v values ih =>
    rw [List.mapM_cons]
    exact (each v List.mem_cons_self).bind fun x _ =>
      (ih fun w hw => each w (List.mem_cons_of_mem _ hw)).bind fun xs _ => stays_ok _

omit [HostLibrary] in
theorem stays_pairwise {equal : Value → Value → Except Stop Bool} {as bs : List Value}
    (each : ∀ a ∈ as, ∀ b ∈ bs, Stays (equal a b)) : Stays (pairwise equal as bs) := by
  unfold pairwise
  split
  · exact stays_ok false
  · clear * - each
    induction as generalizing bs with
    | nil => exact stays_ok true
    | cons a as ih =>
      cases bs with
      | nil => exact stays_ok true
      | cons b bs =>
        rw [List.zip_cons_cons, List.foldr_cons]
        refine (each a List.mem_cons_self b List.mem_cons_self).bind fun x _ => ?_
        split
        · exact ih fun a ha b hb => each a (List.mem_cons_of_mem _ ha) b (List.mem_cons_of_mem _ hb)
        · exact stays_ok false

end Stays

theorem nativeHash_stays {item : Value → Except Stop Int}
    (inner : ∀ w, h.quietAt n w = true → Stays (item w)) (quiet : h.quietAt (n + 1) v = true) :
    Stays (h.nativeHash item v) := by
  simp only [quietAt, Bool.and_eq_true] at quiet
  unfold nativeHash
  simp only
  split
  case h_7 =>
    refine (stays_lift _).bind fun o ho => ?_
    rw [show h.content v = some o from get_eq_ok (lift_ok ho)] at quiet
    cases o
    case float x =>
      simp only
      split
      · exact stays_ok _
      · split <;> exact stays_ok _
    case tuple values =>
      exact (stays_mapM fun w hw => inner w (List.all_eq_true.mp quiet.2 w hw)).bind
        fun _ _ => stays_ok _
    case slice start stop step =>
      exact (stays_mapM fun w hw => inner w (List.all_eq_true.mp quiet.2 w hw)).bind
        fun _ _ => stays_ok _
    case boundMethod callee receiver =>
      refine (stays_mapM fun w hw => inner w ?_).bind fun _ _ => stays_ok _
      have both := quiet.2
      simp only [Bool.and_eq_true] at both
      rcases List.mem_cons.mp hw with rfl | hw
      · exact both.1
      · cases List.mem_singleton.mp hw
        exact both.2
    all_goals first | exact stays_ok _ | exact stays_fails _
  all_goals first | exact stays_ok _ | exact stays_fails _

theorem hashAt_stays (quiet : h.quietAt n v = true) : Stays (h.hashAt room v) := by
  induction room generalizing n v with
  | zero => exact stays_fails _
  | succ room ih =>
    cases n with
    | zero => cases quiet
    | succ n =>
      have inner (w) (quiet : h.quietAt n w = true) : Stays (h.hashAt room w) := ih quiet
      unfold hashAt
      split
      case h_3 =>
        refine (stays_lift _).bind fun found hfound => ?_
        have builtin := quiet_hash quiet
        unfold builtinHash at builtin
        rw [lift_ok hfound] at builtin
        cases found with
        | none => exact nativeHash_stays inner quiet
        | some call =>
          simp only [Bool.or_eq_true, beq_iff_eq] at builtin ⊢
          split
          · exact stays_fails _
          · next given =>
            replace builtin := builtin.resolve_left given
            split
            · exact stays_ok _
            · next b notObject found =>
              rw [found] at builtin
              split
              · rw [nativeHash_native (plain_native (quiet_plain quiet))]
                exact nativeHash_stays inner quiet
              · exact stays_fails _
              · next none =>
                cases b <;> first | exact absurd rfl notObject | simp [none] at builtin
            · next other =>
              split at builtin
              · next found => exact (other _ found).elim
              · next found => exact (other _ found).elim
              · cases builtin
      all_goals exact stays_lift _

theorem equalityStep_stays {sequence : List Value → List Value → Except Stop Bool}
    (inner : ∀ as bs, (∀ a ∈ as, h.quietAt n a = true) → (∀ b ∈ bs, h.quietAt n b = true) →
      Stays (sequence as bs)) (ha : h.quietAt (n + 1) a = true) (hb : h.quietAt (n + 1) b = true) :
    Stays (h.equalityStep sequence depth a b) := by
  have none : h.overloadsEquality a b = .ok false := by
    unfold overloadsEquality
    rw [quiet_equal ha, quiet_equal hb]
    rfl
  have plain := quiet_plain ha
  simp only [quietAt, Bool.and_eq_true] at ha hb
  unfold equalityStep
  split
  · exact stays_ok _
  rw [none]
  refine (stays_lift _).bind fun overloads eq => ?_
  cases eq
  simp only [Bool.false_eq_true, if_false]
  split
  · exact stays_lift _
  split
  case h_6 as bs hca hcb =>
    rw [content, hca] at ha
    rw [content, hcb] at hb
    exact inner as bs (List.all_eq_true.mp ha.2) (List.all_eq_true.mp hb.2)
  case h_7 hca _ => simp [plainAt, content, hca, Object.keyedByIdentity, Object.isStorage] at plain
  case h_8 x y z x' y' z' hca hcb =>
    rw [content, hca] at ha
    rw [content, hcb] at hb
    exact inner _ _ (List.all_eq_true.mp ha.2) (List.all_eq_true.mp hb.2)
  case h_9 f x g y hca hcb =>
    rw [content, hca] at ha
    rw [content, hcb] at hb
    exact inner _ _ (by simpa using ha.2) (by simpa using hb.2)
  case h_10 hca _ => simp [plainAt, content, hca, Object.keyedByIdentity, Object.isStorage] at plain
  case h_11 hca _ => simp [plainAt, content, hca, Object.keyedByIdentity, Object.isStorage] at plain
  all_goals first | exact stays_ok _ | exact stays_lift _

theorem equalityAt_stays (ha : h.quietAt n a = true) (hb : h.quietAt n b = true) :
    Stays (h.equalityAt room a b) := by
  induction n generalizing room a b with
  | zero => cases ha
  | succ n ih =>
    cases room with
    | zero => exact equalityStep_stays (fun _ _ _ _ => stays_fails _) ha hb
    | succ room =>
      exact equalityStep_stays (fun as bs has hbs =>
        stays_pairwise fun a ma b mb => ih (has a ma) (hbs b mb)) ha hb

/-! ### Native keys -/

omit [HostLibrary] in
/-- A key of the kinds that are keys by themselves, to which the program adds no method. -/
def Native (h : Heap) (v : Value) : Prop := ∃ n, h.quietAt n v = true

theorem Native.hash {k : Key} {x : Int} (native : h.Native v) (hk : h.dictKey v = .ok k)
    (hx : h.hashProtocol v = .ok x) : x = k.hash := by
  obtain ⟨n, quiet⟩ := native
  obtain ⟨m, k', hk', rfl⟩ := hashAt_key (quiet_plain quiet) hx
  rw [dictKeyAt_unique hk' hk]

theorem Native.hash_stays (native : h.Native v) : Stays (h.hashProtocol v) :=
  native.elim fun _ => hashAt_stays

theorem Native.equal_stays (ha : h.Native a) (hb : h.Native b) : Stays (h.equalityProtocol a b) := by
  obtain ⟨n, ha⟩ := ha
  obtain ⟨m, hb⟩ := hb
  exact equalityAt_stays (quietAt_mono (Nat.le_max_left n m) ha)
    (quietAt_mono (Nat.le_max_right n m) hb)

theorem Native.decides {j k : Key} {e : Bool} (ha : h.Native a) (hb : h.Native b) (hv : h.Valid)
    (hj : h.dictKey a = .ok j) (hk : h.dictKey b = .ok k)
    (run : h.equalityProtocol a b = .ok e) : e = true ↔ j = k := by
  obtain ⟨n, ha⟩ := ha
  obtain ⟨m, hb⟩ := hb
  let l := max (max n m) 101
  exact equalityAt_key hv (plainAt_mono (m := l) (by omega) (quiet_plain ha))
    (plainAt_mono (m := l) (by omega) (quiet_plain hb)) (dictKeyAt_mono (by omega) hj)
    (dictKeyAt_mono (by omega) hk) run

end Heap

end Tonic
