import Tonic.FloatKeys
import Tonic.IntegerSound
import Tonic.KeyFrame
import Tonic.Membership
import Tonic.SequencesSound

/-!
## The views of a range

A range is the progression from its start by its step. Iterating and indexing it, its two lengths,
membership and a sequence pattern are compared with that progression.
-/

namespace Tonic

open Effect FixedWidth Progression

/-! ### The arithmetic -/

section Lengths

variable {start stop step : Int}

theorem rangeLen_eq (nonzero : step ≠ 0) : rangeLen start stop step = size start stop step := by
  unfold rangeLen size
  by_cases up : 0 < step
  · simp only [up, if_true]
    have shift : stop - start + step - 1 = stop - start - 1 + step := by ring
    split
    · next beyond =>
      have small : (stop - start + step - 1) / step ≤ 0 := by
        apply Int.lt_add_one_iff.mp
        apply Int.ediv_lt_of_lt_mul up
        omega
      omega
    · next more =>
      have rest : 0 ≤ (stop - start - 1) / step := Int.ediv_nonneg (by omega) (by omega)
      rw [shift, Int.add_ediv_of_dvd_right (dvd_refl step), Int.ediv_self nonzero]
      omega
  · simp only [up, if_false]
    have shift : start - stop - step - 1 = start - stop - 1 + -step := by ring
    split
    · next beyond =>
      have small : (start - stop - step - 1) / -step ≤ 0 := by
        apply Int.lt_add_one_iff.mp
        apply Int.ediv_lt_of_lt_mul (by omega)
        omega
      omega
    · next more =>
      have rest : 0 ≤ (start - stop - 1) / -step := Int.ediv_nonneg (by omega) (by omega)
      rw [shift, Int.add_ediv_of_dvd_right (dvd_refl (-step)), Int.ediv_self (by omega)]
      omega

theorem rangeLength_eq (start stop step : Int) :
    rangeLength start stop step = rangeLen start stop step := by
  unfold rangeLength rangeLen
  split
  · rw [show stop - 1 - start = stop - start - 1 by ring, Int.add_comm 1]
  · rw [show start - 1 - stop = start - stop - 1 by ring, Int.add_comm 1]

/-- Every term of a range is a word, and so is all that is computed on the way to it. -/
theorem fits_of_mem (nonzero : step ≠ 0) (fits : Fits 64 start ∧ Fits 64 stop ∧ Fits 64 step)
    {n : Int} (mem : n ∈ terms start stop step) : Fits 64 n ∧ Fits 128 (n + step) := by
  obtain ⟨⟨startLow, startHigh⟩, ⟨stopLow, stopHigh⟩, stepLow, stepHigh⟩ := fits
  simp only [Fits] at *
  rcases bound_of_mem nonzero mem with ⟨up, low, high⟩ | ⟨down, low, high⟩
  · omega
  · omega

theorem size_fits (fits : Fits 64 start ∧ Fits 64 stop ∧ Fits 64 step) (nonzero : step ≠ 0) :
    Fits 128 (size start stop step) := by
  obtain ⟨⟨startLow, startHigh⟩, ⟨stopLow, stopHigh⟩, stepLow, stepHigh⟩ := fits
  simp only [Fits] at *
  have bound := @size_le start stop step nonzero
  omega

end Lengths

/-! ### Numbers that a view hands out -/

namespace Heap

variable {h t : Heap} {v it : Value} {n : Int}

/-- A plain integer: an immediate one, or an object of its own. -/
def Whole (h : Heap) (v : Value) (n : Int) : Prop :=
  v.integer = some n ∨ h.tryGet v = some (.int n)

namespace Whole

theorem number (whole : h.Whole v n) : h.number v = some (.int n) := by
  rcases whole with immediate | boxed
  · simp [Heap.number, nativeValue_of_integer immediate, immediate]
  · have native : h.nativeValue v = v := by simp [Heap.nativeValue, boxed]
    have large : v.integer = none := by
      cases imm : v.integer with
      | none => rfl
      | some m => simp [tryGet_of_integer imm] at boxed
    simp [Heap.number, native, boxed, large]

theorem keptBut {but : Option Value} (kept : KeptBut h t but) (hs : Sound h) (apart : some v ≠ but)
    (whole : h.Whole v n) : t.Whole v n := by
  rcases whole with immediate | boxed
  · exact .inl immediate
  · exact .inr ((kept.same v (issued_of_tryGet hs boxed) apart).trans boxed)

theorem apart {next stop step : Int} (whole : h.Whole v n)
    (found : h.tryGet it = some (.rangeIterator next stop step)) : some v ≠ some it := by
  rintro ⟨rfl⟩
  rcases whole with immediate | boxed
  · rw [tryGet_of_integer immediate] at found
    cases found
  · rw [boxed] at found
    cases found

theorem issued (whole : h.Whole v n) (hs : Sound h) : h.Issued v := by
  rcases whole with immediate | boxed
  · cases v with
    | heap => cases immediate
    | _ => trivial
  · exact issued_of_tryGet hs boxed

theorem all_issued (hs : Sound h) {values : List Value} {numbers : List Int}
    (all : List.Forall₂ h.Whole values numbers) : ∀ w ∈ values, h.Issued w := by
  induction all with
  | nil => exact List.forall_mem_nil _
  | cons whole _ ih => exact List.forall_mem_cons.mpr ⟨whole.issued hs, ih⟩

/-- No method of the program is found for a plain integer. -/
theorem operatorMethodCall (whole : h.Whole v n) (name : String) :
    h.operatorMethodCall v name = .ok none := by
  unfold Heap.operatorMethodCall specialMethodCall
  rcases whole with immediate | boxed
  · rw [tryGet_of_integer immediate]
    rfl
  · rw [boxed]
    rfl

end Whole

/-- Whether an integer becomes an object of its own. -/
def boxed (n : Int) : Bool := (Value.int n).isNone

/-- How many of the integers need a handle. -/
def handles (numbers : List Int) : Nat := numbers.countP boxed

theorem ends_allocInt (hs : Sound h) (n : Int) :
    ends (allocInt n)
      (fun v t => KeptBut h t none ∧ t.Whole v n ∧ t.room + handles [n] = h.room)
      (fun e t => Exhausted e ∧ t = h ∧ h.room < handles [n]) h := by
  unfold allocInt
  split
  · next v eq =>
    obtain ⟨m, fits, immediate⟩ := Option.bind_eq_some_iff.mp eq
    obtain ⟨-, rfl⟩ := checked_eq_some.mp fits
    refine ⟨.refl hs none, .inl (integer_of_int immediate), ?_⟩
    simp [handles, boxed, immediate]
  · next eq =>
    have large : Value.int n = none := by
      cases imm : Value.int n with
      | none => rfl
      | some v =>
        have fits := (immediate_of_integer (integer_of_int imm)).fits
        simp [checked, fits, imm] at eq
    have one : handles [n] = 1 := by simp [handles, boxed, large]
    have made : ends (alloc (.int n)) _ (fun e t => t = h ∧ h.room = 0 ∧ Exhausted e) h :=
      ends_of_wp (wp_and (wp_alloc_stores hs (by simp [Object.trace])) (wp_alloc_room hs))
        fun e t failed full => ⟨full.2.1, full.2.2, alloc_error full.2.2 failed⟩
    refine ends_mono made ?_ ?_
    · rintro v t ⟨⟨after, stores, new, -⟩, room⟩
      refine ⟨⟨after, fun w old _ => stores.others fun same => new (same ▸ old)⟩,
        .inr stores.stored, ?_⟩
      rw [one, room]
    · rintro e t ⟨rfl, full, exhausted⟩
      exact ⟨exhausted, rfl, by omega⟩

/-! ### The length and the items -/

section Views

variable {start stop step : Int} {index : Value}

theorem length_range (hs : Sound h)
    (ho : h.tryGet (h.nativeValue v) = some (.range start stop step)) (nonzero : step ≠ 0) :
    ends (Tonic.length v) (fun r t => t.number r = some (.int (size start stop step)))
      (fun e _ => Exhausted e) h := by
  have count : h.lengthOf v = .ok (rangeLen start stop step) := by
    simp only [lengthOf, get_ok ho, Outcome.ok_bind]
    rfl
  unfold Tonic.length
  rw [ends_bind, ends_reading, count, ← rangeLen_eq nonzero]
  apply ends_mono (ends_allocInt hs (rangeLen start stop step))
  · intro r t made
    exact made.2.1.number
  · exact fun _ _ failed => failed.1

variable [HostLibrary]

omit [HostLibrary] in
theorem not_slice_of_number {i : Int} (hi : h.number index = some (.int i)) {a b c : Value} :
    h.tryGet index ≠ some (.slice a b c) := by
  intro found
  have native : h.nativeValue index = index := by simp [Heap.nativeValue, found]
  have large : index.integer = none := by
    cases imm : index.integer with
    | none => rfl
    | some m => simp [tryGet_of_integer imm] at found
  simp [number, native, large, found] at hi

omit [HostLibrary] in
theorem indexedItem_range (i : Int) :
    indexedItem (.range start stop step) i =
      if fitsI128 i = true ∧ 0 ≤ fromEnd (rangeLen start stop step) i ∧
        fromEnd (rangeLen start stop step) i < rangeLen start stop step
      then allocInt (start + fromEnd (rangeLen start stop step) i * step)
      else throw outOfRange := by
  by_cases inside : fitsI128 i = true ∧ 0 ≤ fromEnd (rangeLen start stop step) i ∧
    fromEnd (rangeLen start stop step) i < rangeLen start stop step
  · obtain ⟨fits, low, high⟩ := inside
    rw [if_pos ⟨fits, low, high⟩]
    have within : ¬ (fromEnd (rangeLen start stop step) i < 0 ∨
        rangeLen start stop step ≤ fromEnd (rangeLen start stop step) i) := by omega
    simp only [indexedItem, fits, Bool.not_true, Bool.false_eq_true, if_false, Object.subscripts,
      if_neg within]
    rfl
  · rw [if_neg inside]
    unfold indexedItem
    split
    · rfl
    · next fits =>
      simp only [Bool.not_eq_true', Bool.not_eq_false] at fits
      simp only [Object.subscripts]
      rw [if_pos]
      by_contra within
      exact inside ⟨fits, by omega, by omega⟩

/-- Indexing a range comes down to the item at a position. -/
theorem item_range_eq (ho : h.tryGet (h.nativeValue v) = some (.range start stop step))
    {i : Int} (hi : h.number index = some (.int i)) :
    item v index h = indexedItem (.range start stop step) i h := by
  have raw := integer_of_number hi
  have get : h.get (h.nativeValue v) = .ok (.range start stop step) := get_ok ho
  have read : (reading (fun t : Heap => t.integer index) >>= indexedItem (.range start stop step))
      h = indexedItem (.range start stop step) i h :=
    reading_bind_ok (f := fun t : Heap => t.integer index) raw _
  unfold item getObject
  show (reading (fun t : Heap => t.get (h.nativeValue v)) >>= _) h = _
  rw [reading_bind_ok (f := fun t : Heap => t.get (h.nativeValue v)) get]
  dsimp only
  rw [bind_ok (show tryGetObject index h = .ok (h.tryGet index) h from rfl)]
  cases found : h.tryGet index with
  | none => exact read
  | some o =>
    cases o
    case slice a b c => exact absurd found (not_slice_of_number hi)
    all_goals exact read

theorem item_range (hs : Sound h) (ho : h.tryGet (h.nativeValue v) = some (.range start stop step))
    (fits : Fits 64 start ∧ Fits 64 stop ∧ Fits 64 step) (nonzero : step ≠ 0) {i : Int}
    (hi : h.number index = some (.int i))
    (inside : -(size start stop step : Int) ≤ i ∧ i < size start stop step) :
    ends (item v index)
      (fun r t => t.number r = some (.int (start + fromEnd (size start stop step) i * step)))
      (fun e _ => Exhausted e) h := by
  have count := @rangeLen_eq start stop step nonzero
  have short := size_fits fits nonzero
  have word : fitsI128 i = true := by
    simp only [Fits] at short
    simp only [fitsI128, Bool.and_eq_true, decide_eq_true_eq]
    omega
  have at' : 0 ≤ fromEnd (size start stop step) i ∧
      fromEnd (size start stop step) i < size start stop step := by
    unfold fromEnd
    split <;> omega
  have here := item_range_eq ho hi
  rw [indexedItem_range, count, if_pos ⟨word, at'⟩] at here
  unfold ends
  rw [here]
  exact ends_mono (ends_allocInt hs _) (fun _ _ made => made.2.1.number) fun _ _ failed => failed.1

theorem item_range_outside
    (ho : h.tryGet (h.nativeValue v) = some (.range start stop step)) (nonzero : step ≠ 0) {i : Int}
    (hi : h.number index = some (.int i))
    (outside : ¬ (-(size start stop step : Int) ≤ i ∧ i < size start stop step)) :
    item v index h = .error outOfRange h := by
  have count := @rangeLen_eq start stop step nonzero
  have here := item_range_eq ho hi
  rw [indexedItem_range, count, if_neg] at here
  · exact here
  · rintro ⟨-, low, high⟩
    unfold fromEnd at low high
    split at low <;> omega

end Views

/-! ### Iteration -/

section Iteration

variable {start stop step next : Int}

theorem ends_next_range_item (hs : Sound h)
    (hit : h.tryGet it = some (.rangeIterator next stop step)) (nonzero : step ≠ 0) :
    ends (iteratorNext it)
      (fun r t => ¬ Before step stop next ∧ r = none ∧ t = h ∨
        Before step stop next ∧ ∃ v, r = some v ∧ KeptBut h t (some it) ∧ t.Whole v next ∧
          t.tryGet it = some (.rangeIterator (next + step) stop step))
      (fun e _ => Exhausted e) h := by
  have moved : ends (setObject it (.rangeIterator (next + step) stop step))
      (fun _ t => KeptBut h t (some it) ∧
        t.tryGet it = some (.rangeIterator (next + step) stop step)) (fun _ _ => False) h := by
    have safe : Replaces h it (.rangeIterator next stop step)
        (.rangeIterator (next + step) stop step) :=
      .shrink (by simp [Object.trace]) (by simp [Object.ancestors])
    have stored : wp (setObject it (.rangeIterator (next + step) stop step))
        (fun _ t => Stores h t it (.rangeIterator (next + step) stop step)) (fun _ => False) h :=
      wp_setObject_stores hs.valid hit fun _ => id
    apply ends_of_wp (wp_mono (wp_and (wp_setObject hs.after hit safe) stored) ?_ fun _ => id)
    · exact fun _ _ _ failed => failed.2
    · rintro _ t ⟨⟨after, found⟩, stores⟩
      exact ⟨⟨after, fun v _ ne => stores.others fun eq => ne (eq ▸ rfl)⟩, found⟩
  have beyond : (0 < step ∧ stop ≤ next ∨ step < 0 ∧ next ≤ stop) ↔ ¬ Before step stop next := by
    unfold Before
    omega
  unfold iteratorNext
  rw [ends_bind, getObject, ends_reading, get_ok hit]
  simp only
  split
  · next done => exact .inl ⟨beyond.mp done, rfl, rfl⟩
  · next more =>
    have before : Before step stop next := by
      by_contra no
      exact more (beyond.mpr no)
    rw [ends_bind]
    apply ends_mono moved
    · rintro _ t ⟨kept, found⟩
      show ends (allocInt next >>= fun v => pure (some v)) _ _ t
      rw [ends_bind]
      apply ends_mono (ends_allocInt kept.after.1 next)
      · rintro v u ⟨later, whole, -⟩
        have issued : t.Issued it := issued_of_tryGet kept.after.1 found
        exact .inr ⟨before, v, rfl, kept.trans (later.weaken _), whole,
          (later.same it issued (by simp)).trans found⟩
      · exact fun _ _ failed => failed.1
    · exact fun _ _ failed => failed.elim

/-- All that an iterator still gives, asked a number of times. -/
def drain (it : Value) : Nat → HeapM (List Value)
  | 0 => return []
  | times + 1 => do
    match ← iteratorNext it with
    | none => return []
    | some v => return v :: (← drain it times)

theorem drain_range (hs : Sound h) (hit : h.tryGet it = some (.rangeIterator next stop step))
    (nonzero : step ≠ 0) {times : Nat} (enough : size next stop step < times) :
    ends (drain it times)
      (fun values t => KeptBut h t (some it) ∧
        List.Forall₂ t.Whole values (terms next stop step))
      (fun e _ => Exhausted e) h := by
  induction times generalizing h next with
  | zero => omega
  | succ times ih =>
    unfold drain
    rw [ends_bind]
    apply ends_mono (ends_next_range_item hs hit nonzero)
    · rintro r t (⟨beyond, rfl, rfl⟩ | ⟨before, v, rfl, kept, whole, found⟩)
      · simp only [ends_pure, terms_of_not_before nonzero beyond]
        exact ⟨.refl hs _, .nil⟩
      · have rest := ih kept.after.1 found (by rw [size_succ nonzero before] at enough; omega)
        simp only [ends_bind, ends_pure, terms_of_before nonzero before]
        apply ends_mono rest
        · rintro values u ⟨later, all⟩
          exact ⟨kept.trans later, .cons (whole.keptBut later kept.after.1 (whole.apart found)) all⟩
        · exact fun _ _ failed => failed
    · exact fun _ _ failed => failed

end Iteration

/-! ### Membership -/

theorem KeptBut.alike (kept : KeptBut h t none) (hs : Sound h) : h.Alike t h.Issued where
  same hv := .inl (kept.same _ hv (by simp))
  closed _ ho hw := hs.valid.issued_trace ho hw

/-- Whether the integer is equal to a value, if that is a number. -/
def meets (x : Int) : Option Number → Bool
  | some p => (Number.int x).order p == some .eq
  | none => false

variable [HostLibrary] {start stop step next : Int} {needle item : Value} {x : Int}

theorem equal_whole (whole : h.Whole item x) (apart : item ≠ needle) :
    h.equal item needle 0 = .ok (meets x (h.number needle)) := by
  have number := whole.number
  have room : 101 - 0 = 100 + 1 := rfl
  rw [equal, room, equalAt, numeric_eq, numeric_eq, number]
  cases other : h.number needle with
  | some p =>
    simp only [Option.isSome_some, Bool.and_self, if_true, numberOrder_eq number other]
    rfl
  | none =>
    simp only [Option.isSome_none, Bool.and_false, Bool.false_eq_true, if_false, if_neg apart]
    have content : ∀ o, h.tryGet (h.nativeValue item) = some o → o = .int x := by
      intro o found
      rcases whole with immediate | boxed
      · rw [nativeValue_of_integer immediate, tryGet_of_integer immediate] at found
        cases found
      · have native : h.nativeValue item = item := by simp [Heap.nativeValue, boxed]
        rw [native, boxed] at found
        cases found
        rfl
    cases found : h.tryGet (h.nativeValue item) with
    | none => rfl
    | some o =>
      cases content o found
      rfl

theorem equalityProtocol_whole (whole : h.Whole item x)
    (plain : h.operatorMethodCall needle "__eq__" = .ok none) :
    h.equalityProtocol item needle = .ok (meets x (h.number needle)) := by
  show h.equalityStep (pairwise (h.equalityAt 31)) (protocolNestingLimit - (31 + 1)) item needle = _
  unfold equalityStep
  by_cases same : item = needle
  · rw [if_pos same, ← same, whole.number]
    simp [meets, Number.order]
  · have own : h.overloadsEquality item needle = .ok false := by
      simp only [overloadsEquality, whole.operatorMethodCall, plain, Outcome.ok_bind]
      rfl
    have numeric : h.numeric item = true := by rw [numeric_eq, whole.number]; rfl
    rw [if_neg same, own]
    simp only [numeric, Bool.true_or, if_true, equal_whole whole same]
    rfl

/-- An error of the protocol that comes from a full heap. -/
def Stop.Full (e : Stop) : Prop := ∃ f, e = .fails f ∧ Exhausted f

omit [HostLibrary] in
theorem ends_within {α : Type} {m : HeapM α} {Q : α → Heap → Prop} {F : Fault → Heap → Prop}
    {G : Stop → Heap → Prop} (run : ends m Q F h) (failed : ∀ f t, F f t → G (.fails f) t) :
    ends (Stop.within m) Q G h := by
  unfold ends at *
  unfold Stop.within EStateM.adaptExcept
  cases eq : m h with
  | ok a t => rwa [eq] at run
  | error f t =>
    rw [eq] at run
    exact failed f t run

theorem continueMembership_native {o : Object} (hit : h.tryGet it = some o)
    (asleep : resumable o = false) (native : isIterator o = true) {items : Nat}
    {Q : Option Bool → Heap → Prop} {F : Stop → Heap → Prop} :
    ends (continueMembership needle it (items + 1)) Q F h =
      ends (Stop.within (iteratorNext it) >>= fun r =>
        match r with
        | none => return some false
        | some item => do
          if ← reading (·.equalityProtocol item needle) then return some true
          continueMembership needle it items) Q F h := by
  have looked (k : Option Object → ProtocolM (Option Bool)) :
      ends (Stop.within (tryGetObject it) >>= k) Q F h = ends (k (some o)) Q F h := by
    rw [← hit]
    rfl
  rw [continueMembership, looked]
  simp only [Option.any_some, asleep, native, Bool.false_eq_true, if_false, if_true] <;> rfl

theorem continueMembership_range {h₀ : Heap} (hs₀ : Sound h₀) (issued : h₀.Issued needle)
    (plain : h₀.operatorMethodCall needle "__eq__" = .ok none) (new : ¬ h₀.Issued it)
    (nonzero : step ≠ 0) {items : Nat} (enough : size next stop step < items)
    (kept : KeptBut h₀ h none) (hit : h.tryGet it = some (.rangeIterator next stop step)) :
    ends (continueMembership needle it items)
      (fun r _ => r = some ((terms next stop step).any (meets · (h₀.number needle))))
      (fun e _ => Stop.Full e) h := by
  induction items generalizing h next with
  | zero => omega
  | succ items ih =>
    have asked : ends (Stop.within (iteratorNext it)) _ (fun e _ => Stop.Full e) h :=
      ends_within (ends_next_range_item kept.after.1 hit nonzero)
        fun f _ full => ⟨f, rfl, full⟩
    rw [continueMembership_native hit rfl rfl, ends_bind]
    apply ends_mono asked
    · rintro r t (⟨beyond, rfl, rfl⟩ | ⟨before, item, rfl, step', whole, found⟩)
      · simp only [ends_pure, terms_of_not_before nonzero beyond]
        rfl
      · have kept' : KeptBut h₀ t none := kept.beyond step' (by rintro _ ⟨rfl⟩; exact new)
        have alike := kept'.alike hs₀
        have plain' : t.operatorMethodCall needle "__eq__" = .ok none :=
          (alike.operatorMethodCall issued).trans plain
        have decided := equalityProtocol_whole whole plain'
        rw [alike.number issued] at decided
        simp only [ends_bind, ends_reading, decided, terms_of_before nonzero before, List.any_cons]
        cases meets next (h₀.number needle) with
        | true => rfl
        | false =>
          rw [size_succ nonzero before] at enough
          exact ih (by omega) kept' found
    · exact fun _ _ failed => failed

omit [HostLibrary] in
theorem ends_within_reading {α β : Type} {f : Heap → Except Fault α} {a : α} (eq : f h = .ok a)
    (k : α → ProtocolM β) {Q : β → Heap → Prop} {F : Stop → Heap → Prop} :
    ends (Stop.within (reading f) >>= k) Q F h = ends (k a) Q F h := by
  have read : Stop.within (reading f) h = .ok a h := by
    simp only [Stop.within, EStateM.adaptExcept, reading, eq]
  unfold ends
  rw [bind_ok read]

omit [HostLibrary] in
theorem ends_iterator_range (hs : Sound h)
    (ho : h.tryGet (h.nativeValue v) = some (.range start stop step)) :
    ends (iterator v)
      (fun it t => KeptBut h t none ∧ ¬ h.Issued it ∧
        t.tryGet it = some (.rangeIterator start stop step))
      (fun e _ => Exhausted e) h := by
  have made : iterator v h = alloc (.rangeIterator start stop step) h := by
    unfold iterator getObject
    show (reading (fun t : Heap => t.get (h.nativeValue v)) >>= _) h = _
    rw [reading_bind_ok (f := fun t : Heap => t.get (h.nativeValue v)) (get_ok ho)]
  unfold ends
  rw [made]
  apply ends_mono (ends_alloc hs (by simp [Object.trace]))
  · rintro it t ⟨kept, found, new, -⟩
    exact ⟨kept, new, found⟩
  · exact fun _ _ failed => failed

omit [HostLibrary] in
/-- An iterator that the heap makes is the one that membership uses. -/
theorem ends_membershipIterator {Q : Value → Heap → Prop}
    (made : ends (iterator v) Q (fun e _ => Exhausted e) h) :
    ends (membershipIterator v) Q (fun e _ => Stop.Full e) h := by
  unfold ends at *
  unfold membershipIterator
  cases eq : iterator v h with
  | ok it t =>
    rw [eq] at made
    exact made
  | error f t =>
    rw [eq] at made
    obtain ⟨kind, message, limit, rfl⟩ := made
    rcases limit with rfl | rfl
    · exact ⟨_, rfl, _, _, .inl rfl, rfl⟩
    · exact ⟨_, rfl, _, _, .inr rfl, rfl⟩

theorem membership_range (hs : Sound h) (ho : h.tryGet v = some (.range start stop step))
    (nonzero : step ≠ 0) (issued : h.Issued needle)
    (plain : h.operatorMethodCall needle "__eq__" = .ok none) {items : Nat}
    (enough : size start stop step < items) :
    ends (membership needle v items)
      (fun r _ => r = some ((terms start stop step).any (meets · (h.number needle))))
      (fun e _ => Stop.Full e) h := by
  have native : h.nativeValue v = v := by simp [Heap.nativeValue, ho]
  have none : h.operatorMethodCall v "__contains__" = .ok none := by
    unfold Heap.operatorMethodCall specialMethodCall
    rw [ho]
    rfl
  unfold membership Tonic.nativeValue tryGetObject
  rw [ends_within_reading none]
  simp only [Option.isSome_none, Bool.false_eq_true, if_false]
  rw [ends_within_reading (f := fun t : Heap => .ok (t.nativeValue v)) rfl, native,
    ends_within_reading (f := fun t : Heap => .ok (t.nativeValue needle)) rfl,
    ends_within_reading (f := fun t : Heap => .ok (t.tryGet v)) rfl, ho]
  simp only [ends_bind]
  apply ends_mono (ends_membershipIterator (ends_iterator_range hs (native ▸ ho)))
  · rintro it t ⟨kept, new, found⟩
    exact continueMembership_range hs issued plain new nonzero enough kept found
  · exact fun _ _ failed => failed

/-! ### Sequence patterns -/

omit [HostLibrary] in
/-- The walk of a pattern takes every term, unless the heap is full, and then computes the number
after the last one in a word. -/
theorem rangeItems_spec (hs : Sound h) (nonzero : step ≠ 0) (next : Int) {items : List Value}
    {before : List Int} (inside : ∀ n ∈ terms next stop step, Fits 64 n) (start : Fits 64 next)
    (all : List.Forall₂ h.Whole items before) :
    ends (rangeItems stop step next items)
      (fun values t => KeptBut h t none ∧
        List.Forall₂ t.Whole values (before ++ terms next stop step) ∧
        Fits 64 (next + size next stop step * step) ∧
        handles (terms next stop step) ≤ h.room)
      (fun e _ => Exhausted e ∧ h.room < handles (terms next stop step) ∨
        e = .raise "OverflowError" "range pattern overflow" ∧
          ¬ Fits 64 (next + size next stop step * step) ∧
          handles (terms next stop step) ≤ h.room) h := by
  induction eq : size next stop step generalizing h next items before with
  | zero =>
    have beyond : ¬ Before step stop next := by
      rw [before_start nonzero]
      omega
    rw [rangeItems, dif_neg beyond, terms_of_not_before nonzero beyond]
    exact ⟨.refl hs _, by simpa using all, by simpa using start, by simp [handles]⟩
  | succ count ih =>
    have more : Before step stop next := (before_start nonzero).mpr (by omega)
    have rest : size (next + step) stop step = count := by
      rw [size_succ nonzero more] at eq
      omega
    have shift : next + (count + 1 : Nat) * step = next + step + count * step := by
      push_cast
      ring
    have split : handles (terms next stop step) =
        handles [next] + handles (terms (next + step) stop step) := by
      rw [terms_of_before nonzero more, handles, handles, handles, ← List.countP_append]
      rfl
    rw [rangeItems, dif_pos more, ends_bind, split, shift]
    apply ends_mono (ends_allocInt hs next)
    · rintro v t ⟨kept, whole, room⟩
      have all' : List.Forall₂ t.Whole (items ++ [v]) (before ++ [next]) :=
        List.rel_append (all.imp fun {_ _} old => old.keptBut kept hs (by simp)) (.cons whole .nil)
      by_cases fits : Fits 64 (next + step)
      · rw [if_pos fits]
        have inside' : ∀ n ∈ terms (next + step) stop step, Fits 64 n := fun n mem =>
          inside n (terms_of_before nonzero more ▸ List.mem_cons_of_mem _ mem)
        have run := ih kept.after.1 (next + step) inside' fits all' rest
        rw [terms_of_before nonzero more]
        apply ends_mono run
        · rintro values u ⟨later, good, last, few⟩
          exact ⟨kept.trans later, by simpa using good, last, by omega⟩
        · rintro e u (⟨full, few⟩ | ⟨rfl, wide, few⟩)
          · exact .inl ⟨full, by omega⟩
          · exact .inr ⟨rfl, wide, by omega⟩
      · rw [if_neg fits]
        have beyond : ¬ Before step stop (next + step) := by
          intro again
          apply fits
          apply inside
          rw [terms_of_before nonzero more, terms_of_before nonzero again]
          simp
        have none : count = 0 := rest ▸ size_of_not_before nonzero beyond
        rw [terms_of_not_before nonzero beyond, none]
        exact .inr ⟨rfl, by simpa using fits, by simp [handles] at room ⊢; omega⟩
    · rintro e t ⟨full, -, few⟩
      exact .inl ⟨full, by omega⟩

omit [HostLibrary] in
theorem matchSequence_range (hs : Sound h) (ho : h.tryGet v = some (.range start stop step))
    (fits : Fits 64 start ∧ Fits 64 stop ∧ Fits 64 step) (nonzero : step ≠ 0) (operand : Nat) :
    ends (matchSequence operand v)
      (fun r t => (Fits 64 (start + size start stop step * step) ∧
          handles (terms start stop step) ≤ h.room) ∧
        if admits operand (size start stop step) then
          ∃ values, t.tryGet r = some (.list values) ∧
            List.Forall₂ t.Whole values (terms start stop step)
        else r = .none)
      (fun e _ => Exhausted e ∧ (Fits 64 (start + size start stop step * step) ∨
          h.room < handles (terms start stop step)) ∨
        e = .raise "OverflowError" "range pattern overflow" ∧
          ¬ Fits 64 (start + size start stop step * step) ∧
          handles (terms start stop step) ≤ h.room) h := by
  have native : h.nativeValue v = v := by simp [Heap.nativeValue, ho]
  have words : ∀ n ∈ terms start stop step, Fits 64 n := fun n mem =>
    (fits_of_mem nonzero fits mem).1
  unfold matchSequence Tonic.nativeValue getObject
  simp only [ends_bind, ends_reading, native, get_ok ho, ends_map]
  apply ends_mono (rangeItems_spec hs nonzero start words fits.1 .nil)
  · rintro values t ⟨kept, all, last, few⟩
    simp only [all.length_eq, List.nil_append, length_terms]
    split
    · have held : ∀ w ∈ (Object.list values).trace, t.Issued w :=
        Whole.all_issued kept.after.1 all
      apply ends_mono (ends_alloc kept.after.1 held)
      · rintro r u ⟨later, found, -⟩
        refine ⟨⟨last, few⟩, values, found, ?_⟩
        exact all.imp fun {_ _} old => old.keptBut later kept.after.1 (by simp)
      · exact fun _ _ full => .inl ⟨full, .inl last⟩
    · exact ⟨⟨last, few⟩, rfl⟩
  · rintro e t (⟨full, many⟩ | wide)
    · exact .inl ⟨full, .inr many⟩
    · exact .inr wide

/-! ### All views of one range -/

/-- Every view of a range shows the progression from its start by its step, and fails for no other
reason than a full heap. -/
structure RangeRight (h : Heap) (v : Value) (start stop step : Int) : Prop where
  lengths : rangeLen start stop step = size start stop step ∧
    rangeLength start stop step = size start stop step
  widths : Fits 128 (size start stop step) ∧
    ∀ n ∈ terms start stop step, Fits 64 n ∧ Fits 128 (n + step)
  length : ends (Tonic.length v) (fun r t => t.number r = some (.int (size start stop step)))
    (fun e _ => Exhausted e) h
  iterates : ∀ times, size start stop step < times →
    ends (iterator v >>= fun it => drain it times)
      (fun values t => List.Forall₂ t.Whole values (terms start stop step))
      (fun e _ => Exhausted e) h
  item : ∀ index i, h.number index = some (.int i) →
    -(size start stop step : Int) ≤ i → i < size start stop step →
    ends (Tonic.item v index)
      (fun r t => t.number r =
        (terms start stop step)[(fromEnd (size start stop step) i).toNat]?.map Number.int)
      (fun e _ => Exhausted e) h
  outside : ∀ index i, h.number index = some (.int i) →
    ¬ (-(size start stop step : Int) ≤ i ∧ i < size start stop step) →
    Tonic.item v index h = .error outOfRange h
  contains : ∀ needle, h.Issued needle → h.operatorMethodCall needle "__eq__" = .ok none →
    ∀ items, size start stop step < items →
    ends (membership needle v items)
      (fun r _ => r = some ((terms start stop step).any (meets · (h.number needle))))
      (fun e _ => Stop.Full e) h
  pattern : ∀ operand, ends (matchSequence operand v)
    (fun r t => if admits operand (size start stop step) then
        ∃ values, t.tryGet r = some (.list values) ∧
          List.Forall₂ t.Whole values (terms start stop step)
      else r = .none)
    (fun e _ => Exhausted e) h

omit [HostLibrary] in
/-- An integer is equal to a term exactly if it is one. -/
theorem any_meets (n : Int) (numbers : List Int) :
    numbers.any (meets · (some (.int n))) = decide (n ∈ numbers) := by
  have each (x : Int) : meets x (some (.int n)) = decide (x = n) := by
    simp only [meets, Number.order]
    by_cases same : x = n
    · simp [same]
    · have apart : compare x n ≠ .eq := mt compare_eq_iff_eq.mp same
      simp [same, apart]
  simp only [each]
  rw [Bool.eq_iff_iff]
  simp

theorem RangeRight.contains_int (right : h.RangeRight v start stop step) {n : Int}
    (number : h.number needle = some (.int n)) (issued : h.Issued needle)
    (plain : h.operatorMethodCall needle "__eq__" = .ok none) {items : Nat}
    (enough : size start stop step < items) :
    ends (membership needle v items) (fun r _ => r = some (decide (n ∈ terms start stop step)))
      (fun e _ => Stop.Full e) h := by
  rw [← any_meets, ← number]
  exact right.contains needle issued plain items enough

omit [HostLibrary] in
theorem overflow_not_exhausted {message : String} :
    ¬ Exhausted (.raise "OverflowError" message) := by
  rintro ⟨kind, text, rfl | rfl, same⟩ <;> simp [Fault.raise] at same

theorem pattern_overflows (hs : Sound h) (ho : h.tryGet v = some (.range start stop step))
    (fits : Fits 64 start ∧ Fits 64 stop ∧ Fits 64 step) (nonzero : step ≠ 0)
    (wide : ¬ Fits 64 (start + size start stop step * step))
    (few : handles (terms start stop step) ≤ h.room) : ¬ h.RangeRight v start stop step := by
  intro right
  have good := right.pattern 0
  have run := matchSequence_range hs ho fits nonzero 0
  unfold ends at good run
  cases eq : matchSequence 0 v h with
  | ok r t =>
    rw [eq] at run
    exact wide run.1.1
  | error e t =>
    rw [eq] at good run
    rcases run with ⟨-, last | many⟩ | ⟨rfl, -⟩
    · exact wide last
    · omega
    · exact overflow_not_exhausted good

/-- A pattern computes the number after the last item of a range, which may be no word. -/
theorem range_right (hs : Sound h) (ho : h.tryGet v = some (.range start stop step))
    (fits : Fits 64 start ∧ Fits 64 stop ∧ Fits 64 step) (nonzero : step ≠ 0) :
    h.RangeRight v start stop step ↔
      Fits 64 (start + size start stop step * step) ∨
        h.room < handles (terms start stop step) := by
  have native : h.tryGet (h.nativeValue v) = some (.range start stop step) := by
    simp [Heap.nativeValue, ho]
  constructor
  · intro right
    by_contra wide
    obtain ⟨wide, few⟩ := not_or.mp wide
    exact pattern_overflows hs ho fits nonzero wide (by omega) right
  · intro good
    refine ⟨⟨rangeLen_eq nonzero, (rangeLength_eq ..).trans (rangeLen_eq nonzero)⟩,
      ⟨size_fits fits nonzero, fun n => fits_of_mem nonzero fits⟩, length_range hs native nonzero,
      ?_, ?_, fun index i hi => item_range_outside native nonzero hi, ?_, ?_⟩
    · intro times enough
      rw [ends_bind]
      apply ends_mono (ends_iterator_range hs native)
      · rintro it t ⟨kept, new, found⟩
        exact ends_mono (drain_range kept.after.1 found nonzero enough)
          (fun _ _ made => made.2) fun _ _ failed => failed
      · exact fun _ _ failed => failed
    · intro index i hi low high
      have position : 0 ≤ fromEnd (size start stop step) i ∧
          fromEnd (size start stop step) i < size start stop step := by
        unfold fromEnd
        split <;> omega
      have at' : ((fromEnd (size start stop step) i).toNat : Int) =
          fromEnd (size start stop step) i := by omega
      rw [getElem?_terms, if_pos (by omega), at']
      exact item_range hs native fits nonzero hi ⟨low, high⟩
    · intro needle issued plain items enough
      exact membership_range hs ho nonzero issued plain enough
    · intro operand
      apply ends_mono (matchSequence_range hs ho fits nonzero operand)
      · exact fun r t made => made.2
      · rintro e t (⟨full, -⟩ | ⟨-, wide, few⟩)
        · exact full
        · rcases good with last | many
          · exact absurd last wide
          · omega

section LastWord

/-- A heap that holds one range. -/
def rangeHeap (start stop step : Int) : Heap := final (alloc (.range start stop step)) .empty

omit [HostLibrary] in
theorem rangeHeap_sound (start stop step : Int) : Sound (rangeHeap start stop step) := by
  have held : ∀ v ∈ (Object.range start stop step).trace, Heap.Issued .empty v := by
    simp [Object.trace]
  exact (wp_final (P := After .empty) (wp_mono (wp_alloc HeapState.start_proper.sound held)
    (fun _ _ made => made.1) fun _ => id)).1

omit [HostLibrary] in
theorem range_right_small :
    let _ : HostLibrary := ⟨String.length, List.length, fun _ => ""⟩
    (rangeHeap 0 7 3).RangeRight (.heap 0 1) 0 7 3 := by
  intro _
  have last : Fits 64 (0 + size 0 7 3 * 3) := by decide
  exact (range_right (rangeHeap_sound 0 7 3) rfl (by decide) (by decide)).mpr (.inl last)

omit [HostLibrary] in
/-- A range whose only item is the last but one of the words, with a step of two. -/
theorem last_word_not_matched :
    let _ : HostLibrary := ⟨String.length, List.length, fun _ => ""⟩
    let start : Int := 2 ^ 63 - 2
    let stop : Int := 2 ^ 63 - 1
    let h := rangeHeap start stop 2
    Sound h ∧ h.tryGet (.heap 0 1) = some (.range start stop 2) ∧ Fits 64 start ∧ Fits 64 stop ∧
      ¬ h.RangeRight (.heap 0 1) start stop 2 := by
  intro _ start stop h
  have words : Fits 64 start ∧ Fits 64 stop := by decide
  refine ⟨rangeHeap_sound _ _ _, rfl, words.1, words.2, ?_⟩
  apply pattern_overflows (rangeHeap_sound _ _ _) rfl
  · exact ⟨words.1, words.2, by decide⟩
  · decide
  · decide
  · decide

end LastWord

end Heap

end Tonic
