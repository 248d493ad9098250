import Tonic.Equality

/-!
## Numbers as keys

Two numbers compare equal exactly if they have the same key material, whichever of them are
floats: a finite double has one mantissa and exponent, so an integral one is told by its integer.
-/

namespace Tonic

namespace F64

variable {x y : F64}

/-- The mantissa has 53 bits, and its top bit is set unless the exponent is the smallest. -/
theorem scaled_normal (x : F64) :
    x.scaled.1 < 2 ^ 53 ∧ 1 ≤ x.scaled.2 ∧ (x.scaled.2 = 1 ∨ 2 ^ 52 ≤ x.scaled.1) := by
  have fraction : x.fraction < 2 ^ 52 := Nat.mod_lt _ (by decide)
  unfold scaled
  split
  · exact ⟨by omega, Nat.le_refl 1, .inl rfl⟩
  · exact ⟨by omega, by omega, .inr (by omega)⟩

theorem bits_of_scaled (same : x.scaled = y.scaled) : x.bits % 2 ^ 63 = y.bits % 2 ^ 63 := by
  have fraction : x.fraction < 2 ^ 52 := Nat.mod_lt _ (by decide)
  have fraction' : y.fraction < 2 ^ 52 := Nat.mod_lt _ (by decide)
  have parts : x.exponent = y.exponent ∧ x.fraction = y.fraction := by
    unfold scaled at same
    split at same <;> split at same <;> simp only [Prod.mk.injEq] at same <;> omega
  obtain ⟨exponent, fraction⟩ := parts
  simp only [F64.exponent, F64.fraction] at exponent fraction
  omega

/-- Two normal mantissas with their exponents only give one number if they are the same. -/
theorem scaled_unique {m e m' e' : Nat} (small : m < 2 ^ 53) (normal : e' = 1 ∨ 2 ^ 52 ≤ m')
    (positive : 1 ≤ e) (same : m * 2 ^ e = m' * 2 ^ e') : e' ≤ e ∨ m' = 0 := by
  rcases Nat.lt_or_ge e e' with lt | ge
  · right
    obtain ⟨k, rfl⟩ := Nat.exists_eq_add_of_lt lt
    have eq : m = m' * 2 ^ (k + 1) := by
      have pos : 0 < 2 ^ e := Nat.two_pow_pos e
      refine Nat.eq_of_mul_eq_mul_right pos (same.trans ?_)
      rw [show e + k + 1 = (k + 1) + e by omega, Nat.pow_add, Nat.mul_assoc]
    have large : 2 ^ 52 ≤ m' := normal.resolve_left (by omega)
    have two : 2 ≤ 2 ^ (k + 1) := by
      rw [Nat.pow_succ]
      have := Nat.two_pow_pos k
      omega
    have := Nat.mul_le_mul large two
    omega
  · exact .inl ge

theorem bits_of_mantissa (zero : x.scaled.1 = 0) : x.bits % 2 ^ 63 = 0 := by
  have fraction : x.fraction < 2 ^ 52 := Nat.mod_lt _ (by decide)
  unfold scaled at zero
  split at zero
  · next exponent =>
    simp only [F64.exponent, F64.fraction] at exponent zero
    omega
  · simp only at zero
    omega

theorem scaled_eq_of_value (same : x.scaled.1 * 2 ^ x.scaled.2 = y.scaled.1 * 2 ^ y.scaled.2) :
    x.bits % 2 ^ 63 = y.bits % 2 ^ 63 := by
  obtain ⟨small, positive, normal⟩ := x.scaled_normal
  obtain ⟨small', positive', normal'⟩ := y.scaled_normal
  have pos := Nat.two_pow_pos x.scaled.2
  have pos' := Nat.two_pow_pos y.scaled.2
  rcases scaled_unique small normal' positive same with le | none
  · rcases scaled_unique small' normal positive' same.symm with le' | none
    · have exponent : x.scaled.2 = y.scaled.2 := Nat.le_antisymm le' le
      rw [exponent] at same
      exact bits_of_scaled (Prod.ext (Nat.eq_of_mul_eq_mul_right pos' same) exponent)
    · rw [none, Nat.zero_mul, eq_comm, Nat.mul_eq_zero] at same
      rw [bits_of_mantissa none, bits_of_mantissa (same.resolve_right (by omega))]
  · rw [none, Nat.zero_mul, Nat.mul_eq_zero] at same
    rw [bits_of_mantissa none, bits_of_mantissa (same.resolve_right (by omega))]

/-- The integer of an integral float has the sign of the float and the size of its mantissa. -/
theorem magnitude_of_integral {n : Int} (h : x.integral? = some n) :
    ∃ size : Nat, n = x.signed size ∧ size * 2 ^ 1075 = x.scaled.1 * 2 ^ x.scaled.2 := by
  unfold integral? at h
  split at h
  next m e scaled =>
  rw [scaled]
  split at h
  · cases h
  split at h
  · next large =>
    refine ⟨_, (Option.some.inj h).symm, ?_⟩
    rw [Nat.mul_assoc, ← Nat.pow_add, Nat.sub_add_cancel large]
  · split at h
    · next large exact =>
      refine ⟨_, (Option.some.inj h).symm, ?_⟩
      have split : 2 ^ 1075 = 2 ^ (1075 - e) * 2 ^ e := by
        rw [← Nat.pow_add, Nat.sub_add_cancel (Nat.le_of_not_le large)]
      rw [split, ← Nat.mul_assoc, Nat.div_mul_cancel (Nat.dvd_of_mod_eq_zero exact)]
    · cases h

theorem signed_natAbs (x : F64) (size : Nat) : (x.signed size).natAbs = size := by
  unfold signed
  split <;> omega

theorem rank_of_integral {n : Int} (hx : x.integral? = some n) (hy : y.integral? = some n) :
    x.rank = y.rank := by
  obtain ⟨size, eq, value⟩ := magnitude_of_integral hx
  obtain ⟨size', eq', value'⟩ := magnitude_of_integral hy
  have sizes : size = size' := by
    rw [← signed_natAbs x size, ← signed_natAbs y size', ← eq, ← eq']
  have bits := scaled_eq_of_value (value.symm.trans (sizes ▸ value'))
  unfold rank
  rw [bits]
  by_cases zero : size = 0
  · -- both are zeros, whatever their signs
    have none : y.scaled.1 * 2 ^ y.scaled.2 = 0 := by rw [← value', ← sizes, zero, Nat.zero_mul]
    have mantissa : y.scaled.1 = 0 :=
      (Nat.mul_eq_zero.mp none).resolve_right (Nat.ne_of_gt (Nat.two_pow_pos _))
    rw [bits_of_mantissa mantissa]
    unfold signed
    split <;> split <;> rfl
  · have signs : x.negative = y.negative := by
      rw [sizes] at eq zero
      rw [eq] at eq'
      unfold signed at eq'
      cases hx : x.negative <;> cases hy : y.negative <;> simp [hx, hy] at eq' ⊢ <;> omega
    simp only [signed, signs]

theorem eq_of_bits (same : x.bits = y.bits) : x = y := by
  cases x
  cases y
  cases same
  rfl

theorem bits_of_rank (same : x.rank = y.rank) : x.bits = y.bits ∨ x.rank = 0 := by
  have hx := x.width
  have hy := y.width
  unfold rank signed negative at *
  simp only [decide_eq_true_eq] at *
  split at same <;> split at same <;> omega

theorem integral_of_rank_zero (zero : x.rank = 0) : x.integral? = some 0 := by
  have empty : x.bits % 2 ^ 63 = 0 := by
    have := signed_natAbs x (x.bits % 2 ^ 63)
    rw [show x.signed (x.bits % 2 ^ 63) = 0 from zero] at this
    exact this.symm
  have exponent : x.exponent = 0 := by
    simp only [F64.exponent]
    omega
  have fraction : x.fraction = 0 := by
    simp only [F64.fraction]
    omega
  simp [integral?, scaled, isFinite, exponent, fraction, signed, -Nat.reducePow]

theorem integral_of_rank (same : x.rank = y.rank) : x.integral? = y.integral? := by
  rcases bits_of_rank same with bits | zero
  · rw [eq_of_bits bits]
  · rw [integral_of_rank_zero zero, integral_of_rank_zero (same ▸ zero)]

theorem integral_eq_some {n : Int} :
    x.integral? = some n ↔ x.isFinite = true ∧ x.fractional = false ∧ x.trunc = n := by
  unfold integral? fractional trunc
  generalize x.scaled = scaled
  obtain ⟨m, e⟩ := scaled
  simp only [Bool.not_eq_true']
  cases x.isFinite with
  | false => simp
  | true =>
    by_cases large : 1075 ≤ e
    · simp [large, Nat.not_lt.mpr large]
    · by_cases exact : m % 2 ^ (1075 - e) = 0 <;> simp [large, exact, Nat.lt_of_not_le large]

theorem not_integral_of_nan (nan : x.isNaN = true) : x.integral? = none := by
  have infinite : x.isFinite = false := by
    simp only [isNaN, Bool.and_eq_true, decide_eq_true_eq] at nan
    simp [isFinite, nan.1]
  cases h : x.integral? with
  | none => rfl
  | some n =>
    rw [integral_eq_some, infinite] at h
    cases h.1

theorem number_of_integral {n : Int} (integral : x.integral? = some n) : x.isNaN = false := by
  cases nan : x.isNaN with
  | false => rfl
  | true =>
    rw [not_integral_of_nan nan] at integral
    cases integral

theorem partialCmp_eq : x.partialCmp y = some .eq ↔
    x.isNaN = false ∧ y.isNaN = false ∧ x.rank = y.rank := by
  unfold partialCmp
  cases x.isNaN <;> cases y.isNaN <;> simp

end F64

theorem integerFloatOrder_eq {i : Int} {f : F64} :
    integerFloatOrder i f = some .eq ↔ f.integral? = some i := by
  unfold integerFloatOrder
  cases nan : f.isNaN with
  | true => simp [F64.not_integral_of_nan nan]
  | false =>
    rw [F64.integral_eq_some]
    cases f.isFinite with
    | false => cases f.negative <;> simp
    | true =>
      have same : compare i f.trunc = .eq ↔ f.trunc = i :=
        Std.LawfulEqCmp.compare_eq_iff_eq.trans eq_comm
      rw [← same]
      cases f.fractional <;> cases compare i f.trunc <;> cases f.negative <;> simp

/-! ### The key of a number -/

def integerKey (n : Int) : Key := if fitsI64 n then .smallInt n else .int n

theorem integerKey_injective {x y : Int} : integerKey x = integerKey y ↔ x = y := by
  unfold integerKey
  split <;> split <;> simp
  · next fits unfit => exact fun eq => unfit (eq ▸ fits)
  · next unfit fits => exact fun eq => unfit (eq ▸ fits)

theorem integerKey_cases (n : Int) : integerKey n = .smallInt n ∨ integerKey n = .int n := by
  unfold integerKey
  split <;> simp

section FloatKey

variable {v w : Value} {x y : F64}

theorem floatKey_nan (nan : x.isNaN = true) : Heap.floatKey v x = .nan v.raw := by
  simp [Heap.floatKey, nan]

theorem floatKey_integral {n : Int} (integral : x.integral? = some n) :
    Heap.floatKey v x = integerKey n := by
  simp [Heap.floatKey, F64.number_of_integral integral, integral, integerKey]

theorem floatKey_bits (number : x.isNaN = false) (fraction : x.integral? = none) :
    Heap.floatKey v x = .float x.bits := by
  simp [Heap.floatKey, number, fraction]

theorem floatKey_eq_integerKey {i : Int} :
    Heap.floatKey v x = integerKey i ↔ x.integral? = some i := by
  have int := integerKey_cases i
  cases integral : x.integral? with
  | some n => rw [floatKey_integral integral, integerKey_injective, Option.some.injEq]
  | none =>
    cases nan : x.isNaN with
    | true => rcases int with eq | eq <;> simp [floatKey_nan nan, eq]
    | false => rcases int with eq | eq <;> simp [floatKey_bits nan integral, eq]

/-- Two floats held by different objects. -/
theorem floatKey_eq_floatKey (apart : v.raw ≠ w.raw) :
    Heap.floatKey v x = Heap.floatKey w y ↔ x.partialCmp y = some .eq := by
  rw [F64.partialCmp_eq]
  cases hy : y.integral? with
  | some n =>
    rw [floatKey_integral hy, floatKey_eq_integerKey]
    constructor
    · intro hx
      exact ⟨F64.number_of_integral hx, F64.number_of_integral hy, F64.rank_of_integral hx hy⟩
    · rintro ⟨-, -, rank⟩
      rw [F64.integral_of_rank rank, hy]
  | none =>
    cases nan : y.isNaN with
    | true =>
      rw [floatKey_nan nan]
      refine ⟨fun same => ?_, fun ⟨_, other, _⟩ => by cases other⟩
      cases hx : x.integral? with
      | some m => rcases integerKey_cases m with eq | eq <;> simp [floatKey_integral hx, eq] at same
      | none => cases nan' : x.isNaN <;> simp [floatKey_nan, floatKey_bits, nan', hx, apart] at same
    | false =>
      rw [floatKey_bits nan hy]
      constructor
      · intro same
        cases hx : x.integral? with
        | some m =>
          rcases integerKey_cases m with eq | eq <;> simp [floatKey_integral hx, eq] at same
        | none =>
          cases nan' : x.isNaN with
          | true => simp [floatKey_nan nan'] at same
          | false =>
            rw [floatKey_bits nan' hx, Key.float.injEq] at same
            exact ⟨rfl, rfl, by rw [F64.eq_of_bits same]⟩
      · rintro ⟨number, -, rank⟩
        have fraction : x.integral? = none := (F64.integral_of_rank rank).trans hy
        rcases F64.bits_of_rank rank with bits | zero
        · rw [floatKey_bits number fraction, bits]
        · rw [F64.integral_of_rank_zero zero] at fraction
          cases fraction

end FloatKey

/-! ### Numbers on the heap -/

/-- An integer or a float, apart from the object that holds it. -/
inductive Number where
  | int (n : Int)
  | float (x : F64)

namespace Number

def order : Number → Number → Option Ordering
  | int x, int y => some (compare x y)
  | float x, float y => x.partialCmp y
  | int i, float f => integerFloatOrder i f
  | float f, int i => (integerFloatOrder i f).map Ordering.swap

def key (identity : Value) : Number → Key
  | int n => integerKey n
  | float x => Heap.floatKey identity x

theorem key_eq_key {v w : Value} {p q : Number} (apart : v.raw ≠ w.raw) :
    p.key v = q.key w ↔ p.order q = some .eq := by
  have swapped {o : Option Ordering} : o.map Ordering.swap = some .eq ↔ o = some .eq := by
    cases o <;> simp
  cases p <;> cases q <;> simp only [key, order]
  case int.int x y => rw [integerKey_injective, Option.some.injEq, Std.LawfulEqCmp.compare_eq_iff_eq]
  case int.float i f => rw [eq_comm, floatKey_eq_integerKey, integerFloatOrder_eq]
  case float.int f i => rw [floatKey_eq_integerKey, swapped, integerFloatOrder_eq]
  case float.float x y => exact floatKey_eq_floatKey apart

end Number

namespace Heap

variable {h : Heap} {v w : Value}

/-- The number a value is, through the native storage of an instance. -/
def number (h : Heap) (v : Value) : Option Number :=
  match (h.nativeValue v).integer with
  | some n => some (.int n)
  | none =>
    match h.tryGet (h.nativeValue v) with
    | some (.int n) => some (.int n)
    | some (.float x) => some (.float x)
    | _ => none

theorem isInteger_eq : h.isInteger v = (h.number v matches some (.int _)) := by
  simp only [isInteger, number]
  cases (h.nativeValue v).integer with
  | some n => rfl
  | none =>
    cases h.tryGet (h.nativeValue v) with
    | none => rfl
    | some o => cases o <;> rfl

theorem tryGet_of_integer {n : Int} (hv : v.integer = some n) : h.tryGet v = none := by
  cases v with
  | small | bool => rfl
  | _ => cases hv

theorem nativeValue_of_integer {n : Int} (hv : v.integer = some n) : h.nativeValue v = v := by
  simp [nativeValue, tryGet_of_integer hv]

theorem isFloat_eq : h.isFloat v = (h.number v matches some (.float _)) := by
  simp only [isFloat, number]
  cases imm : (h.nativeValue v).integer with
  | some n => simp [tryGet_of_integer imm]
  | none =>
    cases h.tryGet (h.nativeValue v) with
    | none => rfl
    | some o => cases o <;> rfl

theorem numeric_eq : h.numeric v = (h.number v).isSome := by
  rw [numeric, isInteger_eq, isFloat_eq]
  cases h.number v with
  | none => rfl
  | some p => cases p <;> rfl

theorem integer_of_number {n : Int} (hn : h.number v = some (.int n)) : h.integer v = .ok n := by
  simp only [number] at hn
  simp only [integer]
  cases imm : (h.nativeValue v).integer with
  | some m =>
    rw [imm] at hn
    cases hn
    rfl
  | none =>
    rw [imm] at hn
    cases found : h.tryGet (h.nativeValue v) with
    | none => simp [found] at hn
    | some o =>
      rw [found] at hn
      cases o <;> cases hn
      simp [get, found, bind, Except.bind]
      rfl

theorem float_of_number {x : F64} (hx : h.number v = some (.float x)) : h.float v = .ok x := by
  simp only [number] at hx
  simp only [float]
  cases imm : (h.nativeValue v).integer with
  | some m =>
    rw [imm] at hx
    cases hx
  | none =>
    rw [imm] at hx
    cases found : h.tryGet (h.nativeValue v) with
    | none => simp [found] at hx
    | some o =>
      rw [found] at hx
      cases o <;> cases hx
      simp [get, found, bind, Except.bind]
      rfl

theorem numberOrder_eq {p q : Number} (hp : h.number v = some p) (hq : h.number w = some q) :
    h.numberOrder v w = .ok (p.order q) := by
  unfold numberOrder
  split
  · next x y hx hy =>
    simp only [number, nativeValue_of_integer hx, hx, Option.some.injEq] at hp
    simp only [number, nativeValue_of_integer hy, hy, Option.some.injEq] at hq
    rw [← hp, ← hq]
    rfl
  · rw [isInteger_eq, isInteger_eq, isFloat_eq, isFloat_eq, hp, hq]
    cases p <;> cases q
    case int.int =>
      simp only [integer_of_number hp, integer_of_number hq, Bool.and_self, if_true]
      rfl
    case int.float i f =>
      simp only [integer_of_number hp, float_of_number hq, Bool.and_false, Bool.false_and,
        Bool.false_eq_true, if_false]
      show Except.ok ((integerFloatOrder i f).map id) = _
      rw [Option.map_id]
      rfl
    case float.int =>
      simp only [float_of_number hp, integer_of_number hq, Bool.and_false, Bool.false_and,
        Bool.false_eq_true, if_false, if_true]
      rfl
    case float.float =>
      simp only [float_of_number hp, float_of_number hq, Bool.and_self, Bool.false_eq_true, if_false,
        if_true]
      rfl

end Heap

end Tonic
