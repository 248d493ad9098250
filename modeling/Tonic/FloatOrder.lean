import Mathlib
import Tonic.EqualitySound

/-!
## The order of numbers

Integers and floats are ordered as the exact numbers they stand for. A finite float is a whole
number of units of `2 ^ -1075`, and so is an integer, so no comparison has to round.
-/

namespace Tonic

/-- The rational numbers with both infinities. -/
abbrev Extended := WithBot (WithTop ℚ)

namespace F64

variable {x y : F64}

/-- A finite float in units of `2 ^ -1075`. -/
def units (x : F64) : Int := x.signed (x.scaled.1 * 2 ^ x.scaled.2)

def value (x : F64) : ℚ := x.units / (2 ^ 1075 : Nat)

/-- The number a float stands for that is no NaN. -/
def point (x : F64) : Extended :=
  if x.isFinite then (x.value : WithTop ℚ) else if x.negative then ⊥ else (⊤ : WithTop ℚ)

def exact (x : F64) : Option Extended := if x.isNaN then none else some x.point

/-- The bits of the size of a float order it. -/
def size (x : F64) : Nat := x.bits % 2 ^ 63

theorem size_eq (x : F64) : x.size = x.exponent * 2 ^ 52 + x.fraction ∧ x.fraction < 2 ^ 52 := by
  have width := x.width
  simp only [size, exponent, fraction]
  omega

theorem size_finite (finite : x.isFinite = true) : x.size < 2047 * 2 ^ 52 := by
  have ⟨eq, fraction⟩ := x.size_eq
  have bound : x.exponent < 2 ^ 11 := Nat.mod_lt _ (by decide)
  have differ : x.exponent ≠ 2047 := by simpa [isFinite] using finite
  omega

theorem size_infinite (number : x.isNaN = false) (infinite : x.isFinite = false) :
    x.size = 2047 * 2 ^ 52 := by
  have ⟨eq, _⟩ := x.size_eq
  have exponent : x.exponent = 2047 := by simpa [isFinite] using infinite
  have fraction : x.fraction = 0 := by simpa [isNaN, exponent] using number
  omega

theorem units_lt_of_size_lt (lt : x.size < y.size) :
    x.scaled.1 * 2 ^ x.scaled.2 < y.scaled.1 * 2 ^ y.scaled.2 := by
  obtain ⟨eq, fraction⟩ := x.size_eq
  obtain ⟨eq', fraction'⟩ := y.size_eq
  obtain ⟨small, positive, -⟩ := x.scaled_normal
  by_cases same : x.exponent = y.exponent
  · have exponents : x.scaled.2 = y.scaled.2 ∧ x.scaled.1 < y.scaled.1 := by
      unfold scaled
      rw [same] at eq ⊢
      split
      · exact ⟨rfl, by omega⟩
      · exact ⟨rfl, by omega⟩
    rw [exponents.1]
    exact Nat.mul_lt_mul_of_pos_right exponents.2 (Nat.two_pow_pos _)
  · have less : x.exponent < y.exponent := by omega
    have large : y.scaled = (2 ^ 52 + y.fraction, y.exponent) := if_neg (by omega)
    -- a normal mantissa is above any mantissa of a smaller exponent
    have floor : 2 ^ 52 * 2 ^ y.exponent ≤ (2 ^ 52 + y.fraction) * 2 ^ y.exponent :=
      Nat.mul_le_mul_right _ (Nat.le_add_right _ _)
    rw [large]
    refine Nat.lt_of_lt_of_le ?_ floor
    by_cases zero : x.exponent = 0
    · have tiny : x.scaled = (x.fraction, 1) := if_pos zero
      have two : 2 ^ 1 ≤ 2 ^ y.exponent := Nat.pow_le_pow_right (by decide) (by omega)
      rw [tiny]
      exact Nat.lt_of_lt_of_le (Nat.mul_lt_mul_of_pos_right fraction (Nat.two_pow_pos 1))
        (Nat.mul_le_mul_left _ two)
    · have normal : x.scaled = (2 ^ 52 + x.fraction, x.exponent) := if_neg zero
      have next : 2 ^ (x.exponent + 1) ≤ 2 ^ y.exponent := Nat.pow_le_pow_right (by decide) less
      rw [normal] at small ⊢
      calc (2 ^ 52 + x.fraction) * 2 ^ x.exponent
          < 2 ^ 53 * 2 ^ x.exponent := Nat.mul_lt_mul_of_pos_right small (Nat.two_pow_pos _)
        _ = 2 ^ 52 * 2 ^ (x.exponent + 1) := by
          rw [Nat.pow_succ 2 52, Nat.pow_succ 2 x.exponent, Nat.mul_assoc, Nat.mul_comm 2]
        _ ≤ 2 ^ 52 * 2 ^ y.exponent := Nat.mul_le_mul_left _ next

theorem units_eq_of_size_eq (same : x.size = y.size) :
    x.scaled.1 * 2 ^ x.scaled.2 = y.scaled.1 * 2 ^ y.scaled.2 := by
  obtain ⟨eq, fraction⟩ := x.size_eq
  obtain ⟨eq', fraction'⟩ := y.size_eq
  have exponents : x.exponent = y.exponent := by omega
  have fractions : x.fraction = y.fraction := by omega
  unfold scaled
  rw [exponents, fractions]

theorem units_zero_of_size_zero (zero : x.size = 0) : x.scaled.1 * 2 ^ x.scaled.2 = 0 := by
  obtain ⟨eq, fraction⟩ := x.size_eq
  have tiny : x.scaled = (x.fraction, 1) := if_pos (by omega)
  have none : x.fraction = 0 := by omega
  rw [tiny, none, Nat.zero_mul]

theorem units_pos_of_size_pos (pos : 0 < x.size) : 0 < x.scaled.1 * 2 ^ x.scaled.2 := by
  have lt : (ofBits 0).size < x.size := pos
  exact Nat.lt_of_le_of_lt (Nat.zero_le _) (units_lt_of_size_lt lt)

/-- The ranks of finite floats are in the order of their units. -/
theorem units_lt (lt : x.rank < y.rank) : x.units < y.units := by
  have zero : x.size = 0 → x.scaled.1 * 2 ^ x.scaled.2 = 0 := units_zero_of_size_zero
  have pos : 0 < x.size → 0 < x.scaled.1 * 2 ^ x.scaled.2 := units_pos_of_size_pos
  have pos' : 0 < y.size → 0 < y.scaled.1 * 2 ^ y.scaled.2 := units_pos_of_size_pos
  have up : x.size < y.size → x.scaled.1 * 2 ^ x.scaled.2 < y.scaled.1 * 2 ^ y.scaled.2 :=
    units_lt_of_size_lt
  have down : y.size < x.size → y.scaled.1 * 2 ^ y.scaled.2 < x.scaled.1 * 2 ^ x.scaled.2 :=
    units_lt_of_size_lt
  unfold rank signed at lt
  unfold units signed
  change (if x.negative then -(x.size : Int) else x.size) <
    (if y.negative then -(y.size : Int) else y.size) at lt
  generalize x.scaled.1 * 2 ^ x.scaled.2 = U at *
  generalize y.scaled.1 * 2 ^ y.scaled.2 = V at *
  cases hx : x.negative <;> cases hy : y.negative <;>
    simp only [hx, hy, if_true, Bool.false_eq_true, if_false] at lt ⊢ <;> omega

theorem units_eq (same : x.rank = y.rank) : x.units = y.units := by
  have zero : x.size = 0 → x.scaled.1 * 2 ^ x.scaled.2 = 0 := units_zero_of_size_zero
  have zero' : y.size = 0 → y.scaled.1 * 2 ^ y.scaled.2 = 0 := units_zero_of_size_zero
  have level : x.size = y.size → x.scaled.1 * 2 ^ x.scaled.2 = y.scaled.1 * 2 ^ y.scaled.2 :=
    units_eq_of_size_eq
  unfold rank signed at same
  unfold units signed
  change (if x.negative then -(x.size : Int) else x.size) =
    (if y.negative then -(y.size : Int) else y.size) at same
  generalize x.scaled.1 * 2 ^ x.scaled.2 = U at *
  generalize y.scaled.1 * 2 ^ y.scaled.2 = V at *
  cases hx : x.negative <;> cases hy : y.negative <;>
    simp only [hx, hy, if_true, Bool.false_eq_true, if_false] at same ⊢ <;> omega

theorem value_lt (lt : x.units < y.units) : x.value < y.value := by
  have cast : (x.units : ℚ) < y.units := by exact_mod_cast lt
  exact div_lt_div_of_pos_right cast (by positivity)

theorem value_eq (same : x.units = y.units) : x.value = y.value := by
  unfold value
  rw [same]

/-- A finite float is above negative infinity and below positive infinity. -/
theorem rank_finite (finite : x.isFinite = true) :
    -(2047 * 2 ^ 52 : Int) < x.rank ∧ x.rank < 2047 * 2 ^ 52 := by
  have bound := size_finite finite
  unfold rank signed
  change _ < (if x.negative then -(x.size : Int) else x.size) ∧
    (if x.negative then -(x.size : Int) else x.size) < _
  split <;> omega

theorem rank_infinite (number : x.isNaN = false) (infinite : x.isFinite = false) :
    x.rank = if x.negative then -(2047 * 2 ^ 52 : Int) else 2047 * 2 ^ 52 := by
  have size := size_infinite number infinite
  unfold rank signed
  change (if x.negative then -(x.size : Int) else x.size) = _
  rw [size]
  rfl

theorem point_lt (number : x.isNaN = false) (number' : y.isNaN = false) (lt : x.rank < y.rank) :
    x.point < y.point := by
  unfold point
  cases finite : x.isFinite <;> cases finite' : y.isFinite <;>
    simp only [Bool.false_eq_true, if_false, if_true]
  · rw [rank_infinite number finite, rank_infinite number' finite'] at lt
    cases hx : x.negative <;> cases hy : y.negative <;> simp [hx, hy] at lt ⊢
  · have bounds := rank_finite finite'
    rw [rank_infinite number finite] at lt
    cases hx : x.negative with
    | true => exact WithBot.bot_lt_coe _
    | false =>
      simp only [hx, Bool.false_eq_true, if_false] at lt
      omega
  · have bounds := rank_finite finite
    rw [rank_infinite number' finite'] at lt
    cases hy : y.negative with
    | true =>
      simp only [hy, if_true] at lt
      omega
    | false => exact WithBot.coe_lt_coe.mpr (WithTop.coe_lt_top _)
  · exact WithBot.coe_lt_coe.mpr (WithTop.coe_lt_coe.mpr (value_lt (units_lt lt)))

theorem point_eq (number : x.isNaN = false) (number' : y.isNaN = false) (same : x.rank = y.rank) :
    x.point = y.point := by
  unfold point
  cases finite : x.isFinite <;> cases finite' : y.isFinite <;>
    simp only [Bool.false_eq_true, if_false, if_true]
  · rw [rank_infinite number finite, rank_infinite number' finite'] at same
    cases hx : x.negative <;> cases hy : y.negative <;> simp [hx, hy] at same ⊢
  · have bounds := rank_finite finite'
    rw [rank_infinite number finite] at same
    split at same <;> omega
  · have bounds := rank_finite finite
    rw [rank_infinite number' finite'] at same
    split at same <;> omega
  · rw [value_eq (units_eq same)]

end F64

/-- The order of two numbers, if both are numbers. -/
def exactOrder (a b : Option Extended) : Option Ordering := Option.map₂ cmp a b

theorem cmp_of_compare {α : Type} [LinearOrder α] {m n : Int} {a b : α} (lt : m < n → a < b)
    (eq : m = n → a = b) (gt : n < m → b < a) : cmp a b = compare m n := by
  rw [← cmp_eq_compare]
  rcases lt_trichotomy m n with less | same | more
  · rw [cmp_eq_lt_iff _ _ |>.mpr less, cmp_eq_lt_iff _ _ |>.mpr (lt less)]
  · rw [cmp_eq_eq_iff _ _ |>.mpr same, cmp_eq_eq_iff _ _ |>.mpr (eq same)]
  · rw [cmp_eq_gt_iff _ _ |>.mpr more, cmp_eq_gt_iff _ _ |>.mpr (gt more)]

theorem partialCmp_exact (x y : F64) : x.partialCmp y = exactOrder x.exact y.exact := by
  unfold F64.partialCmp F64.exact
  cases nan : x.isNaN with
  | true => rfl
  | false =>
    cases nan' : y.isNaN with
    | true => rfl
    | false =>
      show some (compare x.rank y.rank) = some (cmp x.point y.point)
      rw [cmp_of_compare (F64.point_lt nan nan') (F64.point_eq nan nan') (F64.point_lt nan' nan)]

/-! ### Integers and floats -/

namespace F64

variable {f : F64}

theorem shift_up {e k : Nat} (large : k ≤ e) (m : Nat) : m * 2 ^ (e - k) = m * 2 ^ e / 2 ^ k := by
  rw [Nat.mul_div_assoc _ (Nat.pow_dvd_pow 2 large), Nat.pow_div large (by decide)]

theorem shift_down {e k : Nat} (small : e ≤ k) (m : Nat) : m / 2 ^ (k - e) = m * 2 ^ e / 2 ^ k := by
  have split : 2 ^ k = 2 ^ (k - e) * 2 ^ e := by
    rw [← Nat.pow_add, Nat.sub_add_cancel small]
  rw [split, Nat.mul_div_mul_right _ _ (Nat.two_pow_pos _)]

theorem rest_up {e k : Nat} (large : k ≤ e) (m : Nat) : m * 2 ^ e % 2 ^ k = 0 :=
  Nat.mod_eq_zero_of_dvd (Dvd.dvd.mul_left (Nat.pow_dvd_pow 2 large) _)

theorem rest_down {e k : Nat} (small : e ≤ k) (m : Nat) :
    m * 2 ^ e % 2 ^ k = 0 ↔ m % 2 ^ (k - e) = 0 := by
  have split : 2 ^ k = 2 ^ (k - e) * 2 ^ e := by
    rw [← Nat.pow_add, Nat.sub_add_cancel small]
  have pos := Nat.two_pow_pos e
  rw [split, Nat.mul_mod_mul_right, Nat.mul_eq_zero, or_iff_left (by omega)]

theorem trunc_eq (f : F64) :
    f.trunc = f.signed (f.scaled.1 * 2 ^ f.scaled.2 / 2 ^ 1075) := by
  unfold trunc
  dsimp only
  congr 1
  split
  · next large => exact shift_up large _
  · next small => exact shift_down (Nat.le_of_not_le small) _

theorem fractional_iff (f : F64) :
    f.fractional = true ↔ f.scaled.1 * 2 ^ f.scaled.2 % 2 ^ 1075 ≠ 0 := by
  unfold fractional
  dsimp only
  rw [Bool.and_eq_true, decide_eq_true_eq, decide_eq_true_eq]
  by_cases large : 1075 ≤ f.scaled.2
  · rw [rest_up large]
    exact ⟨fun both => absurd both.1 (Nat.not_lt.mpr large), fun no => absurd rfl no⟩
  · have small := Nat.le_of_not_le large
    rw [Ne, Ne, rest_down small]
    exact ⟨And.right, fun rest => ⟨Nat.lt_of_not_le large, rest⟩⟩

end F64

/-- A positive quotient lies above its whole part. -/
theorem compare_whole {D : Nat} (pos : 0 < D) (i : Int) (U : Nat) :
    compare (i * D) U =
      if compare i (U / D : Nat) = .eq ∧ U % D ≠ 0 then .lt else compare i (U / D : Nat) := by
  have parts := Nat.div_add_mod U D
  have rest := Nat.mod_lt U pos
  generalize U / D = q at *
  generalize U % D = r at *
  have whole : (U : Int) = q * D + r := by
    rw [← parts]
    push_cast
    ring
  rcases lt_trichotomy i q with lt | same | gt
  · have step : i * D ≤ (q - 1) * D := Int.mul_le_mul_of_nonneg_right (by omega) (by omega)
    rw [Int.sub_mul] at step
    rw [compare_lt_iff_lt.mpr lt, if_neg (by simp), compare_lt_iff_lt]
    omega
  · subst same
    rw [compare_eq_iff_eq.mpr rfl]
    by_cases exact' : r = 0
    · rw [if_neg (by simp [exact']), compare_eq_iff_eq]
      omega
    · rw [if_pos ⟨rfl, exact'⟩, compare_lt_iff_lt]
      omega
  · have step : (q + 1) * D ≤ i * D := Int.mul_le_mul_of_nonneg_right (by omega) (by omega)
    rw [Int.add_mul] at step
    rw [compare_gt_iff_gt.mpr gt, if_neg (by simp), compare_gt_iff_gt]
    omega

theorem compare_neg (m n : Int) : compare (-m) (-n) = (compare m n).swap := by
  rcases lt_trichotomy m n with lt | same | gt
  · rw [compare_lt_iff_lt.mpr lt, compare_gt_iff_gt.mpr (Int.neg_lt_neg lt)]
    rfl
  · rw [same, compare_eq_iff_eq.mpr rfl, compare_eq_iff_eq.mpr rfl]
    rfl
  · rw [compare_gt_iff_gt.mpr gt, compare_lt_iff_lt.mpr (Int.neg_lt_neg gt)]
    rfl

/-- A quotient of either sign lies beyond its whole part. -/
theorem compare_signed {D : Nat} (pos : 0 < D) (i : Int) (f : F64) (U : Nat) :
    compare (i * D) (f.signed U) =
      if compare i (f.signed (U / D)) = .eq ∧ U % D ≠ 0 then if f.negative then .gt else .lt
      else compare i (f.signed (U / D)) := by
  unfold F64.signed
  cases f.negative with
  | false => exact compare_whole pos i U
  | true =>
    simp only [if_true]
    have flip := compare_neg (-i) (U / D : Nat)
    have whole := compare_whole pos (-i) U
    rw [Int.neg_neg] at flip
    have product : i * D = -(-i * D) := by rw [Int.neg_mul, Int.neg_neg]
    rw [product, compare_neg, whole, flip]
    cases compare (-i) ((U / D : Nat) : Int) <;> by_cases rest : U % D = 0 <;> simp [rest]

theorem cmp_quotient {D : Nat} (pos : 0 < D) (i n : Int) : cmp (i : ℚ) (n / D) = compare (i * D) n := by
  have pos' : (0 : ℚ) < D := by exact_mod_cast pos
  apply cmp_of_compare
  · intro lt
    rw [lt_div_iff₀ pos']
    exact_mod_cast lt
  · intro same
    rw [eq_div_iff pos'.ne']
    exact_mod_cast same
  · intro gt
    rw [div_lt_iff₀ pos']
    exact_mod_cast gt

theorem cmp_value (i : Int) (f : F64) :
    cmp (i : ℚ) f.value = compare (i * (2 ^ 1075 : Nat)) f.units :=
  cmp_quotient (Nat.two_pow_pos 1075) i f.units

theorem cmp_coe (a b : ℚ) :
    cmp ((a : WithTop ℚ) : Extended) ((b : WithTop ℚ) : Extended) = cmp a b := by
  rw [WithBot.coe_strictMono.cmp_map_eq, WithTop.coe_strictMono.cmp_map_eq]

/-- An integer is compared with the whole part of a float, and then with the rest of it. -/
theorem integerFloatOrder_exact (i : Int) (f : F64) :
    integerFloatOrder i f = exactOrder (some ((i : ℚ) : WithTop ℚ)) f.exact := by
  unfold integerFloatOrder F64.exact
  cases nan : f.isNaN with
  | true => rfl
  | false =>
    show _ = some (cmp (((i : ℚ) : WithTop ℚ) : Extended) f.point)
    unfold F64.point
    cases finite : f.isFinite with
    | false =>
      cases f.negative with
      | true => rw [cmp_eq_gt_iff _ _ |>.mpr (WithBot.bot_lt_coe _)]; rfl
      | false =>
        rw [cmp_eq_lt_iff _ _ |>.mpr (WithBot.coe_lt_coe.mpr (WithTop.coe_lt_top _))]; rfl
    | true =>
      rw [if_pos rfl, cmp_coe, cmp_value, F64.units, compare_signed (Nat.two_pow_pos 1075),
        ← F64.trunc_eq]
      simp only [Bool.false_eq_true, if_false, Bool.not_true, F64.fractional_iff]
      split <;> rfl

/-! ### Two numbers -/

namespace Number

variable {p q r : Number}

def exact : Number → Option Extended
  | int n => some ((n : ℚ) : WithTop ℚ)
  | float x => x.exact

theorem exactOrder_swap (a b : Option Extended) :
    exactOrder b a = (exactOrder a b).map Ordering.swap := by
  cases a with
  | none => cases b <;> rfl
  | some a =>
    cases b with
    | none => rfl
    | some b => exact congrArg some (cmp_swap a b).symm

theorem order_exact (p q : Number) : p.order q = exactOrder p.exact q.exact := by
  cases p with
  | int i =>
    cases q with
    | int j =>
      show some (compare i j) = some (cmp _ _)
      rw [cmp_coe, ← cmp_eq_compare]
      exact congrArg some (Int.cast_strictMono.cmp_map_eq i j).symm
    | float f => exact integerFloatOrder_exact i f
  | float f =>
    cases q with
    | int i =>
      show (integerFloatOrder i f).map Ordering.swap = _
      rw [integerFloatOrder_exact, ← exactOrder_swap]
      rfl
    | float g => exact partialCmp_exact f g

/-- Only a NaN has a key of its own object. -/
theorem key_of_exact {v w : Value} (number : p.exact.isSome) : p.key v = p.key w := by
  cases p with
  | int n => rfl
  | float x =>
    have plain : x.isNaN = false := by
      unfold exact F64.exact at number
      cases nan : x.isNaN with
      | true => simp [nan] at number
      | false => rfl
    simp [key, Heap.floatKey, plain]

theorem order_eq_iff {v w : Value} (number : p.exact.isSome) (number' : q.exact.isSome) :
    p.order q = some .eq ↔ p.key v = q.key w := by
  rw [key_of_exact number (v := v) (w := .none), key_of_exact number' (v := w) (w := .unbound)]
  exact (key_eq_key (by decide)).symm

theorem exactOrder_trans {a b c : Option Extended} {o : Ordering} (first : exactOrder a b = some o)
    (second : exactOrder b c = some o ∨ exactOrder b c = some .eq) : exactOrder a c = some o := by
  cases a with
  | none => cases first
  | some a =>
    cases b with
    | none => cases first
    | some b =>
      cases c with
      | none => rcases second with eq | eq <;> cases eq
      | some c =>
        simp only [exactOrder, Option.map₂_coe_coe, Option.some.injEq] at first second ⊢
        cases o with
        | lt =>
          rw [cmp_eq_lt_iff] at first second ⊢
          rw [cmp_eq_eq_iff] at second
          exact second.elim first.trans fun same => same ▸ first
        | eq =>
          rw [cmp_eq_eq_iff] at first second ⊢
          exact first.trans (second.elim id id)
        | gt =>
          rw [cmp_eq_gt_iff] at first second ⊢
          rw [cmp_eq_eq_iff] at second
          exact second.elim (fun next => next.trans first) fun same => same ▸ first

end Number

namespace Heap

variable {h : Heap} {a b c : Value} {p q r : Number}

theorem number_order_right [HostLibrary] (ha : h.number a = some p) (hb : h.number b = some q)
    (hc : h.number c = some r) :
    h.numberOrder a b = .ok (exactOrder p.exact q.exact) ∧
      h.numberOrder b a = .ok ((exactOrder p.exact q.exact).map Ordering.swap) ∧
      (∀ o, h.numberOrder a b = .ok (some o) →
        h.numberOrder b c = .ok (some o) ∨ h.numberOrder b c = .ok (some .eq) →
        h.numberOrder a c = .ok (some o)) ∧
      (h.numberOrder a b = .ok none ↔ p.exact = none ∨ q.exact = none) ∧
      (p.exact.isSome → q.exact.isSome →
        (h.numberOrder a b = .ok (some .eq) ↔ ∃ key, h.dictKey a = .ok key ∧ h.dictKey b = .ok key)) := by
  have ab := numberOrder_eq ha hb
  have ba := numberOrder_eq hb ha
  have ac := numberOrder_eq ha hc
  have bc := numberOrder_eq hb hc
  rw [ab, ba, ac, bc, Number.order_exact, Number.order_exact, Number.order_exact,
    Number.order_exact]
  refine ⟨rfl, ?_, ?_, ?_, ?_⟩
  · rw [Number.exactOrder_swap]
  · intro o first second
    simp only [Except.ok.injEq] at first second ⊢
    exact Number.exactOrder_trans first second
  · rw [Except.ok.injEq, exactOrder, Option.map₂_eq_none_iff]
  · intro number number'
    have ka : h.dictKey a = .ok (p.key a) := key_number ha
    have kb : h.dictKey b = .ok (q.key b) := key_number hb
    rw [Except.ok.injEq, ← Number.order_exact, Number.order_eq_iff number number', ka, kb]
    constructor
    · intro same
      exact ⟨p.key a, rfl, congrArg _ same.symm⟩
    · rintro ⟨key, eq, eq'⟩
      cases eq
      exact (Except.ok.inj eq').symm

def numbersHeap : Heap :=
  { Heap.empty with
    objects := [⟨.int (2 ^ 53 + 1), 0, true⟩, ⟨.float (F64.ofBits 0x4340000000000000), 0, true⟩]
    slots := [⟨1, some 0⟩, ⟨1, some 1⟩] }

/-- An integer that a conversion would round to the float it is compared with. -/
theorem number_order_right_above :
    numbersHeap.numberOrder (.heap 0 1) (.heap 1 1) =
      .ok (exactOrder (Number.int (2 ^ 53 + 1)).exact
        (Number.float (F64.ofBits 0x4340000000000000)).exact) := by
  let _ : HostLibrary := ⟨String.length, List.length, fun _ => ""⟩
  exact (number_order_right (c := .bool true) rfl rfl rfl).1

end Heap

end Tonic
