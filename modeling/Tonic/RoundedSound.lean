import Tonic.FloatOrder
import Tonic.Rounded

/-!
## Rounding is correct

The quotient of two integers is the float nearest to the exact quotient, ties to even, and it
overflows exactly if the rounded number is above the largest float. The floats are the numbers of
the grid of 53 bits from `2 ^ -1074` on, up to the largest one.
-/

namespace Tonic

open Rounding

namespace F64

variable {x y : F64} {negative : Bool} {m : Nat} {unit e : Int}

/-- The largest finite float. -/
def largest : ℚ := (2 ^ 53 - 1) * 2 ^ (971 : ℤ)

/-- The number of the doubles next to `q`, if the largest exponent is left out of account. -/
abbrev Correct (q v : ℚ) : Prop := Rounds 53 (-1074) q v

theorem abs_value (x : F64) : |x.value| = x.scaled.1 * 2 ^ ((x.scaled.2 : ℤ) - 1075) := by
  have size : |(x.units : ℚ)| = ((x.scaled.1 * 2 ^ x.scaled.2 : Nat) : ℚ) := by
    rw [← Int.cast_abs, ← Int.natCast_natAbs, units, signed_natAbs, Int.cast_natCast]
  rw [value, abs_div, size, Nat.abs_cast, zpow_sub₀ two_ne_zero, zpow_natCast, zpow_ofNat,
    ← mul_div_assoc, Nat.cast_mul, Nat.cast_pow, Nat.cast_pow, Nat.cast_ofNat]

/-- The value has the sign of the float. -/
theorem value_eq_abs (x : F64) : x.value = if x.negative then -|x.value| else |x.value| := by
  have signs : (x.negative = true ∧ x.units ≤ 0) ∨ (x.negative = false ∧ 0 ≤ x.units) := by
    unfold units signed
    generalize x.scaled.1 * 2 ^ x.scaled.2 = U
    cases x.negative <;> simp
  rcases signs with ⟨eq, le⟩ | ⟨eq, ge⟩
  · have : x.value ≤ 0 := div_nonpos_of_nonpos_of_nonneg (by exact_mod_cast le) (Nat.cast_nonneg _)
    rw [eq, if_pos rfl, abs_of_nonpos this, neg_neg]
  · have : 0 ≤ x.value := div_nonneg (by exact_mod_cast ge) (Nat.cast_nonneg _)
    rw [eq, if_neg (by simp), abs_of_nonneg this]

theorem onGrid_value (finite : x.isFinite = true) :
    OnGrid 53 (-1074) |x.value| ∧ |x.value| ≤ largest := by
  obtain ⟨small, positive, -⟩ := x.scaled_normal
  have bound : x.scaled.2 ≤ 2046 := by
    have range : x.exponent < 2 ^ 11 := Nat.mod_lt _ (by decide)
    have differ : x.exponent ≠ 2047 := by simpa [isFinite] using finite
    unfold scaled
    split <;> omega
  rw [abs_value]
  constructor
  · exact ⟨_, _, small, by omega, rfl⟩
  · have mantissa : ((x.scaled.1 : Nat) : ℚ) ≤ 2 ^ 53 - 1 := by
      have : x.scaled.1 + 1 ≤ 2 ^ 53 := small
      have : ((x.scaled.1 + 1 : Nat) : ℚ) ≤ (2 ^ 53 : Nat) := by exact_mod_cast this
      push_cast at this
      linarith
    have power : (2 : ℚ) ^ ((x.scaled.2 : ℤ) - 1075) ≤ 2 ^ (971 : ℤ) :=
      zpow_le_zpow_right₀ one_le_two (by omega)
    exact mul_le_mul mantissa power (zpow_pos two_pos _).le (by norm_num)

/-! ### Encoding -/

theorem negative_ofBits {B : Nat} (small : B < 2 ^ 63) :
    (ofBits ((if negative then 2 ^ 63 else 0) + B)).negative = negative ∧
      (ofBits ((if negative then 2 ^ 63 else 0) + B)).size = B := by
  unfold ofBits F64.negative size
  cases negative
  · simp only [Bool.false_eq_true, if_false, decide_eq_false_iff_not]
    omega
  · simp only [if_true, decide_eq_true_eq]
    omega

theorem fields_of_size {E F : Nat} (size : x.size = E * 2 ^ 52 + F) (small : F < 2 ^ 52) :
    x.exponent = E ∧ x.fraction = F := by
  obtain ⟨eq, fraction⟩ := x.size_eq
  omega

/-- What a number that is not too large is encoded as. -/
theorem abs_value_encode (least : -1074 ≤ unit) (le : m ≤ 2 ^ 53) (full : unit = -1074 ∨ 2 ^ 52 ≤ m)
    (size : x.size = (unit + 1074).toNat * 2 ^ 52 + m) : |x.value| = m * 2 ^ unit := by
  rw [abs_value]
  obtain ⟨U, rfl⟩ : ∃ U : Nat, unit = (U : ℤ) - 1074 := ⟨(unit + 1074).toNat, by omega⟩
  rw [sub_add_cancel, Int.toNat_natCast] at size
  by_cases tiny : m < 2 ^ 52
  · have zero : U = 0 := by omega
    subst zero
    have fields := fields_of_size (x := x) (E := 0) (F := m) (by omega) tiny
    have scaled : x.scaled = (m, 1) := by
      rw [F64.scaled, fields.1, fields.2]
      rfl
    rw [scaled]
    norm_num
  · by_cases carried : m = 2 ^ 53
    · have whole : x.size = (U + 2) * 2 ^ 52 + 0 := by
        rw [size, carried, Nat.add_mul, (by norm_num : 2 ^ 53 = 2 * 2 ^ 52), Nat.add_zero]
      have fields := fields_of_size whole (Nat.two_pow_pos 52)
      have scaled : x.scaled = (2 ^ 52, U + 2) := by
        rw [F64.scaled, fields.1, fields.2]
        rfl
      have exponent : ((U + 2 : Nat) : ℤ) - 1075 = (U : ℤ) - 1074 + 1 := by
        push_cast
        ring
      rw [scaled, exponent, carried]
      exact (@carry 53 _ (by decide)).symm
    · have whole : x.size = (U + 1) * 2 ^ 52 + (m - 2 ^ 52) := by
        rw [size, Nat.add_mul, Nat.one_mul, Nat.add_assoc, Nat.add_sub_of_le (Nat.le_of_not_lt tiny)]
      have rest : m - 2 ^ 52 < 2 ^ 52 := by omega
      have fields := fields_of_size whole rest
      have scaled : x.scaled = (m, U + 1) := by
        rw [F64.scaled, fields.1, fields.2, if_neg (Nat.succ_ne_zero U),
          Nat.add_sub_of_le (Nat.le_of_not_lt tiny)]
      rw [scaled]
      congr 2
      push_cast
      ring

theorem encode_eq (negative : Bool) (m : Nat) (unit : Int) :
    (encode negative m unit).negative = negative ∧
      (encode negative m unit).size = min ((unit + 1074).toNat * 2 ^ 52 + m) (2047 * 2 ^ 52) := by
  apply negative_ofBits
  have : min ((unit + 1074).toNat * 2 ^ 52 + m) (2047 * 2 ^ 52) ≤ 2047 * 2 ^ 52 := Nat.min_le_right _ _
  omega

theorem finite_of_size (small : x.size < 2047 * 2 ^ 52) : x.isFinite = true := by
  obtain ⟨eq, fraction⟩ := x.size_eq
  have : x.exponent ≠ 2047 := by omega
  simpa [isFinite] using this

theorem infinite_of_size (top : x.size = 2047 * 2 ^ 52) : x.isFinite = false := by
  obtain ⟨eq, fraction⟩ := x.size_eq
  have : x.exponent = 2047 := by omega
  simpa [isFinite] using this

/-- A number beyond the largest float has too large an encoding. -/
theorem largest_lt (least : -1074 ≤ unit) (le : m ≤ 2 ^ 53) (full : unit = -1074 ∨ 2 ^ 52 ≤ m)
    (top : 2047 * 2 ^ 52 ≤ (unit + 1074).toNat * 2 ^ 52 + m) : largest < m * 2 ^ unit := by
  have reach : (2 ^ 53 : ℚ) * 2 ^ (971 : ℤ) ≤ m * 2 ^ unit := by
    by_cases carried : m = 2 ^ 53
    · have high : 971 ≤ unit := by omega
      have power : (2 : ℚ) ^ (971 : ℤ) ≤ 2 ^ unit := zpow_le_zpow_right₀ one_le_two high
      rw [carried]
      push_cast
      exact mul_le_mul_of_nonneg_left power (by norm_num)
    · have high : 972 ≤ unit := by omega
      have mantissa : (2 ^ 52 : ℚ) ≤ m := by
        have : 2 ^ 52 ≤ m := full.resolve_left (by omega)
        exact_mod_cast this
      have power : (2 : ℚ) ^ (971 + 1 : ℤ) ≤ 2 ^ unit := zpow_le_zpow_right₀ one_le_two (by omega)
      calc (2 ^ 53 : ℚ) * 2 ^ (971 : ℤ) = 2 ^ 52 * 2 ^ (971 + 1 : ℤ) := by
            rw [zpow_add_one₀ two_ne_zero]
            ring
        _ ≤ m * 2 ^ unit := mul_le_mul mantissa power (zpow_pos two_pos _).le (by positivity)
  have pos : (0 : ℚ) < 2 ^ (971 : ℤ) := zpow_pos two_pos _
  unfold largest
  generalize (2 : ℚ) ^ (971 : ℤ) = P at reach pos ⊢
  linarith

theorem encode_right (negative : Bool) (least : -1074 ≤ unit) (le : m ≤ 2 ^ 53)
    (full : unit = -1074 ∨ 2 ^ 52 ≤ m) :
    ((encode negative m unit).isFinite = true → |(encode negative m unit).value| = m * 2 ^ unit) ∧
      ((encode negative m unit).isFinite = false → largest < m * 2 ^ unit) := by
  obtain ⟨-, size⟩ := encode_eq negative m unit
  by_cases top : 2047 * 2 ^ 52 ≤ (unit + 1074).toNat * 2 ^ 52 + m
  · rw [Nat.min_eq_right top] at size
    rw [infinite_of_size size]
    exact ⟨fun no => (by cases no), fun _ => largest_lt least le full top⟩
  · rw [Nat.min_eq_left (Nat.le_of_not_le top)] at size
    rw [finite_of_size (by omega)]
    exact ⟨fun _ => abs_value_encode least le full size, fun no => (by cases no)⟩

/-! ### The nearest float -/

/-- What an encoded number is: the number next to another, or beyond the largest float. -/
structure Approximates (x : F64) (q : ℚ) : Prop where
  finite : x.isFinite = true → Correct q |x.value|
  infinite : x.isFinite = false → ∃ v, Correct q v ∧ largest < v

theorem approximates_encode {q : ℚ} (least : -1074 ≤ unit) (le : m ≤ 2 ^ 53)
    (full : unit = -1074 ∨ 2 ^ 52 ≤ m) (correct : Correct q (m * 2 ^ unit)) :
    (encode negative m unit).Approximates q := by
  obtain ⟨finite, infinite⟩ := encode_right negative least le full
  constructor
  · intro h
    rwa [finite h]
  · intro h
    exact ⟨_, correct, infinite h⟩

theorem approximates_of_near {r : ℚ} (least : -1074 ≤ unit) (near : Near r m) (small : r < 2 ^ 53)
    (full : unit = -1074 ∨ (2 ^ 52 : ℚ) ≤ r) : (encode negative m unit).Approximates (r * 2 ^ unit) :=
  approximates_encode least (near.le small) (full.imp_right (near.full (p := 53)))
    (rounds_of_near (by decide) least near small full)

theorem correct_zero : Correct 0 0 := by
  have near : Near 0 ((0 : Nat) : ℤ) := ⟨by norm_num, fun _ => Even.zero⟩
  have rounds : Correct (0 * 2 ^ (-1074 : ℤ)) ((0 : Nat) * 2 ^ (-1074 : ℤ)) :=
    rounds_of_near (by decide) le_rfl near (by norm_num) (.inl rfl)
  simpa using rounds

theorem zero_right (negative : Bool) : (zero negative).negative = negative ∧
    (zero negative).isFinite = true ∧ (zero negative).value = 0 := by
  have units : (zero negative).units = 0 := by
    cases negative <;> rfl
  refine ⟨by cases negative <;> rfl, by cases negative <;> rfl, ?_⟩
  rw [value, units, Int.cast_zero, zero_div]

/-- The mantissa of a number of which the unit has at most 53 bits. -/
theorem mantissa_bounds {unit : Int} (some : m ≠ 0) (size : (m.size : Int) + e - 53 ≤ unit) :
    (m : ℚ) * 2 ^ (e - unit) < 2 ^ 53 ∧
      (unit = m.size + e - 53 → (2 ^ 52 : ℚ) ≤ m * 2 ^ (e - unit)) := by
  have low : 2 ^ (m.size - 1) ≤ m :=
    Nat.lt_size.mp (by have := Nat.size_pos.mpr (Nat.pos_of_ne_zero some); omega)
  have high : (m : ℚ) < 2 ^ m.size := by exact_mod_cast Nat.lt_size_self m
  have pos : (0 : ℚ) < 2 ^ (e - unit) := zpow_pos two_pos _
  constructor
  · calc (m : ℚ) * 2 ^ (e - unit) < 2 ^ m.size * 2 ^ (e - unit) := mul_lt_mul_of_pos_right high pos
      _ = 2 ^ ((m.size : ℤ) + (e - unit)) := by rw [zpow_add₀ two_ne_zero, zpow_natCast]
      _ ≤ 2 ^ ((53 : Nat) : ℤ) := zpow_le_zpow_right₀ one_le_two (by push_cast; omega)
      _ = 2 ^ 53 := zpow_natCast _ _
  · intro exact'
    have low' : (2 : ℚ) ^ (m.size - 1) ≤ m := by exact_mod_cast low
    have size_pos := Nat.size_pos.mpr (Nat.pos_of_ne_zero some)
    calc (2 ^ 52 : ℚ) = 2 ^ ((52 : Nat) : ℤ) := (zpow_natCast _ _).symm
      _ = 2 ^ (((m.size - 1 : Nat) : ℤ) + (e - unit)) := by
        congr 1
        push_cast
        omega
      _ = 2 ^ (m.size - 1) * 2 ^ (e - unit) := by rw [zpow_add₀ two_ne_zero, zpow_natCast]
      _ ≤ m * 2 ^ (e - unit) := mul_le_mul_of_nonneg_right low' pos.le

theorem nearest_right (negative : Bool) (m : Nat) (e : Int) :
    (nearest negative m e).negative = negative ∧
      (nearest negative m e).Approximates (m * 2 ^ e) := by
  unfold nearest
  split
  · next none =>
    obtain ⟨sign, finite, value⟩ := zero_right negative
    refine ⟨sign, ⟨fun _ => ?_, fun infinite => ?_⟩⟩
    · rw [value, none, Nat.cast_zero, zero_mul, abs_zero]
      exact correct_zero
    · rw [finite] at infinite
      cases infinite
  · next some =>
    dsimp only
    generalize bound : max ((m.size : Int) + e - 53) (-1074) = unit
    have least : -1074 ≤ unit := bound ▸ le_max_right _ _
    have size : (m.size : Int) + e - 53 ≤ unit := bound ▸ le_max_left _ _
    obtain ⟨small, exact'⟩ := mantissa_bounds some size
    have full : unit = -1074 ∨ (2 ^ 52 : ℚ) ≤ m * 2 ^ (e - unit) := by
      rcases max_choice ((m.size : Int) + e - 53) (-1074) with first | second
      · exact .inr (exact' (bound.symm.trans first))
      · exact .inl (bound.symm.trans second)
    have scale : (m : ℚ) * 2 ^ e = m * 2 ^ (e - unit) * 2 ^ unit := by
      rw [mul_assoc, ← zpow_add₀ two_ne_zero, sub_add_cancel]
    rw [scale]
    split
    · next down =>
      have whole : (m : ℚ) * 2 ^ (e - unit) = ((m * 2 ^ (e - unit).toNat : Nat) : ℤ) := by
        rw [Int.cast_natCast, Nat.cast_mul, Nat.cast_pow, Nat.cast_ofNat, ← zpow_natCast,
          Int.toNat_of_nonneg (by omega)]
      refine ⟨(encode_eq ..).1, approximates_of_near least ?_ small full⟩
      rw [whole]
      exact near_self _
    · next up =>
      have quotient : (m : ℚ) * 2 ^ (e - unit) = m / (2 ^ (unit - e).toNat : Nat) := by
        rw [Nat.cast_pow, Nat.cast_ofNat, ← zpow_natCast, Int.toNat_of_nonneg (by omega),
          div_eq_mul_inv, ← zpow_neg, neg_sub]
      refine ⟨(encode_eq ..).1, approximates_of_near least ?_ small full⟩
      rw [quotient]
      exact near_halfEven (Nat.two_pow_pos _)

theorem number_of_finite (finite : x.isFinite = true) : x.isNaN = false := by
  have : x.exponent ≠ 2047 := by simpa [isFinite] using finite
  simp [isNaN, this]

theorem mul_right (finite : x.isFinite = true) (finite' : y.isFinite = true) :
    (x.mul y).negative = (x.negative != y.negative) ∧
      (x.mul y).Approximates (|x.value| * |y.value|) := by
  have product : |x.value| * |y.value| =
      ((x.scaled.1 * y.scaled.1 : Nat) : ℚ) * 2 ^ ((x.scaled.2 : ℤ) + y.scaled.2 - 2150) := by
    have exponents : (x.scaled.2 : ℤ) + y.scaled.2 - 2150 =
        (x.scaled.2 - 1075) + (y.scaled.2 - 1075) := by
      ring
    rw [abs_value, abs_value, exponents, zpow_add₀ two_ne_zero]
    push_cast
    ring
  unfold mul
  rw [number_of_finite finite, number_of_finite finite', finite, finite', product]
  simp only [Bool.or_self, Bool.not_true, Bool.false_eq_true, if_false]
  exact nearest_right ..

/-! ### Exact floats -/

/-- A number of the grid that is small enough is encoded exactly. -/
theorem encode_exact (least : -1074 ≤ unit) (le : m ≤ 2 ^ 53) (full : unit = -1074 ∨ 2 ^ 52 ≤ m)
    (small : unit ≤ 970) : (encode false m unit).isFinite = true ∧
      (encode false m unit).negative = false ∧ |(encode false m unit).value| = m * 2 ^ unit := by
  have below : (unit + 1074).toNat * 2 ^ 52 + m < 2047 * 2 ^ 52 := by
    have power : (unit + 1074).toNat ≤ 2044 := by omega
    have scaled := Nat.mul_le_mul_right (2 ^ 52) power
    calc (unit + 1074).toNat * 2 ^ 52 + m ≤ 2044 * 2 ^ 52 + 2 ^ 53 := Nat.add_le_add scaled le
      _ < 2047 * 2 ^ 52 := by norm_num
  obtain ⟨sign, size⟩ := encode_eq false m unit
  rw [Nat.min_eq_left (Nat.le_of_lt below)] at size
  refine ⟨?_, sign, abs_value_encode least le full size⟩
  apply finite_of_size
  rw [size]
  exact below

theorem log_succ {q : Nat} (pos : 0 < q) : Nat.log 2 q + 1 = q.size := by
  apply le_antisymm
  · exact Nat.lt_size.mpr (Nat.pow_log_le_self 2 pos.ne')
  · exact Nat.size_le.mpr (Nat.lt_pow_succ_log_self one_lt_two q)

theorem ofInt_eq_encode {q : Nat} (pos : 0 < q) (small : q < 2 ^ 53) :
    ofInt q = encode false (q * 2 ^ (53 - q.size)) (q.size - 53) := by
  have size : q.size ≤ 53 := Nat.size_le.mpr small
  have size_pos := Nat.size_pos.mpr pos
  have low : 2 ^ 52 ≤ q * 2 ^ (53 - q.size) := by
    have split : 2 ^ 52 = 2 ^ (q.size - 1) * 2 ^ (53 - q.size) := by
      rw [← Nat.pow_add]
      congr 1
      omega
    rw [split]
    exact Nat.mul_le_mul_right _ (Nat.lt_size.mp (by omega))
  have high : q * 2 ^ (53 - q.size) < 2 ^ 53 := by
    have split : 2 ^ 53 = 2 ^ q.size * 2 ^ (53 - q.size) := by
      rw [← Nat.pow_add, Nat.add_sub_of_le size]
    rw [split]
    exact Nat.mul_lt_mul_of_pos_right (Nat.lt_size_self q) (Nat.two_pow_pos _)
  have magnitude : (q.size + 1022) * 2 ^ 52 + (q * 2 ^ (53 - q.size) - 2 ^ 52) =
      ((q.size : Int) - 53 + 1074).toNat * 2 ^ 52 + q * 2 ^ (53 - q.size) := by
    have power : ((q.size : Int) - 53 + 1074).toNat = q.size + 1021 := by omega
    rw [power]
    generalize q * 2 ^ (53 - q.size) = m at low high ⊢
    omega
  have below : (q.size + 1022) * 2 ^ 52 + (q * 2 ^ (53 - q.size) - 2 ^ 52) < 2047 * 2 ^ 52 := by
    generalize q * 2 ^ (53 - q.size) = m at low high ⊢
    omega
  have positive : ¬ (q : Int) < 0 := by omega
  unfold ofInt encode
  simp only [Int.natAbs_natCast, log_succ pos, if_neg pos.ne', if_neg positive, if_pos size,
    Bool.false_eq_true, if_false, Nat.zero_add, ← magnitude, if_neg (Nat.not_le_of_lt below),
    Nat.min_eq_left (Nat.le_of_lt below)]

theorem ofInt_right {q : Nat} (pos : 0 < q) (le : q ≤ 2 ^ 53) :
    (ofInt q).isFinite = true ∧ (ofInt q).negative = false ∧ |(ofInt q).value| = q := by
  rcases Nat.lt_or_eq_of_le le with small | rfl
  · have size : q.size ≤ 53 := Nat.size_le.mpr small
    have size_pos := Nat.size_pos.mpr pos
    have low : 2 ^ (q.size - 1) ≤ q := Nat.lt_size.mp (by omega)
    have high : q < 2 ^ q.size := Nat.lt_size_self q
    have split : 2 ^ 53 = 2 ^ q.size * 2 ^ (53 - q.size) := by
      rw [← Nat.pow_add, Nat.add_sub_of_le size]
    have split' : 2 ^ 52 = 2 ^ (q.size - 1) * 2 ^ (53 - q.size) := by
      rw [← Nat.pow_add]
      congr 1
      omega
    obtain ⟨finite, sign, value⟩ := @encode_exact (q * 2 ^ (53 - q.size)) (q.size - 53) (by omega)
      (by rw [split]; exact Nat.mul_le_mul_right _ high.le)
      (.inr (by rw [split']; exact Nat.mul_le_mul_right _ low)) (by omega)
    rw [ofInt_eq_encode pos small]
    refine ⟨finite, sign, value.trans ?_⟩
    push_cast
    rw [mul_assoc, ← zpow_natCast, ← zpow_add₀ two_ne_zero]
    have none : ((53 - q.size : Nat) : ℤ) + ((q.size : ℤ) - 53) = 0 := by omega
    rw [none, zpow_zero, mul_one]
  · have bits : ofInt (2 ^ 53 : Nat) = encode false (2 ^ 52) 1 := by decide +kernel
    obtain ⟨finite, sign, value⟩ := @encode_exact (2 ^ 52) 1 (by decide) (by decide)
      (.inr le_rfl) (by decide)
    rw [bits]
    refine ⟨finite, sign, value.trans ?_⟩
    norm_num

theorem powerOfTwo_right {scale : Int} (least : -1074 ≤ scale) (most : scale ≤ 1022) :
    (powerOfTwo scale).isFinite = true ∧ (powerOfTwo scale).negative = false ∧
      |(powerOfTwo scale).value| = 2 ^ scale := by
  unfold powerOfTwo
  split
  · next normal =>
    have power : (scale + 1023).toNat < 2047 := by omega
    have bits : (scale + 1023).toNat * 2 ^ 52 < 2047 * 2 ^ 52 :=
      Nat.mul_lt_mul_of_pos_right power (Nat.two_pow_pos 52)
    obtain ⟨sign, size⟩ := @negative_ofBits false _ (bits.trans (by norm_num))
    rw [if_neg (by simp), Nat.zero_add] at sign size
    have finite := finite_of_size (x := ofBits ((scale + 1023).toNat * 2 ^ 52)) (by
      rw [size]
      exact bits)
    refine ⟨finite, sign, ?_⟩
    have carried : (scale + 1023).toNat * 2 ^ 52 = (scale - 52 + 1074).toNat * 2 ^ 52 + 2 ^ 52 := by
      have : (scale + 1023).toNat = (scale - 52 + 1074).toNat + 1 := by omega
      rw [this, Nat.add_mul, Nat.one_mul]
    rw [@abs_value_encode _ (2 ^ 52) (scale - 52) (by omega) (by norm_num) (.inr le_rfl)
      (size.trans carried)]
    rw [Nat.cast_pow, Nat.cast_ofNat, ← zpow_natCast, ← zpow_add₀ two_ne_zero]
    congr 1
    push_cast
    ring
  · next tiny =>
    have small : 2 ^ (scale + 1074).toNat < 2 ^ 52 := Nat.pow_lt_pow_right one_lt_two (by omega)
    obtain ⟨sign, size⟩ := @negative_ofBits false _ (small.trans (by norm_num))
    rw [if_neg (by simp), Nat.zero_add] at sign size
    have finite := finite_of_size (x := ofBits (2 ^ (scale + 1074).toNat)) (by
      rw [size]
      exact small.trans (by norm_num))
    refine ⟨finite, sign, ?_⟩
    rw [@abs_value_encode _ (2 ^ (scale + 1074).toNat) (-1074) le_rfl
      (small.le.trans (by norm_num)) (.inl rfl) (size.trans (by rw [neg_add_cancel, Int.toNat_zero, Nat.zero_mul, Nat.zero_add]))]
    rw [Nat.cast_pow, Nat.cast_ofNat, ← zpow_natCast, ← zpow_add₀ two_ne_zero,
      Int.toNat_of_nonneg (by omega), add_neg_cancel_right]

/-- The size alone makes the absolute value. -/
theorem same_of_size (same : x.size = y.size) :
    x.isFinite = y.isFinite ∧ |x.value| = |y.value| := by
  obtain ⟨eq, fraction⟩ := y.size_eq
  obtain ⟨exponents, fractions⟩ := fields_of_size (same.trans eq) fraction
  have scaled : x.scaled = y.scaled := by
    rw [F64.scaled, F64.scaled, exponents, fractions]
  rw [abs_value, abs_value, scaled, isFinite, isFinite, exponents]
  exact ⟨rfl, rfl⟩

theorem neg_right (x : F64) :
    x.neg.negative = !x.negative ∧ x.neg.isFinite = x.isFinite ∧ |x.neg.value| = |x.value| := by
  have parts : x.neg.negative = !x.negative ∧ x.neg.size = x.size := by
    have width := x.width
    unfold neg
    cases sign : x.negative with
    | true =>
      have high : 2 ^ 63 ≤ x.bits := by simpa [negative] using sign
      simp only [if_true, negative, size, ofBits, Bool.not_true, decide_eq_false_iff_not]
      omega
    | false =>
      have low : ¬ 2 ^ 63 ≤ x.bits := by simpa [negative] using sign
      simp only [Bool.false_eq_true, if_false, negative, size, ofBits, Bool.not_false,
        decide_eq_true_eq]
      omega
  exact ⟨parts.1, same_of_size parts.2⟩

/-- The float next to a number, and of two that are equally near the even one. -/
structure IsNearest (q : ℚ) (x : F64) : Prop where
  finite : x.isFinite = true
  nearest : ∀ y : F64, y.isFinite = true → |x.value - q| ≤ |y.value - q|
  even : ∀ y : F64, y.isFinite = true → y.value ≠ x.value → |x.value - q| = |y.value - q| →
    EvenOnGrid 53 (-1074) |x.value|

theorem isNearest_of_correct {q : ℚ} (finite : x.isFinite = true) (sign : 0 ≤ x.value * q)
    (correct : Correct |q| |x.value|) : x.IsNearest q := by
  have distance : |x.value - q| = abs (|x.value| - |q|) := by
    rcases le_total 0 x.value with pos | neg
    · rcases pos.lt_or_eq with pos' | zero
      · have : 0 ≤ q := nonneg_of_mul_nonneg_right sign pos'
        rw [abs_of_nonneg pos, abs_of_nonneg this]
      · rw [← zero, abs_zero, zero_sub, zero_sub, abs_neg, abs_neg, abs_abs]
    · rcases neg.lt_or_eq with neg' | zero
      · have : q ≤ 0 := nonpos_of_mul_nonneg_right sign neg'
        rw [abs_of_nonpos neg, abs_of_nonpos this, neg_sub_neg, abs_sub_comm]
      · rw [zero, abs_zero, zero_sub, zero_sub, abs_neg, abs_neg, abs_abs]
  refine ⟨finite, ?_, ?_⟩
  · intro y finite'
    rw [distance]
    exact (correct.nearest _ (onGrid_value finite').1).trans (abs_abs_sub_abs_le y.value q)
  · intro y finite' differ tie
    have grid := (onGrid_value finite').1
    have reach := abs_abs_sub_abs_le y.value q
    by_cases opposite : |y.value| = |x.value|
    · -- two opposite floats are equally near only to zero
      have flipped := (abs_eq_abs.mp opposite).resolve_left differ
      have zero : x.value * q = 0 := by
        rw [flipped, ← sq_eq_sq_iff_abs_eq_abs] at tie
        linarith
      have none : x.value = 0 := by
        rcases mul_eq_zero.mp zero with value | quotient
        · exact value
        · rw [quotient, abs_zero] at correct
          have : OnGrid 53 (-1074) 0 := ⟨0, -1074, by norm_num, le_rfl, by simp⟩
          exact abs_eq_zero.mp (correct.exact this)
      exact absurd (by rw [flipped, none, neg_zero]) differ
    · apply correct.even _ grid opposite
      apply le_antisymm (correct.nearest _ grid)
      rw [← distance, tie]
      exact reach

end F64

/-! ### Quotients -/

section Quotient

variable {x y : Nat}

theorem bigBits_eq (n : Nat) : bigBits n = n.size := by
  unfold bigBits
  split
  · next zero =>
    have : n = 0 := by omega
    rw [this, Nat.size_zero]
  · next some => exact F64.log_succ (by omega)

/-- The test by which the exponent is corrected. -/
theorem leading_eq (hy : 0 < y) :
    leading x y = if (x : ℚ) / y < 2 ^ ((x.size : Int) - y.size) then (x.size : Int) - y.size - 1
      else (x.size : Int) - y.size := by
  have hy' : (0 : ℚ) < y := by exact_mod_cast hy
  unfold leading
  rw [bigBits_eq, bigBits_eq]
  generalize (x.size : Int) - y.size = d
  dsimp only
  split
  · next up =>
    have test : x < y * 2 ^ d.toNat ↔ (x : ℚ) / y < 2 ^ d := by
      have power : (2 : ℚ) ^ d = (2 ^ d.toNat : Nat) := by
        rw [Nat.cast_pow, Nat.cast_ofNat, ← zpow_natCast, Int.toNat_of_nonneg up]
      rw [div_lt_iff₀' hy', power, ← Nat.cast_mul, Nat.cast_lt]
    simp only [test]
  · next down =>
    have test : x * 2 ^ (-d).toNat < y ↔ (x : ℚ) / y < 2 ^ d := by
      have power : (2 : ℚ) ^ d = ((2 ^ (-d).toNat : Nat) : ℚ)⁻¹ := by
        rw [Nat.cast_pow, Nat.cast_ofNat, ← zpow_natCast, Int.toNat_of_nonneg (by omega), zpow_neg,
          inv_inv]
      have pos : (0 : ℚ) < (2 ^ (-d).toNat : Nat) := by exact_mod_cast Nat.two_pow_pos _
      rw [div_lt_iff₀' hy', power, ← div_eq_mul_inv, lt_div_iff₀ pos, ← Nat.cast_mul, Nat.cast_lt]
    simp only [test]

/-- The exponent of a quotient. -/
theorem leading_right (hx : 0 < x) (hy : 0 < y) :
    (2 : ℚ) ^ leading x y ≤ x / y ∧ (x : ℚ) / y < 2 ^ (leading x y + 1) := by
  have hy' : (0 : ℚ) < y := by exact_mod_cast hy
  have size_x := Nat.size_pos.mpr hx
  have size_y := Nat.size_pos.mpr hy
  have low_x : (2 : ℚ) ^ ((x.size : Int) - 1) ≤ x := by
    have : 2 ^ (x.size - 1) ≤ x := Nat.lt_size.mp (by omega)
    have exponent : (x.size : Int) - 1 = ((x.size - 1 : Nat) : Int) := by omega
    rw [exponent, zpow_natCast]
    exact_mod_cast this
  have low_y : (2 : ℚ) ^ ((y.size : Int) - 1) ≤ y := by
    have : 2 ^ (y.size - 1) ≤ y := Nat.lt_size.mp (by omega)
    have exponent : (y.size : Int) - 1 = ((y.size - 1 : Nat) : Int) := by omega
    rw [exponent, zpow_natCast]
    exact_mod_cast this
  have high_x : (x : ℚ) < 2 ^ (x.size : Int) := by
    rw [zpow_natCast]
    exact_mod_cast Nat.lt_size_self x
  have high_y : (y : ℚ) < 2 ^ (y.size : Int) := by
    rw [zpow_natCast]
    exact_mod_cast Nat.lt_size_self y
  have upper : (x : ℚ) / y < 2 ^ ((x.size : Int) - y.size + 1) := by
    have split : (2 : ℚ) ^ (x.size : Int) =
        2 ^ ((x.size : Int) - y.size + 1) * 2 ^ ((y.size : Int) - 1) := by
      rw [← zpow_add₀ two_ne_zero]
      congr 1
      ring
    rw [div_lt_iff₀ hy']
    calc (x : ℚ) < 2 ^ (x.size : Int) := high_x
      _ = 2 ^ ((x.size : Int) - y.size + 1) * 2 ^ ((y.size : Int) - 1) := split
      _ ≤ 2 ^ ((x.size : Int) - y.size + 1) * y :=
        mul_le_mul_of_nonneg_left low_y (zpow_pos two_pos _).le
  have lower : (2 : ℚ) ^ ((x.size : Int) - y.size - 1) ≤ x / y := by
    have split : (2 : ℚ) ^ ((x.size : Int) - 1) =
        2 ^ ((x.size : Int) - y.size - 1) * 2 ^ (y.size : Int) := by
      rw [← zpow_add₀ two_ne_zero]
      congr 1
      ring
    rw [le_div_iff₀ hy']
    calc (2 : ℚ) ^ ((x.size : Int) - y.size - 1) * y
        ≤ 2 ^ ((x.size : Int) - y.size - 1) * 2 ^ (y.size : Int) :=
          mul_le_mul_of_nonneg_left high_y.le (zpow_pos two_pos _).le
      _ = 2 ^ ((x.size : Int) - 1) := split.symm
      _ ≤ x := low_x
  rw [leading_eq hy]
  split
  · next below =>
    rw [sub_add_cancel]
    exact ⟨lower, below⟩
  · next above => exact ⟨not_lt.mp above, upper⟩

theorem near_shiftedQuotient (hy : 0 < y) (shift : Int) :
    Near ((x : ℚ) / y * 2 ^ shift) (shiftedQuotient x y shift) := by
  unfold shiftedQuotient
  have hy' : (0 : ℚ) < y := by exact_mod_cast hy
  split
  · next up =>
    have quotient : (x : ℚ) / y * 2 ^ shift = (x * 2 ^ shift.toNat : Nat) / y := by
      rw [Nat.cast_mul, Nat.cast_pow, Nat.cast_ofNat, ← zpow_natCast, Int.toNat_of_nonneg up,
        div_mul_eq_mul_div]
    rw [quotient]
    exact near_halfEven hy
  · next down =>
    have quotient : (x : ℚ) / y * 2 ^ shift = x / (y * 2 ^ (-shift).toNat : Nat) := by
      rw [Nat.cast_mul, Nat.cast_pow, Nat.cast_ofNat, ← zpow_natCast,
        Int.toNat_of_nonneg (by omega), zpow_neg, ← div_div, div_inv_eq_mul]
    rw [quotient]
    exact near_halfEven (Nat.mul_pos hy (Nat.two_pow_pos _))

open F64

theorem unscale (q : ℚ) (shift : Int) : q * 2 ^ shift * 2 ^ (-shift) = q := by
  rw [mul_assoc, ← zpow_add₀ two_ne_zero, add_neg_cancel, zpow_zero, mul_one]

theorem scale_lt {q : ℚ} {a : Int} (shift : Int) (lt : q < 2 ^ a) : q * 2 ^ shift < 2 ^ (a + shift) := by
  rw [zpow_add₀ two_ne_zero]
  exact mul_lt_mul_of_pos_right lt (zpow_pos two_pos _)

theorem scale_le {q : ℚ} {a : Int} (shift : Int) (le : 2 ^ a ≤ q) : 2 ^ (a + shift) ≤ q * 2 ^ shift := by
  rw [zpow_add₀ two_ne_zero]
  exact mul_le_mul_of_nonneg_right le (zpow_pos two_pos _).le

/-- A quotient below half the least float. -/
theorem correct_tiny {q : ℚ} (nonneg : 0 ≤ q) (tiny : q < 2 ^ (-1075 : ℤ)) : Correct q 0 := by
  have on : OnGrid 53 (-1074) 0 := ⟨0, -1074, by norm_num, le_rfl, by simp⟩
  have unit : (2 : ℚ) ^ (-1075 + 1 : ℤ) = 2 ^ (-1075 : ℤ) * 2 := zpow_add_one₀ two_ne_zero _
  rw [(by norm_num : (-1075 + 1 : ℤ) = -1074)] at unit
  apply rounds_of_close on
  rw [zero_sub, abs_neg, abs_of_nonneg nonneg, unit]
  linarith

/-- The rounded quotient at a scale at which it has 53 bits, or that is the least one. -/
theorem correct_scaled (hy : 0 < y) (shift : Int) (least : -1074 ≤ -shift)
    (small : (x : ℚ) / y < 2 ^ (53 - shift)) (full : -shift = -1074 ∨ 2 ^ (52 - shift) ≤ (x : ℚ) / y) :
    shiftedQuotient x y shift ≤ 2 ^ 53 ∧
      (2 ^ (52 - shift) ≤ (x : ℚ) / y → 2 ^ 52 ≤ shiftedQuotient x y shift) ∧
      Correct (x / y) (shiftedQuotient x y shift * 2 ^ (-shift)) := by
  have near := near_shiftedQuotient (x := x) hy shift
  have small' : (x : ℚ) / y * 2 ^ shift < 2 ^ 53 := by
    have := scale_lt shift small
    rw [sub_add_cancel] at this
    exact_mod_cast this
  have wide (le : 2 ^ (52 - shift) ≤ (x : ℚ) / y) : (2 ^ 52 : ℚ) ≤ x / y * 2 ^ shift := by
    have := scale_le shift le
    rw [sub_add_cancel] at this
    exact_mod_cast this
  refine ⟨near.le small', fun le => near.full (p := 53) (wide le), ?_⟩
  have rounds : Correct (x / y * 2 ^ shift * 2 ^ (-shift)) (shiftedQuotient x y shift * 2 ^ (-shift)) :=
    rounds_of_near (by decide) least near small' (full.imp_right wide)
  rwa [unscale] at rounds

/-- A quotient that reaches the power above the largest float. -/
theorem correct_huge (hx : 0 < x) (hy : 0 < y) (huge : 1023 < leading x y) :
    ∃ v, Correct (x / y) v ∧ largest < v := by
  obtain ⟨low, high⟩ := leading_right hx hy
  obtain ⟨-, full, correct⟩ := correct_scaled (x := x) hy (52 - leading x y) (by omega)
    (by rwa [show 53 - (52 - leading x y) = leading x y + 1 by ring])
    (.inr (by rwa [sub_sub_cancel]))
  refine ⟨_, correct, ?_⟩
  have mantissa : (2 ^ 52 : ℚ) ≤ shiftedQuotient x y (52 - leading x y) := by
    exact_mod_cast full (by rwa [sub_sub_cancel])
  have power : (2 : ℚ) ^ (971 + 1 : ℤ) ≤ 2 ^ (-(52 - leading x y)) :=
    zpow_le_zpow_right₀ one_le_two (by omega)
  have pos : (0 : ℚ) < 2 ^ (971 : ℤ) := zpow_pos two_pos _
  have product := mul_le_mul mantissa power (zpow_pos two_pos _).le (Nat.cast_nonneg _)
  refine lt_of_lt_of_le ?_ product
  rw [zpow_add_one₀ two_ne_zero]
  unfold largest
  generalize (2 : ℚ) ^ (971 : ℤ) = P at pos ⊢
  linarith

/-- Between them the quotient is an integer of at most 53 bits, scaled. -/
theorem correct_shifted (hx : 0 < x) (hy : 0 < y) (high : leading x y ≤ 1023) {shift : Int}
    (chosen : shift = if leading x y < -1022 then 1074 else 52 - leading x y) :
    shiftedQuotient x y shift ≤ 2 ^ 53 ∧ -1074 ≤ -shift ∧ -shift ≤ 971 ∧
      Correct (x / y) (shiftedQuotient x y shift * 2 ^ (-shift)) := by
  obtain ⟨low, up⟩ := leading_right hx hy
  split at chosen
  · next tiny =>
    subst chosen
    have small : (x : ℚ) / y < 2 ^ (53 - 1074 : ℤ) :=
      up.trans_le (zpow_le_zpow_right₀ one_le_two (by omega))
    obtain ⟨bound, -, correct⟩ := correct_scaled hy 1074 le_rfl small (.inl rfl)
    exact ⟨bound, le_rfl, by norm_num, correct⟩
  · next normal =>
    subst chosen
    obtain ⟨bound, -, correct⟩ := correct_scaled (x := x) hy (52 - leading x y) (by omega)
      (by rwa [show 53 - (52 - leading x y) = leading x y + 1 by ring])
      (.inr (by rwa [sub_sub_cancel]))
    exact ⟨bound, by omega, by omega, correct⟩

variable {n d : Int}

/-- What `ratio` returns has the sign of the quotient. -/
def ratioSign (n d : Int) : Bool := decide (n < 0) != decide (d < 0)

theorem signed_right (negative : Bool) {f : F64} (plain : f.negative = false)
    (finite : f.isFinite = true) :
    (if negative then f.neg else f).isFinite = true ∧
      (if negative then f.neg else f).negative = negative ∧
      |(if negative then f.neg else f).value| = |f.value| := by
  obtain ⟨sign, finite', value⟩ := f.neg_right
  cases negative
  · rw [if_neg Bool.false_ne_true]
    exact ⟨finite, plain, rfl⟩
  · rw [if_pos rfl]
    exact ⟨finite'.trans finite, by rw [sign, plain, Bool.not_false], value⟩

theorem ofInt_small {q : Nat} (le : q ≤ 2 ^ 53) :
    (ofInt q).isFinite = true ∧ (ofInt q).negative = false ∧ |(ofInt q).value| = q := by
  rcases Nat.eq_zero_or_pos q with rfl | pos
  · obtain ⟨sign, finite, value⟩ := zero_right false
    have bits : ofInt (0 : Nat) = zero false := rfl
    rw [bits]
    exact ⟨finite, sign, by rw [value, abs_zero, Nat.cast_zero]⟩
  · exact ofInt_right pos le

/-- A product that is on the grid is exact, or beyond the largest float. -/
theorem scaled_product {q : Nat} {scale : Int} (le : q ≤ 2 ^ 53) (least : -1074 ≤ scale)
    (most : scale ≤ 971) :
    ((ofInt q).mul (powerOfTwo scale)).negative = false ∧
      (((ofInt q).mul (powerOfTwo scale)).isFinite = true →
        |((ofInt q).mul (powerOfTwo scale)).value| = q * 2 ^ scale) ∧
      (((ofInt q).mul (powerOfTwo scale)).isFinite = false → largest < q * 2 ^ scale) := by
  obtain ⟨finite, sign, value⟩ := ofInt_small le
  obtain ⟨finite', sign', value'⟩ := powerOfTwo_right least (by omega)
  obtain ⟨sign'', approximates⟩ := mul_right finite finite'
  have on : OnGrid 53 (-1074) ((q : ℚ) * 2 ^ scale) := onGrid_of_le (by decide) least le
  rw [value, value'] at approximates
  have plain : ((ofInt q).mul (powerOfTwo scale)).negative = false := by
    rw [sign'', sign, sign']
    rfl
  refine ⟨plain, ?_, ?_⟩
  · intro h
    exact (approximates.finite h).exact on
  · intro h
    obtain ⟨v, correct, large⟩ := approximates.infinite h
    rwa [correct.exact on] at large

/-- What `ratio` makes of two integers. -/
theorem ratio_cases (nonzero : d ≠ 0) :
    (∃ f : F64, ratio n d = .ok (if ratioSign n d then f.neg else f) ∧ f.isFinite = true ∧
      f.negative = false ∧ Correct |(n : ℚ) / d| |f.value|) ∨
    (ratio n d = .error divisionOverflow ∧ ∃ v, Correct |(n : ℚ) / d| v ∧ largest < v) := by
  have quotient : |(n : ℚ) / d| = (n.natAbs : ℚ) / d.natAbs := by
    rw [abs_div, Nat.cast_natAbs, Nat.cast_natAbs, Int.cast_abs, Int.cast_abs]
  obtain ⟨sign, finite, value⟩ := zero_right false
  rw [quotient]
  unfold ratio
  rw [if_neg nonzero]
  dsimp only
  by_cases none : n = 0
  · left
    refine ⟨F64.zero false, if_pos none, finite, sign, ?_⟩
    rw [value, none, abs_zero, Int.natAbs_zero, Nat.cast_zero, zero_div]
    exact correct_zero
  have hx : 0 < n.natAbs := Int.natAbs_pos.mpr none
  have hy : 0 < d.natAbs := Int.natAbs_pos.mpr nonzero
  rw [if_neg none]
  by_cases huge : 1023 < leading n.natAbs d.natAbs
  · exact .inr ⟨if_pos huge, correct_huge hx hy huge⟩
  rw [if_neg huge]
  by_cases tiny : leading n.natAbs d.natAbs < -1075
  · left
    refine ⟨F64.zero false, if_pos tiny, finite, sign, ?_⟩
    have below := (leading_right hx hy).2.trans_le
      (zpow_le_zpow_right₀ one_le_two (by omega : leading n.natAbs d.natAbs + 1 ≤ -1075))
    rw [value, abs_zero]
    exact correct_tiny (by positivity) below
  rw [if_neg tiny]
  generalize chosen : (if leading n.natAbs d.natAbs < -1022 then 1074 else
    52 - leading n.natAbs d.natAbs) = shift
  obtain ⟨bound, least, most, correct⟩ := correct_shifted hx hy (not_lt.mp huge) chosen.symm
  obtain ⟨sign', finite', infinite'⟩ := scaled_product bound least most
  rw [if_neg (by omega)]
  by_cases exact' : ((ofInt (shiftedQuotient n.natAbs d.natAbs shift)).mul
      (powerOfTwo (-shift))).isFinite = true
  · left
    refine ⟨_, if_pos exact', exact', sign', ?_⟩
    rw [finite' exact']
    exact correct
  · right
    exact ⟨if_neg exact', _, correct, infinite' (by simpa using exact')⟩

theorem same_sign {f : F64} (sign : f.negative = ratioSign n d) : 0 ≤ f.value * ((n : ℚ) / d) := by
  rw [f.value_eq_abs, sign]
  unfold ratioSign
  have size := abs_nonneg f.value
  by_cases hn : n < 0 <;> by_cases hd : d < 0
  · have : (0 : ℚ) ≤ n / d :=
      div_nonneg_of_nonpos (by exact_mod_cast hn.le) (by exact_mod_cast hd.le)
    simpa [hn, hd] using mul_nonneg size this
  · have : (n : ℚ) / d ≤ 0 := div_nonpos_of_nonpos_of_nonneg (by exact_mod_cast hn.le)
      (by exact_mod_cast not_lt.mp hd)
    simpa [hn, hd] using mul_nonpos_of_nonneg_of_nonpos size this
  · have : (n : ℚ) / d ≤ 0 := div_nonpos_of_nonneg_of_nonpos (by exact_mod_cast not_lt.mp hn)
      (by exact_mod_cast hd.le)
    simpa [hn, hd] using mul_nonpos_of_nonneg_of_nonpos size this
  · have : (0 : ℚ) ≤ n / d := div_nonneg (by exact_mod_cast not_lt.mp hn)
      (by exact_mod_cast not_lt.mp hd)
    simpa [hn, hd] using mul_nonneg size this

/-- What comes of rounding `q`: the nearest float, or an overflow exactly if the rounded number is
above the largest one. -/
structure RoundsTo (q : ℚ) (negative : Bool) (run : Except Fault F64) : Prop where
  nearest : ∀ x, run = .ok x → x.IsNearest q ∧ x.negative = negative
  overflow : run = .error divisionOverflow ↔ ∃ v, Correct |q| v ∧ largest < v
  fault : ∀ fault, run = .error fault → fault = divisionOverflow

theorem roundsTo_of_correct {q : ℚ} {x : F64} (finite : x.isFinite = true) (sign : 0 ≤ x.value * q)
    (correct : Correct |q| |x.value|) : RoundsTo q x.negative (.ok x) := by
  refine ⟨?_, ⟨fun no => (by cases no), ?_⟩, fun fault no => (by cases no)⟩
  · intro y eq
    cases eq
    exact ⟨isNearest_of_correct finite sign correct, rfl⟩
  · rintro ⟨v, correct', above⟩
    have below := (onGrid_value finite).2
    rw [correct.unique (by decide) correct'] at below
    exact absurd above (not_lt.mpr below)

theorem ratio_rounds (nonzero : d ≠ 0) : RoundsTo (n / d) (ratioSign n d) (ratio n d) := by
  rcases ratio_cases (n := n) nonzero with ⟨f, run, finite, plain, correct⟩ | ⟨run, v, correct, above⟩
  · obtain ⟨finite', sign, value⟩ := signed_right (ratioSign n d) plain finite
    have rounds := roundsTo_of_correct finite' (same_sign sign) (by rwa [value])
    rwa [sign, ← run] at rounds
  · rw [run]
    refine ⟨fun x no => (by cases no), ⟨fun _ => ⟨v, correct, above⟩, fun _ => rfl⟩, ?_⟩
    intro fault eq
    cases eq
    rfl

theorem ratio_right (n d : Int) (nonzero : d ≠ 0) :
    (∀ x, ratio n d = .ok x → x.IsNearest (n / d) ∧ x.negative = ratioSign n d) ∧
      (ratio n d = .error divisionOverflow ↔ ∃ v, Correct |(n : ℚ) / d| v ∧ largest < v) ∧
      ∀ fault, ratio n d = .error fault → fault = divisionOverflow :=
  have rounds := ratio_rounds (n := n) nonzero
  ⟨rounds.nearest, rounds.overflow, rounds.fault⟩

theorem ratio_right_third :
    (ratio 1 3).toOption = some (F64.ofBits 0x3fd5555555555555) ∧
      ∀ x, ratio 1 3 = .ok x → x.IsNearest ((1 : Int) / (3 : Int)) ∧ x.negative = false := by
  refine ⟨by decide +kernel, fun x run => ?_⟩
  exact (ratio_right 1 3 (by decide)).1 x run

end Quotient

end Tonic
