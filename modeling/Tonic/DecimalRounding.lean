import Tonic.RoundedSound

/-!
## Rounding at a decimal digit

An integer is rounded to the next multiple of a power of ten, and a float to the float next to the
decimal that its exact value is rounded to; ties go to the even one.
-/

namespace Tonic

open Rounding F64

/-! ### Integers -/

section Integers

variable {n : Int} {d : Nat}

theorem near_roundRatio (pos : 0 < d) (n : Int) : Near ((n : ℚ) / d) (roundRatio n d) := by
  have near := near_halfEven (n := n.natAbs) pos
  unfold roundRatio
  dsimp only
  by_cases negative : n < 0
  · have value : (n : ℚ) / d = -((n.natAbs : ℚ) / d) := by
      rw [Nat.cast_natAbs, abs_of_neg negative, Int.cast_neg, neg_div, neg_neg]
    rw [if_pos negative, value]
    exact near.neg
  · have value : (n : ℚ) / d = (n.natAbs : ℚ) / d := by
      rw [Nat.cast_natAbs, abs_of_nonneg (not_lt.mp negative)]
    rw [if_neg negative, value]
    exact near

/-- A number below one half is rounded to zero. -/
theorem near_zero {r : ℚ} (small : |r| < 1 / 2) : Near r 0 := by
  have distance : |((0 : ℤ) : ℚ) - r| = |r| := by rw [Int.cast_zero, zero_sub, abs_neg]
  exact ⟨by rw [distance]; exact small.le, fun half => absurd (distance ▸ half) small.ne⟩

theorem two_mul_lt_pow {places : Nat} (many : bigBits n + 1 < places) : 2 * n.natAbs < 10 ^ places := by
  have size : n.natAbs < 2 ^ bigBits n := by
    unfold bigBits
    split
    · next zero => simp [zero]
    · exact Nat.lt_pow_succ_log_self one_lt_two _
  have two : 2 ^ places ≤ 10 ^ places := Nat.pow_le_pow_left (by decide) places
  have more : 2 ^ (bigBits n + 1) ≤ 2 ^ places := Nat.pow_le_pow_right (by decide) many.le
  rw [Nat.pow_succ] at more
  omega

theorem roundInteger_right {places : Nat} (pos : 0 < places) (n : Int) :
    if n ≠ 0 ∧ places ≤ bigBits n + 1 ∧ 2 ^ 32 ≤ places then
      roundInteger n (some (-places)) = .error (.raise "MemoryError" "round precision is too large")
    else ∃ m : Int, Near ((n : ℚ) / (10 ^ places : Nat)) m ∧
      roundInteger n (some (-places)) = .ok (m * (10 ^ places : Nat)) := by
  have scale : 0 < 10 ^ places := Nat.pow_pos (by decide)
  have scale' : (0 : ℚ) < (10 ^ places : Nat) := by exact_mod_cast scale
  unfold roundInteger
  dsimp only
  rw [Int.neg_neg]
  by_cases zero : n = 0
  · rw [if_neg (by simp [zero]), if_pos (.inr zero)]
    refine ⟨0, near_zero ?_, by rw [zero, zero_mul]⟩
    rw [zero, Int.cast_zero, zero_div, abs_zero]
    norm_num
  have negative : ¬ (0 ≤ -(places : Int) ∨ n = 0) := by omega
  rw [if_neg negative]
  by_cases many : (bigBits n : Int) + 1 < places
  · rw [if_neg (by omega), if_pos many]
    refine ⟨0, near_zero ?_, by rw [zero_mul]⟩
    have low : 2 * n.natAbs < 10 ^ places := two_mul_lt_pow (by omega)
    have low' : 2 * |(n : ℚ)| < (10 ^ places : Nat) := by
      rw [← Int.cast_abs, ← Int.natCast_natAbs, Int.cast_natCast]
      exact_mod_cast low
    rw [abs_div, abs_of_pos scale', div_lt_iff₀ scale']
    linarith
  · rw [if_neg many]
    by_cases wide : 2 ^ 32 ≤ (places : Int)
    · rw [if_pos (by omega), if_pos wide]
    · rw [if_neg (by omega), if_neg wide]
      refine ⟨roundRatio n (10 ^ places), near_roundRatio scale n, ?_⟩
      rw [Int.toNat_natCast]

end Integers

/-! ### Floats -/

section Floats

variable {x : F64} {k : Int} {m : ℤ}

theorem exists_near (r : ℚ) : ∃ m : ℤ, Near r m := by
  refine ⟨roundRatio r.num r.den, ?_⟩
  have near := near_roundRatio r.den_pos r.num
  rwa [Rat.num_div_den] at near

/-- Rounding does not change the sign. -/
theorem near_sign {r : ℚ} (near : Near r m) : 0 ≤ r * m := by
  have half := abs_le.mp near.half
  rcases lt_trichotomy m 0 with below | zero | above
  · have : (m : ℚ) ≤ -1 := by exact_mod_cast Int.le_sub_one_of_lt below
    exact mul_nonneg_of_nonpos_of_nonpos (by linarith) (by linarith)
  · rw [zero, Int.cast_zero, mul_zero]
  · have : (1 : ℚ) ≤ m := by exact_mod_cast above
    exact mul_nonneg (by linarith) (by linarith)

theorem negative_of_near {s : ℚ} (pos : 0 < s) (near : Near (x.value * s) m) (some : m ≠ 0) :
    decide (m < 0) = x.negative := by
  have half := abs_le.mp near.half
  have value := x.value_eq_abs
  have size := abs_nonneg x.value
  cases sign : x.negative
  · rw [sign, if_neg Bool.false_ne_true] at value
    have nonneg : 0 ≤ x.value * s := mul_nonneg (by linarith) pos.le
    apply decide_eq_false
    intro below
    have : (m : ℚ) ≤ -1 := by exact_mod_cast Int.le_sub_one_of_lt below
    linarith
  · rw [sign, if_pos rfl] at value
    have nonpos : x.value * s ≤ 0 := mul_nonpos_of_nonpos_of_nonneg (by linarith) pos.le
    apply decide_eq_true
    by_contra above
    have : (1 : ℚ) ≤ m := by
      have : 1 ≤ m := by omega
      exact_mod_cast this
    linarith

theorem floatRatio_right (x : F64) :
    0 < (floatRatio x).2 ∧ ((floatRatio x).1 : ℚ) / (floatRatio x).2 = x.value := by
  have value (n d : Nat) (size : (n : ℚ) / d = |x.value|) : ((x.signed n : Int) : ℚ) / d = x.value := by
    rw [x.value_eq_abs, ← size, signed]
    split
    · rw [Int.cast_neg, Int.cast_natCast, neg_div]
    · rw [Int.cast_natCast]
  unfold floatRatio
  dsimp only
  split
  · next up =>
    refine ⟨one_pos, value _ 1 ?_⟩
    rw [x.abs_value, Nat.cast_one, div_one, Nat.cast_mul, Nat.cast_pow, Nat.cast_ofNat,
      ← zpow_natCast, Int.toNat_of_nonneg up]
  · next down =>
    refine ⟨Nat.two_pow_pos _, value _ _ ?_⟩
    rw [x.abs_value, Nat.cast_pow, Nat.cast_ofNat, ← zpow_natCast, Int.toNat_of_nonneg (by omega),
      zpow_neg, div_inv_eq_mul]

/-- A float that is rounded to no digits at all is a zero of its sign. -/
theorem zeroLike_rounds (x : F64) : RoundsTo 0 x.negative (.ok x.zeroLike) := by
  obtain ⟨sign, finite, value⟩ := zero_right x.negative
  have rounds := roundsTo_of_correct (q := 0) finite (by rw [mul_zero])
    (by rw [value, abs_zero]; exact correct_zero)
  rwa [sign] at rounds

/-- Digits beyond the least float make no difference. -/
theorem many_digits (finite : x.isFinite = true) (many : 323 < k) (near : Near (x.value * 10 ^ k) m) :
    RoundsTo (m * 10 ^ (-k)) x.negative (.ok x) := by
  have pos : (0 : ℚ) < 10 ^ (-k) := zpow_pos (by norm_num) _
  have scaled : x.value = x.value * 10 ^ k * 10 ^ (-k) := by
    rw [mul_assoc, ← zpow_add₀ (by norm_num), add_neg_cancel, zpow_zero, mul_one]
  have distance : |m * 10 ^ (-k) - x.value| ≤ 1 / 2 * 10 ^ (-k) := by
    conv_lhs => rw [scaled, ← sub_mul, abs_mul, abs_of_pos pos]
    exact mul_le_mul_of_nonneg_right near.half pos.le
  have tiny : (10 : ℚ) ^ (-k) < 2 ^ (-1074 : ℤ) := by
    calc (10 : ℚ) ^ (-k) ≤ 10 ^ (-324 : ℤ) := zpow_le_zpow_right₀ (by norm_num) (by omega)
      _ = ((10 ^ 324 : Nat) : ℚ)⁻¹ := by rw [zpow_neg, zpow_ofNat, Nat.cast_pow, Nat.cast_ofNat]
      _ < ((2 ^ 1074 : Nat) : ℚ)⁻¹ := by
        apply inv_strictAnti₀ (by exact_mod_cast Nat.two_pow_pos 1074)
        exact_mod_cast (by decide +kernel : 2 ^ 1074 < 10 ^ 324)
      _ = 2 ^ (-1074 : ℤ) := by rw [zpow_neg, zpow_ofNat, Nat.cast_pow, Nat.cast_ofNat]
  refine roundsTo_of_correct finite ?_ (rounds_of_close (onGrid_value finite).1 ?_)
  · rw [scaled, mul_mul_mul_comm]
    exact mul_nonneg (near_sign near) (mul_pos pos pos).le
  · have reach := abs_abs_sub_abs_le x.value (m * 10 ^ (-k))
    rw [abs_sub_comm] at distance
    linarith

/-- A float is less than half of a power of ten that is large enough. -/
theorem few_digits (finite : x.isFinite = true) (few : k < -308) : Near (x.value * 10 ^ k) 0 := by
  apply near_zero
  have below : |x.value| < 2 ^ 1024 := by
    refine (onGrid_value finite).2.trans_lt ?_
    have power : (2 : ℚ) ^ 1024 = 2 ^ 53 * 2 ^ (971 : ℤ) := by
      rw [zpow_ofNat, ← pow_add]
    have pos : (0 : ℚ) < 2 ^ (971 : ℤ) := zpow_pos two_pos _
    rw [power, largest]
    exact mul_lt_mul_of_pos_right (by norm_num) pos
  have pos : (0 : ℚ) < 10 ^ k := zpow_pos (by norm_num) _
  have small : (10 : ℚ) ^ k ≤ 10 ^ (-309 : ℤ) := zpow_le_zpow_right₀ (by norm_num) (by omega)
  have wide : (2 : ℚ) ^ 1024 * 10 ^ (-309 : ℤ) < 1 / 2 := by
    have double : ((2 ^ 1024 * 2 : Nat) : ℚ) < (10 ^ 309 : Nat) := by
      exact_mod_cast (by decide +kernel : 2 ^ 1024 * 2 < 10 ^ 309)
    push_cast at double
    rw [zpow_neg, zpow_ofNat, ← div_eq_mul_inv, div_lt_div_iff₀ (by positivity) two_pos, one_mul]
    exact double
  rw [abs_mul, abs_of_pos pos]
  calc |x.value| * 10 ^ k ≤ 2 ^ 1024 * 10 ^ (-309 : ℤ) :=
        mul_le_mul below.le small pos.le (by positivity)
    _ < 1 / 2 := wide

/-- What becomes of the digits that are left. -/
theorem rounded_right (near : Near (x.value * 10 ^ k) m) {n d : Int} (pos : 0 < d)
    (quotient : (n : ℚ) / d = m * 10 ^ (-k)) :
    RoundsTo (m * 10 ^ (-k)) x.negative (if m = 0 then .ok x.zeroLike else ratio n d) := by
  split
  · next none =>
    rw [none, Int.cast_zero, zero_mul]
    exact zeroLike_rounds x
  · next some =>
    have scale : (0 : ℚ) < 10 ^ (-k) := zpow_pos (by norm_num) _
    have pos' : (0 : ℚ) < d := by exact_mod_cast pos
    have below : n < 0 ↔ m < 0 := by
      have below' : (n : ℚ) < 0 ↔ (m : ℚ) < 0 := by
        have product : (m : ℚ) * 10 ^ (-k) < 0 ↔ (m : ℚ) < 0 := by
          rw [← lt_div_iff₀ scale, zero_div]
        rw [← product, ← quotient, div_lt_iff₀ pos', zero_mul]
      exact_mod_cast below'
    have sign : ratioSign n d = x.negative := by
      rw [ratioSign, decide_eq_false (not_lt.mpr pos.le), Bool.bne_false, decide_eq_decide.mpr below]
      exact negative_of_near (zpow_pos (by norm_num) _) near some
    have rounds := ratio_rounds (n := n) pos.ne'
    rwa [sign, quotient] at rounds

theorem roundFloat_rounds (finite : x.isFinite = true) (k : Int) :
    ∃ m : ℤ, Near (x.value * 10 ^ k) m ∧ RoundsTo (m * 10 ^ (-k)) x.negative (roundFloat x k) := by
  obtain ⟨pos, value⟩ := floatRatio_right x
  unfold roundFloat
  rw [if_neg (by rw [finite]; exact Bool.false_ne_true)]
  by_cases many : 323 < k
  · rw [if_pos many]
    obtain ⟨m, near⟩ := exists_near (x.value * 10 ^ k)
    exact ⟨m, near, many_digits finite many near⟩
  rw [if_neg many]
  by_cases few : k < -308
  · rw [if_pos few]
    refine ⟨0, few_digits finite few, ?_⟩
    rw [Int.cast_zero, zero_mul]
    exact zeroLike_rounds x
  rw [if_neg few]
  dsimp only
  generalize floatRatio x = fraction at pos value ⊢
  obtain ⟨n, d⟩ := fraction
  dsimp only at pos value ⊢
  by_cases fractional : 0 ≤ k
  · obtain ⟨places, rfl⟩ := Int.eq_ofNat_of_zero_le fractional
    rw [if_pos fractional, Int.toNat_natCast]
    have near := near_roundRatio pos (n * 10 ^ places)
    have scaled : ((n * 10 ^ places : Int) : ℚ) / d = x.value * 10 ^ (places : ℤ) := by
      rw [← value, zpow_natCast]
      push_cast
      ring
    rw [scaled] at near
    refine ⟨_, near, rounded_right near (by positivity) ?_⟩
    push_cast
    rw [zpow_neg, zpow_natCast, div_eq_mul_inv]
  · obtain ⟨places, rfl⟩ : ∃ places : Nat, k = -(places : Int) := ⟨(-k).toNat, by omega⟩
    have flip : (-(-(places : Int))).toNat = places := by omega
    rw [if_neg fractional, flip]
    have scale : 0 < d * 10 ^ places := Nat.mul_pos pos (Nat.pow_pos (by decide))
    have near := near_roundRatio scale n
    have scaled : (n : ℚ) / (d * 10 ^ places : Nat) = x.value * 10 ^ (-(places : ℤ)) := by
      rw [← value, zpow_neg, zpow_natCast]
      push_cast
      rw [← div_div, div_eq_mul_inv]
    rw [scaled] at near
    refine ⟨_, near, rounded_right near one_pos ?_⟩
    rw [neg_neg, zpow_natCast, Int.cast_one, div_one]
    push_cast
    rfl

end Floats

/-! ### Both -/

/-- What rounding an integer to `k` decimal digits comes to. -/
def RoundedInteger (n k : Int) (run : Except Fault Int) : Prop :=
  if 0 ≤ k then run = .ok n
  else if n ≠ 0 ∧ -k ≤ bigBits n + 1 ∧ 2 ^ 32 ≤ -k then
    run = .error (.raise "MemoryError" "round precision is too large")
  else ∃ m : ℤ, Near (n / 10 ^ (-k)) m ∧ run = .ok (m * 10 ^ (-k).toNat)

/-- What rounding a float to `k` decimal digits comes to. -/
def RoundedFloat (x : F64) (k : Int) (run : Except Fault F64) : Prop :=
  if x.isFinite then
    ∃ m : ℤ, Near (x.value * 10 ^ k) m ∧ RoundsTo (m * 10 ^ (-k)) x.negative run
  else run = .ok x

theorem decimal_rounding_right (k : Int) :
    (∀ n, RoundedInteger n k (roundInteger n (some k))) ∧ ∀ x, RoundedFloat x k (roundFloat x k) := by
  constructor
  · intro n
    unfold RoundedInteger
    by_cases whole : 0 ≤ k
    · rw [if_pos whole]
      exact if_pos (.inl whole)
    · rw [if_neg whole]
      obtain ⟨places, rfl⟩ : ∃ places : Nat, k = -(places : Int) := ⟨(-k).toNat, by omega⟩
      have right := roundInteger_right (by omega : 0 < places) n
      rw [Int.neg_neg, zpow_natCast, Int.toNat_natCast]
      exact_mod_cast right
  · intro x
    unfold RoundedFloat
    split
    · next finite => exact roundFloat_rounds finite k
    · next infinite => exact if_pos (by simpa using infinite)

/-- The largest float has no float next to its leading digit. -/
theorem largest_not_rounded : (F64.ofBits (2047 * 2 ^ 52 - 1)).isFinite = true ∧
    ¬ ∃ y, roundFloat (F64.ofBits (2047 * 2 ^ 52 - 1)) (-308) = .ok y := by
  constructor
  · decide +kernel
  · rintro ⟨y, run⟩
    have none : (roundFloat (F64.ofBits (2047 * 2 ^ 52 - 1)) (-308)).toOption = none := by
      decide +kernel
    rw [run] at none
    cases none

end Tonic
