import Mathlib.Algebra.Group.Int.Even
import Mathlib.Algebra.Ring.Parity
import Tonic.Integer
import Tonic.Storage

/-!
## The words agree with the big integers

Both halves of a binary operator compute the same integer, except for left shifts.
-/

namespace Tonic

open Effect FixedWidth Heap

/-! ### What an operator means -/

/-- The operators on two integers that give an integer. -/
def Op.integral : Op → Bool
  | .add | .sub | .mul | .bitOr | .bitXor | .bitAnd | .leftShift | .rightShift | .floorDiv | .mod
  | .pow => true
  | _ => false

/-- The integer an operator denotes, or why there is none. No integer in memory has `2 ^ 64`
bits, so a shift to the right by that much leaves the sign. -/
def integerResult (op : Op) (x y : Int) : Except Fault Int :=
  match op with
  | .add => .ok (x + y)
  | .sub => .ok (x - y)
  | .mul => .ok (x * y)
  | .bitOr => .ok (x.lor y)
  | .bitXor => .ok (x.xor y)
  | .bitAnd => .ok (x.land y)
  | .leftShift =>
    if y < 0 then .error negativeShift
    else if x ≠ 0 ∧ maxIntegerResultBits < bigBits x + y.toNat then .error shiftTooLarge
    else .ok (x * 2 ^ y.toNat)
  | .rightShift =>
    if y < 0 then .error negativeShift
    else if 2 ^ 64 ≤ y then .ok (if x < 0 then -1 else 0)
    else .ok (x / 2 ^ y.toNat)
  | .pow =>
    if 1 < x.natAbs ∧ (2 ^ 32 ≤ y ∨ maxIntegerResultBits < bigBits x * y.toNat) then
      .error exponentTooLarge
    else .ok (x ^ y.toNat)
  | .floorDiv => if y = 0 then .error divisionByZero else .ok (x.fdiv y)
  | .mod => if y = 0 then .error divisionByZero else .ok (x.fmod y)
  | _ => .error unsupported

/-- The call gives the integer or the error, unless the heap is full and the integer needs an
object. -/
def Computes (m : HeapM Value) (result : Except Fault Int) (h : Heap) : Prop :=
  match result with
  | .error e => m h = .error e h
  | .ok n => wp m (fun v t => t.integer v = .ok n)
      (fun t => t = h ∧ h.room = 0 ∧ Value.int n = none) h

/-! ### Immediate integers -/

variable {h : Heap} {x y n : Int} {v : Value} {op : Op}

def Immediate (n : Int) : Prop := minInt ≤ n ∧ n ≤ maxInt

theorem Immediate.fits (h : Immediate n) : Fits 64 n := by
  simp only [Immediate, minInt, maxInt] at h
  simp only [Fits]
  omega

theorem immediate_of_integer (h : v.integer = some n) : Immediate n := by
  cases v with
  | small m =>
    cases h
    exact ⟨m.lower, m.upper⟩
  | bool b =>
    cases h
    cases b <;> exact ⟨by decide, by decide⟩
  | _ => cases h

theorem int_eq_some_iff : Value.int n = some v ↔ ∃ h : Immediate n, v = .small ⟨n, h.1, h.2⟩ := by
  unfold Value.int
  split
  · next fits =>
    constructor
    · intro eq
      exact ⟨fits, (Option.some.inj eq).symm⟩
    · rintro ⟨_, rfl⟩
      rfl
  · next outside =>
    constructor
    · intro eq
      cases eq
    · rintro ⟨fits, _⟩
      exact absurd fits outside

theorem integer_of_int (h : Value.int n = some v) : v.integer = some n := by
  obtain ⟨_, rfl⟩ := int_eq_some_iff.mp h
  rfl

theorem integer_of_immediate (hv : v.integer = some n) : h.integer v = .ok n := by
  have native : h.nativeValue v = v := by
    cases v with
    | small | bool => rfl
    | _ => cases hv
  simp only [Heap.integer, native, hv]

theorem isInteger_of_integer (hv : h.integer v = .ok n) : h.isInteger v = true := by
  simp only [Heap.integer] at hv
  simp only [Heap.isInteger]
  cases imm : (h.nativeValue v).integer with
  | some m => simp
  | none =>
    simp only [imm, Heap.get] at hv
    cases found : h.tryGet (h.nativeValue v) with
    | none => simp [found, bind, Except.bind] at hv
    | some o =>
      simp only [found, bind, Except.bind] at hv
      cases o with
      | int m => simp
      | _ => cases hv

/-- An integer that is no immediate value takes an object. -/
theorem wp_allocInt (hs : Sound h) (n : Int) :
    wp (allocInt n) (fun v t => t.integer v = .ok n)
      (fun t => t = h ∧ h.room = 0 ∧ Value.int n = none) h := by
  unfold allocInt
  split
  · next v eq =>
    obtain ⟨m, fits, immediate⟩ := Option.bind_eq_some_iff.mp eq
    obtain ⟨-, rfl⟩ := checked_eq_some.mp fits
    exact integer_of_immediate (integer_of_int immediate)
  · next eq =>
    have outside : Value.int n = none := by
      cases imm : Value.int n with
      | none => rfl
      | some v =>
        have fits := (immediate_of_integer (integer_of_int imm)).fits
        simp [checked, fits, imm] at eq
    refine wp_mono (wp_and (wp_alloc hs (o := .int n) (by simp [Object.trace]))
      (wp_alloc_room hs)) ?_ ?_
    · rintro v t ⟨⟨-, -, -, -, found⟩, -⟩
      have native : t.nativeValue v = v := by simp [Heap.nativeValue, found]
      have boxed : v.integer = none := by
        cases v with
        | small | bool => cases found
        | _ => rfl
      simp [Heap.integer, native, boxed, Heap.get, found, bind, Except.bind, pure, Except.pure]
    · rintro t ⟨-, same, full⟩
      exact ⟨same, full, outside⟩

theorem computes_allocInt (hs : Sound h) (n : Int) : Computes (allocInt n) (.ok n) h :=
  wp_allocInt hs n

/-! ### Big integers -/

/-- Truncating division, corrected where the signs differ, is floor division. -/
theorem floorDivMod_eq (x : Int) (nonzero : y ≠ 0) : floorDivMod x y = (x.fdiv y, x.fmod y) := by
  unfold floorDivMod
  rw [Int.fdiv_eq_tdiv, Int.fmod_eq_tmod]
  by_cases exact : y ∣ x
  · simp [Int.dvd_iff_tmod_eq_zero.mp exact, exact]
  · have remains : x.tmod y ≠ 0 := fun zero => exact (Int.dvd_iff_tmod_eq_zero.mpr zero)
    by_cases sign : 0 ≤ x
    · have sign' : ¬ x.tmod y < 0 := Int.not_lt.mpr (Int.tmod_nonneg y sign)
      by_cases positive : 0 ≤ y
      · simp [remains, exact, sign, sign', positive]
      · simp [remains, exact, sign, sign', positive, Int.not_le.mp positive]
    · have sign' : x.tmod y < 0 := by
        have := Int.tmod_nonneg y (a := -x) (by omega)
        rw [Int.neg_tmod] at this
        omega
      rcases Int.lt_or_gt_of_ne nonzero with negative | positive
      · simp [remains, exact, sign, sign', negative, Int.not_le.mpr negative, negative.le,
          Int.sign_eq_neg_one_of_neg]
      · have le := positive.le
        simp [remains, exact, sign, sign', Int.sign_eq_one_of_pos positive, le, abs_of_pos positive]

theorem natAbs_of_apart (h₀ : x ≠ 0) (h₁ : x ≠ 1) (h₂ : x ≠ -1) : 1 < x.natAbs := by omega

/-- The last bit of a number that is not negative. -/
theorem land_one (nonneg : 0 ≤ y) : y.land 1 = y % 2 := by
  obtain ⟨m, rfl⟩ := Int.eq_ofNat_of_zero_le nonneg
  show ((m &&& 1 : Nat) : Int) = _
  rw [Nat.and_one_is_mod]
  rfl

theorem neg_one_pow (nonneg : 0 ≤ y) : (-1 : Int) ^ y.toNat = if y.land 1 ≠ 0 then -1 else 1 := by
  rw [land_one nonneg]
  obtain ⟨m, rfl⟩ := Int.eq_ofNat_of_zero_le nonneg
  rcases Nat.even_or_odd m with even | odd
  · have : (m : Int) % 2 = 0 := by exact_mod_cast Nat.even_iff.mp even
    simp [this, even.neg_one_pow]
  · have : (m : Int) % 2 = 1 := by exact_mod_cast Nat.odd_iff.mp odd
    simp [this, odd.neg_one_pow]

theorem lt_min_maxU64 {n : Nat} : maxIntegerResultBits < min maxU64 n ↔
    maxIntegerResultBits < n := by
  simp [maxIntegerResultBits, maxU64]

theorem bigShift_left_computes (hs : Sound h) :
    Computes (bigShift .leftShift x y) (integerResult .leftShift x y) h := by
  unfold bigShift integerResult
  simp only [lt_min_maxU64, true_and, reduceCtorEq, if_false, if_true]
  by_cases negative : y < 0
  · simp only [if_pos negative]
    rfl
  by_cases zero : x = 0
  · simp only [if_neg negative, zero, ne_eq, not_true_eq_false, false_and, if_false,
      zero_mul]
    exact computes_allocInt hs 0
  by_cases huge : 2 ^ 64 ≤ y
  · have large : maxIntegerResultBits < bigBits x + y.toNat := by
      simp only [maxIntegerResultBits]
      omega
    simp only [if_neg negative, if_pos huge, ne_eq, zero, not_false_eq_true, large,
      and_self, if_true]
    rfl
  by_cases large : maxIntegerResultBits < bigBits x + y.toNat
  · simp only [if_neg negative, if_neg huge, ne_eq, zero, not_false_eq_true, large,
      and_self, if_true]
    rfl
  · simp only [if_neg negative, if_neg zero, if_neg huge, large, and_false, if_false]
    exact computes_allocInt hs _

theorem bigShift_right_computes (hs : Sound h) :
    Computes (bigShift .rightShift x y) (integerResult .rightShift x y) h := by
  unfold bigShift integerResult
  simp only [reduceCtorEq, false_and, if_false, if_true]
  by_cases negative : y < 0
  · simp only [if_pos negative]
    rfl
  · by_cases huge : 2 ^ 64 ≤ y
    · simp only [if_neg negative, if_pos huge]
      exact computes_allocInt hs _
    · simp only [if_neg negative, if_neg huge]
      exact computes_allocInt hs _

theorem bigPow_computes (hs : Sound h) (large : 1 < x.natAbs) :
    Computes (bigPow x y) (integerResult .pow x y) h := by
  unfold bigPow integerResult
  simp only [lt_min_maxU64, large, true_and]
  by_cases huge : 2 ^ 32 ≤ y
  · simp only [huge, true_or, if_true]
    rfl
  · by_cases many : maxIntegerResultBits < bigBits x * y.toNat
    · simp only [huge, many, or_true, if_true, if_false]
      rfl
    · simp only [huge, many, or_self, if_false]
      exact computes_allocInt hs _

/-- The branch for big integers computes what the operator means. -/
theorem bigInteger_computes [FloatLibrary] (hs : Sound h) (rest : HeapM Value)
    (integral : op.integral = true) (nonneg : op = .pow → 0 ≤ y) :
    Computes (bigInteger rest op x y) (integerResult op x y) h := by
  cases op with
  | add | sub | mul | bitOr | bitXor | bitAnd => exact computes_allocInt hs _
  | leftShift => exact bigShift_left_computes hs
  | rightShift => exact bigShift_right_computes hs
  | floorDiv | mod =>
    unfold bigInteger integerResult
    by_cases zero : y = 0
    · simp only [if_pos zero]
      rfl
    · simp only [if_neg zero, floorDivMod_eq x zero, reduceCtorEq, if_true, if_false]
      exact computes_allocInt hs _
  | pow =>
    have nonneg := nonneg rfl
    have negative : ¬ y < 0 := Int.not_lt.mpr nonneg
    unfold bigInteger
    simp only [if_neg negative]
    by_cases h₀ : x = 0
    · have power : (0 : Int) ^ y.toNat = if y = 0 then 1 else 0 := by
        split
        · next zero => simp [zero]
        · next positive => exact zero_pow (by omega)
      simp only [integerResult, h₀, if_true, Int.natAbs_zero, Nat.not_lt_zero, false_and, if_false,
        power]
      exact computes_allocInt hs _
    by_cases h₁ : x = 1
    · simp only [integerResult, h₁, one_ne_zero, if_false, if_true, Int.natAbs_one, lt_irrefl,
        false_and, one_pow]
      exact computes_allocInt hs _
    by_cases h₂ : x = -1
    · simp only [integerResult, h₂, Int.natAbs_neg, Int.natAbs_one, lt_irrefl, false_and, if_false,
        neg_one_pow nonneg, if_true]
      exact computes_allocInt hs _
    · simp only [if_neg h₀, if_neg h₁, if_neg h₂]
      exact bigPow_computes hs (natAbs_of_apart h₀ h₁ h₂)
  | _ => cases integral

/-! ### Words -/

/-- The loop multiplies up the power, if it gets to its end. -/
theorem checkedPow_eq {result base : Int} {remaining : Nat}
    (done : checkedPow result base remaining = some n) : n = result * base ^ remaining := by
  induction remaining using Nat.strong_induction_on generalizing result base with
  | _ remaining ih =>
    unfold checkedPow at done
    split at done
    · next zero =>
      cases done
      simp [zero]
    · next positive =>
      simp only [Option.bind_eq_some_iff] at done
      obtain ⟨result', multiplied, base', squared, done⟩ := done
      rw [ih _ (by omega) done]
      have odd : result' = result * base ^ (remaining % 2) := by
        split at multiplied
        · next odd =>
          obtain ⟨-, rfl⟩ := checked_eq_some.mp multiplied
          rw [Nat.mod_two_ne_zero.mp odd, pow_one]
        · next even =>
          cases multiplied
          rw [not_not.mp even, pow_zero, mul_one]
      have half : base' ^ (remaining / 2) = base ^ (2 * (remaining / 2)) := by
        split at squared
        · obtain ⟨-, rfl⟩ := checked_eq_some.mp squared
          rw [← pow_two, ← pow_mul]
        · next last =>
          rw [not_not.mp last, pow_zero, pow_zero]
      rw [odd, half, mul_assoc, ← pow_add, Nat.mod_add_div]

/-- A power of a word is not too large for the big integers. -/
theorem small_power (hx : Immediate x) (large : 1 < x.natAbs) (fits : Immediate (x ^ y.toNat)) :
    ¬ maxIntegerResultBits < bigBits x * y.toNat ∧ ¬ 2 ^ 32 ≤ y := by
  have exponent : y.toNat < 61 := by
    by_contra high
    have power : 2 ^ 61 ≤ (x ^ y.toNat).natAbs := by
      rw [Int.natAbs_pow]
      calc 2 ^ 61 ≤ 2 ^ y.toNat := Nat.pow_le_pow_right (by decide) (Nat.not_lt.mp high)
        _ ≤ x.natAbs ^ y.toNat := Nat.pow_le_pow_left large _
    simp only [Immediate, minInt, maxInt] at fits
    omega
  have bits : bigBits x ≤ 61 := by
    unfold bigBits
    split
    · exact Nat.zero_le _
    · have bound : x.natAbs < 2 ^ 61 := by
        simp only [Immediate, minInt, maxInt] at hx
        omega
      exact Nat.log_lt_of_lt_pow (by omega) bound
  have product := Nat.mul_le_mul bits exponent.le
  simp only [maxIntegerResultBits]
  omega

/-- A left shift whose word wraps round to an immediate integer. -/
def Wraps (x y : Int) : Prop :=
  0 ≤ y ∧ y < 64 ∧ ∃ k : Int, k ≠ 0 ∧ Immediate (x * 2 ^ y.toNat - k * 2 ^ 64)

theorem small_shift (hx : Immediate x) (below : y < 64) :
    ¬ maxIntegerResultBits < bigBits x + y.toNat := by
  have bits : bigBits x ≤ 61 := by
    unfold bigBits
    split
    · exact Nat.zero_le _
    · have bound : x.natAbs < 2 ^ 61 := by
        simp only [Immediate, minInt, maxInt] at hx
        omega
      exact Nat.log_lt_of_lt_pow (by omega) bound
  simp only [maxIntegerResultBits]
  omega

/-- A shift by the width of a word leaves the sign. -/
theorem ediv_of_immediate {k : Nat} (hx : Immediate x) (far : 64 ≤ k) :
    x / 2 ^ k = if x < 0 then -1 else 0 := by
  have wide : (2 : Int) ^ 64 ≤ 2 ^ k := pow_le_pow_right₀ (by decide) far
  simp only [Immediate, minInt, maxInt] at hx
  split
  · next negative =>
    refine ((Int.ediv_emod_unique (r := x + 2 ^ k) (by omega)).mpr ⟨?_, ?_, ?_⟩).1
    · ring
    · omega
    · omega
  · exact Int.ediv_eq_zero_of_lt (by omega) (by omega)

/-- A number and its remainder differ by a multiple of `2 ^ 64`. -/
theorem bmod_of_immediate {k : Int} (h : Immediate (n - k * 2 ^ 64)) :
    n.bmod (2 ^ 64) = n - k * 2 ^ 64 := by
  have same : n.bmod (2 ^ 64) = (n - k * 2 ^ 64).bmod (2 ^ 64) := by
    have := Int.sub_mul_bmod_self_right n k (2 ^ 64)
    simpa using this.symm
  rw [same, bmod_of_fits (by decide) h.fits]

/-- The result of the words is the result of the operator, unless a left shift wraps. -/
theorem wordBinary_ok (hx : Immediate x) (hy : Immediate y) (integral : op.integral = true)
    (nonneg : op = .pow → 0 ≤ y) (straight : op = .leftShift → ¬ Wraps x y)
    (done : wordBinary op x y = .ok (some n)) (fits : Immediate n) :
    integerResult op x y = .ok n := by
  simp only [wordBinary] at done
  cases op with
  | add | sub | mul =>
    have done := Except.ok.inj done
    simp only [checkedAdd, checkedSub, checkedMul, checked_eq_some] at done
    rw [done.2]
    rfl
  | bitOr =>
    cases done
    rw [bitOr_eq (by decide) hx.fits hy.fits]
    rfl
  | bitXor =>
    cases done
    rw [bitXor_eq (by decide) hx.fits hy.fits]
    rfl
  | bitAnd =>
    cases done
    rw [bitAnd_eq (by decide) hx.fits hy.fits]
    rfl
  | leftShift =>
    by_cases negative : y < 0
    · simp [negative] at done
    by_cases huge : 2 ^ 32 ≤ y
    · rw [if_neg negative, if_pos huge] at done
      cases done
    simp only [if_neg negative, if_neg huge, if_true, checkedShl] at done
    by_cases below : y.toNat < 64
    · rw [if_pos below] at done
      have word : n = (x * 2 ^ y.toNat).bmod (2 ^ 64) := by
        simpa using (Except.ok.inj done).symm
      have exact : x * 2 ^ y.toNat = n := by
        by_contra differs
        have split := Int.bmod_add_bdiv' (x * 2 ^ y.toNat) (2 ^ 64)
        refine straight rfl ⟨by omega, by omega, (x * 2 ^ y.toNat).bdiv (2 ^ 64), ?_, ?_⟩
        · intro zero
          rw [zero, zero_mul, add_zero, ← word] at split
          exact differs split.symm
        · have rest : x * 2 ^ y.toNat - (x * 2 ^ y.toNat).bdiv (2 ^ 64) * 2 ^ 64 = n := by
            rw [word]
            exact sub_eq_of_eq_add split.symm
          rwa [rest]
      have small := small_shift (x := x) (y := y) hx (by omega)
      simp only [integerResult, if_neg negative, small, and_false, if_false, exact]
    · rw [if_neg below] at done
      cases done
  | rightShift =>
    by_cases negative : y < 0
    · simp [negative] at done
    by_cases huge : 2 ^ 32 ≤ y
    · rw [if_neg negative, if_pos huge] at done
      cases done
    simp only [if_neg negative, if_neg huge, reduceCtorEq, if_false, checkedShr] at done
    have small : ¬ 2 ^ 64 ≤ y := by omega
    simp only [integerResult, if_neg negative, if_neg small]
    by_cases below : y.toNat < 64
    · simp only [if_pos below, Option.or_some] at done
      rw [← Option.some.inj (Except.ok.inj done)]
      rfl
    · simp only [if_neg below, Option.none_or] at done
      rw [← Option.some.inj (Except.ok.inj done), ediv_of_immediate hx (Nat.not_lt.mp below)]
  | floorDiv | mod =>
    by_cases zero : y = 0
    · simp [zero] at done
    · simp only [if_neg zero, reduceCtorEq, if_true, if_false] at done
      rw [← Option.some.inj (Except.ok.inj done)]
      simp [integerResult, zero, floorDivMod_eq x zero]
  | pow =>
    have done := Except.ok.inj done
    split at done
    · cases done
    · have power : n = x ^ y.toNat := by simpa using checkedPow_eq done
      subst power
      by_cases large : 1 < x.natAbs
      · obtain ⟨few, small⟩ := small_power hx large fits
        simp only [integerResult, few, small, or_self, and_false, if_false]
      · simp only [integerResult, large, false_and, if_false]
  | _ => cases integral

/-- An error of the words is an error of the operator. -/
theorem wordBinary_error {e : Fault} (integral : op.integral = true)
    (failed : wordBinary op x y = .error e) : integerResult op x y = .error e := by
  cases op with
  | leftShift | rightShift =>
    simp only [wordBinary, reduceCtorEq, if_true, if_false] at failed
    by_cases negative : y < 0
    · simpa [integerResult, negative] using failed
    · rw [if_neg negative] at failed
      split at failed <;> cases failed
  | floorDiv | mod =>
    simp only [wordBinary] at failed
    by_cases zero : y = 0
    · simpa [integerResult, zero] using failed
    · simp [zero] at failed
  | add | sub | mul | bitOr | bitXor | bitAnd | pow => cases failed
  | _ => cases integral

/-! ### Both halves -/

section Binary

variable [FloatLibrary] {rest : HeapM Value} {a b : Value}

theorem bigBinary_computes (hs : Sound h) (ha : h.integer a = .ok x) (hb : h.integer b = .ok y)
    (integral : op.integral = true) (nonneg : op = .pow → 0 ≤ y) :
    Computes (bigBinary rest op a b) (integerResult op x y) h := by
  have integers : (h.isInteger a && h.isInteger b) = true := by
    rw [isInteger_of_integer ha, isInteger_of_integer hb, Bool.and_self]
  have big : bigBinary rest op a b h = bigInteger rest op x y h := by
    show (if h.isInteger a && h.isInteger b then _ else _ : HeapM Value) h = _
    rw [if_pos integers]
    simp only [bind, EStateM.bind, reading, ha, hb]
  have computes : Computes (bigInteger rest op x y) (integerResult op x y) h :=
    bigInteger_computes hs rest integral nonneg
  cases result : integerResult op x y with
  | ok n =>
    rw [result] at computes
    simpa only [Computes, wp, big] using computes
  | error e =>
    rw [result] at computes
    simpa only [Computes, big] using computes

omit [FloatLibrary] in
theorem boolBinary_some (found : boolBinary op a b = some v) (ha : a.integer = some x)
    (hb : b.integer = some y) : ∃ n, integerResult op x y = .ok n ∧ v.integer = some n := by
  unfold boolBinary at found
  cases a with
  | bool p =>
    cases b with
    | bool q =>
      cases ha
      cases hb
      cases op with
      | bitOr | bitXor | bitAnd =>
        cases found
        refine ⟨_, rfl, ?_⟩
        cases p <;> cases q <;> rfl
      | _ => cases found
    | _ => cases found
  | _ => cases found

/-- The left shifts that lose bits: the word of the result wraps round to an immediate integer. -/
def LosesBits (op : Op) (a b : Value) : Prop :=
  op = .leftShift ∧ ∃ x y, a.integer = some x ∧ b.integer = some y ∧ Wraps x y

/-- Where both operands are immediate, the words decide. -/
theorem binary_immediate {x y : Int} (ha : a.integer = some x) (hb : b.integer = some y)
    (general : boolBinary op a b = none) (integral : op.integral = true)
    (nonneg : op = .pow → 0 ≤ y) :
    binary rest op a b = match wordBinary op x y with
      | .error e => throw e
      | .ok n =>
        match n.bind Value.int with
        | some v => return v
        | none => bigBinary rest op a b := by
  have power : ¬ (op = .pow ∧ y < 0) := fun ⟨pow, negative⟩ => Int.not_lt.mpr (nonneg pow) negative
  have exact : op ≠ .div := by
    rintro rfl
    cases integral
  unfold binary
  rw [general]
  cases hw : wordBinary op x y with
  | error e => simp only [ha, hb, if_neg power, if_neg exact, hw]
  | ok n =>
    cases hv : n.bind Value.int <;> simp only [ha, hb, if_neg power, if_neg exact, hw, hv]

theorem binary_big (boxed : a.integer = none ∨ b.integer = none) :
    binary rest op a b = bigBinary rest op a b := by
  have general : boolBinary op a b = none := by
    unfold boolBinary
    rcases boxed with ha | hb
    · cases a with
      | bool => cases ha
      | _ => rfl
    · cases b with
      | bool => cases hb
      | _ => cases a <;> rfl
  simp only [binary, general]
  rcases boxed with ha | hb
  · simp only [ha]
  · cases ha : a.integer <;> simp only [hb]

variable (rest) in
/-- A left shift that wraps round gives the wrapped word. -/
theorem binary_wraps {x y : Int} (ha : a.integer = some x) (hb : b.integer = some y)
    (wraps : Wraps x y) : ∃ v n, binary rest .leftShift a b h = .ok v h ∧ v.integer = some n ∧
      n ≠ x * 2 ^ y.toNat := by
  obtain ⟨nonneg, below, k, nonzero, immediate⟩ := wraps
  refine ⟨.small ⟨x * 2 ^ y.toNat - k * 2 ^ 64, immediate.1, immediate.2⟩, _, ?_, rfl, ?_⟩
  · have general : boolBinary .leftShift a b = none := by
      unfold boolBinary
      cases a.asBool <;> cases b.asBool <;> rfl
    have word : wordBinary .leftShift x y = .ok (some (x * 2 ^ y.toNat - k * 2 ^ 64)) := by
      simp only [wordBinary, if_neg (Int.not_lt.mpr nonneg), checkedShl, if_true]
      rw [if_neg (by omega), if_pos (by omega), ← bmod_of_immediate immediate]
    rw [binary_immediate ha hb general rfl nofun, word]
    simp only [Option.bind_some, int_eq_some_iff.mpr ⟨immediate, rfl⟩]
    rfl
  · intro same
    have zero := sub_eq_self.mp same
    omega

omit [FloatLibrary] in
/-- The shortcut of the interpreter gives the exact result. -/
theorem immediateBinary_eq (found : immediateBinary op a b = some v) (ha : a.integer = some x)
    (hb : b.integer = some y) :
    ∃ n, integerResult (baseBinaryOp op) x y = .ok n ∧ v.integer = some n := by
  simp only [immediateBinary, ha, hb, Option.bind_some, Option.bind_eq_some_iff] at found
  obtain ⟨n, result, immediate⟩ := found
  refine ⟨n, ?_, integer_of_int immediate⟩
  cases op with
  | add | inplaceAdd | sub | mul =>
    simp only [checkedAdd, checkedSub, checkedMul, checked_eq_some] at result
    rw [result.2]
    rfl
  | _ => cases result

theorem binary_computes (hs : Sound h) (ha : h.integer a = .ok x) (hb : h.integer b = .ok y)
    (integral : op.integral = true) (nonneg : op = .pow → 0 ≤ y) (kept : ¬ LosesBits op a b) :
    Computes (binary rest op a b) (integerResult op x y) h := by
  have big : Computes (bigBinary rest op a b) (integerResult op x y) h :=
    bigBinary_computes hs ha hb integral nonneg
  cases imm : a.integer with
  | none => rwa [binary_big (.inl imm)]
  | some x' =>
    cases imm' : b.integer with
    | none => rwa [binary_big (.inr imm')]
    | some y' =>
      obtain rfl : x' = x := Except.ok.inj ((integer_of_immediate imm).symm.trans ha)
      obtain rfl : y' = y := Except.ok.inj ((integer_of_immediate imm').symm.trans hb)
      cases general : boolBinary op a b with
      | some v =>
        obtain ⟨n, result, denotes⟩ := boolBinary_some general imm imm'
        simp only [binary, general, result]
        exact integer_of_immediate denotes
      | none =>
        rw [binary_immediate imm imm' general integral nonneg]
        cases word : wordBinary op x' y' with
        | error e =>
          rw [wordBinary_error integral word]
          rfl
        | ok result =>
          cases immediate : result.bind Value.int with
          | none => simpa only [immediate] using big
          | some v =>
            obtain ⟨n, rfl, boxed⟩ := Option.bind_eq_some_iff.mp immediate
            have exact := wordBinary_ok (immediate_of_integer imm) (immediate_of_integer imm')
              integral nonneg (fun shift wraps => kept ⟨shift, x', y', imm, imm', wraps⟩) word
              (immediate_of_integer (integer_of_int boxed))
            simp only [immediate, exact]
            exact integer_of_immediate (integer_of_int boxed)

theorem lost_differs (ha : h.integer a = .ok x) (hb : h.integer b = .ok y)
    (lost : LosesBits op a b) : ¬ Computes (binary rest op a b) (integerResult op x y) h := by
  obtain ⟨rfl, x', y', imm, imm', wraps⟩ := lost
  obtain rfl : x' = x := Except.ok.inj ((integer_of_immediate imm).symm.trans ha)
  obtain rfl : y' = y := Except.ok.inj ((integer_of_immediate imm').symm.trans hb)
  obtain ⟨v, n, run, denotes, differs⟩ := binary_wraps rest (h := h) imm imm' wraps
  have small := small_shift (x := x') (y := y') (immediate_of_integer imm) wraps.2.1
  have negative := Int.not_lt.mpr wraps.1
  intro computes
  simp only [integerResult, if_neg negative, small, and_false, if_false, Computes, wp, run,
    integer_of_immediate denotes] at computes
  exact differs (Except.ok.inj computes)

/-- A binary operator on two integers computes what it means exactly if it is no left shift that
loses bits; the branch for big integers and the shortcut of the interpreter always do. -/
theorem binary_agrees_iff (hs : Sound h) (ha : h.integer a = .ok x) (hb : h.integer b = .ok y)
    (integral : op.integral = true) (nonneg : op = .pow → 0 ≤ y) :
    (Computes (binary rest op a b) (integerResult op x y) h ↔ ¬ LosesBits op a b) ∧
      Computes (bigBinary rest op a b) (integerResult op x y) h ∧
      ∀ op' v x' y', immediateBinary op' a b = some v → a.integer = some x' →
        b.integer = some y' →
        ∃ n, integerResult (baseBinaryOp op') x' y' = .ok n ∧ v.integer = some n :=
  ⟨⟨fun computes lost => lost_differs ha hb lost computes,
    binary_computes hs ha hb integral nonneg⟩, bigBinary_computes hs ha hb integral nonneg,
    fun _ _ _ _ => immediateBinary_eq⟩

end Binary

section LostBit

theorem empty_sound : Sound (ofObjects []) := ofObjects_sound (by decide) (by simp)

/-- No float is computed here. -/
abbrev noFloats : FloatLibrary where
  powf base _ := base

/-- The sum of the largest immediate integer and `True`. -/
theorem binary_agrees_iff_boundary : Computes
    (@binary noFloats (throw unsupported) .add (.small ⟨maxInt, by decide, by decide⟩) (.bool true))
    (integerResult .add maxInt 1) (ofObjects []) := by
  let _ := noFloats
  have agrees : Computes (binary (throw unsupported) .add (.small ⟨maxInt, by decide, by decide⟩)
        (.bool true)) (integerResult .add maxInt 1) (ofObjects []) ↔ _ :=
    (binary_agrees_iff empty_sound rfl rfl rfl fun eq : Op.add = .pow => nomatch eq).1
  exact agrees.mpr fun lost => nomatch lost.1

/-- `2 << 63` is 0. -/
theorem left_shift_loses : ¬ ∀ (_ : FloatLibrary) (h : Heap) (a b : Value) (x y : Int), Sound h →
    h.integer a = .ok x → h.integer b = .ok y →
    Computes (binary (throw unsupported) .leftShift a b) (integerResult .leftShift x y) h := by
  intro computes
  let _ := noFloats
  have two : (ofObjects []).integer (.small ⟨2, by decide, by decide⟩) = .ok 2 := rfl
  have shift : (ofObjects []).integer (.small ⟨63, by decide, by decide⟩) = .ok 63 := rfl
  have wraps : Wraps 2 63 :=
    ⟨by decide, by decide, 1, by decide, by decide +kernel, by decide +kernel⟩
  exact lost_differs two shift ⟨rfl, 2, 63, rfl, rfl, wraps⟩
    (computes noFloats _ _ _ 2 63 empty_sound two shift)

end LostBit

end Tonic
