import Mathlib.Algebra.Order.Field.Rat
import Mathlib.Algebra.Order.Ring.Abs
import Mathlib.Algebra.Order.Field.Power
import Mathlib.Algebra.Ring.Parity
import Mathlib.Tactic.Linarith
import Mathlib.Tactic.Positivity
import Mathlib.Tactic.Ring
import Mathlib.Tactic.FieldSimp
import Mathlib.Tactic.Push

/-!
## Rounding to nearest, ties to even

Rounding of rational numbers to integers, and to grids of floating point numbers: the numbers
`m * 2 ^ e` whose mantissa has a bounded number of bits and whose exponent has a least value.
-/

namespace Rounding

/-! ### Integers -/

/-- An integer next to a number, and of two that are equally near the even one. -/
structure Near (r : ℚ) (m : ℤ) : Prop where
  half : |(m : ℚ) - r| ≤ 1 / 2
  even : |(m : ℚ) - r| = 1 / 2 → Even m

/-- The integer next to a quotient. -/
def halfEven (n d : Nat) : Nat :=
  if d < 2 * (n % d) ∨ 2 * (n % d) = d ∧ n / d % 2 = 1 then n / d + 1 else n / d

variable {r q v w : ℚ} {m k : ℤ} {n d : Nat}

theorem near_of_below {m : ℤ} {rest : ℚ} (eq : r = m + rest) (zero : 0 ≤ rest) (low : rest ≤ 1 / 2)
    (even : rest = 1 / 2 → Even m) : Near r m := by
  have distance : |(m : ℚ) - r| = rest := by
    rw [eq, sub_add_cancel_left, abs_neg, abs_of_nonneg zero]
  constructor
  · rwa [distance]
  · rwa [distance]

theorem near_of_above {m : ℤ} {rest : ℚ} (eq : r = m + rest) (one : rest ≤ 1) (high : 1 / 2 ≤ rest)
    (even : rest = 1 / 2 → Even (m + 1)) : Near r (m + 1) := by
  have distance : |((m + 1 : ℤ) : ℚ) - r| = 1 - rest := by
    push_cast
    rw [eq, add_sub_add_left_eq_sub, abs_of_nonneg (by linarith)]
  constructor
  · rw [distance]
    linarith
  · rw [distance]
    exact fun half => even (by linarith)

theorem near_halfEven (pos : 0 < d) : Near ((n : ℚ) / d) (halfEven n d) := by
  have pos' : (0 : ℚ) < d := by exact_mod_cast pos
  have small : n % d < d := Nat.mod_lt n pos
  have small' : ((n % d : Nat) : ℚ) < d := by exact_mod_cast small
  have quotient : (n : ℚ) / d = ((n / d : Nat) : ℤ) + ((n % d : Nat) : ℚ) / d := by
    have parts : (n : ℚ) = d * (n / d : Nat) + (n % d : Nat) := by
      exact_mod_cast (Nat.div_add_mod n d).symm
    rw [Int.cast_natCast]
    conv_lhs => rw [parts, add_div, mul_div_cancel_left₀ _ pos'.ne']
  have parity : ((n % d : Nat) : ℚ) / d = 1 / 2 ↔ 2 * (n % d) = d := by
    rw [div_eq_div_iff pos'.ne' two_ne_zero]
    constructor
    · intro half
      have : ((2 * (n % d) : Nat) : ℚ) = d := by push_cast; linarith
      exact_mod_cast this
    · intro half
      have : ((2 * (n % d) : Nat) : ℚ) = d := by exact_mod_cast half
      push_cast at this
      linarith
  unfold halfEven
  split
  · next up =>
    have high : 1 / 2 ≤ ((n % d : Nat) : ℚ) / d := by
      rw [div_le_div_iff₀ two_pos pos']
      have : d ≤ 2 * (n % d) := by omega
      have : (d : ℚ) ≤ (2 * (n % d) : Nat) := by exact_mod_cast this
      push_cast at this
      linarith
    refine near_of_above quotient ?_ high fun half => ?_
    · rw [div_le_one pos']
      exact small'.le
    · have tie := parity.mp half
      have odd : n / d % 2 = 1 := by omega
      rw [Int.even_add_one, Int.not_even_iff_odd, Int.odd_coe_nat]
      exact Nat.odd_iff.mpr odd
  · next down =>
    rw [not_or, not_and] at down
    have low : ((n % d : Nat) : ℚ) / d ≤ 1 / 2 := by
      rw [div_le_div_iff₀ pos' two_pos]
      have : 2 * (n % d) ≤ d := by omega
      have : ((2 * (n % d) : Nat) : ℚ) ≤ d := by exact_mod_cast this
      push_cast at this
      linarith
    refine near_of_below quotient (by positivity) low fun half => ?_
    have tie := parity.mp half
    have even : n / d % 2 = 0 := by
      have := down.2 tie
      omega
    rw [Int.even_coe_nat]
    exact Nat.even_iff.mpr even

theorem near_self (m : ℤ) : Near m m := by
  constructor
  · rw [sub_self, abs_zero]
    norm_num
  · rw [sub_self, abs_zero]
    intro half
    norm_num at half

theorem Near.neg (near : Near r m) : Near (-r) (-m) := by
  have distance : |((-m : ℤ) : ℚ) - -r| = |(m : ℚ) - r| := by
    push_cast
    rw [← neg_sub', abs_neg]
  constructor
  · rw [distance]
    exact near.half
  · rw [distance, even_neg]
    exact near.even

/-- No integer is nearer, and an other one is equally near only beside an even one. -/
theorem Near.nearest (near : Near r m) (k : ℤ) :
    |(m : ℚ) - r| ≤ |(k : ℚ) - r| ∧ (|(m : ℚ) - r| = |(k : ℚ) - r| → k = m ∨ Even m) := by
  by_cases same : k = m
  · subst same
    exact ⟨le_rfl, fun _ => .inl rfl⟩
  · have apart : (1 : ℚ) ≤ |(k : ℚ) - m| := by
      have := Int.one_le_abs (sub_ne_zero.mpr same)
      exact_mod_cast this
    have triangle : |(k : ℚ) - m| ≤ |(k : ℚ) - r| + |(m : ℚ) - r| := by
      rw [abs_sub_comm (m : ℚ) r]
      exact abs_sub_le _ _ _
    have half := near.half
    refine ⟨by linarith, fun tie => .inr (near.even ?_)⟩
    linarith

/-! ### Grids -/

section Grid

variable (p : Nat) (least : ℤ)

/-- The numbers with a mantissa below `2 ^ p` and an exponent from the least one on. -/
def OnGrid (v : ℚ) : Prop := ∃ (m : Nat) (e : ℤ), m < 2 ^ p ∧ least ≤ e ∧ v = m * 2 ^ e

/-- The numbers of the grid whose full mantissa is even. -/
def EvenOnGrid (v : ℚ) : Prop :=
  ∃ (m : Nat) (e : ℤ), m < 2 ^ p ∧ least ≤ e ∧ (e = least ∨ 2 ^ (p - 1) ≤ m) ∧ Even m ∧ v = m * 2 ^ e

/-- The number of the grid nearest to `q`, and of two that are equally near the even one. -/
structure Rounds (q v : ℚ) : Prop where
  on : OnGrid p least v
  nearest : ∀ w, OnGrid p least w → |v - q| ≤ |w - q|
  even : ∀ w, OnGrid p least w → w ≠ v → |v - q| = |w - q| → EvenOnGrid p least v

variable {p least} {e f : ℤ}

theorem zpow_pos' : (0 : ℚ) < 2 ^ e := zpow_pos two_pos e

theorem EvenOnGrid.on (h : EvenOnGrid p least v) : OnGrid p least v := by
  obtain ⟨m, e, small, above, -, -, eq⟩ := h
  exact ⟨m, e, small, above, eq⟩

theorem OnGrid.nonneg (h : OnGrid p least v) : 0 ≤ v := by
  obtain ⟨m, e, -, -, rfl⟩ := h
  have := zpow_pos' (e := e)
  positivity

/-- A number of the grid is a multiple of any smaller power. -/
theorem multiple_of_le (le : e ≤ f) (k : Nat) :
    (k : ℚ) * 2 ^ f = ((k * 2 ^ (f - e).toNat : Nat) : ℚ) * 2 ^ e := by
  have exponent : (2 : ℚ) ^ f = 2 ^ (f - e).toNat * 2 ^ e := by
    rw [← zpow_natCast, ← zpow_add₀ two_ne_zero, Int.toNat_of_nonneg (by omega), sub_add_cancel]
  rw [exponent]
  push_cast
  ring

/-- A smaller power only gives numbers below those with a full mantissa. -/
theorem below_of_lt (pos : 0 < p) (lt : f < e) {k : Nat} (small : k < 2 ^ p) :
    (k : ℚ) * 2 ^ f < 2 ^ (p - 1) * 2 ^ e := by
  have small' : (k : ℚ) < 2 ^ p := by exact_mod_cast small
  calc (k : ℚ) * 2 ^ f < 2 ^ p * 2 ^ f := mul_lt_mul_of_pos_right small' zpow_pos'
    _ = 2 ^ (p - 1) * 2 ^ (f + 1) := by
      rw [zpow_add_one₀ two_ne_zero]
      obtain ⟨k, rfl⟩ : ∃ k, p = k + 1 := ⟨p - 1, by omega⟩
      rw [Nat.add_sub_cancel, pow_succ]
      ring
    _ ≤ 2 ^ (p - 1) * 2 ^ e := by
      have : (2 : ℚ) ^ (f + 1) ≤ 2 ^ e := zpow_le_zpow_right₀ one_le_two (by omega)
      exact mul_le_mul_of_nonneg_left this (by positivity)

theorem scaled_distance (a b : ℚ) : |a * 2 ^ e - b * 2 ^ e| = |a - b| * 2 ^ e := by
  rw [← sub_mul, abs_mul, abs_of_pos zpow_pos']

/-- A full mantissa stays full when it is rounded. -/
theorem Near.full {r : ℚ} {m : Nat} (near : Near r m) (full : (2 ^ (p - 1) : ℚ) ≤ r) :
    2 ^ (p - 1) ≤ m := by
  by_contra short
  have below : (m : ℚ) + 1 ≤ 2 ^ (p - 1) := by
    have : m + 1 ≤ 2 ^ (p - 1) := by omega
    exact_mod_cast this
  have half := near.half
  rw [Int.cast_natCast, abs_le] at half
  linarith

theorem Near.le {r : ℚ} {m : Nat} (near : Near r m) (small : r < 2 ^ p) : m ≤ 2 ^ p := by
  have half := near.half
  rw [Int.cast_natCast, abs_le] at half
  have bound : (m : ℚ) < ((2 ^ p + 1 : Nat) : ℚ) := by
    push_cast
    linarith
  exact Nat.lt_succ_iff.mp (by exact_mod_cast bound)

theorem carry (pos : 0 < p) : ((2 ^ p : Nat) : ℚ) * 2 ^ e = (2 ^ (p - 1) : Nat) * 2 ^ (e + 1) := by
  obtain ⟨k, rfl⟩ : ∃ k, p = k + 1 := ⟨p - 1, by omega⟩
  rw [Nat.add_sub_cancel, zpow_add_one₀ two_ne_zero]
  push_cast
  rw [pow_succ]
  ring

theorem onGrid_of_le (large : 2 ≤ p) (above : least ≤ e) {m : Nat} (le : m ≤ 2 ^ p) :
    OnGrid p least (m * 2 ^ e) := by
  rcases Nat.lt_or_eq_of_le le with lt | rfl
  · exact ⟨m, e, lt, above, rfl⟩
  · refine ⟨2 ^ (p - 1), e + 1, ?_, by omega, carry (by omega)⟩
    exact Nat.pow_lt_pow_right one_lt_two (by omega)

theorem evenOnGrid_of_le (large : 2 ≤ p) (above : least ≤ e) {m : Nat} (le : m ≤ 2 ^ p)
    (full : e = least ∨ 2 ^ (p - 1) ≤ m) (even : Even m) : EvenOnGrid p least (m * 2 ^ e) := by
  rcases Nat.lt_or_eq_of_le le with lt | rfl
  · exact ⟨m, e, lt, above, full, even, rfl⟩
  · refine ⟨2 ^ (p - 1), e + 1, ?_, by omega, .inr le_rfl, ?_, carry (by omega)⟩
    · exact Nat.pow_lt_pow_right one_lt_two (by omega)
    · exact even_two.pow_of_ne_zero (by omega)

/-- A mantissa that is rounded to an integer gives the nearest number of the grid. -/
theorem rounds_of_near (large : 2 ≤ p) (above : least ≤ e) {r : ℚ} {m : Nat} (near : Near r m)
    (small : r < 2 ^ p) (full : e = least ∨ (2 ^ (p - 1) : ℚ) ≤ r) :
    Rounds p least (r * 2 ^ e) (m * 2 ^ e) := by
  have le : m ≤ 2 ^ p := by
    have half := near.half
    rw [Int.cast_natCast, abs_le] at half
    have bound : (m : ℚ) < ((2 ^ p + 1 : Nat) : ℚ) := by
      push_cast
      linarith
    exact Nat.lt_succ_iff.mp (by exact_mod_cast bound)
  have full' : e = least ∨ 2 ^ (p - 1) ≤ m := full.imp_right near.full
  -- a number of the grid is a whole number of units, or below every full mantissa
  have other (w : ℚ) (on : OnGrid p least w) : (∃ k : Nat, w = k * 2 ^ e) ∨
      |(m : ℚ) * 2 ^ e - r * 2 ^ e| < |w - r * 2 ^ e| := by
    obtain ⟨k, f, below, above', rfl⟩ := on
    by_cases up : e ≤ f
    · exact .inl ⟨_, multiple_of_le up k⟩
    · right
      have full := full.resolve_left (by omega)
      have low := below_of_lt (p := p) (by omega) (Int.lt_of_not_ge up) below
      have best := (near.nearest ((2 ^ (p - 1) : Nat) : ℤ)).1
      rw [Int.cast_natCast, Int.cast_natCast] at best
      push_cast at best
      rw [abs_of_nonpos (sub_nonpos.mpr full)] at best
      have reach : |(m : ℚ) * 2 ^ e - r * 2 ^ e| ≤ r * 2 ^ e - 2 ^ (p - 1) * 2 ^ e := by
        rw [scaled_distance, ← sub_mul]
        exact mul_le_mul_of_nonneg_right (by linarith) zpow_pos'.le
      have high : (2 : ℚ) ^ (p - 1) * 2 ^ e ≤ r * 2 ^ e :=
        mul_le_mul_of_nonneg_right full zpow_pos'.le
      have distance : |(k : ℚ) * 2 ^ f - r * 2 ^ e| = r * 2 ^ e - k * 2 ^ f := by
        rw [abs_sub_comm, abs_of_nonneg (by linarith)]
      rw [distance]
      linarith
  refine ⟨onGrid_of_le large above le, ?_, ?_⟩
  · intro w on
    rcases other w on with ⟨k, rfl⟩ | lt
    · rw [scaled_distance, scaled_distance]
      have best := (near.nearest k).1
      exact mul_le_mul_of_nonneg_right best zpow_pos'.le
    · exact lt.le
  · intro w on differ tie
    rcases other w on with ⟨k, rfl⟩ | lt
    · rw [scaled_distance, scaled_distance] at tie
      have tie' := mul_right_cancel₀ zpow_pos'.ne' tie
      rcases (near.nearest k).2 tie' with same | even
      · exact absurd (by rw [Int.natCast_inj.mp same]) differ
      · exact evenOnGrid_of_le large above le full' (Int.even_coe_nat m |>.mp even)
    · exact absurd tie lt.ne

/-- Different numbers of the grid are apart by the least power at least. -/
theorem OnGrid.apart (hv : OnGrid p least v) (hw : OnGrid p least w) (differ : w ≠ v) :
    2 ^ least ≤ |w - v| := by
  obtain ⟨m, e, -, above, rfl⟩ := hv
  obtain ⟨k, f, -, above', rfl⟩ := hw
  rw [multiple_of_le above, multiple_of_le above'] at differ ⊢
  generalize m * 2 ^ (e - least).toNat = M at differ ⊢
  generalize k * 2 ^ (f - least).toNat = K at differ ⊢
  have other : (K : ℤ) - M ≠ 0 := fun same => differ (by rw [Int.natCast_inj.mp (sub_eq_zero.mp same)])
  have one : (1 : ℚ) ≤ |(K : ℚ) - M| := by
    have := Int.one_le_abs other
    exact_mod_cast this
  rw [scaled_distance]
  exact le_mul_of_one_le_left zpow_pos'.le one

/-- A number of the grid is what any number closer than half the least power is rounded to. -/
theorem rounds_of_close (on : OnGrid p least v) (close : 2 * |v - q| < 2 ^ least) :
    Rounds p least q v := by
  have other (w : ℚ) (on' : OnGrid p least w) (differ : w ≠ v) : |v - q| < |w - q| := by
    have apart := on.apart on' differ
    have triangle := abs_sub_le w q v
    rw [abs_sub_comm q v] at triangle
    linarith
  refine ⟨on, ?_, ?_⟩
  · intro w on'
    by_cases same : w = v
    · rw [same]
    · exact (other w on' same).le
  · intro w on' differ tie
    exact absurd tie (other w on' differ).ne

/-- A number of the grid is rounded to itself. -/
theorem Rounds.exact (h : Rounds p least q v) (on : OnGrid p least q) : v = q := by
  have := h.nearest q on
  rw [sub_self, abs_zero] at this
  exact sub_eq_zero.mp (abs_eq_zero.mp (le_antisymm this (abs_nonneg _)))

/-- Two even numbers of the grid have another one between them. -/
theorem between_even (large : 2 ≤ p) (hv : EvenOnGrid p least v) (hw : EvenOnGrid p least w)
    (lt : v < w) : ∃ s, OnGrid p least s ∧ v < s ∧ s < w := by
  obtain ⟨m, e, small, above, full, even, rfl⟩ := hv
  obtain ⟨k, f, small', above', full', even', rfl⟩ := hw
  have unit := zpow_pos' (e := e)
  have up : e ≤ f := by
    by_contra down
    have full := full.resolve_left (by omega)
    have low := below_of_lt (p := p) (by omega) (Int.lt_of_not_ge down) small'
    have high : (2 : ℚ) ^ (p - 1) * 2 ^ e ≤ m * 2 ^ e :=
      mul_le_mul_of_nonneg_right (by exact_mod_cast full) unit.le
    linarith
  have next : m + 1 < 2 ^ p := by
    have whole : Even (2 ^ p) := even_two.pow_of_ne_zero (by omega)
    have : m + 1 ≠ 2 ^ p := fun eq => absurd (eq ▸ whole) (by simpa [Nat.even_add_one] using even)
    omega
  refine ⟨(m + 1 : Nat) * 2 ^ e, ⟨m + 1, e, next, above, rfl⟩, ?_, ?_⟩
  · push_cast
    linarith
  · rw [multiple_of_le up] at lt ⊢
    have less : m < k * 2 ^ (f - e).toNat := by
      exact_mod_cast lt_of_mul_lt_mul_right lt unit.le
    have whole : Even (k * 2 ^ (f - e).toNat) := even'.mul_right _
    have differ : m + 1 ≠ k * 2 ^ (f - e).toNat :=
      fun eq => absurd (eq ▸ whole) (by simpa [Nat.even_add_one] using even)
    have less' : ((m + 1 : Nat) : ℚ) < (k * 2 ^ (f - e).toNat : Nat) := by
      have : m + 1 < k * 2 ^ (f - e).toNat := by omega
      exact_mod_cast this
    exact mul_lt_mul_of_pos_right less' unit

theorem Rounds.unique (large : 2 ≤ p) (hv : Rounds p least q v) (hw : Rounds p least q w) :
    v = w := by
  have below {v w : ℚ} (hv : Rounds p least q v) (hw : Rounds p least q w) : ¬ v < w := by
    intro lt
    have tie := le_antisymm (hv.nearest w hw.on) (hw.nearest v hv.on)
    obtain ⟨s, on, low, high⟩ := between_even large (hv.even w hw.on lt.ne' tie)
      (hw.even v hv.on lt.ne tie.symm) lt
    have middle : v - q = -(w - q) := (abs_eq_abs.mp tie).resolve_left fun same => by linarith
    have near := hw.nearest s on
    rw [abs_of_pos (by linarith : 0 < w - q)] at near
    have inside : |s - q| < w - q := abs_lt.mpr ⟨by linarith, by linarith⟩
    linarith
  exact le_antisymm (not_lt.mp (below hw hv)) (not_lt.mp (below hv hw))

end Grid

end Rounding
