import Mathlib.Data.Int.Bitwise
import Mathlib.Tactic.Positivity
import Mathlib.Tactic.Ring

/-!
## Integers of a fixed width

The signed integers of `w` bits as a range of the integers. The checked operations give up where
the exact result leaves the range, the bit operations work on the two's complement, and a left
shift drops the bits that leave the word.
-/

namespace FixedWidth

def Fits (w : Nat) (n : Int) : Prop := -2 ^ (w - 1) ≤ n ∧ n < 2 ^ (w - 1)

instance (w : Nat) (n : Int) : Decidable (Fits w n) := inferInstanceAs (Decidable (_ ∧ _))

section Operations

variable (w : Nat) (x y : Int)

def checked (n : Int) : Option Int := if Fits w n then some n else none

def checkedAdd : Option Int := checked w (x + y)
def checkedSub : Option Int := checked w (x - y)
def checkedMul : Option Int := checked w (x * y)

/-- Only the shift count is checked. -/
def checkedShl (count : Nat) : Option Int :=
  if count < w then some ((x * 2 ^ count).bmod (2 ^ w)) else none

/-- The arithmetic shift. -/
def checkedShr (count : Nat) : Option Int := if count < w then some (x / 2 ^ count) else none

def bitOr : Int := (BitVec.ofInt w x ||| BitVec.ofInt w y).toInt
def bitXor : Int := (BitVec.ofInt w x ^^^ BitVec.ofInt w y).toInt
def bitAnd : Int := (BitVec.ofInt w x &&& BitVec.ofInt w y).toInt

end Operations

variable {w : Nat} {x y n : Int}

theorem checked_eq_some {m : Int} : checked w n = some m ↔ Fits w n ∧ m = n := by
  unfold checked
  split <;> simp_all [eq_comm]

theorem Fits.mono {v : Nat} (h : Fits v n) (le : v ≤ w) : Fits w n := by
  have pow : (2 : Int) ^ (v - 1) ≤ 2 ^ (w - 1) := pow_le_pow_right₀ (by decide) (by omega)
  exact ⟨(neg_le_neg pow).trans h.1, h.2.trans_le pow⟩

/-- A number that fits is its own remainder. -/
theorem bmod_of_fits (pos : 0 < w) (h : Fits w n) : n.bmod (2 ^ w) = n := by
  obtain ⟨k, rfl⟩ : ∃ k, w = k + 1 := ⟨w - 1, by omega⟩
  obtain ⟨lower, upper⟩ := h
  simp only [Nat.add_sub_cancel] at lower upper
  have half : ((2 ^ (k + 1) : Nat) : Int) = 2 * 2 ^ k := by push_cast; ring
  refine Int.bmod_eq_of_le ?_ ?_ <;> rw [half] <;> omega

theorem fits_bmod (pos : 0 < w) (n : Int) : Fits w (n.bmod (2 ^ w)) := by
  obtain ⟨k, rfl⟩ : ∃ k, w = k + 1 := ⟨w - 1, by omega⟩
  have half : ((2 ^ (k + 1) : Nat) : Int) = 2 * 2 ^ k := by push_cast; ring
  have lower := Int.le_bmod (x := n) (m := 2 ^ (k + 1)) (by positivity)
  have upper := Int.bmod_lt (x := n) (m := 2 ^ (k + 1)) (by positivity)
  rw [half] at lower upper
  constructor <;> simp only [Nat.add_sub_cancel] <;> omega

theorem toInt_ofInt (pos : 0 < w) (h : Fits w n) : (BitVec.ofInt w n).toInt = n := by
  rw [BitVec.toInt_ofInt, bmod_of_fits pos h]

/-! ### Bits of an integer -/

/-- The bits of a word, and its sign from there on. -/
theorem testBit_toInt (v : BitVec w) (k : Nat) :
    v.toInt.testBit k = if k < w then v.getLsbD k else v.msb := by
  rw [BitVec.toInt_eq_msb_cond]
  split
  · next negative =>
    have bound := v.isLt
    have word : (v.toNat : Int) - (2 ^ w : Nat) = Int.negSucc (2 ^ w - (v.toNat + 1)) := by
      rw [Int.negSucc_eq]
      omega
    rw [word]
    show (!(2 ^ w - (v.toNat + 1)).testBit k) = _
    rw [Nat.testBit_two_pow_sub_succ bound]
    by_cases inside : k < w
    · simp [inside, BitVec.getLsbD]
    · simp [inside, negative]
  · next positive =>
    show v.toNat.testBit k = _
    split
    · rfl
    · next outside =>
      rw [Nat.testBit_lt_two_pow (v.isLt.trans_le (Nat.pow_le_pow_right (by decide)
        (Nat.not_lt.mp outside)))]
      simpa using positive

theorem eq_of_testBit_eq {m n : Int} (h : ∀ k, m.testBit k = n.testBit k) : m = n := by
  cases m with
  | ofNat a =>
    cases n with
    | ofNat b => exact congrArg _ (Nat.eq_of_testBit_eq h)
    | negSucc b =>
      have high := h (a + b + 1)
      rw [Int.testBit, Int.testBit, Nat.testBit_lt_two_pow, Nat.testBit_lt_two_pow] at high
      · cases high
      · exact Nat.lt_two_pow_self.trans (Nat.pow_lt_pow_right (by decide) (by omega))
      · exact Nat.lt_two_pow_self.trans (Nat.pow_lt_pow_right (by decide) (by omega))
  | negSucc a =>
    cases n with
    | ofNat b =>
      have high := h (a + b + 1)
      rw [Int.testBit, Int.testBit, Nat.testBit_lt_two_pow, Nat.testBit_lt_two_pow] at high
      · cases high
      · exact Nat.lt_two_pow_self.trans (Nat.pow_lt_pow_right (by decide) (by omega))
      · exact Nat.lt_two_pow_self.trans (Nat.pow_lt_pow_right (by decide) (by omega))
    | negSucc b =>
      refine congrArg _ (Nat.eq_of_testBit_eq fun k => ?_)
      simpa [Int.testBit] using h k

/-- The bits of a number that fits are those of its word. -/
theorem testBit_of_fits (pos : 0 < w) (h : Fits w n) (k : Nat) :
    n.testBit k = if k < w then (BitVec.ofInt w n).getLsbD k else (BitVec.ofInt w n).msb := by
  rw [← testBit_toInt, toInt_ofInt pos h]

section Bits

variable (pos : 0 < w) (hx : Fits w x) (hy : Fits w y)

include pos hx hy

theorem bitOr_eq : bitOr w x y = x.lor y := by
  refine eq_of_testBit_eq fun k => ?_
  rw [bitOr, testBit_toInt, Int.testBit_lor, testBit_of_fits pos hx, testBit_of_fits pos hy]
  split <;> simp

theorem bitXor_eq : bitXor w x y = x.xor y := by
  refine eq_of_testBit_eq fun k => ?_
  rw [bitXor, testBit_toInt, Int.testBit_lxor, testBit_of_fits pos hx, testBit_of_fits pos hy]
  split <;> simp

theorem bitAnd_eq : bitAnd w x y = x.land y := by
  refine eq_of_testBit_eq fun k => ?_
  rw [bitAnd, testBit_toInt, Int.testBit_land, testBit_of_fits pos hx, testBit_of_fits pos hy]
  split <;> simp

end Bits

end FixedWidth
