import Mathlib.Data.List.Basic
import Mathlib.Tactic.Ring

/-!
## Self-delimiting codes

A code is self-delimiting where no word starts with the codes of two different values: whatever
follows a code, it can be read back. Such codes stay self-delimiting when they are put one behind
another, and behind a count of fixed width.
-/

namespace Coding

variable {α β : Type*} {P : α → Prop} {code : α → List β} {a : α} {as bs : List α}
  {s t : List β}

/-- The code of `a` is not mistaken for the code of another value of `P`, whatever follows. -/
def Reads (P : α → Prop) (code : α → List β) (a : α) : Prop :=
  ∀ b s t, P b → code a ++ s = code b ++ t → a = b ∧ s = t

/-- Codes one behind another are read back if their number is known. -/
theorem reads_flatMap (reads : ∀ a ∈ as, Reads P code a) (good : ∀ b ∈ bs, P b)
    (length : as.length = bs.length) (same : as.flatMap code ++ s = bs.flatMap code ++ t) :
    as = bs ∧ s = t := by
  induction as generalizing bs with
  | nil =>
    cases bs with
    | nil => exact ⟨rfl, same⟩
    | cons b bs => cases length
  | cons a as ih =>
    cases bs with
    | nil => cases length
    | cons b bs =>
      simp only [List.flatMap_cons, List.append_assoc] at same
      obtain ⟨rfl, rest⟩ := reads a List.mem_cons_self b _ _ (good b List.mem_cons_self) same
      obtain ⟨rfl, tails⟩ := ih (fun a ha => reads a (List.mem_cons_of_mem _ ha))
        (fun b hb => good b (List.mem_cons_of_mem _ hb)) (by simpa using length) rest
      exact ⟨rfl, tails⟩

def littleEndian : Nat → Nat → List UInt8
  | 0, _ => []
  | width + 1, n => UInt8.ofNat n :: littleEndian width (n / 256)

@[simp] theorem length_littleEndian (width n : Nat) : (littleEndian width n).length = width := by
  induction width generalizing n with
  | zero => rfl
  | succ width ih => simp [littleEndian, ih]

theorem littleEndian_injective {width n m : Nat} (hn : n < 256 ^ width) (hm : m < 256 ^ width)
    (same : littleEndian width n = littleEndian width m) : n = m := by
  induction width generalizing n m with
  | zero =>
    simp only [Nat.pow_zero] at hn hm
    omega
  | succ width ih =>
    rw [Nat.pow_succ] at hn hm
    simp only [littleEndian, List.cons.injEq] at same
    have low : n % 256 = m % 256 := by simpa using congrArg UInt8.toNat same.1
    have high : n / 256 = m / 256 := by
      apply ih
      · omega
      · omega
      · exact same.2
    omega

theorem reads_littleEndian {width n : Nat} (hn : n < 256 ^ width) :
    Reads (· < 256 ^ width) (littleEndian width) n := by
  intro m s t hm same
  obtain ⟨numbers, rest⟩ := List.append_inj same (by simp)
  exact ⟨littleEndian_injective hn hm numbers, rest⟩

/-- Codes behind their number. -/
theorem reads_counted {width : Nat} {code : α → List UInt8} {s t : List UInt8}
    (reads : ∀ a ∈ as, Reads P code a) (good : ∀ b ∈ bs, P b)
    (few : as.length < 256 ^ width) (few' : bs.length < 256 ^ width)
    (same : littleEndian width as.length ++ (as.flatMap code ++ s) =
      littleEndian width bs.length ++ (bs.flatMap code ++ t)) : as = bs ∧ s = t := by
  obtain ⟨length, rest⟩ := reads_littleEndian few _ _ _ few' same
  exact reads_flatMap reads good length rest

/-- Bytes behind their number. -/
theorem reads_bytes {width : Nat} {as bs s t : List UInt8} (few : as.length < 256 ^ width)
    (few' : bs.length < 256 ^ width)
    (same : littleEndian width as.length ++ (as ++ s) =
      littleEndian width bs.length ++ (bs ++ t)) : as = bs ∧ s = t := by
  obtain ⟨length, rest⟩ := reads_littleEndian few _ _ _ few' same
  exact List.append_inj rest length

end Coding
