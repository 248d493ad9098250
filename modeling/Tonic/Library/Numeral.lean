import Mathlib.Data.Nat.Digits.Lemmas
import Mathlib.Data.List.Infix

/-!
## Positional numerals

Digits as characters in a radix of up to 36, the numbers they denote, and texts in which a mark may
stand between two digits.
-/

namespace Numeral

def digitValue (c : Char) : Option Nat :=
  if 48 ≤ c.toNat ∧ c.toNat ≤ 57 then some (c.toNat - 48)
  else if 97 ≤ c.toNat ∧ c.toNat ≤ 122 then some (c.toNat - 87)
  else if 65 ≤ c.toNat ∧ c.toNat ≤ 90 then some (c.toNat - 55)
  else none

def digit (radix : Nat) (c : Char) : Option Nat := (digitValue c).filter fun d => decide (d < radix)

def digits (radix : Nat) (text : List Char) : Option (List Nat) := text.mapM (digit radix)

/-- The number that digits denote, the most significant one first. -/
def value (radix : Nat) (ds : List Nat) : Nat := Nat.ofDigits radix ds.reverse

/-- A number without a sign. -/
def natural (radix : Nat) (text : List Char) : Option Nat :=
  if text = [] then none else (digits radix text).map (value radix)

/-- A number with at most one sign. -/
def signed (radix : Nat) : List Char → Option Int
  | '-' :: text => (natural radix text).map fun (n : Nat) => -(n : Int)
  | '+' :: text => (natural radix text).map Int.ofNat
  | text => (natural radix text).map Int.ofNat

variable {radix : Nat} {mark c : Char} {text : List Char} {ds : List Nat}

@[simp] theorem digits_nil : digits radix [] = some [] := rfl

theorem digits_cons :
    digits radix (c :: text) =
      (digit radix c).bind fun d => (digits radix text).map (d :: ·) := by
  unfold digits
  rw [List.mapM_cons]
  cases digit radix c with
  | none => rfl
  | some d => cases text.mapM (digit radix) <;> rfl

theorem digits_cons_eq_some :
    digits radix (c :: text) = some ds ↔
      ∃ d rest, digit radix c = some d ∧ digits radix text = some rest ∧ ds = d :: rest := by
  rw [digits_cons]
  cases digit radix c with
  | none => simp
  | some d =>
    cases digits radix text with
    | none => simp
    | some rest => simp [eq_comm]

theorem digit_eq_some {d : Nat} : digit radix c = some d ↔ digitValue c = some d ∧ d < radix := by
  simp [digit, Option.filter_eq_some_iff]

/-- The only character with the value of a zero. -/
theorem digit_eq_zero (pos : 0 < radix) : digit radix c = some 0 ↔ c = '0' := by
  rw [digit_eq_some]
  constructor
  · rintro ⟨zero, -⟩
    have code : c.toNat = '0'.toNat := by
      unfold digitValue at zero
      have : '0'.toNat = 48 := rfl
      split at zero
      · simp only [Option.some.injEq] at zero
        omega
      · split at zero
        · simp only [Option.some.injEq] at zero
          omega
        · split at zero
          · simp only [Option.some.injEq] at zero
            omega
          · cases zero
    exact Char.toNat_inj.mp code
  · rintro rfl
    exact ⟨rfl, pos⟩

theorem digits_eq_nil : digits radix text = some [] ↔ text = [] := by
  cases text with
  | nil => simp
  | cons c text => simp [digits_cons_eq_some]

theorem head_digits (pos : 0 < radix) (h : digits radix text = some ds) :
    ds.head? = some 0 ↔ text.head? = some '0' := by
  cases text with
  | nil =>
    cases h
    simp
  | cons c text =>
    obtain ⟨d, rest, first, -, rfl⟩ := digits_cons_eq_some.mp h
    rw [List.head?_cons, List.head?_cons, Option.some.injEq, Option.some.injEq,
      ← digit_eq_zero pos, first, Option.some.injEq]

theorem all_zero (pos : 0 < radix) (h : digits radix text = some ds) :
    (∀ d ∈ ds, d = 0) ↔ ∀ c ∈ text, c = '0' := by
  induction text generalizing ds with
  | nil =>
    cases h
    simp
  | cons c text ih =>
    obtain ⟨d, rest, first, more, rfl⟩ := digits_cons_eq_some.mp h
    rw [List.forall_mem_cons, List.forall_mem_cons, ih more, ← digit_eq_zero pos, first,
      Option.some.injEq]

theorem length_digits (h : digits radix text = some ds) : ds.length = text.length := by
  induction text generalizing ds with
  | nil =>
    cases h
    rfl
  | cons c text ih =>
    obtain ⟨d, rest, -, more, rfl⟩ := digits_cons_eq_some.mp h
    rw [List.length_cons, List.length_cons, ih more]

theorem natural_eq_some {n : Nat} :
    natural radix text = some n ↔
      text ≠ [] ∧ ∃ ds, digits radix text = some ds ∧ n = value radix ds := by
  unfold natural
  split
  · next empty => simp [empty]
  · next filled => simp [filled, eq_comm]

/-! ### Marks between digits -/

/-- Digits, where one mark may stand between two of them. -/
inductive Spaced (mark : Char) (radix : Nat) : List Char → List Nat → Prop where
  | last {c : Char} {d : Nat} (digit : digit radix c = some d) : Spaced mark radix [c] [d]
  | next {c : Char} {d : Nat} {text : List Char} {ds : List Nat} (digit : digit radix c = some d)
    (more : Spaced mark radix text ds) : Spaced mark radix (c :: text) (d :: ds)
  | marked {c : Char} {d : Nat} {text : List Char} {ds : List Nat} (digit : digit radix c = some d)
    (more : Spaced mark radix text ds) : Spaced mark radix (c :: mark :: text) (d :: ds)

def unmarked (mark : Char) (text : List Char) : List Char := text.filter (· ≠ mark)

@[simp] theorem unmarked_self : unmarked mark (mark :: text) = unmarked mark text := by
  simp [unmarked]

theorem unmarked_cons (h : c ≠ mark) : unmarked mark (c :: text) = c :: unmarked mark text := by
  simp [unmarked, h]

/-- No mark at either end, and no two in a row. -/
def Placed (mark : Char) (text : List Char) : Prop :=
  text ≠ [] ∧ text.head? ≠ some mark ∧ text.getLast? ≠ some mark ∧ ¬ [mark, mark] <:+: text

theorem Spaced.placed (no : digit radix mark = none) (h : Spaced mark radix text ds) :
    Placed mark text ∧ digits radix (unmarked mark text) = some ds := by
  have plain {c : Char} {d : Nat} (hd : digit radix c = some d) : c ≠ mark := by
    rintro rfl
    rw [no] at hd
    cases hd
  induction h with
  | @last c d hd =>
    refine ⟨⟨by simp, by simpa using plain hd, by simpa using plain hd, ?_⟩, ?_⟩
    · intro infix'
      have := infix'.length_le
      simp at this
    · rw [unmarked_cons (plain hd), digits_cons, hd]
      rfl
  | @next c d text ds hd more ih =>
    obtain ⟨⟨filled, first, last, apart⟩, value⟩ := ih
    refine ⟨⟨by simp, by simpa using plain hd, ?_, ?_⟩, ?_⟩
    · rwa [List.getLast?_cons_of_ne_nil filled]
    · intro found
      rcases List.infix_cons_iff.mp found with ⟨rest, eq⟩ | inside
      · exact plain hd (by simpa using congrArg List.head? eq.symm)
      · exact apart inside
    · rw [unmarked_cons (plain hd), digits_cons, hd, value]
      rfl
  | @marked c d text ds hd more ih =>
    obtain ⟨⟨filled, first, last, apart⟩, value⟩ := ih
    refine ⟨⟨by simp, by simpa using plain hd, ?_, ?_⟩, ?_⟩
    · rwa [List.getLast?_cons_of_ne_nil (by simp), List.getLast?_cons_of_ne_nil filled]
    · intro found
      rcases List.infix_cons_iff.mp found with ⟨rest, eq⟩ | inside
      · exact plain hd (by simpa using congrArg List.head? eq.symm)
      · rcases List.infix_cons_iff.mp inside with ⟨rest, eq⟩ | inside
        · apply first
          rw [← (List.cons.inj eq).2]
          rfl
        · exact apart inside
    · rw [unmarked_cons (plain hd), unmarked_self, digits_cons, hd, value]
      rfl

theorem Placed.tail {x : Char} (placed : Placed mark (c :: x :: text)) (h : x ≠ mark) :
    Placed mark (x :: text) := by
  obtain ⟨-, -, last, apart⟩ := placed
  refine ⟨by simp, by simpa using h, ?_, fun inside => apart (inside.trans (List.infix_cons List.infix_rfl))⟩
  rwa [List.getLast?_cons_of_ne_nil (by simp)] at last

/-- Behind a mark there is a digit, and the rest is well spaced again. -/
theorem Placed.behind (placed : Placed mark (c :: mark :: text)) : Placed mark text := by
  obtain ⟨-, -, last, apart⟩ := placed
  rw [List.getLast?_cons_of_ne_nil (by simp)] at last
  have filled : text ≠ [] := by
    rintro rfl
    exact last rfl
  rw [List.getLast?_cons_of_ne_nil filled] at last
  refine ⟨filled, ?_, last, fun inside => apart ?_⟩
  · intro again
    obtain ⟨rest, rfl⟩ := List.head?_eq_some_iff.mp again
    exact apart ⟨[c], rest, rfl⟩
  · exact inside.trans ((List.infix_cons List.infix_rfl).trans (List.infix_cons List.infix_rfl))

theorem spaced_of_placed : ∀ {text : List Char} {ds : List Nat}, Placed mark text →
    digits radix (unmarked mark text) = some ds → Spaced mark radix text ds
  | [], _, placed, _ => absurd rfl placed.1
  | [c], ds, placed, h => by
    have plain : c ≠ mark := by simpa using placed.2.1
    rw [unmarked_cons plain] at h
    obtain ⟨d, rest, first, more, rfl⟩ := digits_cons_eq_some.mp h
    cases more
    exact .last first
  | c :: x :: text, ds, placed, h => by
    have plain : c ≠ mark := by simpa using placed.2.1
    rw [unmarked_cons plain] at h
    obtain ⟨d, rest, first, more, rfl⟩ := digits_cons_eq_some.mp h
    by_cases marked : x = mark
    · rw [marked] at placed more ⊢
      rw [unmarked_self] at more
      exact .marked first (spaced_of_placed placed.behind more)
    · exact .next first (spaced_of_placed (placed.tail marked) more)
termination_by text => text.length

theorem spaced_iff (no : digit radix mark = none) :
    Spaced mark radix text ds ↔ Placed mark text ∧ digits radix (unmarked mark text) = some ds :=
  ⟨Spaced.placed no, fun h => spaced_of_placed h.1 h.2⟩

/-! ### Groups of digits -/

variable {write : Char → Char}

end Numeral
