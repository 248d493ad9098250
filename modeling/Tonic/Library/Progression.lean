import Mathlib

/-!
## Arithmetic progressions

The integers from a start towards a stop, by a step of either sign. The stop is left out.
-/

namespace Progression

variable {start stop step : Int}

/-- A term that the progression still has: it lies before the stop, the way the step goes. -/
def Before (step stop n : Int) : Prop := 0 < step ∧ n < stop ∨ step < 0 ∧ stop < n

instance (step stop n : Int) : Decidable (Before step stop n) :=
  inferInstanceAs (Decidable (_ ∨ _))

def size (start stop step : Int) : Nat :=
  if 0 < step then ((stop - start + step - 1) / step).toNat
  else ((start - stop - step - 1) / -step).toNat

def terms (start stop step : Int) : List Int :=
  (List.range (size start stop step)).map fun (i : Nat) => start + i * step

@[simp] theorem length_terms : (terms start stop step).length = size start stop step := by
  simp [terms]

theorem before_iff (nonzero : step ≠ 0) (i : Nat) :
    Before step stop (start + i * step) ↔ i < size start stop step := by
  unfold Before size
  split
  · next up =>
    have next : ((i : Int) + 1) * step = i * step + step := by ring
    rw [Int.lt_toNat, @Int.lt_iff_add_one_le i, Int.le_ediv_iff_mul_le up, next]
    omega
  · next down =>
    have next : ((i : Int) + 1) * -step = -(i * step) - step := by ring
    have width : 0 < -step := by omega
    rw [Int.lt_toNat, @Int.lt_iff_add_one_le i, Int.le_ediv_iff_mul_le width, next]
    omega

theorem before_start (nonzero : step ≠ 0) : Before step stop start ↔ 0 < size start stop step := by
  simpa using @before_iff start stop step nonzero 0

/-- The size is the only number that the terms before the stop stay below. -/
theorem size_unique (nonzero : step ≠ 0) {n : Nat}
    (h : ∀ i : Nat, Before step stop (start + i * step) ↔ i < n) : size start stop step = n := by
  have same (i : Nat) : i < size start stop step ↔ i < n := (before_iff nonzero i).symm.trans (h i)
  have := same n
  have := same (size start stop step)
  omega

theorem size_of_not_before (nonzero : step ≠ 0) (beyond : ¬ Before step stop start) :
    size start stop step = 0 := by
  rw [before_start nonzero] at beyond
  omega

theorem size_succ (nonzero : step ≠ 0) (more : Before step stop start) :
    size start stop step = size (start + step) stop step + 1 := by
  apply size_unique nonzero
  intro i
  cases i with
  | zero => simpa using more
  | succ i =>
    have shift : start + ((i + 1 : Nat) : Int) * step = start + step + i * step := by
      push_cast
      ring
    rw [shift, before_iff nonzero]
    omega

theorem terms_of_not_before (nonzero : step ≠ 0) (beyond : ¬ Before step stop start) :
    terms start stop step = [] := by
  simp [terms, size_of_not_before nonzero beyond]

theorem terms_of_before (nonzero : step ≠ 0) (more : Before step stop start) :
    terms start stop step = start :: terms (start + step) stop step := by
  unfold terms
  rw [size_succ nonzero more, List.range_succ_eq_map, List.map_cons, List.map_map]
  congr 1
  · simp
  · apply List.map_congr_left
    intro i _
    simp only [Function.comp_apply, Nat.succ_eq_add_one, Nat.cast_add, Nat.cast_one]
    ring

/-- Induction along the terms. -/
theorem walk {P : Int → Prop} (nonzero : step ≠ 0)
    (beyond : ∀ n, ¬ Before step stop n → P n)
    (more : ∀ n, Before step stop n → P (n + step) → P n) (start : Int) : P start := by
  induction eq : size start stop step generalizing start with
  | zero =>
    apply beyond
    rw [before_start nonzero]
    omega
  | succ n ih =>
    have before : Before step stop start := (before_start nonzero).mpr (by omega)
    apply more start before
    apply ih
    rw [size_succ nonzero before] at eq
    omega

/-- A step that leads over the stop at once. -/
theorem terms_of_far (nonzero : step ≠ 0) (far : ¬ Before step stop (start + step)) :
    terms start stop step = if Before step stop start then [start] else [] := by
  split
  · next more => rw [terms_of_before nonzero more, terms_of_not_before nonzero far]
  · next beyond => exact terms_of_not_before nonzero beyond

theorem mem_terms (nonzero : step ≠ 0) {n : Int} :
    n ∈ terms start stop step ↔ ∃ i : Nat, n = start + i * step ∧ Before step stop n := by
  simp only [terms, List.mem_map, List.mem_range]
  constructor
  · rintro ⟨i, inside, rfl⟩
    exact ⟨i, rfl, (before_iff nonzero i).mpr inside⟩
  · rintro ⟨i, rfl, before⟩
    exact ⟨i, (before_iff nonzero i).mp before, rfl⟩

theorem before_of_mem (nonzero : step ≠ 0) {n : Int} (mem : n ∈ terms start stop step) :
    Before step stop n := by
  obtain ⟨_, _, before⟩ := (mem_terms nonzero).mp mem
  exact before

theorem getElem?_terms (i : Nat) :
    (terms start stop step)[i]? =
      if i < size start stop step then some (start + i * step) else none := by
  simp only [terms, List.getElem?_map]
  split
  · next inside => simp [inside]
  · next outside =>
    rw [List.getElem?_eq_none (by simpa using outside)]
    rfl

/-- No term lies on the far side of the start. -/
theorem bound_of_mem (nonzero : step ≠ 0) {n : Int} (mem : n ∈ terms start stop step) :
    0 < step ∧ start ≤ n ∧ n < stop ∨ step < 0 ∧ stop < n ∧ n ≤ start := by
  obtain ⟨i, rfl, before⟩ := (mem_terms nonzero).mp mem
  rcases before with ⟨up, before⟩ | ⟨down, before⟩
  · have := Int.mul_nonneg (Int.natCast_nonneg i) (Int.le_of_lt up)
    omega
  · have := Int.mul_nonneg (Int.natCast_nonneg i) (show 0 ≤ -step by omega)
    rw [Int.mul_neg] at this
    omega

theorem size_le (nonzero : step ≠ 0) : size start stop step ≤ (stop - start).natAbs := by
  cases eq : size start stop step with
  | zero => exact Nat.zero_le _
  | succ n =>
    have last : Before step stop (start + n * step) := (before_iff nonzero n).mpr (by omega)
    rcases last with ⟨up, before⟩ | ⟨down, before⟩
    · have := Int.mul_le_mul_of_nonneg_left (show 1 ≤ step by omega) (Int.natCast_nonneg n)
      omega
    · have := Int.mul_le_mul_of_nonneg_left (show 1 ≤ -step by omega) (Int.natCast_nonneg n)
      rw [Int.mul_neg] at this
      omega

/-- Each term lies before all that follow it. -/
theorem ordered (nonzero : step ≠ 0) :
    (terms start stop step).Pairwise fun a b => Before step b a := by
  unfold terms
  rw [List.pairwise_map]
  refine List.pairwise_lt_range.imp fun {i j} lt => ?_
  have apart : ((j : Int) - i) * step = j * step - i * step := by ring
  have pos : (0 : Int) < j - i := by omega
  by_cases up : 0 < step
  · have := Int.mul_pos pos up
    exact .inl ⟨up, by omega⟩
  · have down : step < 0 := by omega
    have := Int.mul_neg_of_pos_of_neg pos down
    exact .inr ⟨down, by omega⟩

theorem sortedLT (up : 0 < step) : (terms start stop step).SortedLT := by
  have ordered := @ordered start stop step (by omega)
  refine (ordered.imp fun {a b} before => ?_).sortedLT
  rcases before with ⟨-, lt⟩ | ⟨down, -⟩
  · exact lt
  · omega

theorem sortedGT (down : step < 0) : (terms start stop step).SortedGT := by
  have ordered := @ordered start stop step (by omega)
  refine (ordered.imp fun {a b} before => ?_).sortedGT
  rcases before with ⟨up, -⟩ | ⟨-, lt⟩
  · omega
  · exact lt

end Progression
