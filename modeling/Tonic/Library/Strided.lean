import Mathlib.Algebra.BigOperators.Ring.List
import Mathlib.Algebra.Order.BigOperators.GroupWithZero.List
import Mathlib.Data.List.Forall2
import Mathlib.Data.List.Induction
import Mathlib.Tactic.Linarith
import Mathlib.Tactic.Ring

/-!
## Strided layouts

A shape is a list of dimensions, and a layout gives each dimension a step of either sign. A
multi-index stands for the sum of its coordinates times the steps.
-/

namespace Strided

/-- The coordinates lie within the dimensions. -/
def Within (index shape : List Nat) : Prop := List.Forall₂ (· < ·) index shape

def cell (index : List Nat) (steps : List Int) : Int :=
  ((index.zip steps).map fun (i, s) => i * s).sum

/-- The multi-indices of a shape in row-major order: the last coordinate runs first. -/
def indices : List Nat → List (List Nat)
  | [] => [[]]
  | d :: shape => (List.range d).flatMap fun i => (indices shape).map (i :: ·)

/-- The coordinates of a number, where the dimensions are given from the last to the first. -/
def digits : Nat → List Nat → List Nat
  | _, [] => []
  | k, d :: dims => k % d :: digits (k / d) dims

/-- How far one dimension reaches. -/
def extent (d : Nat) (s : Int) : Int := (d - 1 : Nat) * s

def lowest (shape : List Nat) (steps : List Int) : Int :=
  ((shape.zip steps).map fun (d, s) => min 0 (extent d s)).sum

def highest (shape : List Nat) (steps : List Int) : Int :=
  ((shape.zip steps).map fun (d, s) => max 0 (extent d s)).sum

variable {d k M : Nat} {s n origin : Int} {index shape : List Nat} {steps : List Int}

@[simp] theorem cell_nil : cell [] steps = 0 := rfl

@[simp] theorem cell_none : cell index [] = 0 := by simp [cell]

@[simp] theorem cell_cons (i : Nat) : cell (i :: index) (s :: steps) = i * s + cell index steps := by
  simp [cell]

@[simp] theorem lowest_cons :
    lowest (d :: shape) (s :: steps) = min 0 (extent d s) + lowest shape steps := by
  simp [lowest]

@[simp] theorem highest_cons :
    highest (d :: shape) (s :: steps) = max 0 (extent d s) + highest shape steps := by
  simp [highest]

theorem reverse_zip {α β : Type} {l : List α} {m : List β} (eq : l.length = m.length) :
    (l.zip m).reverse = l.reverse.zip m.reverse := by
  rw [List.zip_eq_zipWith, List.zip_eq_zipWith, List.reverse_zipWith eq]

theorem cell_reverse (eq : index.length = steps.length) :
    cell index.reverse steps.reverse = cell index steps := by
  rw [cell, ← reverse_zip eq, List.map_reverse, List.sum_reverse, cell]

/-! ### Row-major order -/

theorem length_indices (shape : List Nat) : (indices shape).length = shape.prod := by
  induction shape with
  | nil => rfl
  | cons d shape ih => simp [indices, ih, List.length_flatMap]

theorem mem_indices : index ∈ indices shape ↔ Within index shape := by
  induction shape generalizing index with
  | nil => simp [indices, Within]
  | cons d shape ih =>
    simp only [indices, List.mem_flatMap, List.mem_range, List.mem_map, ih]
    constructor
    · rintro ⟨i, small, rest, within, rfl⟩
      exact .cons small within
    · intro within
      cases within with
      | cons small rest => exact ⟨_, small, _, rest, rfl⟩

theorem indices_concat (shape : List Nat) (d : Nat) : indices (shape ++ [d]) =
    (indices shape).flatMap fun index => (List.range d).map fun i => index ++ [i] := by
  induction shape with
  | nil => simp [indices, ← List.map_eq_flatMap]
  | cons e shape ih =>
    rw [List.cons_append, indices, ih, indices, List.flatMap_assoc]
    simp only [List.map_flatMap, List.flatMap_map, List.map_map, Function.comp_def,
      List.cons_append]

/-- Pieces of one length are numbered by quotient and remainder. -/
theorem getElem?_pieces {α β : Type} (pos : 0 < d) {f : α → List β} (len : ∀ a, (f a).length = d)
    (l : List α) (k : Nat) : (l.flatMap f)[k]? = (l[k / d]?).bind fun a => (f a)[k % d]? := by
  induction l generalizing k with
  | nil => simp
  | cons a l ih =>
    rw [List.flatMap_cons]
    by_cases first : k < d
    · rw [List.getElem?_append_left (by rw [len]; exact first), Nat.div_eq_of_lt first,
        Nat.mod_eq_of_lt first]
      rfl
    · have le : d ≤ k := Nat.le_of_not_lt first
      have next : k / d = (k - d) / d + 1 := by
        rw [Nat.div_eq_sub_div pos le]
      rw [List.getElem?_append_right (by rw [len]; exact le), len, ih, next, Nat.mod_eq_sub_mod le]
      rfl

theorem getElem?_indices (bound : k < shape.prod) :
    (indices shape)[k]? = some (digits k shape.reverse).reverse := by
  induction shape using List.reverseRecOn generalizing k with
  | nil =>
    have : k = 0 := by simpa using bound
    subst this
    rfl
  | append_singleton shape d ih =>
    rw [List.prod_append, List.prod_singleton] at bound
    have pos : 0 < d := Nat.pos_of_ne_zero fun zero => by simp [zero] at bound
    have high : k / d < shape.prod := (Nat.div_lt_iff_lt_mul pos).mpr bound
    rw [indices_concat, getElem?_pieces pos (fun index => by simp), ih high, Option.bind_some,
      List.getElem?_map, List.getElem?_range (Nat.mod_lt k pos), List.reverse_concat, digits,
      List.reverse_cons]
    rfl

theorem length_digits (k : Nat) (dims : List Nat) : (digits k dims).length = dims.length := by
  induction dims generalizing k with
  | nil => rfl
  | cons d dims ih => rw [digits, List.length_cons, List.length_cons, ih]

theorem indices_pos (bound : 0 < shape.prod) : ∀ d ∈ shape, 0 < d := by
  intro d mem
  apply Nat.pos_of_ne_zero
  rintro rfl
  rw [List.prod_eq_zero mem] at bound
  exact lt_irrefl 0 bound

/-! ### Reach -/

theorem cell_bounds (within : Within index shape) (steps : List Int) :
    lowest shape steps ≤ cell index steps ∧ cell index steps ≤ highest shape steps := by
  induction within generalizing steps with
  | nil => simp [lowest, highest]
  | @cons i d index shape small _ ih =>
    cases steps with
    | nil => simp [lowest, highest]
    | cons s steps =>
      obtain ⟨low, high⟩ := ih steps
      have whole : (i : Int) ≤ (d - 1 : Nat) := by
        have : i ≤ d - 1 := Nat.le_sub_one_of_lt small
        exact_mod_cast this
      have between : min 0 (extent d s) ≤ i * s ∧ i * s ≤ max 0 (extent d s) := by
        unfold extent
        rcases le_total 0 s with up | down
        · have top := mul_le_mul_of_nonneg_right whole up
          have bottom : 0 ≤ (i : Int) * s := mul_nonneg (Int.natCast_nonneg i) up
          exact ⟨(min_le_left _ _).trans bottom, top.trans (le_max_right _ _)⟩
        · have bottom := mul_le_mul_of_nonpos_right whole down
          have top : (i : Int) * s ≤ 0 := mul_nonpos_of_nonneg_of_nonpos (Int.natCast_nonneg i) down
          exact ⟨(min_le_right _ _).trans bottom, top.trans (le_max_left _ _)⟩
      rw [cell_cons, lowest_cons, highest_cons]
      exact ⟨add_le_add between.1 low, add_le_add between.2 high⟩

/-- Both ends are reached. -/
theorem exists_ends (pos : ∀ d ∈ shape, 0 < d) (steps : List Int) :
    (∃ index, Within index shape ∧ cell index steps = lowest shape steps) ∧
      ∃ index, Within index shape ∧ cell index steps = highest shape steps := by
  induction shape generalizing steps with
  | nil => exact ⟨⟨[], .nil, rfl⟩, [], .nil, rfl⟩
  | cons d shape ih =>
    have own : 0 < d := pos d List.mem_cons_self
    have last : d - 1 < d := Nat.sub_lt own one_pos
    have rest := ih fun e mem => pos e (List.mem_cons_of_mem d mem)
    cases steps with
    | nil =>
      obtain ⟨⟨index, within, -⟩, -⟩ := rest []
      exact ⟨⟨0 :: index, .cons own within, by simp [lowest]⟩,
        0 :: index, .cons own within, by simp [highest]⟩
    | cons s steps =>
      obtain ⟨⟨low, within, eq⟩, high, within', eq'⟩ := rest steps
      rcases le_total 0 (extent d s) with up | down
      · refine ⟨⟨0 :: low, .cons own within, ?_⟩, (d - 1) :: high, .cons last within', ?_⟩
        · rw [cell_cons, lowest_cons, eq, min_eq_left up, Nat.cast_zero, zero_mul]
        · rw [cell_cons, highest_cons, eq', max_eq_right up, extent]
      · refine ⟨⟨(d - 1) :: low, .cons last within, ?_⟩, 0 :: high, .cons own within', ?_⟩
        · rw [cell_cons, lowest_cons, eq, min_eq_right down, extent]
        · rw [cell_cons, highest_cons, eq', max_eq_left down, Nat.cast_zero, zero_mul]

/-- The two ends decide whether every multi-index stays inside. -/
theorem inside_iff (pos : ∀ d ∈ shape, 0 < d) :
    (∀ index, Within index shape → 0 ≤ origin + cell index steps ∧ origin + cell index steps < n) ↔
      0 ≤ origin + lowest shape steps ∧ origin + highest shape steps < n := by
  obtain ⟨⟨low, within, eq⟩, high, within', eq'⟩ := exists_ends pos steps
  constructor
  · intro inside
    have first := (inside low within).1
    have last := (inside high within').2
    rw [eq] at first
    rw [eq'] at last
    exact ⟨first, last⟩
  · rintro ⟨first, last⟩ index within
    have between := cell_bounds within steps
    omega

/-- The dimensions take together less than the number of cells. -/
theorem sum_extents (pos : ∀ d ∈ shape, 0 < d) (small : ∀ s ∈ steps, s.natAbs ≤ M) :
    ((shape.zip steps).map fun (d, s) => (d - 1) * s.natAbs).sum ≤ (shape.prod - 1) * M := by
  induction shape generalizing steps with
  | nil => simp
  | cons d shape ih =>
    cases steps with
    | nil => simp
    | cons s steps =>
      have rest := ih (fun e mem => pos e (List.mem_cons_of_mem d mem))
        fun t mem => small t (List.mem_cons_of_mem s mem)
      have own : (d - 1) * s.natAbs ≤ (d - 1) * M :=
        Nat.mul_le_mul_left _ (small s List.mem_cons_self)
      have some : 0 < d := pos d List.mem_cons_self
      have total : 0 < shape.prod :=
        List.prod_pos fun e mem => pos e (List.mem_cons_of_mem d mem)
      have together : d - 1 + (shape.prod - 1) ≤ d * shape.prod - 1 := by
        obtain ⟨a, rfl⟩ : ∃ a, d = a + 1 := ⟨d - 1, by omega⟩
        obtain ⟨b, eq⟩ : ∃ b, shape.prod = b + 1 := ⟨shape.prod - 1, by omega⟩
        rw [eq]
        have : (a + 1) * (b + 1) = a * b + a + b + 1 := by ring
        omega
      simp only [List.zip_cons_cons, List.map_cons, List.sum_cons, List.prod_cons]
      calc (d - 1) * s.natAbs + _ ≤ (d - 1) * M + (shape.prod - 1) * M := add_le_add own rest
        _ = (d - 1 + (shape.prod - 1)) * M := by rw [Nat.add_mul]
        _ ≤ (d * shape.prod - 1) * M := Nat.mul_le_mul_right M together

theorem sum_within (within : Within index shape) (steps : List Int) :
    ((index.zip steps).map fun (i, s) => i * s.natAbs).sum ≤
      ((shape.zip steps).map fun (d, s) => (d - 1) * s.natAbs).sum := by
  induction within generalizing steps with
  | nil => simp
  | @cons i d index shape small _ ih =>
    cases steps with
    | nil => simp
    | cons s steps =>
      rw [List.zip_cons_cons, List.map_cons, List.sum_cons, List.zip_cons_cons, List.map_cons,
        List.sum_cons]
      exact add_le_add (Nat.mul_le_mul_right _ (Nat.le_sub_one_of_lt small)) (ih steps)

/-- The two ends together reach no further than the dimensions do. -/
theorem natAbs_ends (shape : List Nat) (steps : List Int) :
    (lowest shape steps).natAbs + (highest shape steps).natAbs ≤
      ((shape.zip steps).map fun (d, s) => (d - 1) * s.natAbs).sum := by
  induction shape generalizing steps with
  | nil => simp [lowest, highest]
  | cons d shape ih =>
    cases steps with
    | nil => simp [lowest, highest]
    | cons s steps =>
      have rest := ih steps
      have own : (extent d s).natAbs = (d - 1) * s.natAbs := by
        rw [extent, Int.natAbs_mul, Int.natAbs_natCast]
      rw [lowest_cons, highest_cons, List.zip_cons_cons, List.map_cons, List.sum_cons]
      change _ ≤ (d - 1) * s.natAbs + _
      rw [← own]
      omega

end Strided
