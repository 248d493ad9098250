import Tonic.BufferLayout
import Tonic.Library.Outcome

/-!
## Buffers stay within their storage

A layout is accepted exactly if every multi-index of the shape lies inside the backing storage, and
an accepted layout addresses the cells of its multi-indices in row-major order.
-/

namespace Tonic

open Outcome Strided

namespace Buffer

variable {n origin product backing elements : Nat} {i lo hi start : Int} {index shape : List Nat}
  {strides : List Int} {d : Nat} {s : Int}

/-! ### Checked numbers -/

theorem checkedI128_eq (small : i.natAbs < 2 ^ 127) : checkedI128 i = some i := by
  apply if_pos
  unfold fitsI128
  rw [Bool.and_eq_true, decide_eq_true_eq, decide_eq_true_eq]
  omega

theorem orElse_ok {α : Type} {fault : Fault} {a : α} {o : Option α} :
    orElse fault o = .ok a ↔ o = some a := by
  cases o with
  | none => exact ⟨fun no => (by cases no), fun no => (by cases no)⟩
  | some b => exact ⟨fun eq => congrArg some (Except.ok.inj eq), fun eq => by rw [Option.some.inj eq]; rfl⟩

theorem checkedUsize_eq_some : checkedUsize n = some product ↔ n < 2 ^ 64 ∧ product = n := by
  unfold checkedUsize
  split
  · next small => exact ⟨fun eq => ⟨small, (Option.some.inj eq).symm⟩, fun eq => by rw [eq.2]⟩
  · next large => exact ⟨fun no => (by cases no), fun both => absurd both.1 large⟩

/-! ### Strides in elements -/

/-- The strides as numbers of elements. -/
def steps (strides : List Int) : List Int := strides.map fun s => s / itemSize

theorem tdiv_steps (aligned : ∀ s ∈ strides, (itemSize : Int) ∣ s) :
    strides.map (fun s => s.tdiv itemSize) = steps strides :=
  List.map_congr_left fun s mem => Int.tdiv_eq_ediv_of_dvd (aligned s mem)

theorem tdiv_small (small : -2 ^ 63 ≤ s ∧ s < 2 ^ 63) : (s.tdiv itemSize).natAbs ≤ 2 ^ 60 := by
  have size : s.natAbs ≤ 2 ^ 63 := by omega
  rw [Int.natAbs_tdiv]
  exact Nat.div_le_of_le_mul (by simpa [itemSize] using size)

/-- How far the coordinates can lead from the origin. -/
def spread (shape : List Nat) (strides : List Int) : Nat :=
  ((shape.zip (strides.map fun s => s.tdiv itemSize)).map fun (d, s) => (d - 1) * s.natAbs).sum

theorem spread_cons : spread (d :: shape) (s :: strides) =
    (d - 1) * (s.tdiv itemSize).natAbs + spread shape strides := by
  simp [spread]

theorem spread_lt (some : 0 < shape.prod) (bytes : shape.prod * itemSize < 2 ^ 64)
    (small : ∀ s ∈ strides, -2 ^ 63 ≤ s ∧ s < 2 ^ 63) : spread shape strides < 2 ^ 121 := by
  have total : shape.prod - 1 < 2 ^ 61 := by
    unfold itemSize at bytes
    omega
  have sum := @sum_extents (2 ^ 60) shape (strides.map fun s => s.tdiv itemSize) (indices_pos some) (by
    intro t mem
    obtain ⟨s, stored, rfl⟩ := List.mem_map.mp mem
    exact tdiv_small (small s stored))
  calc spread shape strides ≤ (shape.prod - 1) * 2 ^ 60 := sum
    _ < 2 ^ 61 * 2 ^ 60 := Nat.mul_lt_mul_of_pos_right total (Nat.two_pow_pos 60)
    _ = 2 ^ 121 := by rw [← Nat.pow_add]

/-! ### The reach of a layout -/

theorem reach_ok (small : lo.natAbs + hi.natAbs + (d - 1) * (s.tdiv itemSize).natAbs < 2 ^ 127) :
    reach (lo, hi) (d, s) = .ok (lo + min 0 (extent d (s.tdiv itemSize)),
      hi + max 0 (extent d (s.tdiv itemSize))) := by
  have size : (extent d (s.tdiv itemSize)).natAbs = (d - 1) * (s.tdiv itemSize).natAbs := by
    rw [extent, Int.natAbs_mul, Int.natAbs_natCast]
  unfold reach
  change (orElse rangeOverflows (checkedI128 (extent d (s.tdiv itemSize))) >>= _) = _
  rw [← size] at small
  generalize extent d (s.tdiv itemSize) = e at small ⊢
  rw [checkedI128_eq (by omega), orElse, ok_bind]
  split
  · next down =>
    rw [checkedI128_eq (by omega), orElse, ok_bind, min_eq_right (by omega), max_eq_left (by omega),
      add_zero]
    rfl
  · next up =>
    rw [checkedI128_eq (by omega), orElse, ok_bind, min_eq_left (by omega), max_eq_right (by omega),
      add_zero]
    rfl

theorem foldlM_reach (small : lo.natAbs + hi.natAbs + spread shape strides < 2 ^ 127) :
    (shape.zip strides).foldlM reach (lo, hi) =
      .ok (lo + lowest shape (strides.map fun s => s.tdiv itemSize),
        hi + highest shape (strides.map fun s => s.tdiv itemSize)) := by
  induction shape generalizing strides lo hi with
  | nil => simp [lowest, highest, pure, Except.pure]
  | cons d shape ih =>
    cases strides with
    | nil => simp [lowest, highest, pure, Except.pure]
    | cons s strides =>
      rw [spread_cons] at small
      have size : (extent d (s.tdiv itemSize)).natAbs = (d - 1) * (s.tdiv itemSize).natAbs := by
        rw [extent, Int.natAbs_mul, Int.natAbs_natCast]
      rw [List.zip_cons_cons, List.foldlM_cons, reach_ok (by omega), ok_bind, ih (by omega),
        List.map_cons, lowest_cons, highest_cons, add_assoc, add_assoc]

/-- Where a multi-index lies, before it is compared with the storage. -/
def place (origin : Nat) (strides : List Int) (index : List Nat) : Int :=
  origin + cell index (steps strides)

theorem validateReach_eq (some : 0 < shape.prod) (bytes : shape.prod * itemSize < 2 ^ 64)
    (room : origin ≤ backing) (length : backing < 2 ^ 64)
    (small : ∀ s ∈ strides, -2 ^ 63 ≤ s ∧ s < 2 ^ 63) (aligned : ∀ s ∈ strides, (itemSize : Int) ∣ s) :
    validateReach backing origin (shape.zip strides) =
      if origin + lowest shape (steps strides) < 0 ∨
          (backing : Int) ≤ origin + highest shape (steps strides) then
        .error (layoutError "buffer shape, strides, and origin escape the backing allocation")
      else .ok () := by
  have bound := spread_lt some bytes small
  have ends : (shape.zip strides).foldlM reach (0, 0) =
      .ok (lowest shape (steps strides), highest shape (steps strides)) := by
    rw [foldlM_reach (by simpa using bound.trans (by norm_num)), tdiv_steps aligned, zero_add,
      zero_add]
  have near : (lowest shape (steps strides)).natAbs + (highest shape (steps strides)).natAbs <
      2 ^ 121 := by
    rw [← tdiv_steps aligned]
    exact (natAbs_ends shape _).trans_lt bound
  unfold validateReach
  rw [ends, ok_bind]
  dsimp only
  rw [checkedI128_eq (by omega), orElse, ok_bind, checkedI128_eq (by omega), orElse, ok_bind]
  rfl

theorem validateLayout_ok (bytes : shape.prod * itemSize < 2 ^ 64)
    (length : backing < 2 ^ 64) (small : ∀ s ∈ strides, -2 ^ 63 ≤ s ∧ s < 2 ^ 63) :
    (validateLayout backing shape strides origin shape.prod = .ok () ↔
      origin ≤ backing ∧ (∀ s ∈ strides, (itemSize : Int) ∣ s) ∧
        ∀ index, Within index shape →
          0 ≤ place origin strides index ∧ place origin strides index < backing) ∧
      validateLayout backing shape strides origin shape.prod ≠ .error rangeOverflows := by
  unfold validateLayout
  by_cases far : backing < origin
  · rw [if_pos far]
    refine ⟨iff_of_false (fun no => by cases no) fun both => ?_, by decide⟩
    omega
  rw [if_neg far]
  by_cases odd : (strides.any fun stride => stride.tmod itemSize ≠ 0) = true
  · obtain ⟨s, mem, rest⟩ := List.any_eq_true.mp odd
    rw [if_pos odd]
    refine ⟨iff_of_false (fun no => by cases no) fun both => ?_, by decide⟩
    exact of_decide_eq_true rest (Int.tmod_eq_zero_of_dvd (both.2.1 s mem))
  have aligned : ∀ s ∈ strides, (itemSize : Int) ∣ s := by
    intro s mem
    by_contra apart
    refine odd (List.any_eq_true.mpr ⟨s, mem, decide_eq_true fun zero => apart ?_⟩)
    exact Int.dvd_of_tmod_eq_zero zero
  rw [if_neg odd]
  by_cases none : shape.prod = 0
  · rw [if_pos none]
    refine ⟨iff_of_true rfl ⟨Nat.le_of_not_lt far, aligned, fun index within => ?_⟩, by decide⟩
    have mem := mem_indices.mpr within
    rw [List.eq_nil_of_length_eq_zero ((length_indices shape).trans none)] at mem
    cases mem
  have some : 0 < shape.prod := by omega
  rw [if_neg none, validateReach_eq some bytes (Nat.le_of_not_lt far) length small aligned]
  have inside := @inside_iff backing origin shape (steps strides) (indices_pos some)
  split
  · next outside =>
    refine ⟨iff_of_false (fun no => by cases no) fun both => ?_, by decide⟩
    have := inside.mp both.2.2
    omega
  · next within =>
    refine ⟨iff_of_true rfl ⟨Nat.le_of_not_lt far, aligned, ?_⟩, by decide⟩
    exact inside.mpr (by omega)

/-! ### The number of elements -/

/-- The step of `countElements`. -/
def countDimension (product dimension : Nat) : Except Fault Nat :=
  orElse (layoutError "buffer shape element count overflows usize")
    (checkedUsize (product * dimension))

theorem foldlM_elements (product : Nat) : shape.foldlM countDimension product = .ok n ↔
    (∀ p, p <+: shape → p ≠ [] → product * p.prod < 2 ^ 64) ∧ n = product * shape.prod := by
  induction shape generalizing product with
  | nil => simp [pure, Except.pure, eq_comm]
  | cons d shape ih =>
    rw [List.foldlM_cons, countDimension]
    by_cases small : product * d < 2 ^ 64
    · rw [checkedUsize, if_pos small, orElse, ok_bind, ih, List.prod_cons, ← mul_assoc]
      refine and_congr_left fun _ => ⟨?_, ?_⟩
      · intro all p pre some
        cases p with
        | nil => exact absurd rfl some
        | cons e p =>
          obtain ⟨rfl, rest⟩ := List.cons_prefix_cons.mp pre
          rw [List.prod_cons, ← mul_assoc]
          by_cases last : p = []
          · rw [last, List.prod_nil, mul_one]
            exact small
          · exact all p rest last
      · intro all p pre some
        rw [mul_assoc, ← List.prod_cons]
        exact all (d :: p) (List.cons_prefix_cons.mpr ⟨rfl, pre⟩) (List.cons_ne_nil d p)
    · rw [checkedUsize, if_neg small]
      apply iff_of_false
      · intro run
        cases run
      · rintro ⟨all, -⟩
        have first := all [d] ⟨shape, rfl⟩ (List.cons_ne_nil d [])
        rw [List.prod_singleton] at first
        exact small first

theorem countElements_ok : countElements shape = .ok n ↔
    (∀ p, p <+: shape → p.prod < 2 ^ 64) ∧ n = shape.prod := by
  change shape.foldlM countDimension 1 = .ok n ↔ _
  rw [foldlM_elements]
  simp only [one_mul]
  refine and_congr_left fun _ => ⟨fun small p pre => ?_, fun small p pre _ => small p pre⟩
  by_cases empty : p = []
  · rw [empty]
    norm_num
  · exact small p pre empty

theorem countElements_failsOnly : FailsOnly (· ≠ rangeOverflows) (countElements shape) := by
  refine FailsOnly.foldlM (fun product d => ?_) shape 1
  cases checkedUsize (product * d) with
  | none => exact .error (by decide)
  | some m => exact .ok m

end Buffer

/-! ### The accepted layouts -/

/-- What a caller wants a buffer to be, within the ranges of the machine's integers. -/
structure LayoutRequest where
  values : List F64
  shape : List Nat
  strides : List Int
  origin : Nat
  writable : Bool
  length : values.length < 2 ^ 64
  small : ∀ s ∈ strides, -2 ^ 63 ≤ s ∧ s < 2 ^ 63

namespace LayoutRequest

open Buffer

variable (r : LayoutRequest)

def build : Except Fault Buffer := f64Strided r.values r.shape r.strides r.origin r.writable

structure Fits : Prop where
  ndim : r.shape.length < 2 ^ 32
  rank : r.strides.length = r.shape.length
  aligned : ∀ s ∈ r.strides, (itemSize : Int) ∣ s
  products : ∀ dimensions, dimensions <+: r.shape → dimensions.prod < 2 ^ 64
  bytes : r.shape.prod * itemSize < 2 ^ 64
  origin : r.origin ≤ r.values.length
  inside : ∀ index, Within index r.shape →
    0 ≤ place r.origin r.strides index ∧ place r.origin r.strides index < r.values.length

/-- The buffer that a request describes. -/
def laid : Buffer :=
  { data := r.values, origin := r.origin, elements := r.shape.prod, shape := r.shape,
    strides := r.strides, writable := r.writable, mutation := ⟨0, 0, false⟩ }

theorem build_ok {b : Buffer} : r.build = .ok b ↔ r.Fits ∧ b = r.laid := by
  unfold build f64Strided
  by_cases large : 2 ^ 32 ≤ r.shape.length
  · rw [if_pos large]
    apply iff_of_false (fun no => by cases no)
    rintro ⟨fits, -⟩
    exact absurd fits.ndim (Nat.not_lt.mpr large)
  by_cases ragged : r.strides.length ≠ r.shape.length
  · rw [if_neg large, if_pos ragged]
    apply iff_of_false (fun no => by cases no)
    rintro ⟨fits, -⟩
    exact ragged fits.rank
  rw [if_neg large, if_neg ragged]
  constructor
  · intro run
    obtain ⟨n, count, run⟩ := bind_ok run
    obtain ⟨products, rfl⟩ := countElements_ok.mp count
    obtain ⟨m, size, run⟩ := bind_ok run
    have bytes := (checkedUsize_eq_some.mp (orElse_ok.mp size)).1
    obtain ⟨⟨⟩, valid, run⟩ := bind_ok run
    obtain ⟨origin, aligned, inside⟩ := (validateLayout_ok bytes r.length r.small).1.mp valid
    cases run
    exact ⟨⟨Nat.lt_of_not_le large, not_not.mp ragged, aligned, products, bytes, origin, inside⟩,
      rfl⟩
  · rintro ⟨fits, rfl⟩
    have valid := (validateLayout_ok fits.bytes r.length r.small).1.mpr
      ⟨fits.origin, fits.aligned, fits.inside⟩
    rw [countElements_ok.mpr ⟨fits.products, rfl⟩, ok_bind,
      orElse_ok.mpr (checkedUsize_eq_some.mpr ⟨fits.bytes, rfl⟩), ok_bind, valid, ok_bind]
    rfl

theorem build_failsOnly : FailsOnly (· ≠ rangeOverflows) r.build := by
  apply FailsOnly.ite
  · intro _
    exact .error (by decide)
  intro _
  apply FailsOnly.ite
  · intro _
    apply FailsOnly.error
    intro eq
    have message := congrArg Diagnostic.message (Fault.raised.inj eq)
    have other := congrArg (fun message : String => message.toList[7]?) message
    simp at other
  intro _
  refine countElements_failsOnly.bind fun n count => ?_
  obtain ⟨-, rfl⟩ := countElements_ok.mp count
  cases size : checkedUsize (r.shape.prod * itemSize) with
  | none => exact .error (by decide)
  | some m =>
    have bytes := (checkedUsize_eq_some.mp size).1
    have valid := (@validateLayout_ok r.origin r.values.length r.shape r.strides bytes r.length
      r.small).2
    rw [orElse, ok_bind]
    apply FailsOnly.bind
    · intro e failed eq
      rw [eq] at failed
      exact valid failed
    · intro _ _
      exact .ok _

end LayoutRequest

end Tonic
