import Tonic.BufferLayoutSound
import Mathlib.Algebra.BigOperators.Group.List.Lemmas

/-!
## The cells of a buffer

An accepted layout addresses the cells of its multi-indices, in row-major order.
-/

namespace Tonic

open Outcome Strided

namespace Buffer

variable {k : Nat} {start : Int} {index dims shape : List Nat} {strides : List Int} {b : Buffer}

/-! ### Offsets -/

/-- What a list of coordinates and strides adds to the origin. -/
def shift (axes : List (Nat × Int)) : Int := (axes.map fun (i, s) => i * s.tdiv itemSize).sum

theorem offset_eq {axes : List (Nat × Int)}
    (small : start.natAbs + (axes.map fun (i, s) => i * (s.tdiv itemSize).natAbs).sum < 2 ^ 127) :
    offset start axes = some (start + shift axes) := by
  unfold offset
  induction axes generalizing start with
  | nil => simp [shift]
  | cons axis axes ih =>
    obtain ⟨i, s⟩ := axis
    rw [List.map_cons, List.sum_cons] at small
    change start.natAbs + (i * (s.tdiv itemSize).natAbs + _) < 2 ^ 127 at small
    have own : ((i : Int) * s.tdiv itemSize).natAbs = i * (s.tdiv itemSize).natAbs := by
      rw [Int.natAbs_mul, Int.natAbs_natCast]
    rw [← own] at small
    rw [List.foldlM_cons]
    change ((checkedI128 (i * s.tdiv itemSize)).bind fun e => checkedI128 (start + e)).bind _ = _
    rw [checkedI128_eq (by omega), Option.bind_some, checkedI128_eq (by omega), Option.bind_some,
      ih (by omega), shift, shift, List.map_cons, List.sum_cons, add_assoc]

/-- What holds of a buffer with an accepted layout. -/
structure Laid (b : Buffer) : Prop where
  elements : b.elements = b.shape.prod
  rank : b.strides.length = b.shape.length
  aligned : ∀ s ∈ b.strides, (itemSize : Int) ∣ s
  small : ∀ s ∈ b.strides, -2 ^ 63 ≤ s ∧ s < 2 ^ 63
  bytes : b.shape.prod * itemSize < 2 ^ 64
  length : b.data.length < 2 ^ 64
  origin : b.origin ≤ b.data.length
  inside : ∀ index, Within index b.shape →
    0 ≤ place b.origin b.strides index ∧ place b.origin b.strides index < b.data.length

/-- The number at a position of the row-major order. -/
def content (b : Buffer) (k : Nat) : F64 :=
  ((b.flatStorageIndex k).bind fun i => b.data[i]?).getD default

theorem content_eq {i : Nat} (flat : b.flatStorageIndex k = some i) (below : i < b.data.length) :
    b.data[i]? = some (b.content k) := by
  rw [content, flat, Option.bind_some, List.getElem?_eq_getElem below, Option.getD_some]

namespace Laid

theorem prod_pos (within : Within index shape) : 0 < shape.prod := by
  induction within with
  | nil => exact one_pos
  | cons small _ ih =>
    rw [List.prod_cons]
    exact Nat.mul_pos (Nat.zero_lt_of_lt small) ih

theorem offset_bound (laid : b.Laid) (within : Within index b.shape) :
    (b.origin : Int).natAbs +
        ((index.zip b.strides).map fun (i, s) => i * (s.tdiv itemSize).natAbs).sum < 2 ^ 127 := by
  have far := spread_lt (prod_pos within) laid.bytes laid.small
  have reached := sum_within within (b.strides.map fun s => s.tdiv itemSize)
  rw [List.zip_map_right, List.map_map] at reached
  have room := laid.origin.trans_lt laid.length
  calc _ ≤ b.origin + spread b.shape b.strides := add_le_add (le_of_eq (by simp)) reached
    _ < 2 ^ 127 := by omega

theorem shift_zip (laid : b.Laid) (index : List Nat) :
    shift (index.zip b.strides) = cell index (steps b.strides) := by
  rw [← tdiv_steps laid.aligned, cell, List.zip_map_right, List.map_map]
  rfl

theorem offset_place (laid : b.Laid) (within : Within index b.shape) :
    offset b.origin (index.zip b.strides) = some (place b.origin b.strides index) := by
  rw [offset_eq (laid.offset_bound within), laid.shift_zip, place]

/-- The axes may be visited from the last to the first. -/
theorem offset_reverse (laid : b.Laid) (within : Within index b.shape) :
    offset b.origin (index.reverse.zip b.strides.reverse) =
      some (place b.origin b.strides index) := by
  have length : index.length = b.strides.length := within.length_eq.trans laid.rank.symm
  have bound := laid.offset_bound within
  rw [← List.sum_reverse, ← List.map_reverse, reverse_zip length] at bound
  rw [offset_eq bound, ← reverse_zip length, shift, List.map_reverse, List.sum_reverse, ← shift,
    laid.shift_zip, place]

theorem inBacking_place (laid : b.Laid) (within : Within index b.shape) :
    ∃ i, i < b.data.length ∧ (i : Int) = place b.origin b.strides index ∧
      b.inBacking (place b.origin b.strides index) = some i := by
  obtain ⟨low, high⟩ := laid.inside index within
  refine ⟨(place b.origin b.strides index).toNat, by omega, by omega, ?_⟩
  rw [inBacking, if_pos ⟨low, high⟩]

theorem storageIndex_eq (laid : b.Laid) (within : Within index b.shape) :
    b.storageIndex index = b.inBacking (place b.origin b.strides index) := by
  obtain ⟨length, each⟩ := List.forall₂_iff_zip.mp within
  have all : (index.zip b.shape).all (fun axis => axis.1 < axis.2) = true := by
    apply List.all_eq_true.mpr
    intro axis mem
    exact decide_eq_true (each mem)
  rw [storageIndex, if_pos ⟨length, all⟩, laid.offset_place within, Option.bind_some]

theorem storageIndex_none (outside : ¬ Within index b.shape) : b.storageIndex index = none := by
  rw [storageIndex, if_neg]
  rintro ⟨length, each⟩
  apply outside
  refine List.forall₂_iff_zip.mpr ⟨length, fun mem => ?_⟩
  exact of_decide_eq_true (List.all_eq_true.mp each _ mem)

/-! ### Elements in row-major order -/

theorem coordinates_eq (k : Nat) (dims : List Nat) : coordinates k dims = digits k dims := by
  induction dims generalizing k with
  | nil => rfl
  | cons d dims ih => rw [coordinates, digits, ih]

/-- In a row-major layout an element's coordinates add up to its number. -/
theorem cell_contiguous {unit : Nat} (aligned : ∀ s ∈ strides, (itemSize : Int) ∣ s)
    (rank : strides.length = dims.length) (pos : ∀ d ∈ dims, 0 < d) (bound : k < dims.prod)
    (row : isCContiguous.go (unit * itemSize) (dims.zip strides) = true) :
    cell (digits k dims) (steps strides) = unit * k := by
  induction dims generalizing strides k unit with
  | nil =>
    have zero : k = 0 := by simpa using bound
    rw [zero, digits, cell_nil, Nat.cast_zero, mul_zero]
  | cons d dims ih =>
    obtain _ | ⟨s, strides⟩ := strides
    · cases rank
    have own : 0 < d := pos d List.mem_cons_self
    have rest := fun e mem => pos e (List.mem_cons_of_mem d mem)
    have high : k / d < dims.prod := by
      apply Nat.div_lt_of_lt_mul
      rwa [← List.prod_cons]
    rw [List.zip_cons_cons, isCContiguous.go] at row
    split at row
    · cases row
    next fits =>
    dsimp only at row
    split at row
    · have next : unit * itemSize * max d 1 = unit * d * itemSize := by
        rw [max_eq_left own]
        ring
      rw [next] at row
      have tail := ih (fun t mem => aligned t (List.mem_cons_of_mem s mem))
        (Nat.succ_injective rank) rest high row
      have first : ((k % d : Nat) : Int) * (s / itemSize) = unit * (k % d : Nat) := by
        by_cases single : 1 < d
        · have step : ((unit * itemSize : Nat) : Int) = s := by
            by_contra other
            exact fits ⟨single, .inl other⟩
          rw [← step, Nat.cast_mul, Int.mul_ediv_cancel _ (by decide), mul_comm]
        · have one : d = 1 := by omega
          rw [one, Nat.mod_one, Nat.cast_zero, zero_mul, mul_zero]
      have parts : (k : Int) = (k % d : Nat) + d * (k / d : Nat) := by
        exact_mod_cast (Nat.mod_add_div k d).symm
      rw [digits, steps, List.map_cons, cell_cons, first]
      change _ + cell _ (steps strides) = _
      rw [tail, Nat.cast_mul]
      conv_rhs => rw [parts]
      ring
    · cases row

/-- The shortcut for a row-major layout counts on from the origin. -/
theorem place_contiguous (laid : b.Laid) (small : k < b.shape.prod)
    (row : b.isCContiguous = true) :
    place b.origin b.strides (digits k b.shape.reverse).reverse = b.origin + k := by
  have walked : isCContiguous.go (1 * itemSize) (b.shape.reverse.zip b.strides.reverse) = true := by
    rw [isCContiguous, Bool.or_eq_true, decide_eq_true_eq, laid.elements] at row
    rw [one_mul, ← reverse_zip laid.rank.symm]
    exact row.resolve_left (by omega)
  have rank : b.strides.reverse.length = b.shape.reverse.length := by
    rw [List.length_reverse, List.length_reverse, laid.rank]
  have sum := cell_contiguous (fun s mem => laid.aligned s (List.mem_reverse.mp mem)) rank
    (fun d mem => indices_pos (Nat.zero_lt_of_lt small) d (List.mem_reverse.mp mem))
    (by rwa [List.prod_reverse]) walked
  have length : (digits k b.shape.reverse).length = (steps b.strides.reverse).length := by
    rw [length_digits, steps, List.length_map, rank]
  rw [place, ← List.reverse_reverse (steps b.strides), steps, ← List.map_reverse, ← steps,
    cell_reverse length, sum, Nat.cast_one, one_mul]

theorem flatStorageIndex_eq (laid : b.Laid) (small : k < b.elements) :
    ∃ index, (indices b.shape)[k]? = some index ∧ b.flatStorageIndex k = b.storageIndex index := by
  rw [laid.elements] at small
  have numbered := getElem?_indices small
  have within := mem_indices.mp (List.mem_of_getElem? numbered)
  refine ⟨_, numbered, ?_⟩
  rw [flatStorageIndex, laid.elements, if_neg (Nat.not_le.mpr small), laid.storageIndex_eq within]
  by_cases row : b.isCContiguous = true
  · obtain ⟨i, below, at_cell, found⟩ := laid.inBacking_place within
    rw [found, if_pos row]
    rw [laid.place_contiguous small row] at at_cell
    have same : b.origin + k = i := by omega
    rw [same, checkedUsize, if_pos (below.trans laid.length)]
  · rw [if_neg row, coordinates_eq]
    have reversed := laid.offset_reverse within
    rw [List.reverse_reverse] at reversed
    rw [reversed, Option.bind_some]

theorem flatStorageIndex_none (large : b.elements ≤ k) : b.flatStorageIndex k = none := if_pos large

theorem lt_of_flat {i : Nat} (flat : b.flatStorageIndex k = some i) : k < b.elements := by
  by_contra large
  rw [flatStorageIndex_none (Nat.le_of_not_lt large)] at flat
  cases flat

/-! ### Adding up -/

theorem flat_inside (laid : b.Laid) (small : k < b.elements) :
    ∃ i, b.flatStorageIndex k = some i ∧ i < b.data.length := by
  obtain ⟨index, numbered, eq⟩ := laid.flatStorageIndex_eq small
  have within := mem_indices.mp (List.mem_of_getElem? numbered)
  obtain ⟨i, below, -, found⟩ := laid.inBacking_place within
  exact ⟨i, by rw [eq, laid.storageIndex_eq within, found], below⟩

theorem logicalCells_row (laid : b.Laid) (row : b.isCContiguous = true) :
    b.origin + b.elements ≤ b.data.length ∧
      b.logicalCells = .ok ((b.data.take (b.origin + b.elements)).drop b.origin) := by
  have room : b.origin + b.elements ≤ b.data.length := by
    by_cases none : b.elements = 0
    · rw [none, add_zero]
      exact laid.origin
    · have small : b.elements - 1 < b.elements := by omega
      obtain ⟨i, flat, below⟩ := laid.flat_inside small
      rw [flatStorageIndex, if_neg (Nat.not_le.mpr small), if_pos row] at flat
      obtain ⟨-, rfl⟩ := checkedUsize_eq_some.mp flat
      omega
  refine ⟨room, ?_⟩
  rw [logicalCells, if_pos row, checkedUsize, if_pos (room.trans_lt laid.length), orElse, ok_bind,
    if_neg (Nat.not_lt.mpr room)]
  rfl

/-- Nothing goes wrong while the cells are added up, and they are taken in order. -/
theorem logicalCells_eq (laid : b.Laid) : ∃ cells, b.logicalCells = .ok cells ∧
    cells.length = b.elements ∧
      ∀ k i, b.flatStorageIndex k = some i → cells[k]? = b.data[i]? := by
  by_cases row : b.isCContiguous = true
  · obtain ⟨room, run⟩ := laid.logicalCells_row row
    refine ⟨_, run, ?_, ?_⟩
    · rw [List.length_drop, List.length_take_of_le room, Nat.add_sub_cancel_left]
    · intro k i flat
      have small := lt_of_flat flat
      rw [flatStorageIndex, if_neg (Nat.not_le.mpr small), if_pos row] at flat
      obtain ⟨-, rfl⟩ := checkedUsize_eq_some.mp flat
      rw [List.getElem?_drop, List.getElem?_take_of_lt (Nat.add_lt_add_left small _)]
  · refine ⟨(List.range b.elements).map b.content, ?_, ?_, ?_⟩
    · rw [logicalCells, if_neg row]
      apply mapM_eq_ok
      intro k mem
      obtain ⟨i, flat, below⟩ := laid.flat_inside (List.mem_range.mp mem)
      rw [flat, orElse, ok_bind, content_eq flat below, orElse]
    · rw [List.length_map, List.length_range]
    · intro k i flat
      have small := lt_of_flat flat
      obtain ⟨j, same, below⟩ := laid.flat_inside small
      rw [flat] at same
      cases same
      rw [List.getElem?_map, List.getElem?_range small, content_eq flat below]
      rfl

end Laid

end Buffer

/-! ### Items -/

namespace Heap

/-- The value counts the position from the start of the dimension or from its end. -/
def Counts (h : Heap) (dimension : Nat) (v : Value) (i : Nat) : Prop :=
  i < dimension ∧ ∃ n, h.integer v = .ok n ∧ (n = i ∨ n = i - dimension)

theorem normalizeIndex_eq (message : String) {n : Int} {i d : Nat} (small : i < d)
    (word : d < 2 ^ 64) (count : n = i ∨ n = i - d) : normalizeIndex message n d = .ok i := by
  have fits : fitsI128 n = true := by
    rw [fitsI128, Bool.and_eq_true, decide_eq_true_eq, decide_eq_true_eq]
    omega
  have same : (if n < 0 then (d : Int) + n else n) = i := by
    split
    · omega
    · omega
  rw [normalizeIndex, same, if_pos ⟨fits, by omega, by omega⟩, Int.toNat_natCast]

end Heap

namespace Buffer

namespace Laid

variable {k : Nat} {index : List Nat} {b : Buffer} {h : Heap} {v : Value} {values : List Value}

theorem dimension_lt (laid : b.Laid) (within : Within index b.shape) :
    ∀ d ∈ b.shape, d < 2 ^ 64 := by
  intro d mem
  have whole := Nat.le_of_dvd (prod_pos within) (List.dvd_prod mem)
  have bytes := laid.bytes
  unfold itemSize at bytes
  omega

theorem mapM_counts {shape : List Nat} (word : ∀ d ∈ shape, d < 2 ^ 64)
    (length : values.length = shape.length)
    (counts : List.Forall₂ (fun axis i => h.Counts axis.2 axis.1 i) (values.zip shape) index) :
    (values.zip shape).mapM (fun (index, dimension) => do
      Heap.normalizeIndex "buffer index out of range" (← h.integer index) dimension) = .ok index := by
  induction values generalizing shape index with
  | nil =>
    cases counts
    rfl
  | cons v values ih =>
    obtain _ | ⟨d, shape⟩ := shape
    · cases length
    rw [List.zip_cons_cons] at counts ⊢
    cases counts with
    | cons first rest =>
      obtain ⟨small, n, run, count⟩ := first
      dsimp only at run
      have own := Heap.normalizeIndex_eq "buffer index out of range" small
        (word d List.mem_cons_self) count
      rw [List.mapM_cons, ih (fun e mem => word e (List.mem_cons_of_mem d mem))
        (Nat.succ_injective length) rest]
      dsimp only
      rw [run, ok_bind, own]
      rfl

theorem within_of_counts {shape : List Nat} (length : values.length = shape.length)
    (counts : List.Forall₂ (fun axis i => h.Counts axis.2 axis.1 i) (values.zip shape) index) :
    Within index shape := by
  induction values generalizing shape index with
  | nil =>
    cases counts
    rw [List.eq_nil_of_length_eq_zero length.symm]
    exact .nil
  | cons v values ih =>
    obtain _ | ⟨d, shape⟩ := shape
    · cases length
    rw [List.zip_cons_cons] at counts
    cases counts with
    | cons first rest => exact .cons first.1 (ih (Nat.succ_injective length) rest)

theorem bufferIndex_tuple (laid : b.Laid) (within : Within index b.shape)
    (tuple : h.tryGet (h.nativeValue v) = some (.tuple values))
    (length : values.length = b.shape.length)
    (counts : List.Forall₂ (fun axis i => h.Counts axis.2 axis.1 i) (values.zip b.shape) index) :
    ∃ i, b.storageIndex index = some i ∧ h.bufferIndex b v = .ok i := by
  obtain ⟨i, -, -, found⟩ := laid.inBacking_place within
  have stored : b.storageIndex index = some i := by rw [laid.storageIndex_eq within, found]
  refine ⟨i, stored, ?_⟩
  rw [Heap.bufferIndex, tuple]
  dsimp only
  rw [if_neg (not_not.mpr length), mapM_counts (laid.dimension_lt within) length counts, ok_bind,
    stored]
  rfl

theorem bufferIndex_flat (laid : b.Laid)
    (single : ∀ values, h.tryGet (h.nativeValue v) ≠ some (.tuple values))
    (count : h.Counts b.elements v k) :
    ∃ i, b.flatStorageIndex k = some i ∧ h.bufferIndex b v = .ok i := by
  obtain ⟨small, n, run, count⟩ := count
  obtain ⟨i, flat, -⟩ := laid.flat_inside small
  refine ⟨i, flat, ?_⟩
  have word : b.elements < 2 ^ 64 := by
    have bytes := laid.bytes
    rw [← laid.elements, itemSize] at bytes
    omega
  have place := Heap.normalizeIndex_eq "buffer index out of range" small word count
  unfold Heap.bufferIndex
  dsimp only
  split
  · next values tuple => exact absurd tuple (single values)
  · rw [run, ok_bind, place, ok_bind, flat]
    rfl

end Laid

/-- Storing a number leaves the layout as it is. -/
theorem laid_setF64 {b b' : Buffer} {i : Nat} {x : F64} (laid : b.Laid)
    (run : b.setF64 i x = .ok b') : b'.Laid := by
  unfold setF64 at run
  split at run
  · cases run
  split at run
  · cases run
  split at run
  · cases run
    have length : (b.data.set i x).length = b.data.length := List.length_set
    obtain ⟨elements, rank, aligned, small, bytes, word, origin, inside⟩ := laid
    rw [← length] at word origin inside
    exact ⟨elements, rank, aligned, small, bytes, word, origin, inside⟩
  · cases run

/-! ### Every accepted layout -/

/-- What indexing a buffer and adding it up come to. -/
structure Right (b : Buffer) : Prop where
  inside : ∀ index, Within index b.shape → ∃ i, i < b.data.length ∧
    (i : Int) = place b.origin b.strides index ∧ b.storageIndex index = some i
  outside : ∀ index, ¬ Within index b.shape → b.storageIndex index = none
  flat : ∀ k, k < b.shape.prod → ∃ index, (indices b.shape)[k]? = some index ∧
    b.flatStorageIndex k = b.storageIndex index
  past : ∀ k, b.shape.prod ≤ k → b.flatStorageIndex k = none
  tuples : ∀ (h : Heap) v values index, h.tryGet (h.nativeValue v) = some (.tuple values) →
    values.length = b.shape.length →
    List.Forall₂ (fun axis i => h.Counts axis.2 axis.1 i) (values.zip b.shape) index →
    ∃ i, b.storageIndex index = some i ∧ h.bufferIndex b v = .ok i
  numbers : ∀ (h : Heap) v k, (∀ values, h.tryGet (h.nativeValue v) ≠ some (.tuple values)) →
    h.Counts b.shape.prod v k → ∃ i, b.flatStorageIndex k = some i ∧ h.bufferIndex b v = .ok i
  sum : ∃ cells, (∀ add, b.logicalSum add = .ok (add cells)) ∧ cells.length = b.shape.prod ∧
    ∀ k i, b.flatStorageIndex k = some i → cells[k]? = b.data[i]?

theorem Laid.right {b : Buffer} (laid : b.Laid) : b.Right where
  inside index within := by
    obtain ⟨i, below, at_cell, found⟩ := laid.inBacking_place within
    exact ⟨i, below, at_cell, by rw [laid.storageIndex_eq within, found]⟩
  outside _ := storageIndex_none
  flat k small := laid.flatStorageIndex_eq (by rwa [laid.elements])
  past k large := flatStorageIndex_none (by rwa [laid.elements])
  tuples h v values index tuple length counts :=
    laid.bufferIndex_tuple (within_of_counts length counts) tuple length counts
  numbers h v k single count := laid.bufferIndex_flat single (by rwa [laid.elements])
  sum := by
    obtain ⟨cells, run, length, each⟩ := laid.logicalCells_eq
    refine ⟨cells, fun add => ?_, length.trans laid.elements, each⟩
    rw [logicalSum, run, ok_bind]
    rfl

end Buffer

theorem LayoutRequest.Fits.laid {r : LayoutRequest} (fits : r.Fits) : r.laid.Laid :=
  ⟨rfl, fits.rank, fits.aligned, r.small, fits.bytes, r.length, fits.origin, fits.inside⟩

/-- The strides that `f64` computes are `isize` numbers. -/
theorem Buffer.contiguousLayout_small {shape : List Nat} {strides : List Int} {stride : Nat}
    (run : contiguousLayout shape = .ok (strides, stride)) :
    ∀ s ∈ strides, -2 ^ 63 ≤ s ∧ s < 2 ^ 63 := by
  induction shape generalizing strides stride with
  | nil =>
    cases run
    intro s mem
    cases mem
  | cons d shape ih =>
    rw [contiguousLayout] at run
    obtain ⟨⟨rest, last⟩, inner, run⟩ := bind_ok run
    dsimp only at run
    split at run
    · cases run
    next fits =>
    obtain ⟨next, -, run⟩ := bind_ok run
    cases run
    intro s mem
    cases mem with
    | head => omega
    | tail _ mem => exact ih inner s mem

/-- A buffer over all of its values is built like any other. -/
theorem Buffer.f64_right {values : List F64} {shape : List Nat} {writable : Bool} {b : Buffer}
    (length : values.length < 2 ^ 64) (run : f64 values shape writable = .ok b) : b.Right := by
  obtain ⟨strides, layout, run⟩ := bind_ok run
  obtain ⟨⟨strides', stride⟩, inner, layout⟩ := bind_ok layout
  cases layout
  obtain ⟨b', built, run⟩ := bind_ok run
  let r : LayoutRequest := ⟨values, shape, strides', 0, writable, length,
    contiguousLayout_small inner⟩
  obtain ⟨fits, eq⟩ := (r.build_ok (b := b')).mp built
  split at run
  · cases run
  · cases run
    rw [eq]
    exact fits.laid.right

/-- A layout is accepted exactly if all its multi-indices lie inside the storage, no arithmetic on
the way overflows, and then its cells are the ones that its multi-indices name. -/
theorem buffer_layout_right (r : LayoutRequest) :
    ((∃ b, r.build = .ok b) ↔ r.Fits) ∧ r.build ≠ .error Buffer.rangeOverflows ∧
      ∀ b, r.build = .ok b → b.data = r.values ∧ b.origin = r.origin ∧ b.shape = r.shape ∧
        b.strides = r.strides ∧ b.Right := by
  refine ⟨⟨?_, ?_⟩, ?_, ?_⟩
  · rintro ⟨b, run⟩
    exact (r.build_ok.mp run).1
  · intro fits
    exact ⟨r.laid, r.build_ok.mpr ⟨fits, rfl⟩⟩
  · intro failed
    exact r.build_failsOnly _ failed rfl
  · intro b run
    obtain ⟨fits, rfl⟩ := r.build_ok.mp run
    exact ⟨rfl, rfl, rfl, rfl, fits.laid.right⟩

end Tonic
