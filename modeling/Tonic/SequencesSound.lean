import Tonic.BindingSound
import Tonic.IteratorsSound
import Tonic.Run
import Tonic.Sequences

/-!
## Slices are what the language says

The bounds and the positions of a slice are stated over the integers without a width, as the
language defines them, and compared with what the source computes in words of 128 bits.
-/

namespace Tonic

open Effect

/-! ### The positions that the language gives a slice -/

namespace Slice

open Progression

section Bounds

variable (length : Nat) (step : Int)

/-- The ends of the sequence, as a walk by the step sees them. -/
def lower : Int := if step < 0 then -1 else 0
def upper : Int := if step < 0 then length - 1 else length

/-- A bound that is given: a negative one counts from the end of the sequence. -/
def bound (n : Int) : Int :=
  if n < 0 then max (n + length) (lower step) else min n (upper length step)

def first (start : Option Int) : Int :=
  match start with
  | some n => bound length step n
  | none => if step < 0 then upper length step else lower step

def last (stop : Option Int) : Int :=
  match stop with
  | some n => bound length step n
  | none => if step < 0 then lower step else upper length step

def indices (start stop : Option Int) : List Int :=
  terms (first length step start) (last length step stop) step

variable {length step}

theorem bound_range (n : Int) :
    lower step ≤ bound length step n ∧ bound length step n ≤ upper length step := by
  unfold bound lower upper
  split <;> split <;> omega

theorem first_range (start : Option Int) :
    lower step ≤ first length step start ∧ first length step start ≤ upper length step := by
  cases start with
  | some n => exact bound_range n
  | none =>
    simp only [first, lower, upper]
    split <;> omega

theorem last_range (stop : Option Int) :
    lower step ≤ last length step stop ∧ last length step stop ≤ upper length step := by
  cases stop with
  | some n => exact bound_range n
  | none =>
    simp only [last, lower, upper]
    split <;> omega

/-- Every position of a slice lies in the sequence. -/
theorem inside {start stop : Option Int} (nonzero : step ≠ 0) {i : Int}
    (mem : i ∈ indices length step start stop) : 0 ≤ i ∧ i < length := by
  have first := @first_range length step start
  have last := @last_range length step stop
  unfold lower upper at first last
  rcases bound_of_mem nonzero mem with ⟨up, low, high⟩ | ⟨down, low, high⟩
  · simp only [show ¬ step < 0 by omega, if_false] at first last
    omega
  · simp only [down, if_true] at first last
    omega

end Bounds

/-- The items at the positions of a slice, found by looking through the whole sequence. -/
def items {α : Type} (xs : List α) (start stop : Option Int) (step : Int) : List α :=
  let kept := (List.range xs.length).filterMap fun (i : Nat) =>
    if (i : Int) ∈ indices xs.length step start stop then xs[i]? else none
  if step < 0 then kept.reverse else kept

end Slice

theorem Slice.mem_of_mem_items {α : Type} {xs : List α} {start stop : Option Int} {step : Int}
    {x : α} (mem : x ∈ Slice.items xs start stop step) : x ∈ xs := by
  have kept : x ∈ (List.range xs.length).filterMap fun (i : Nat) =>
      if (i : Int) ∈ indices xs.length step start stop then xs[i]? else none := by
    unfold Slice.items at mem
    split at mem
    · exact List.mem_reverse.mp mem
    · exact mem
  obtain ⟨i, -, at'⟩ := List.mem_filterMap.mp kept
  split at at'
  · exact List.mem_of_getElem? at'
  · cases at'

/-! ### What the source computes -/

/-- A component is absent, or it is an integer of any size. -/
def Heap.Part (h : Heap) (v : Value) : Option Int → Prop
  | none => v = .none
  | some n => h.integer v = .ok n

/-- The object of the items at the positions of a slice. -/
def Object.selected (start stop : Option Int) (step : Int) : Object → Object
  | .tuple values => .tuple (Slice.items values start stop step)
  | .list values => .list (Slice.items values start stop step)
  | .str text => .str (String.ofList (Slice.items text.toList start stop step))
  | .bytes items => .bytes (Slice.items items start stop step)
  | o => o

theorem Object.trace_selected {o : Object} {length : Nat} {start stop : Option Int} {step : Int}
    (seq : Heap.sequenceLength o = some length) {v : Value}
    (mem : v ∈ (o.selected start stop step).trace) : v ∈ o.trace := by
  cases o <;> cases seq
  case tuple values => exact Slice.mem_of_mem_items mem
  case list values => exact Slice.mem_of_mem_items mem
  case str text => cases mem
  case bytes items => cases mem

theorem saturateI128_eq (n : Int) : saturateI128 n = max minI128 (min maxI128 n) := by
  simp only [saturateI128, fitsI128, minI128, maxI128, Bool.and_eq_true, decide_eq_true_eq]
  split <;> (try split) <;> omega

/-- The shift and the cut of the source, for a sequence of any length it can have. -/
def normalized (length : Nat) (low high n : Int) : Int :=
  clamp (if n < 0 then saturatingAdd n length else n) low high

section Positions

variable {length : Nat} {step : Int}

theorem normalized_eq (short : length < 2 ^ 64) (n : Int) :
    normalized length (Slice.lower step) (Slice.upper length step) (saturateI128 n) =
      Slice.bound length step n := by
  rw [saturateI128_eq]
  have ends : Slice.lower step = -1 ∧ Slice.upper length step = length - 1 ∨
      Slice.lower step = 0 ∧ Slice.upper length step = length := by
    unfold Slice.lower Slice.upper
    split
    · exact .inl ⟨rfl, rfl⟩
    · exact .inr ⟨rfl, rfl⟩
  unfold normalized clamp saturatingAdd Slice.bound minI128 maxI128
  rcases ends with ⟨low, high⟩ | ⟨low, high⟩ <;> rw [low, high] <;> (repeat' split) <;> omega

theorem asUsize_eq {n : Int} (low : 0 ≤ n) (high : n < 2 ^ 64) : (asUsize n : Int) = n := by
  unfold asUsize
  omega

theorem ascending_eq (positive : 0 < step) {stop : Int} (high : stop < 2 ^ 64) (current : Int)
    (low : 0 ≤ current) :
    (ascending stop step positive current).map Int.ofNat =
      Progression.terms current stop step := by
  have nonzero : step ≠ 0 := by omega
  fun_induction ascending stop step positive current with
  | case1 current more ih =>
    rw [Progression.terms_of_before nonzero (.inl ⟨positive, more⟩), List.map_cons]
    congr 1
    · exact asUsize_eq low (by omega)
    · split
      · exact ih (by omega)
      · next wide =>
        rw [Progression.terms_of_not_before nonzero]
        · rfl
        · simp only [fitsI128, Bool.and_eq_true, decide_eq_true_eq] at wide
          unfold Progression.Before
          omega
  | case2 current beyond =>
    rw [Progression.terms_of_not_before nonzero]
    · rfl
    · unfold Progression.Before
      omega

theorem descending_eq (negative : step < 0) {stop : Int} (low : -1 ≤ stop) (current : Int)
    (high : current < 2 ^ 64) :
    (descending stop step negative current).map Int.ofNat =
      Progression.terms current stop step := by
  have nonzero : step ≠ 0 := by omega
  fun_induction descending stop step negative current with
  | case1 current more ih =>
    rw [Progression.terms_of_before nonzero (.inr ⟨negative, more⟩), List.map_cons]
    congr 1
    · exact asUsize_eq (by omega) high
    · split
      · exact ih (by omega)
      · next wide =>
        rw [Progression.terms_of_not_before nonzero]
        · rfl
        · simp only [fitsI128, Bool.and_eq_true, decide_eq_true_eq] at wide
          unfold Progression.Before
          omega
  | case2 current beyond =>
    rw [Progression.terms_of_not_before nonzero]
    · rfl
    · unfold Progression.Before
      omega

/-- A step that the saturation changes leads over the stop either way. -/
theorem terms_saturate {first last : Int} (nonzero : step ≠ 0) (near : last - first ≤ 2 ^ 64)
    (near' : first - last ≤ 2 ^ 64) :
    Progression.terms first last (saturateI128 step) = Progression.terms first last step := by
  by_cases fits : fitsI128 step
  · rw [saturateI128, if_pos fits]
  · have wide : saturateI128 step = if step < 0 then minI128 else maxI128 := if_neg fits
    simp only [fitsI128, Bool.and_eq_true, decide_eq_true_eq] at fits
    unfold minI128 maxI128 at wide
    rw [@Progression.terms_of_far _ _ (saturateI128 step), Progression.terms_of_far nonzero]
    · congr 1
      unfold Progression.Before
      rw [wide]
      split <;> simp only [eq_iff_iff] <;> omega
    · unfold Progression.Before
      omega
    · rw [wide]
      split <;> omega
    · unfold Progression.Before
      rw [wide]
      split <;> omega

theorem sliceIndices_eq (short : length < 2 ^ 64) (nonzero : step ≠ 0) (start stop : Option Int) :
    (sliceIndices length (start.map saturateI128) (stop.map saturateI128)
      (saturateI128 step)).map Int.ofNat = Slice.indices length step start stop := by
  have first := @Slice.first_range length step start
  have last := @Slice.last_range length step stop
  have sign : saturateI128 step < 0 ↔ step < 0 := by
    rw [saturateI128_eq, minI128, maxI128]
    omega
  have positive : 0 < saturateI128 step ↔ 0 < step := by
    rw [saturateI128_eq, minI128, maxI128]
    omega
  have same := @normalized_eq length step short
  unfold Slice.indices
  rw [← terms_saturate nonzero]
  · by_cases up : 0 < step
    · have down : ¬ step < 0 := by omega
      simp only [Slice.lower, Slice.upper, down, if_false] at first last same
      have startAt : ((start.map saturateI128).map (normalized length 0 length)).getD 0 =
          Slice.first length step start := by
        cases start with
        | none => simp [Slice.first, Slice.lower, down]
        | some n => exact same n
      have stopAt : ((stop.map saturateI128).map (normalized length 0 length)).getD length =
          Slice.last length step stop := by
        cases stop with
        | none => simp [Slice.last, Slice.upper, down]
        | some n => exact same n
      rw [← ascending_eq (positive.mpr up) (by omega) _ first.1, sliceIndices,
        dif_pos (positive.mpr up), ← startAt, ← stopAt]
      rfl
    · have down : step < 0 := by omega
      simp only [Slice.lower, Slice.upper, down, if_true] at first last same
      have startAt : ((start.map saturateI128).map (normalized length (-1) (length - 1))).getD
          (length - 1) = Slice.first length step start := by
        cases start with
        | none => simp [Slice.first, Slice.upper, down]
        | some n => exact same n
      have stopAt : ((stop.map saturateI128).map (normalized length (-1) (length - 1))).getD
          (-1) = Slice.last length step stop := by
        cases stop with
        | none => simp [Slice.last, Slice.lower, down]
        | some n => exact same n
      rw [← descending_eq (sign.mpr down) last.1 _ (by omega), sliceIndices,
        dif_neg (mt positive.mp up), dif_pos (sign.mpr down), ← startAt, ← stopAt]
      rfl
  · unfold Slice.lower Slice.upper at first last
    split at first <;> simp_all <;> omega
  · unfold Slice.lower Slice.upper at first last
    split at first <;> simp_all <;> omega

end Positions

namespace Heap

variable {h : Heap} {length : Nat} {step : Int}

theorem gather_eq {α : Type} {xs : List α} {indices : List Nat}
    (inside : ∀ i ∈ indices, i < xs.length) :
    gather xs indices = .ok (indices.filterMap (xs[·]?)) := by
  induction indices with
  | nil => rfl
  | cons i rest ih =>
    have lt := inside i List.mem_cons_self
    rw [gather, List.mapM_cons]
    simp only [List.getElem?_eq_getElem lt, List.filterMap_cons]
    have rest := ih fun j mem => inside j (List.mem_cons_of_mem _ mem)
    unfold gather at rest
    rw [Outcome.ok_bind, rest]
    rfl

/-- The positions the source computes are the positions of the sequence that the language names,
in order. -/
theorem positions_eq {positions : List Nat} {start stop : Option Int} (nonzero : step ≠ 0)
    (eq : positions.map Int.ofNat = Slice.indices length step start stop) :
    positions = let kept := (List.range length).filter fun (i : Nat) =>
        (i : Int) ∈ Slice.indices length step start stop
      if step < 0 then kept.reverse else kept := by
  have mem (i : Nat) : i ∈ positions ↔ (i : Int) ∈ Slice.indices length step start stop := by
    rw [← eq]
    simp
  have mem' (i : Nat) : i ∈ positions ↔ i ∈ (List.range length).filter fun (i : Nat) =>
      (i : Int) ∈ Slice.indices length step start stop := by
    rw [List.mem_filter, mem, List.mem_range, decide_eq_true_eq]
    refine ⟨fun named => ⟨?_, named⟩, And.right⟩
    have := (Slice.inside nonzero named).2
    omega
  have kept : ((List.range length).filter fun (i : Nat) =>
      (i : Int) ∈ Slice.indices length step start stop).SortedLT :=
    (List.pairwise_lt_range.filter _).sortedLT
  show positions = if step < 0 then _ else _
  split
  · next down =>
    have sorted : positions.SortedGT := by
      have falling : (Slice.indices length step start stop).SortedGT := Progression.sortedGT down
      rw [← eq, List.sortedGT_iff_pairwise, List.pairwise_map] at falling
      exact (falling.imp Int.ofNat_lt.mp).sortedGT
    exact sorted.eq_reverse_of_mem_iff_of_sortedLT mem' kept
  · next up =>
    have sorted : positions.SortedLT := by
      have rising : (Slice.indices length step start stop).SortedLT :=
        Progression.sortedLT (by omega)
      rw [← eq, List.sortedLT_iff_pairwise, List.pairwise_map] at rising
      exact (rising.imp Int.ofNat_lt.mp).sortedLT
    exact sorted.eq_of_mem_iff kept (fun {a} => mem' a)

theorem gather_sliceIndices {α : Type} (xs : List α) (short : xs.length < 2 ^ 64)
    (nonzero : step ≠ 0) (start stop : Option Int) :
    gather xs (sliceIndices xs.length (start.map saturateI128) (stop.map saturateI128)
      (saturateI128 step)) = .ok (Slice.items xs start stop step) := by
  have eq := sliceIndices_eq short nonzero start stop
  have positions := positions_eq nonzero eq
  rw [gather_eq]
  · rw [positions, Slice.items]
    congr 1
    split
    · rw [List.filterMap_reverse, List.filterMap_filter]
      simp
    · rw [List.filterMap_filter]
      simp
  · intro i mem
    have named : (i : Int) ∈ Slice.indices xs.length step start stop := by
      rw [← eq]
      exact List.mem_map_of_mem mem
    have := (Slice.inside nonzero named).2
    omega

theorem sliceComponent_part {v : Value} {n : Option Int} (part : h.Part v n) :
    h.sliceComponent v = .ok (n.map saturateI128) := by
  cases n with
  | none => rw [show v = .none from part]; rfl
  | some n =>
    have whole : h.integer v = .ok n := part
    have present : v ≠ .none := by
      rintro rfl
      cases whole
    rw [sliceComponent, if_neg present, whole]
    rfl

section Slicing

variable {source first last width : Value} {o : Object} {start stop stride : Option Int}

theorem saturateI128_eq_zero {n : Int} : saturateI128 n = 0 ↔ n = 0 := by
  rw [saturateI128_eq, minI128, maxI128]
  omega

theorem sliced_eq (ho : h.tryGet (h.nativeValue source) = some o)
    (seq : sequenceLength o = some length) (usize : length < 2 ^ 64)
    (parts : h.Part first start ∧ h.Part last stop ∧ h.Part width stride) :
    h.sliced source (first, last, width) =
      if stride.getD 1 = 0 then .error (.raise "ValueError" "slice step cannot be zero")
      else .ok (o.selected start stop (stride.getD 1)) := by
  have saturated : (stride.map saturateI128).getD 1 = saturateI128 (stride.getD 1) := by
    cases stride with
    | none => rfl
    | some n => rfl
  simp only [sliced, sliceComponent_part parts.1, sliceComponent_part parts.2.1,
    sliceComponent_part parts.2.2, Outcome.ok_bind, saturated, saturateI128_eq_zero]
  split
  · rfl
  · next nonzero =>
    rw [get_ok ho]
    cases o <;> cases seq
    case tuple values =>
      show gather _ _ >>= _ = _
      rw [gather_sliceIndices values usize nonzero]
      rfl
    case list values =>
      show gather _ _ >>= _ = _
      rw [gather_sliceIndices values usize nonzero]
      rfl
    case str text =>
      show gather _ _ >>= _ = _
      rw [gather_sliceIndices text.toList usize nonzero]
      rfl
    case bytes items =>
      show gather _ _ >>= _ = _
      rw [gather_sliceIndices items usize nonzero]
      rfl

/-- A slice takes exactly the items at the positions that the language names. -/
theorem slice_right (hs : Sound h) (ho : h.tryGet (h.nativeValue source) = some o)
    (seq : sequenceLength o = some length) (usize : length < 2 ^ 64)
    (parts : h.Part first start ∧ h.Part last stop ∧ h.Part width stride) :
    let step := stride.getD 1
    let positions := sliceIndices length (start.map saturateI128) (stop.map saturateI128)
      (saturateI128 step)
    (step = 0 → slice source (first, last, width) h =
      .error (.raise "ValueError" "slice step cannot be zero") h) ∧
    (step ≠ 0 →
      positions.map Int.ofNat = Slice.indices length step start stop ∧
      (∀ i ∈ positions, i < length) ∧
      positions.Pairwise (fun i j => if step < 0 then j < i else i < j) ∧
      ends (slice source (first, last, width))
        (fun v t => After h t ∧ t.tryGet v = some (o.selected start stop step))
        (fun e _ => Exhausted e) h) := by
  intro step positions
  have made := sliced_eq ho seq usize parts
  constructor
  · intro zero
    rw [if_pos zero] at made
    exact reading_bind_error (f := fun t : Heap => t.sliced source (first, last, width)) made _
  · intro nonzero
    rw [if_neg nonzero] at made
    have eq := sliceIndices_eq usize nonzero start stop
    refine ⟨eq, ?_, ?_, ?_⟩
    · intro i mem
      have named : (i : Int) ∈ Slice.indices length step start stop := by
        rw [← eq]
        exact List.mem_map_of_mem mem
      have := (Slice.inside nonzero named).2
      omega
    · have ordered : (Slice.indices length step start stop).Pairwise _ :=
        Progression.ordered nonzero
      rw [← eq, List.pairwise_map] at ordered
      apply ordered.imp
      intro i j before
      simp only [Progression.Before, Int.ofNat_eq_natCast] at before
      split <;> omega
    · unfold slice
      rw [ends_bind, ends_reading, made]
      have issued : ∀ v ∈ (o.selected start stop step).trace, h.Issued v := by
        intro v mem
        exact hs.valid.issued_trace ho (Object.trace_selected seq mem)
      exact ends_mono (ends_alloc hs issued) (fun v t made => ⟨made.1.after, made.2.1⟩)
        fun _ _ failed => failed

end Slicing

section Reversed

def textHeap : Heap := final (alloc (.str "abc")) .empty

theorem textHeap_sound : Sound textHeap := by
  have held : ∀ v ∈ (Object.str "abc").trace, Heap.Issued .empty v := by simp [Object.trace]
  exact (wp_final (P := After .empty) (wp_mono (wp_alloc HeapState.start_proper.sound held)
    (fun _ _ made => made.1) fun _ => id)).1

def minusOne : Value := .small ⟨-1, by decide, by decide⟩

/-- Slicing from the end. -/
theorem slice_right_reversed :
    ends (slice (.heap 0 1) (.none, .none, minusOne))
      (fun v t => After textHeap t ∧
        t.tryGet v = some ((Object.str "abc").selected none none (-1)))
      (fun e _ => Exhausted e) textHeap := by
  have parts : textHeap.Part .none none ∧ textHeap.Part .none none ∧
      textHeap.Part minusOne (some (-1)) := ⟨rfl, rfl, rfl⟩
  have found : textHeap.tryGet (textHeap.nativeValue (.heap 0 1)) = some (.str "abc") := rfl
  exact ((slice_right textHeap_sound found rfl (by decide) parts).2 (by decide)).2.2.2

end Reversed

end Heap

end Tonic
