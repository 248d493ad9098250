import Tonic.Classes
import Tonic.Library.Precedence

/-!
## Method resolution order

The merge of `classes.rs` is the C3 merge: it fails only where no order of the ancestors agrees
with the bases and with the order of each base.
-/

namespace Tonic

open Precedence

variable {sequences : List (List Value)} {mro : List Value} {head : Value}

theorem free_iff : (!sequences.any fun s => s.tail.contains head) = true ↔
    Free sequences head := by
  simp [Free]

theorem mergeHead_eq_some : mergeHead sequences = some head ↔ Next sequences head := by
  unfold mergeHead
  rw [List.find?_filterMap, Option.bind_eq_some_iff]
  constructor
  · rintro ⟨s, found, first⟩
    obtain ⟨free, before, after, eq, earlier⟩ := List.find?_eq_some_iff_append.mp found
    rw [first, Option.any_some, free_iff] at free
    refine ⟨before, s, after, eq, first, free, ?_⟩
    intro t ht b firstB freeB
    have := earlier t ht
    rw [firstB, Option.any_some, free_iff.mpr freeB] at this
    cases this
  · rintro ⟨before, s, after, eq, first, free, earlier⟩
    refine ⟨s, List.find?_eq_some_iff_append.mpr ⟨?_, before, after, eq, ?_⟩, first⟩
    · rw [first, Option.any_some, free_iff]
      exact free
    · intro t ht
      cases firstB : t.head? with
      | none => rfl
      | some b =>
        have := earlier t ht b firstB
        rw [← free_iff] at this
        simpa using this

theorem c3Merge_done (empty : sequences.all List.isEmpty = true) : c3Merge sequences = .ok [] := by
  rw [c3Merge, if_pos empty]

theorem c3Merge_next (next : Next sequences head) :
    c3Merge sequences = (c3Merge (sequences.map (take head))).map (head :: ·) := by
  have more : ¬sequences.all List.isEmpty = true := by
    intro empty
    obtain ⟨s, hs, mem⟩ := next.mem
    have := List.all_eq_true.mp empty s hs
    simp [List.isEmpty_iff.mp this] at mem
  rw [c3Merge, if_neg more]
  split
  · next none =>
    rw [mergeHead_eq_some.mpr next] at none
    cases none
  · next found =>
    rw [mergeHead_eq_some.mpr next] at found
    cases found
    rfl

theorem c3Merge_of_merges (merges : Merges sequences mro) : c3Merge sequences = .ok mro := by
  induction merges with
  | done empty => exact c3Merge_done (by simpa using empty)
  | next next _ ih => rw [c3Merge_next next, ih, Except.map]

def inconsistent : Fault := typeError "cannot create a consistent method resolution order"

/-- The merge ends in an order, or it has no candidate left and there is no order. -/
theorem c3Merge_cases (sequences : List (List Value)) :
    (∃ mro, c3Merge sequences = .ok mro ∧ Merges sequences mro) ∨
      (c3Merge sequences = .error inconsistent ∧ ¬∃ order, Agrees sequences order) := by
  induction sequences using c3Merge.induct with
  | case1 sequences empty =>
    exact .inl ⟨[], c3Merge_done empty, .done (by simpa using empty)⟩
  | case2 sequences more none =>
    refine .inr ⟨?_, ?_⟩
    · rw [c3Merge, if_neg more]
      split
      · rfl
      · next found =>
        rw [none] at found
        cases found
    · rintro ⟨order, agrees⟩
      cases order with
      | nil => exact more (by simpa using agrees.empty)
      | cons a order =>
        obtain ⟨b, next⟩ := agrees.next
        rw [mergeHead_eq_some.mpr next] at none
        cases none
  | case3 sequences more head found ih =>
    have next := mergeHead_eq_some.mp found
    rw [c3Merge_next next]
    simp only [List.map_subtype, List.unattach_attach] at ih
    rcases ih with ⟨mro, merged, merges⟩ | ⟨failed, none⟩
    · have merged : c3Merge (sequences.map (take head)) = .ok mro := merged
      exact .inl ⟨head :: mro, by rw [merged, Except.map], .next next merges⟩
    · have failed : c3Merge (sequences.map (take head)) = .error inconsistent := failed
      refine .inr ⟨by rw [failed, Except.map], ?_⟩
      rintro ⟨order, agrees⟩
      exact none ⟨_, agrees.erase next.free⟩

theorem c3Merge_eq_ok : c3Merge sequences = .ok mro ↔ Merges sequences mro := by
  refine ⟨fun merged => ?_, c3Merge_of_merges⟩
  rcases c3Merge_cases sequences with ⟨order, merged', merges⟩ | ⟨failed, -⟩
  · rw [merged] at merged'
    cases merged'
    exact merges
  · rw [merged] at failed
    cases failed

/-! ### The order of a class -/

namespace Heap

variable {h : Heap} {seen bases : List Value} {ns : Value}

/-- The method resolution order of a class: the class and its ancestors. -/
def methodOrder (h : Heap) (v : Value) : List Value :=
  match h.tryGet v with
  | some (.classObject c) => v :: c.mro
  | _ => []

/-- A class whose ancestors are classes. -/
def Ordered (h : Heap) (v : Value) : Prop :=
  ∃ c, h.tryGet v = some (.classObject c) ∧
    ∀ a ∈ c.mro, ∃ d, h.tryGet a = some (.classObject d)

/-- An order in which the class `ns` with these bases can look its attributes up: the class comes
first, each ancestor comes once, and the list of the bases and the order of each base are kept. -/
structure MethodOrder (h : Heap) (ns : Value) (bases order : List Value) : Prop where
  first : order.head? = some ns
  nodup : order.Nodup
  mem : ∀ v, v ∈ order ↔ v = ns ∨ ∃ b ∈ bases, v ∈ h.methodOrder b
  listed : bases.Sublist order
  kept : ∀ b ∈ bases, (h.methodOrder b).Sublist order

/-- What is merged for a class: the order of each base, and the list of the bases. -/
def precedences (h : Heap) (bases : List Value) : List (List Value) :=
  bases.map h.methodOrder ++ [bases]

theorem methodOrder_eq {c : Class} {v : Value} (found : h.tryGet v = some (.classObject c)) :
    h.methodOrder v = v :: c.mro := by
  simp [methodOrder, found]

theorem Ordered.mem {v : Value} (ordered : h.Ordered v) : v ∈ h.methodOrder v := by
  obtain ⟨c, found, -⟩ := ordered
  simp [methodOrder_eq found]

/-- The order of an ordered class lists classes. -/
theorem Ordered.classes {v w : Value} (ordered : h.Ordered v) (mem : w ∈ h.methodOrder v) :
    ∃ c, h.tryGet w = some (.classObject c) := by
  obtain ⟨c, found, ancestors⟩ := ordered
  rw [methodOrder_eq found] at mem
  rcases List.mem_cons.mp mem with rfl | mem
  · exact ⟨c, found⟩
  · exact ancestors w mem

theorem mem_precedences (ordered : ∀ b ∈ bases, h.Ordered b) (v : Value) :
    (∃ s ∈ h.precedences bases, v ∈ s) ↔ ∃ b ∈ bases, v ∈ h.methodOrder b := by
  simp only [precedences, List.mem_append, List.mem_map, List.mem_singleton]
  constructor
  · rintro ⟨s, ⟨b, hb, rfl⟩ | rfl, mem⟩
    · exact ⟨b, hb, mem⟩
    · exact ⟨v, mem, (ordered v mem).mem⟩
  · rintro ⟨b, hb, mem⟩
    exact ⟨_, .inl ⟨b, hb, rfl⟩, mem⟩

/-- The orders of a new class are the orders that agree with what is merged for it. -/
theorem methodOrder_cons (ordered : ∀ b ∈ bases, h.Ordered b)
    (new : ∀ c, h.tryGet ns ≠ some (.classObject c)) :
    h.MethodOrder ns bases (ns :: mro) ↔ Agrees (h.precedences bases) mro := by
  have apart {b : Value} (hb : b ∈ bases) : ns ∉ h.methodOrder b := by
    intro mem
    obtain ⟨c, found⟩ := (ordered b hb).classes mem
    exact new c found
  have unnamed : ns ∉ bases := fun mem => apart mem (ordered ns mem).mem
  constructor
  · intro order
    obtain ⟨out, nodup⟩ := List.nodup_cons.mp order.nodup
    constructor
    · exact nodup
    · intro v
      rw [mem_precedences ordered]
      constructor
      · intro mem
        rcases (order.mem v).mp (List.mem_cons_of_mem _ mem) with rfl | found
        · exact absurd mem out
        · exact found
      · intro found
        rcases List.mem_cons.mp ((order.mem v).mpr (.inr found)) with rfl | mem
        · obtain ⟨b, hb, mem⟩ := found
          exact absurd mem (apart hb)
        · exact mem
    · intro s hs
      simp only [precedences, List.mem_append, List.mem_map, List.mem_singleton] at hs
      rcases hs with ⟨b, hb, rfl⟩ | rfl
      · exact (List.sublist_cons_iff.mp (order.kept b hb)).resolve_right
          (by rintro ⟨r, eq, -⟩; exact apart hb (eq ▸ List.mem_cons_self))
      · exact (List.sublist_cons_iff.mp order.listed).resolve_right
          (by rintro ⟨r, rfl, -⟩; exact unnamed List.mem_cons_self)
  · intro agrees
    constructor
    · rfl
    · refine List.nodup_cons.mpr ⟨?_, agrees.nodup⟩
      intro mem
      obtain ⟨b, hb, mem⟩ := (mem_precedences ordered ns).mp ((agrees.mem ns).mp mem)
      exact apart hb mem
    · intro v
      rw [List.mem_cons, agrees.mem, mem_precedences ordered]
    · exact (agrees.kept bases (by simp [precedences])).cons ns
    · intro b hb
      exact (agrees.kept _ (by simp [precedences]; exact .inl ⟨b, hb, rfl⟩)).cons ns

/-- The lineages are the orders of the bases, unless a base is named twice. -/
theorem lineages_eq (ordered : ∀ b ∈ bases, h.Ordered b) :
    lineages h seen bases =
      if bases.Nodup ∧ ∀ b ∈ bases, b ∉ seen then .ok (bases.map h.methodOrder)
      else .error (typeError "duplicate base class") := by
  induction bases generalizing seen with
  | nil => simp [lineages]
  | cons base rest ih =>
    obtain ⟨c, found, -⟩ := ordered base List.mem_cons_self
    have cls : h.classOf base = .ok c := by simp [classOf, get, found]
    simp only [lineages, bind, Except.bind]
    by_cases again : base ∈ seen
    · rw [if_pos again, if_neg (fun all => all.2 base List.mem_cons_self again)]
      rfl
    · rw [if_neg again]
      simp only [cls, pure, Except.pure,
        @ih (seen ++ [base]) fun b hb => ordered b (List.mem_cons_of_mem _ hb)]
      have same : (rest.Nodup ∧ ∀ b ∈ rest, b ∉ seen ++ [base]) ↔
          ((base :: rest).Nodup ∧ ∀ b ∈ base :: rest, b ∉ seen) := by
        simp only [List.nodup_cons, List.mem_append, List.mem_cons, not_or,
          forall_eq_or_imp]
        constructor
        · rintro ⟨nodup, out⟩
          refine ⟨⟨fun mem => (out base mem).2.1 rfl, nodup⟩, again, fun b hb => (out b hb).1⟩
        · rintro ⟨⟨out, nodup⟩, -, unseen⟩
          refine ⟨nodup, fun b hb => ⟨unseen b hb, ?_, List.not_mem_nil⟩⟩
          rintro rfl
          exact out hb
      by_cases ok : (base :: rest).Nodup ∧ ∀ b ∈ base :: rest, b ∉ seen
      · rw [if_pos ok, if_pos (same.mpr ok)]
        simp [methodOrder_eq found]
      · rw [if_neg ok, if_neg fun all => ok (same.mp all)]

/-- The ancestors are put in the order of the merge, or there is no order and it is a type error. -/
theorem linearize_cases (ordered : ∀ b ∈ bases, h.Ordered b) :
    (∃ mro, linearize h bases = .ok mro ∧ Merges (h.precedences bases) mro) ∨
      ((∃ message, linearize h bases = .error (typeError message)) ∧
        ¬∃ order, Agrees (h.precedences bases) order) := by
  unfold linearize
  rw [lineages_eq ordered]
  by_cases nodup : bases.Nodup
  · rw [if_pos ⟨nodup, by simp⟩]
    rcases c3Merge_cases (h.precedences bases) with ⟨mro, merged, merges⟩ | ⟨failed, none⟩
    · exact .inl ⟨mro, merged, merges⟩
    · exact .inr ⟨⟨_, failed⟩, none⟩
  · rw [if_neg fun all => nodup all.1]
    refine .inr ⟨⟨_, rfl⟩, ?_⟩
    rintro ⟨order, agrees⟩
    exact nodup (agrees.nodup.sublist (agrees.kept bases (by simp [precedences])))

end Heap

end Tonic
