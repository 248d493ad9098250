import Mathlib.Data.List.Sort
import Mathlib.Order.Defs.LinearOrder

/-!
## Canonical lists of a set

Sorting a list by a lawful comparison and dropping repeated neighbours leaves a list that depends
only on which values are in it.
-/

namespace Canonical

variable {α : Type*} {compare : α → α → Ordering}

/-- Drops what repeats the value before it. -/
def dedup (compare : α → α → Ordering) : List α → List α
  | a :: b :: rest =>
    if compare a b = .eq then dedup compare (b :: rest) else a :: dedup compare (b :: rest)
  | items => items

def canonical (compare : α → α → Ordering) (items : List α) : List α :=
  dedup compare (items.mergeSort fun a b => compare a b != .gt)

theorem isLE_ne_gt {a b : α} : (compare a b != .gt) = (compare a b).isLE := by
  cases compare a b <;> rfl

variable [Std.LawfulEqCmp compare]

theorem mem_dedup {items : List α} {a : α} : a ∈ dedup compare items ↔ a ∈ items := by
  fun_induction dedup compare items with
  | case1 b c rest equal ih =>
    have same := Std.LawfulEqCmp.eq_of_compare equal
    subst same
    simp [ih]
  | case2 b c rest differ ih => simp [ih]
  | case3 => rfl

@[simp] theorem mem_canonical {items : List α} {a : α} :
    a ∈ canonical compare items ↔ a ∈ items := by
  rw [canonical, mem_dedup, List.mem_mergeSort]

variable [Std.TransCmp compare]

/-- In a sorted list, what is left ascends strictly. -/
theorem pairwise_dedup {items : List α} (sorted : items.Pairwise fun a b => compare a b ≠ .gt) :
    (dedup compare items).Pairwise fun a b => compare a b = .lt := by
  fun_induction dedup compare items with
  | case1 b c rest equal ih => exact ih (List.pairwise_cons.mp sorted).2
  | case2 b c rest differ ih =>
    obtain ⟨least, sorted⟩ := List.pairwise_cons.mp sorted
    refine List.pairwise_cons.mpr ⟨fun a ha => ?_, ih sorted⟩
    have first : compare b c = .lt := by
      have le := least c List.mem_cons_self
      cases order : compare b c <;> simp_all
    rcases List.mem_cons.mp (mem_dedup.mp ha) with rfl | later
    · exact first
    · have le := (List.pairwise_cons.mp sorted).1 a later
      exact Std.TransCmp.lt_of_lt_of_isLE first (by cases order : compare c a <;> simp_all)
  | case3 items short =>
    match items, short with
    | [], _ => exact .nil
    | [a], _ => exact List.pairwise_singleton _ _
    | a :: b :: rest, short => exact absurd rfl (short a b rest)

omit [Std.LawfulEqCmp compare] in
theorem sorted_mergeSort (items : List α) :
    (items.mergeSort fun a b => compare a b != .gt).Pairwise fun a b => compare a b ≠ .gt := by
  have trans (a b c : α) (ab : (compare a b != .gt) = true) (bc : (compare b c != .gt) = true) :
      (compare a c != .gt) = true := by
    rw [isLE_ne_gt] at *
    exact Std.TransCmp.isLE_trans ab bc
  have total (a b : α) : ((compare a b != .gt) || (compare b a != .gt)) = true := by
    rw [@Std.OrientedCmp.eq_swap _ compare _ b a]
    cases compare a b <;> rfl
  exact (List.pairwise_mergeSort trans total items).imp fun le => by simpa using le

theorem pairwise_canonical (items : List α) :
    (canonical compare items).Pairwise fun a b => compare a b = .lt :=
  pairwise_dedup (sorted_mergeSort items)

theorem nodup_canonical (items : List α) : (canonical compare items).Nodup := by
  refine (pairwise_canonical items).imp fun {a b} less same => ?_
  rw [same, @Std.ReflCmp.compare_self _ compare] at less
  cases less

/-- Lists of the same values have one canonical list. -/
theorem canonical_eq {as bs : List α} (same : ∀ a, a ∈ as ↔ a ∈ bs) :
    canonical compare as = canonical compare bs := by
  have perm : (canonical compare as).Perm (canonical compare bs) := by
    apply (List.perm_ext_iff_of_nodup (nodup_canonical as) (nodup_canonical bs)).mpr
    simp [same]
  refine List.Perm.eq_of_pairwise (fun a b _ _ ab ba => ?_) (pairwise_canonical as)
    (pairwise_canonical bs) perm
  rw [@Std.OrientedCmp.eq_swap _ compare, ba] at ab
  cases ab

end Canonical
