import Mathlib.Data.List.Sort
import Tonic.Hashing

/-!
## The order of key material

The derived order on keys is a linear order that tells unequal keys apart. Sorting the member keys
of a union therefore gives equal material exactly to unions of the same members.
-/

namespace Tonic

theorem then_eq_lt {x y : Ordering} : x.then y = .lt ↔ x = .lt ∨ (x = .eq ∧ y = .lt) := by
  cases x <;> simp [Ordering.then]

theorem then_eq_eq {x y : Ordering} : x.then y = .eq ↔ x = .eq ∧ y = .eq := by
  cases x <;> simp [Ordering.then]

/-- A comparison that tells unequal values apart is transitive if its strict part is. -/
theorem isLE_trans_of_lt {α : Type} {compare : α → α → Ordering} {a b c : α}
    (equal : ∀ {a b}, compare a b = .eq → a = b)
    (trans : compare a b = .lt → compare b c = .lt → compare a c = .lt)
    (ab : (compare a b).isLE = true) (bc : (compare b c).isLE = true) :
    (compare a c).isLE = true := by
  cases hab : compare a b with
  | gt => rw [hab] at ab; cases ab
  | eq => rwa [equal hab]
  | lt =>
    cases hbc : compare b c with
    | gt => rw [hbc] at bc; cases bc
    | eq => rwa [← equal hbc]
    | lt => rw [trans hab hbc]; rfl

theorem then_lt_trans {α : Type} {compare : α → α → Ordering} {a b c : α} {x y z : Ordering}
    (equal : ∀ a b, compare a b = .eq ↔ a = b)
    (first : compare a b = .lt → compare b c = .lt → compare a c = .lt)
    (second : x = .lt → y = .lt → z = .lt) (ab : (compare a b).then x = .lt)
    (bc : (compare b c).then y = .lt) : (compare a c).then z = .lt := by
  rw [then_eq_lt, equal] at *
  rcases ab with ab | ⟨rfl, ab⟩ <;> rcases bc with bc | ⟨rfl, bc⟩
  · exact .inl (first ab bc)
  · exact .inl ab
  · exact .inl bc
  · exact .inr ⟨rfl, second ab bc⟩

/-! ### Lists of ordered items -/

section Lists

variable {α : Type} {compare : α → α → Ordering}

theorem compareLists_eq [Std.LawfulEqCmp compare] :
    ∀ {a b : List α}, compareLists compare a b = .eq ↔ a = b
  | [], [] => by simp [compareLists]
  | [], _ :: _ => by simp [compareLists]
  | _ :: _, [] => by simp [compareLists]
  | a :: as, b :: bs => by
    rw [compareLists, then_eq_eq, Std.LawfulEqCmp.compare_eq_iff_eq, compareLists_eq,
      List.cons.injEq]

theorem compareLists_swap [Std.OrientedCmp compare] :
    ∀ {a b : List α}, compareLists compare a b = (compareLists compare b a).swap
  | [], [] => rfl
  | [], _ :: _ => rfl
  | _ :: _, [] => rfl
  | a :: as, b :: bs => by
    rw [compareLists, compareLists, Ordering.swap_then, compareLists_swap,
      @Std.OrientedCmp.eq_swap _ compare]

theorem compareLists_trans [Std.LawfulEqCmp compare] [Std.TransCmp compare] :
    ∀ {a b c : List α}, compareLists compare a b = .lt → compareLists compare b c = .lt →
      compareLists compare a c = .lt
  | [], [], _ => fun h => by cases h
  | [], _ :: _, [] => fun _ h => by cases h
  | [], _ :: _, _ :: _ => fun _ _ => rfl
  | _ :: _, [], _ => fun h => by cases h
  | _ :: _, _ :: _, [] => fun _ h => by cases h
  | a :: as, b :: bs, c :: cs => by
    simp only [compareLists, then_eq_lt, Std.LawfulEqCmp.compare_eq_iff_eq]
    rintro (ab | ⟨rfl, ab⟩) (bc | ⟨rfl, bc⟩)
    · exact .inl (Std.TransCmp.lt_trans ab bc)
    · exact .inl ab
    · exact .inl bc
    · exact .inr ⟨rfl, compareLists_trans ab bc⟩

end Lists

/-! ### Literals -/

namespace LiteralTypePlan

variable {a b c : LiteralTypePlan}

theorem compare_of_rank_lt (h : a.rank < b.rank) : a.compare b = .lt := by
  cases a <;> cases b <;> first | rfl | simp [rank] at h

theorem rank_of_compare_lt (h : a.compare b = .lt) : a.rank ≤ b.rank := by
  cases a <;> cases b <;>
    first | (simp [rank]; done) | cases h

theorem compare_eq : a.compare b = .eq ↔ a = b := by
  cases a <;> cases b <;> simp [compare, rank, compareLists_eq]

theorem compare_swap : a.compare b = (b.compare a).swap := by
  cases a <;> cases b <;>
    first
      | rfl
      | exact Std.OrientedOrd.eq_swap
      | exact compareLists_swap

theorem compare_trans (ab : a.compare b = .lt) (bc : b.compare c = .lt) : a.compare c = .lt := by
  rcases Nat.lt_or_ge a.rank c.rank with lower | upper
  · exact compare_of_rank_lt lower
  have eq : a.rank = b.rank ∧ b.rank = c.rank := by
    have := rank_of_compare_lt ab
    have := rank_of_compare_lt bc
    omega
  cases a <;> cases b <;> first | (simp [rank] at eq; done) | skip
  all_goals cases c <;> first | (simp [rank] at eq; done) | skip
  all_goals
    simp only [compare] at ab bc ⊢
    first
      | exact Std.TransCmp.lt_trans ab bc
      | exact compareLists_trans ab bc

instance : Std.LawfulEqCmp LiteralTypePlan.compare where
  compare_self := compare_eq.mpr rfl
  eq_of_compare := compare_eq.mp

instance : Std.OrientedCmp LiteralTypePlan.compare where
  eq_swap := compare_swap

instance : Std.TransCmp LiteralTypePlan.compare where
  isLE_trans := isLE_trans_of_lt compare_eq.mp compare_trans

end LiteralTypePlan

/-! ### Keys -/

namespace Key

/-- Keys of different variants compare like the variants. -/
theorem compare_of_rank_ne {a b : Key} (h : a.rank ≠ b.rank) :
    a.compare b = Ord.compare a.rank b.rank := by
  cases a <;> cases b <;> first | rfl | exact absurd rfl h

theorem compare_of_rank_lt {a b : Key} (h : a.rank < b.rank) : a.compare b = .lt := by
  rw [compare_of_rank_ne (Nat.ne_of_lt h)]
  exact Nat.compare_eq_lt.mpr h

theorem rank_of_compare_lt {a b : Key} (h : a.compare b = .lt) : a.rank ≤ b.rank := by
  by_cases eq : a.rank = b.rank
  · exact Nat.le_of_eq eq
  · rw [compare_of_rank_ne eq] at h
    exact Nat.le_of_lt (Nat.compare_eq_lt.mp h)

mutual

theorem compare_eq (a b : Key) : a.compare b = .eq ↔ a = b := by
  by_cases same : a.rank = b.rank
  · cases a <;> cases b <;> try exact absurd same (Nat.ne_of_beq_eq_false rfl)
    all_goals
      simp [compare, rank, compareLists_eq, compare_eq, compareKeys_eq, compareParameters_eq]
  · rw [compare_of_rank_ne same, Nat.compare_eq_eq]
    exact ⟨fun eq => absurd eq same, fun eq => absurd (congrArg rank eq) same⟩

theorem compareKeys_eq (a b : List Key) : compareKeys a b = .eq ↔ a = b := by
  cases a <;> cases b <;> simp [compareKeys, compare_eq, compareKeys_eq]

theorem compareParameters_eq (a b : Option (List Key)) : compareParameters a b = .eq ↔ a = b := by
  cases a <;> cases b <;> simp [compareParameters, compareKeys_eq]

end

mutual

theorem compare_swap (a b : Key) : a.compare b = (b.compare a).swap := by
  by_cases same : a.rank = b.rank
  rotate_left
  · rw [compare_of_rank_ne same, compare_of_rank_ne (Ne.symm same)]
    exact Std.OrientedOrd.eq_swap
  cases a <;> cases b <;> try exact absurd same (Nat.ne_of_beq_eq_false rfl)
  case method.method a b a' b' | genericAlias.genericAlias a b a' b' =>
    rw [compare, compare, Ordering.swap_then, ← compare_swap a, ← compare_swap b]
  case literalAlias.literalAlias a items a' items' =>
    rw [compare, compare, Ordering.swap_then, ← compare_swap a, ← compareLists_swap]
  case callableAlias.callableAlias a ps r a' ps' r' =>
    rw [compare, compare, Ordering.swap_then, Ordering.swap_then, ← compare_swap a,
      ← compareParameters_swap ps, ← compare_swap r]
  case range.range =>
    simp only [compare, Ordering.swap_then, ← Std.OrientedOrd.eq_swap]
  all_goals first
    | rfl
    | exact Std.OrientedOrd.eq_swap
    | exact compareLists_swap
    | exact compareKeys_swap _ _

theorem compareKeys_swap (a b : List Key) : compareKeys a b = (compareKeys b a).swap := by
  cases a <;> cases b <;> try rfl
  case cons.cons a as b bs =>
    rw [compareKeys, compareKeys, Ordering.swap_then, ← compare_swap a, ← compareKeys_swap as]

theorem compareParameters_swap (a b : Option (List Key)) :
    compareParameters a b = (compareParameters b a).swap := by
  cases a <;> cases b <;> try rfl
  case some.some a b => exact compareKeys_swap a b

end

mutual

theorem compare_trans (a b c : Key) (ab : a.compare b = .lt) (bc : b.compare c = .lt) :
    a.compare c = .lt := by
  rcases Nat.lt_or_ge a.rank c.rank with lower | upper
  · exact compare_of_rank_lt lower
  have eq : a.rank = b.rank ∧ b.rank = c.rank := by
    have := rank_of_compare_lt ab
    have := rank_of_compare_lt bc
    omega
  cases a <;> cases b <;> try exact absurd eq.1 (Nat.ne_of_beq_eq_false rfl)
  all_goals cases c <;> try exact absurd eq.2 (Nat.ne_of_beq_eq_false rfl)
  all_goals simp only [compare] at ab bc ⊢
  case tuple.tuple.tuple | slice.slice.slice | union.union.union =>
    exact compareKeys_trans _ _ _ ab bc
  case method.method.method | genericAlias.genericAlias.genericAlias =>
    exact then_lt_trans compare_eq (compare_trans _ _ _) (compare_trans _ _ _) ab bc
  case literalAlias.literalAlias.literalAlias =>
    exact then_lt_trans compare_eq (compare_trans _ _ _) compareLists_trans ab bc
  case callableAlias.callableAlias.callableAlias =>
    exact then_lt_trans compare_eq (compare_trans _ _ _)
      (then_lt_trans compareParameters_eq (compareParameters_trans _ _ _) (compare_trans _ _ _))
      ab bc
  case range.range.range =>
    have eq {α : Type} [Ord α] [Std.LawfulEqOrd α] (a b : α) : Ord.compare a b = .eq ↔ a = b :=
      Std.LawfulEqCmp.compare_eq_iff_eq
    exact then_lt_trans eq Std.TransCmp.lt_trans
      (then_lt_trans eq Std.TransCmp.lt_trans Std.TransCmp.lt_trans) ab bc
  all_goals first | exact Std.TransCmp.lt_trans ab bc | exact compareLists_trans ab bc
termination_by structural a

theorem compareKeys_trans (a b c : List Key) (ab : compareKeys a b = .lt)
    (bc : compareKeys b c = .lt) : compareKeys a c = .lt := by
  cases a <;> cases b <;> cases c <;> first | rfl | (cases ab; done) | cases bc | skip
  case cons.cons.cons a as b bs c cs =>
    exact then_lt_trans compare_eq (compare_trans a b c) (compareKeys_trans as bs cs) ab bc
termination_by structural a

theorem compareParameters_trans (a b c : Option (List Key)) (ab : compareParameters a b = .lt)
    (bc : compareParameters b c = .lt) : compareParameters a c = .lt := by
  cases a <;> cases b <;> cases c <;> first | rfl | (cases ab; done) | cases bc | skip
  case some.some.some a b c => exact compareKeys_trans a b c ab bc
termination_by structural a

end

instance : Std.LawfulEqCmp Key.compare where
  compare_self := (compare_eq _ _).mpr rfl
  eq_of_compare := (compare_eq _ _).mp

instance : Std.TransCmp Key.compare where
  eq_swap := compare_swap _ _
  isLE_trans := isLE_trans_of_lt (compare_eq _ _).mp (compare_trans _ _ _)

theorem compare_beq_eq {a b : Key} : (a.compare b == .eq) = true ↔ a = b := by
  rw [beq_iff_eq, compare_eq]

theorem compare_ne_gt {a b : Key} : (a.compare b != .gt) = (a.compare b).isLE := by
  cases a.compare b <;> rfl

/-- The sorted member keys of two unions are equal if the members are. -/
theorem mergeSort_eq {as bs : List Key} :
    (as.mergeSort fun a b => a.compare b != .gt) = (bs.mergeSort fun a b => a.compare b != .gt) ↔
      as.Perm bs := by
  simp only [compare_ne_gt]
  have trans (a b c : Key) (ab : (a.compare b).isLE = true) (bc : (b.compare c).isLE = true) :
      (a.compare c).isLE = true := Std.TransCmp.isLE_trans ab bc
  have total (a b : Key) : ((a.compare b).isLE || (b.compare a).isLE) = true := by
    rw [compare_swap b a]
    cases a.compare b <;> rfl
  constructor
  · intro same
    exact (List.mergeSort_perm as _).symm.trans (same ▸ List.mergeSort_perm bs _)
  · intro perm
    refine List.Perm.eq_of_pairwise (fun a b _ _ ab ba => ?_)
      (List.pairwise_mergeSort trans total as) (List.pairwise_mergeSort trans total bs)
      ((List.mergeSort_perm as _).trans (perm.trans (List.mergeSort_perm bs _).symm))
    exact (compare_eq a b).mp (Std.OrientedCmp.isLE_antisymm ab ba)

end Key

end Tonic
