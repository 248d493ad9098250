import Tonic.KeyOrder
import Tonic.TypePlans

/-!
## The order of plans

The derived order on plans is a linear order that tells unequal plans apart, so a union plan
depends only on which plans are among its members.
-/

namespace Tonic

theorem ExactTypePlan.rank_injective {a b : ExactTypePlan} (same : a.rank = b.rank) : a = b := by
  cases a <;> cases b <;> first | rfl | cases same

namespace BufferTypePlan

theorem compare_eq {a b : BufferTypePlan} : a.compare b = .eq ↔ a = b := by
  cases a
  cases b
  simp [compare]

theorem compare_swap (a b : BufferTypePlan) : a.compare b = (b.compare a).swap := by
  simp only [compare, Ordering.swap_then, ← Std.OrientedOrd.eq_swap]

theorem compare_trans {a b c : BufferTypePlan} (ab : a.compare b = .lt) (bc : b.compare c = .lt) :
    a.compare c = .lt :=
  then_lt_trans (fun _ _ => Std.LawfulEqCmp.compare_eq_iff_eq) Std.TransCmp.lt_trans
    Std.TransCmp.lt_trans ab bc

end BufferTypePlan

theorem compareNat_trans {a b c : Nat} (ab : Ord.compare a b = .lt) (bc : Ord.compare b c = .lt) :
    Ord.compare a c = .lt :=
  Nat.compare_eq_lt.mpr ((Nat.compare_eq_lt.mp ab).trans (Nat.compare_eq_lt.mp bc))

namespace TypePlan

/-- Plans of one variant. -/
inductive Alike : TypePlan → TypePlan → Prop
  | none : Alike .none .none
  | exact (a b : ExactTypePlan) : Alike (.exact a) (.exact b)
  | list (a b : TypePlan) : Alike (.list a) (.list b)
  | dict (k v k' v' : TypePlan) : Alike (.dict k v) (.dict k' v')
  | set (a b : TypePlan) : Alike (.set a) (.set b)
  | fixedTuple (as bs : List TypePlan) : Alike (.fixedTuple as) (.fixedTuple bs)
  | variadicTuple (a b : TypePlan) : Alike (.variadicTuple a) (.variadicTuple b)
  | literal (as bs : List LiteralTypePlan) : Alike (.literal as) (.literal bs)
  | callable (ps ps' : Option (List TypePlan)) (r r' : TypePlan) :
    Alike (.callable ps r) (.callable ps' r')
  | buffer (a b : BufferTypePlan) : Alike (.buffer a) (.buffer b)
  | union (as bs : List TypePlan) : Alike (.union as) (.union bs)
  | cls (i v i' v' : Nat) : Alike (.cls i v) (.cls i' v')

theorem alike_of_rank {a b : TypePlan} (same : a.rank = b.rank) : Alike a b := by
  cases a <;> cases b <;> first | constructor | cases same

/-- Plans of different variants compare like the variants. -/
theorem compare_of_rank_ne {a b : TypePlan} (h : a.rank ≠ b.rank) :
    a.compare b = Ord.compare a.rank b.rank := by
  cases a <;> cases b <;> first | rfl | exact absurd rfl h

theorem rank_of_compare_lt {a b : TypePlan} (h : a.compare b = .lt) : a.rank ≤ b.rank := by
  by_cases eq : a.rank = b.rank
  · exact Nat.le_of_eq eq
  · rw [compare_of_rank_ne eq] at h
    exact Nat.le_of_lt (Nat.compare_eq_lt.mp h)

mutual

theorem compare_eq (a b : TypePlan) : a.compare b = .eq ↔ a = b := by
  by_cases same : a.rank = b.rank
  · cases alike_of_rank same
    case exact a b =>
      simp only [compare, Nat.compare_eq_eq, exact.injEq]
      exact ⟨ExactTypePlan.rank_injective, congrArg _⟩
    all_goals
      simp [compare, rank, compareLists_eq, BufferTypePlan.compare_eq, compare_eq, comparePlans_eq,
        compareParameters_eq]
  · rw [compare_of_rank_ne same, Nat.compare_eq_eq]
    exact ⟨fun eq => absurd eq same, fun eq => absurd (congrArg rank eq) same⟩

theorem comparePlans_eq (a b : List TypePlan) : comparePlans a b = .eq ↔ a = b := by
  cases a <;> cases b <;> simp [comparePlans, compare_eq, comparePlans_eq]

theorem compareParameters_eq (a b : Option (List TypePlan)) :
    compareParameters a b = .eq ↔ a = b := by
  cases a <;> cases b <;> simp [compareParameters, comparePlans_eq]

end

mutual

theorem compare_swap (a b : TypePlan) : a.compare b = (b.compare a).swap := by
  by_cases same : a.rank = b.rank
  rotate_left
  · rw [compare_of_rank_ne same, compare_of_rank_ne (Ne.symm same)]
    exact (Nat.compare_swap _ _).symm
  cases alike_of_rank same with
  | none => rfl
  | exact => exact (Nat.compare_swap _ _).symm
  | list a b => exact compare_swap a b
  | set a b => exact compare_swap a b
  | variadicTuple a b => exact compare_swap a b
  | fixedTuple as bs => exact comparePlans_swap as bs
  | union as bs => exact comparePlans_swap as bs
  | dict k v => rw [compare, compare, Ordering.swap_then, ← compare_swap k, ← compare_swap v]
  | callable ps ps' r =>
    rw [compare, compare, Ordering.swap_then, ← compareParameters_swap ps, ← compare_swap r]
  | literal => exact compareLists_swap
  | buffer => exact BufferTypePlan.compare_swap _ _
  | cls => simp only [compare, Ordering.swap_then, Nat.compare_swap]

theorem comparePlans_swap (a b : List TypePlan) :
    comparePlans a b = (comparePlans b a).swap := by
  cases a <;> cases b <;> try rfl
  case cons.cons a as b bs =>
    rw [comparePlans, comparePlans, Ordering.swap_then, ← compare_swap a, ← comparePlans_swap as]

theorem compareParameters_swap (a b : Option (List TypePlan)) :
    compareParameters a b = (compareParameters b a).swap := by
  cases a <;> cases b <;> try rfl
  case some.some a b => exact comparePlans_swap a b

end

mutual

theorem compare_trans (a b c : TypePlan) (ab : a.compare b = .lt) (bc : b.compare c = .lt) :
    a.compare c = .lt := by
  by_cases lower : a.rank = c.rank
  rotate_left
  · rw [compare_of_rank_ne lower]
    apply Nat.compare_eq_lt.mpr
    have := rank_of_compare_lt ab
    have := rank_of_compare_lt bc
    omega
  have eq : a.rank = b.rank := by
    have := rank_of_compare_lt ab
    have := rank_of_compare_lt bc
    omega
  cases alike_of_rank eq with
  | none => cases ab
  | exact =>
    cases alike_of_rank lower
    exact compareNat_trans ab bc
  | list a b | set a b | variadicTuple a b =>
    cases alike_of_rank lower
    exact compare_trans a b _ ab bc
  | fixedTuple | union =>
    cases alike_of_rank lower
    exact comparePlans_trans _ _ _ ab bc
  | dict =>
    cases alike_of_rank lower
    exact then_lt_trans compare_eq (compare_trans _ _ _) (compare_trans _ _ _) ab bc
  | callable =>
    cases alike_of_rank lower
    exact then_lt_trans compareParameters_eq (compareParameters_trans _ _ _)
      (compare_trans _ _ _) ab bc
  | literal =>
    cases alike_of_rank lower
    exact compareLists_trans ab bc
  | buffer =>
    cases alike_of_rank lower
    exact BufferTypePlan.compare_trans ab bc
  | cls =>
    cases alike_of_rank lower
    exact then_lt_trans (fun _ _ => Nat.compare_eq_eq) compareNat_trans compareNat_trans ab bc
termination_by structural a

theorem comparePlans_trans (a b c : List TypePlan) (ab : comparePlans a b = .lt)
    (bc : comparePlans b c = .lt) : comparePlans a c = .lt := by
  cases a <;> cases b <;> cases c <;> first | rfl | (cases ab; done) | cases bc | skip
  case cons.cons.cons a as b bs c cs =>
    exact then_lt_trans compare_eq (compare_trans a b c) (comparePlans_trans as bs cs) ab bc
termination_by structural a

theorem compareParameters_trans (a b c : Option (List TypePlan))
    (ab : compareParameters a b = .lt) (bc : compareParameters b c = .lt) :
    compareParameters a c = .lt := by
  cases a <;> cases b <;> cases c <;> first | rfl | (cases ab; done) | cases bc | skip
  case some.some.some a b c => exact comparePlans_trans a b c ab bc
termination_by structural a

end

instance : Std.LawfulEqCmp TypePlan.compare where
  compare_self := (compare_eq _ _).mpr rfl
  eq_of_compare := (compare_eq _ _).mp

instance : Std.TransCmp TypePlan.compare where
  eq_swap := compare_swap _ _
  isLE_trans := isLE_trans_of_lt (compare_eq _ _).mp (compare_trans _ _ _)

end TypePlan

end Tonic
