import Tonic.PlanOrder

/-!
## The byte stream of plans

Every constructor is spelled out with a tag, and every vector with its length, so the stream tells
the plans of a function back. A length, an identity and a version are words of the machine.
-/

namespace Tonic

open Coding

namespace LiteralTypePlan

/-- The vectors of a literal have the lengths a machine can have. -/
def Sized : LiteralTypePlan → Prop
  | int text | str text => (CanonicalHash.utf8 text).length < 256 ^ 8
  | bytes value => value.length < 256 ^ 8
  | _ => True

end LiteralTypePlan

namespace TypePlan

mutual

/-- The vectors of a plan have the lengths a machine can have, and so have its numbers. -/
def Sized : TypePlan → Prop
  | .none | .exact _ => True
  | .list item | .set item | .variadicTuple item => Sized item
  | .dict key value => Sized key ∧ Sized value
  | .fixedTuple items | .union items => items.length < 256 ^ 8 ∧ AllSized items
  | .literal items => items.length < 256 ^ 8 ∧ ∀ item ∈ items, item.Sized
  | .callable parameters result => ParametersSized parameters ∧ Sized result
  | .buffer kind => ∀ rank ∈ kind.rank, rank < 256 ^ 4
  | .cls typeId version => typeId < 256 ^ 4 ∧ version < 256 ^ 8

def AllSized : List TypePlan → Prop
  | [] => True
  | item :: items => Sized item ∧ AllSized items

def ParametersSized : Option (List TypePlan) → Prop
  | .none => True
  | .some items => items.length < 256 ^ 8 ∧ AllSized items

end

theorem allSized_iff {items : List TypePlan} : AllSized items ↔ ∀ item ∈ items, item.Sized := by
  induction items with
  | nil => simp [AllSized]
  | cons item items ih => simp [AllSized, ih]

end TypePlan

namespace CanonicalHash

theorem utf8_injective {a b : String} (same : utf8 a = utf8 b) : a = b := by
  unfold utf8 at same
  apply String.toByteArray_inj.mp
  apply ByteArray.ext
  exact Array.toList_inj.mp same

theorem reads_string {a : String} (ha : (utf8 a).length < 256 ^ 8) :
    Reads (fun text => (utf8 text).length < 256 ^ 8) string a := by
  intro b s t hb same
  simp only [string, u64, List.append_assoc] at same
  obtain ⟨texts, rest⟩ := reads_bytes ha hb same
  exact ⟨utf8_injective texts, rest⟩

theorem reads_literal {a : LiteralTypePlan} (ha : a.Sized) :
    Reads LiteralTypePlan.Sized literal a := by
  intro b s t hb same
  cases a <;> cases b <;> simp only [literal, u8, List.append_assoc, List.cons_append,
    List.nil_append, List.cons.injEq] at same
  all_goals try exact absurd same.1 (by decide)
  case none.none | ellipsis.ellipsis => exact ⟨rfl, same.2⟩
  case bool.bool a b =>
    cases a <;> cases b <;> first | exact ⟨rfl, same.2.2⟩ | exact absurd same.2.1 (by decide)
  case int.int a b | str.str a b =>
    obtain ⟨rfl, rest⟩ := reads_string ha b s t hb same.2
    exact ⟨rfl, rest⟩
  case bytes.bytes a b =>
    obtain ⟨rfl, rest⟩ := reads_bytes ha hb same.2
    exact ⟨rfl, rest⟩

theorem mutability_word {a b : Option Bool}
    (same : UInt8.ofNat (mutability a) = UInt8.ofNat (mutability b)) : a = b := by
  revert same
  rcases a with _ | _ | _ <;> rcases b with _ | _ | _ <;> decide

theorem reads_buffer {a b : BufferTypePlan} {s t : List UInt8}
    (ha : ∀ rank ∈ a.rank, rank < 256 ^ 4) (hb : ∀ rank ∈ b.rank, rank < 256 ^ 4)
    (same : buffer a ++ s = buffer b ++ t) : a = b ∧ s = t := by
  obtain ⟨rank, writable⟩ := a
  obtain ⟨rank', writable'⟩ := b
  simp only [buffer, List.append_assoc] at same
  have rest := List.append_cancel_left same
  cases rank <;> cases rank' <;>
    simp only [u8, List.cons_append, List.nil_append, List.cons.injEq, true_and] at rest
  · obtain ⟨word, rest⟩ := rest
    rw [mutability_word word]
    exact ⟨rfl, rest⟩
  · exact absurd rest.1 (by decide)
  · exact absurd rest.1 (by decide)
  · obtain ⟨rfl, tail⟩ := reads_littleEndian (ha _ rfl) _ _ _ (hb _ rfl) rest
    obtain ⟨word, last⟩ := List.cons.inj tail
    rw [mutability_word word]
    exact ⟨rfl, last⟩

theorem plans_eq (items : List TypePlan) : plans items = items.flatMap plan := by
  induction items with
  | nil => rfl
  | cons item items ih => simp [plans, ih]

/-- The first byte of a plan. -/
def tag : TypePlan → Nat
  | .none => 0 | .exact _ => 1 | .list _ => 2 | .dict _ _ => 3 | .set _ => 4 | .fixedTuple _ => 5
  | .cls _ _ => 6 | .union _ => 7 | .variadicTuple _ => 8 | .literal _ => 9 | .callable _ _ => 10
  | .buffer _ => 11

theorem head_plan (a : TypePlan) : (plan a).head? = some (UInt8.ofNat (tag a)) := by
  cases a <;> simp [plan, u8, tag]

theorem tag_eq {a b : TypePlan} {s t : List UInt8} (same : plan a ++ s = plan b ++ t) :
    tag a = tag b := by
  have heads : (plan a ++ s).head? = (plan b ++ t).head? := congrArg _ same
  rw [List.head?_append, List.head?_append, head_plan, head_plan] at heads
  simp only [Option.some_or, Option.some.injEq] at heads
  have bound (c : TypePlan) : tag c < 256 := by cases c <;> simp [tag]
  have words := congrArg UInt8.toNat heads
  simpa [Nat.mod_eq_of_lt (bound a), Nat.mod_eq_of_lt (bound b)] using words

theorem exact_rank_word {a b : ExactTypePlan} (same : UInt8.ofNat a.rank = UInt8.ofNat b.rank) :
    a = b := by
  revert same
  cases a <;> cases b <;> decide

mutual

theorem reads_plan (a : TypePlan) (ha : a.Sized) : Reads TypePlan.Sized plan a := by
  intro b s t hb same
  have tags := tag_eq same
  cases a <;> cases b <;> try exact absurd tags (Nat.ne_of_beq_eq_false rfl)
  all_goals
    simp only [plan, u8, u32, u64, List.append_assoc, List.cons_append, List.nil_append,
      List.cons.injEq, true_and] at same
    simp only [TypePlan.Sized] at ha hb
  case none.none => exact ⟨rfl, same⟩
  case exact.exact a b =>
    obtain ⟨word, rest⟩ := same
    rw [exact_rank_word word]
    exact ⟨rfl, rest⟩
  case list.list a b | set.set a b | variadicTuple.variadicTuple a b =>
    obtain ⟨rfl, rest⟩ := reads_plan a ha b s t hb same
    exact ⟨rfl, rest⟩
  case dict.dict k v k' v' =>
    obtain ⟨rfl, rest⟩ := reads_plan k ha.1 k' _ _ hb.1 same
    obtain ⟨rfl, last⟩ := reads_plan v ha.2 v' _ _ hb.2 rest
    exact ⟨rfl, last⟩
  case fixedTuple.fixedTuple as bs | union.union as bs =>
    rw [plans_eq, plans_eq] at same
    obtain ⟨rfl, rest⟩ := reads_counted (reads_each as ha.2) (TypePlan.allSized_iff.mp hb.2) ha.1
      hb.1 same
    exact ⟨rfl, rest⟩
  case literal.literal as bs =>
    obtain ⟨rfl, rest⟩ := reads_counted (fun a mem => reads_literal (ha.2 a mem)) hb.2 ha.1 hb.1 same
    exact ⟨rfl, rest⟩
  case callable.callable ps r ps' r' =>
    obtain ⟨rfl, rest⟩ := reads_parameters ps ha.1 ps' hb.1 _ _ same
    obtain ⟨rfl, last⟩ := reads_plan r ha.2 r' _ _ hb.2 rest
    exact ⟨rfl, last⟩
  case buffer.buffer a b =>
    obtain ⟨rfl, rest⟩ := reads_buffer ha hb same
    exact ⟨rfl, rest⟩
  case cls.cls i v i' v' =>
    obtain ⟨rfl, rest⟩ := reads_littleEndian ha.1 _ _ _ hb.1 same
    obtain ⟨rfl, last⟩ := reads_littleEndian ha.2 _ _ _ hb.2 rest
    exact ⟨rfl, last⟩
termination_by structural a

theorem reads_each : (as : List TypePlan) → TypePlan.AllSized as →
    ∀ a ∈ as, Reads TypePlan.Sized plan a
  | [], _ => by simp
  | a :: as, ha => List.forall_mem_cons.mpr ⟨reads_plan a ha.1, reads_each as ha.2⟩
termination_by structural as => as

theorem reads_parameters (ps : Option (List TypePlan)) (ha : TypePlan.ParametersSized ps)
    (ps' : Option (List TypePlan)) (hb : TypePlan.ParametersSized ps') (s t : List UInt8)
    (same : callableParameters ps ++ s = callableParameters ps' ++ t) : ps = ps' ∧ s = t := by
  cases ps <;> cases ps' <;>
    simp only [callableParameters, u8, u64, List.append_assoc, List.cons_append, List.nil_append,
      List.cons.injEq, true_and] at same
  · exact ⟨rfl, same⟩
  · exact absurd same.1 (by decide)
  · exact absurd same.1 (by decide)
  · next as bs =>
    rw [plans_eq, plans_eq] at same
    obtain ⟨rfl, rest⟩ := reads_counted (reads_each as ha.2) (TypePlan.allSized_iff.mp hb.2) ha.1
      hb.1 same
    exact ⟨rfl, rest⟩
termination_by structural ps

end

end CanonicalHash

namespace FunctionTypePlan

end FunctionTypePlan

end Tonic
