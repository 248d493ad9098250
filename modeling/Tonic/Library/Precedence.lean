import Mathlib.Data.List.Basic
import Mathlib.Data.List.Nodup
import Mathlib.Tactic.Common

/-!
## Merging orders of precedence

Some lists each put their elements in an order. An order of all the elements agrees with the
lists when it keeps every one of them. The merge takes the heads one by one: always the head of
the first list whose head no list has further back. It finds an order that agrees with the lists
if there is one, and it finds one order only.
-/

namespace Precedence

variable {α : Type} {lists : List (List α)} {order : List α} {a b : α}

/-- An order of the elements of the lists, each once, that keeps the order of every list. -/
structure Agrees (lists : List (List α)) (order : List α) : Prop where
  nodup : order.Nodup
  mem : ∀ a, a ∈ order ↔ ∃ l ∈ lists, a ∈ l
  kept : ∀ l ∈ lists, l.Sublist order

/-- No list has the element behind its head. -/
def Free (lists : List (List α)) (a : α) : Prop := ∀ l ∈ lists, a ∉ l.tail

/-- The element that comes next: the free head of the first list that has one. -/
def Next (lists : List (List α)) (a : α) : Prop :=
  ∃ before l after, lists = before ++ l :: after ∧ l.head? = some a ∧ Free lists a ∧
    ∀ m ∈ before, ∀ b, m.head? = some b → ¬Free lists b

/-! ### What comes next -/

theorem Next.mem (next : Next lists a) : ∃ l ∈ lists, a ∈ l := by
  obtain ⟨before, l, after, rfl, head, -⟩ := next
  exact ⟨l, by simp, List.mem_of_mem_head? head⟩

theorem Next.free (next : Next lists a) : Free lists a := by
  obtain ⟨_, _, _, _, _, free, _⟩ := next
  exact free

/-- Two heads cannot both come next. -/
theorem Next.unique (ha : Next lists a) (hb : Next lists b) : a = b := by
  obtain ⟨s, l, t, eq, headA, freeA, firstA⟩ := ha
  obtain ⟨u, m, w, eq', headB, freeB, firstB⟩ := hb
  rw [eq] at eq'
  rcases List.append_eq_append_iff.mp eq' with ⟨mid, rfl, rest⟩ | ⟨mid, rfl, rest⟩
  · cases mid with
    | nil =>
      cases rest
      rw [headA] at headB
      cases headB
      rfl
    | cons c mid =>
      cases rest
      exact absurd freeA (firstB l (by simp) a headA)
  · cases mid with
    | nil =>
      cases rest
      rw [headA] at headB
      cases headB
      rfl
    | cons c mid =>
      cases rest
      exact absurd freeB (firstA m (by simp) b headB)

/-- If some list has a free head, one comes next. -/
theorem exists_next {l : List α} (hl : l ∈ lists) (head : l.head? = some a)
    (free : Free lists a) : ∃ b, Next lists b := by
  classical
  let leads (m : List α) : Prop := ∃ b, m.head? = some b ∧ Free lists b
  cases found : lists.find? (fun m => leads m) with
  | none =>
    have none := List.find?_eq_none.mp found l hl
    simp only [decide_eq_true_eq] at none
    exact absurd ⟨a, head, free⟩ none
  | some m =>
    obtain ⟨leads, before, after, eq, first⟩ := List.find?_eq_some_iff_append.mp found
    simp only [decide_eq_true_eq] at leads
    obtain ⟨b, headB, freeB⟩ := leads
    refine ⟨b, before, m, after, eq, headB, freeB, ?_⟩
    intro n hn c headC freeC
    have := first n hn
    simp only [Bool.not_eq_true', decide_eq_false_iff_not] at this
    exact this ⟨c, headC, freeC⟩

/-- The first element of an order that agrees with the lists is a free head. -/
theorem Agrees.head (agrees : Agrees lists (a :: order)) :
    Free lists a ∧ ∃ l ∈ lists, l.head? = some a := by
  have out : a ∉ order := (List.nodup_cons.mp agrees.nodup).1
  have behind {l : List α} (hl : l ∈ lists) : a ∉ l.tail := by
    have tail : l.tail.Sublist order := by simpa using (agrees.kept l hl).tail
    exact fun mem => out (tail.subset mem)
  refine ⟨fun l hl => behind hl, ?_⟩
  obtain ⟨l, hl, mem⟩ := (agrees.mem a).mp (by simp)
  refine ⟨l, hl, ?_⟩
  cases l with
  | nil => simp at mem
  | cons b l =>
    rcases List.mem_cons.mp mem with rfl | mem
    · rfl
    · exact absurd mem (behind hl)

theorem Agrees.empty (agrees : Agrees lists []) : ∀ l ∈ lists, l = [] :=
  fun l hl => List.sublist_nil.mp (agrees.kept l hl)

/-- An order that agrees with the lists leaves the merge a next element at every step. -/
theorem Agrees.next (agrees : Agrees lists (a :: order)) : ∃ b, Next lists b := by
  obtain ⟨free, l, hl, head⟩ := agrees.head
  exact exists_next hl head free

/-! ### The merge -/

section Decidable

variable [DecidableEq α]

/-- A list once `a` is taken: it loses its head if that is `a`. -/
def take (a : α) (l : List α) : List α := if l.head? = some a then l.tail else l

/-- The merge, one element after the other. -/
inductive Merges : List (List α) → List α → Prop
  | done {lists : List (List α)} : (∀ l ∈ lists, l = []) → Merges lists []
  | next {lists : List (List α)} {a : α} {order : List α} : Next lists a →
      Merges (lists.map (take a)) order → Merges lists (a :: order)

/-- Where it is not behind the head, an element is taken wherever it is. -/
theorem take_eq_erase {l : List α} (free : a ∉ l.tail) : take a l = l.erase a := by
  unfold take
  cases l with
  | nil => simp
  | cons b l =>
    by_cases same : b = a
    · simp [same]
    · have out : a ∉ l := free
      simp [same, List.erase_of_not_mem out]

theorem map_take (free : Free lists a) : lists.map (take a) = lists.map (·.erase a) :=
  List.map_congr_left fun l hl => take_eq_erase (free l hl)

theorem Agrees.cons (free : Free lists a) (mem : ∃ l ∈ lists, a ∈ l)
    (agrees : Agrees (lists.map (take a)) order) : Agrees lists (a :: order) := by
  have gone {l : List α} (hl : l ∈ lists) : a ∉ take a l := by
    have out := free l hl
    unfold take
    split
    · exact out
    · next other =>
      cases l with
      | nil => simp
      | cons b l =>
        intro mem
        rcases List.mem_cons.mp mem with rfl | mem
        · exact other rfl
        · exact out mem
  have member {b : α} : b ∈ order ↔ ∃ l ∈ lists, b ∈ take a l := by
    rw [agrees.mem]
    simp
  constructor
  · refine List.nodup_cons.mpr ⟨?_, agrees.nodup⟩
    intro again
    obtain ⟨l, hl, again⟩ := member.mp again
    exact gone hl again
  · intro b
    rw [List.mem_cons, member]
    constructor
    · rintro (rfl | ⟨l, hl, hb⟩)
      · exact mem
      · rw [take_eq_erase (free l hl)] at hb
        exact ⟨l, hl, List.mem_of_mem_erase hb⟩
    · rintro ⟨l, hl, hb⟩
      by_cases same : b = a
      · exact .inl same
      · refine .inr ⟨l, hl, ?_⟩
        rw [take_eq_erase (free l hl)]
        exact (List.mem_erase_of_ne same).mpr hb
  · intro l hl
    have rest := agrees.kept (take a l) (List.mem_map_of_mem hl)
    by_cases head : l.head? = some a
    · cases l with
      | nil => simp at head
      | cons b l =>
        cases head
        simp only [take, List.head?_cons, if_true, List.tail_cons] at rest
        exact rest.cons_cons a
    · simp only [take, head, if_false] at rest
      exact rest.cons a

theorem Merges.agrees (merges : Merges lists order) : Agrees lists order := by
  induction merges with
  | @done lists empty =>
    constructor
    · exact List.nodup_nil
    · intro a
      simp only [List.not_mem_nil, false_iff, not_exists, not_and]
      intro l hl
      simp [empty l hl]
    · intro l hl
      rw [empty l hl]
  | next next _ ih => exact ih.cons next.free next.mem

theorem Merges.unique {other : List α} (merges : Merges lists order)
    (also : Merges lists other) : order = other := by
  induction merges generalizing other with
  | @done lists empty =>
    cases also with
    | done _ => rfl
    | next next _ =>
      obtain ⟨l, hl, mem⟩ := next.mem
      simp [empty l hl] at mem
  | @next lists a order next _ ih =>
    cases also with
    | done empty =>
      obtain ⟨l, hl, mem⟩ := next.mem
      simp [empty l hl] at mem
    | next next' rest =>
      cases next.unique next'
      rw [ih rest]

/-! ### The merge finds an order if there is one -/

/-- A free element can go first: without it, the order agrees with what is left. -/
theorem Agrees.erase (agrees : Agrees lists order) (free : Free lists a) :
    Agrees (lists.map (take a)) (order.erase a) := by
  rw [map_take free]
  constructor
  · exact agrees.nodup.erase a
  · intro b
    rw [agrees.nodup.mem_erase_iff, agrees.mem]
    simp only [List.mem_map, exists_exists_and_eq_and]
    constructor
    · rintro ⟨ne, l, hl, hb⟩
      exact ⟨l, hl, (List.mem_erase_of_ne ne).mpr hb⟩
    · rintro ⟨l, hl, hb⟩
      have nodup := agrees.nodup.sublist (agrees.kept l hl)
      rw [nodup.mem_erase_iff] at hb
      exact ⟨hb.1, l, hl, hb.2⟩
  · intro l hl
    obtain ⟨m, hm, rfl⟩ := List.mem_map.mp hl
    exact (agrees.kept m hm).erase a

theorem Agrees.merges (agrees : Agrees lists order) : ∃ merged, Merges lists merged := by
  generalize len : order.length = n
  induction n generalizing lists order with
  | zero =>
    cases List.eq_nil_of_length_eq_zero len
    exact ⟨[], .done agrees.empty⟩
  | succ n ih =>
    cases order with
    | nil => simp at len
    | cons a order =>
      obtain ⟨b, next⟩ := agrees.next
      have mem : b ∈ a :: order := (agrees.mem b).mpr next.mem
      have rest := agrees.erase next.free
      obtain ⟨merged, merges⟩ := ih rest (by simp [List.length_erase_of_mem mem, len])
      exact ⟨b :: merged, .next next merges⟩

end Decidable

end Precedence
