import Mathlib.Logic.Relation
import Mathlib.Tactic.Common

/-!
## Marking by a worklist

A depth-first marker over a graph whose references have to be resolved first: a reference is
ignored, refused, or names a node. The marker stops at the first reference it has to refuse.
-/

namespace Marking

inductive Look (ε : Type) where
  | skip
  | invalid (error : ε)
  | node (location : Nat)

structure Graph (ν ε : Type) where
  look : ν → Look ε
  succ : Nat → List ν

variable {ν ε : Type}

theorem count_set_lt {marked : List Bool} {l : Nat} (h : marked[l]? = some false) :
    (marked.set l true).count false < marked.count false := by
  induction marked generalizing l with
  | nil => simp at h
  | cons b marked ih =>
    cases l with
    | zero =>
      simp only [List.getElem?_cons_zero, Option.some.injEq] at h
      subst h
      simp
    | succ l =>
      have := ih (by simpa using h)
      simp only [List.set_cons_succ, List.count_cons]
      omega

/-- Marks everything the worklist leads to. The successors of a node are pushed in order, so the
last one is looked at first. -/
def mark (g : Graph ν ε) (marked : List Bool) : List ν → Except ε (List Bool)
  | [] => .ok marked
  | v :: rest =>
    match g.look v with
    | .skip => mark g marked rest
    | .invalid e => .error e
    | .node l =>
      if _unmarked : marked[l]? = some false then
        mark g (marked.set l true) ((g.succ l).reverse ++ rest)
      else mark g marked rest
termination_by work => (marked.count false, work.length)
decreasing_by
  · exact Prod.Lex.right _ (by simp)
  · exact Prod.Lex.left _ _ (count_set_lt _unmarked)
  · exact Prod.Lex.right _ (by simp)

namespace Graph

variable (g : Graph ν ε)

/-- A reference to a node leads to the references stored there. -/
def Edge (v w : ν) : Prop := ∃ l, g.look v = .node l ∧ w ∈ g.succ l

def Reach (roots : List ν) (w : ν) : Prop := ∃ r ∈ roots, Relation.ReflTransGen g.Edge r w

/-- The reference needs no more marking. -/
def Done (marked : List Bool) (v : ν) : Prop :=
  g.look v = .skip ∨ ∃ l, g.look v = .node l ∧ marked[l]? = some true

/-- Whatever a marked node leads to is done. -/
def Closed (marked : List Bool) : Prop :=
  ∀ l, marked[l]? = some true → ∀ w ∈ g.succ l, g.Done marked w

end Graph

variable {g : Graph ν ε}

theorem Graph.Reach.cons {v w : ν} {rest : List ν} (h : g.Reach rest w) :
    g.Reach (v :: rest) w := by
  obtain ⟨r, hr, path⟩ := h
  exact ⟨r, by simp [hr], path⟩

/-- The successors of the node at the head of the worklist are reached from the head. -/
theorem Graph.Reach.expand {v w : ν} {l : Nat} {rest : List ν} (hv : g.look v = .node l)
    (h : g.Reach ((g.succ l).reverse ++ rest) w) : g.Reach (v :: rest) w := by
  obtain ⟨r, hr, path⟩ := h
  rcases List.mem_append.mp hr with hr | hr
  · exact ⟨v, by simp, .head ⟨l, hv, List.mem_reverse.mp hr⟩ path⟩
  · exact ⟨r, by simp [hr], path⟩

theorem Graph.Done.mono {a b : List Bool} {v : ν} (h : g.Done a v)
    (le : ∀ l : Nat, a[l]? = some true → b[l]? = some true) : g.Done b v :=
  h.imp_right fun ⟨l, hl, marked⟩ => ⟨l, hl, le l marked⟩

/-- What a finished marking guarantees. -/
structure Marked (g : Graph ν ε) (before : List Bool) (work : List ν) (after : List Bool) :
    Prop where
  length : after.length = before.length
  grows : ∀ l : Nat, before[l]? = some true → after[l]? = some true
  done : ∀ v ∈ work, g.Done after v
  sound : ∀ l : Nat, after[l]? = some true → before[l]? = some true ∨
    ∃ v, g.Reach work v ∧ g.look v = .node l
  closed : ∀ l : Nat, after[l]? = some true → before[l]? = some true ∨
    ∀ w ∈ g.succ l, g.Done after w

theorem mark_ok {marked after : List Bool} {work : List ν}
    (bounded : ∀ v l, g.look v = .node l → l < marked.length)
    (h : mark g marked work = .ok after) : Marked g marked work after := by
  induction marked, work using mark.induct g with
  | case1 marked =>
    rw [mark] at h
    cases h
    exact ⟨rfl, fun _ => id, by simp, fun _ => .inl, fun _ => .inl⟩
  | case2 marked v rest look ih =>
    simp only [mark, look] at h
    have m := ih bounded h
    refine ⟨m.length, m.grows, ?_, fun l hl => (m.sound l hl).imp_right ?_, m.closed⟩
    · simpa using ⟨.inl look, m.done⟩
    · exact fun ⟨v, reach, eq⟩ => ⟨v, reach.cons, eq⟩
  | case3 marked v rest e look => simp [mark, look] at h
  | case4 marked v rest l look unmarked ih =>
    simp only [mark, look, unmarked, ↓reduceDIte] at h
    simp only [List.unattach_reverse, List.unattach_attach] at ih
    have m := ih (by simpa using bounded) h
    have set (k : Nat) : (marked.set l true)[k]? = some true ↔ k = l ∨ marked[k]? = some true := by
      rw [List.getElem?_set]
      split
      · next eq =>
        subst eq
        simp [bounded v l look]
      · next ne => simp [Ne.symm ne]
    have own : after[l]? = some true := m.grows l ((set l).mpr (.inl rfl))
    have successors : ∀ w ∈ g.succ l, g.Done after w := fun w hw => m.done w (by simp [hw])
    refine ⟨by simpa using m.length, fun k hk => m.grows k ((set k).mpr (.inr hk)), ?_, ?_, ?_⟩
    · simp only [List.mem_cons, forall_eq_or_imp]
      exact ⟨.inr ⟨l, look, own⟩, fun w hw => m.done w (by simp [hw])⟩
    · intro k hk
      rcases m.sound k hk with before | ⟨w, reach, eq⟩
      · rcases (set k).mp before with rfl | before
        · exact .inr ⟨v, ⟨v, by simp, .refl⟩, look⟩
        · exact .inl before
      · exact .inr ⟨w, reach.expand look, eq⟩
    · intro k hk
      rcases m.closed k hk with before | done
      · rcases (set k).mp before with rfl | before
        · exact .inr successors
        · exact .inl before
      · exact .inr done
  | case5 marked v rest l look marked' ih =>
    simp only [mark, look, marked', ↓reduceDIte] at h
    have m := ih bounded h
    have own : marked[l]? = some true := by
      have := List.getElem?_eq_getElem (bounded v l look)
      rw [this] at marked' ⊢
      simpa using marked'
    refine ⟨m.length, m.grows, ?_, fun k hk => (m.sound k hk).imp_right ?_, m.closed⟩
    · simpa using ⟨.inr ⟨l, look, m.grows l own⟩, m.done⟩
    · exact fun ⟨v, reach, eq⟩ => ⟨v, reach.cons, eq⟩

/-- The marker only refuses a reference it reached. -/
theorem mark_error {marked : List Bool} {work : List ν} {e : ε}
    (h : mark g marked work = .error e) : ∃ v, g.Reach work v ∧ g.look v = .invalid e := by
  induction marked, work using mark.induct g with
  | case1 marked =>
    rw [mark] at h
    cases h
  | case2 marked v rest look ih =>
    simp only [mark, look] at h
    obtain ⟨w, reach, eq⟩ := ih h
    exact ⟨w, reach.cons, eq⟩
  | case3 marked v rest e' look =>
    simp only [mark, look] at h
    cases h
    exact ⟨v, ⟨v, by simp, .refl⟩, look⟩
  | case4 marked v rest l look unmarked ih =>
    simp only [mark, look, unmarked, ↓reduceDIte] at h
    simp only [List.unattach_reverse, List.unattach_attach] at ih
    obtain ⟨w, reach, eq⟩ := ih h
    exact ⟨w, reach.expand look, eq⟩
  | case5 marked v rest l look marked' ih =>
    simp only [mark, look, marked', ↓reduceDIte] at h
    obtain ⟨w, reach, eq⟩ := ih h
    exact ⟨w, reach.cons, eq⟩

theorem Marked.closes {before after : List Bool} {work : List ν}
    (m : Marked g before work after) (closed : g.Closed before) : g.Closed after := by
  intro l hl
  rcases m.closed l hl with old | new
  · exact fun w hw => (closed l old w hw).mono m.grows
  · exact new

/-- Once the marked set is closed, everything reached from done references is done. -/
theorem Graph.Closed.reach {marked : List Bool} {roots : List ν} (closed : g.Closed marked)
    (done : ∀ v ∈ roots, g.Done marked v) {w : ν} (reach : g.Reach roots w) :
    g.Done marked w := by
  obtain ⟨r, hr, path⟩ := reach
  induction path with
  | refl => exact done r hr
  | tail _ edge ih =>
    obtain ⟨l, look, mem⟩ := edge
    rcases ih with skip | ⟨k, look', marked⟩
    · rw [look] at skip
      cases skip
    · rw [look] at look'
      cases look'
      exact closed l marked _ mem

end Marking
