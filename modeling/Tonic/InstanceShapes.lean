import Tonic.Lasting

/-!
## Names that never get a slot

Some attributes are part of an object's layout. A store under such a name does not reach the slots,
so no slot is ever recorded for it.
-/

namespace Tonic

open Effect Heap

namespace Shapes

/-- The shape tree only knows names that a store may add, and its transitions lead to the nodes
that they made. -/
structure Tidy (s : Shapes) : Prop where
  names : ∀ node ∈ s.nodes, node.name ≠ "__dict__"
  linked : ∀ {id name next}, s.transitions.lookup (id, name) = some next →
    ∃ i node, next = i + 1 ∧ s.nodes[i]? = some node ∧ node.parent = id ∧ node.name = name

/-- No object of the shape has a slot for the name. -/
def Lacks (s : Shapes) (id : Nat) (name : String) : Prop :=
  id ≤ s.nodes.length ∧ s.slot id name = none

theorem Lacks.grown {s t : Shapes} {id : Nat} {name : String} (lacks : s.Lacks id name)
    (grown : s.nodes <+: t.nodes) : t.Lacks id name := by
  obtain ⟨bound, none⟩ := lacks
  have longer := grown.length_le
  exact ⟨by omega, (slot_grown grown bound name).trans none⟩

theorem lacks_zero (s : Shapes) (name : String) : s.Lacks 0 name :=
  ⟨Nat.zero_le _, by simp [slot]⟩

theorem lacks_succ {s : Shapes} {i : Nat} {node : Shape} {name : String}
    (stored : s.nodes[i]? = some node) (other : node.name ≠ name)
    (lacks : s.Lacks node.parent name) : s.Lacks (i + 1) name := by
  have bound := (List.getElem?_eq_some_iff.mp stored).1
  refine ⟨by omega, ?_⟩
  rw [slot_succ stored, if_neg other]
  exact lacks.2

theorem name_of_slot {s : Shapes} {id i : Nat} {name : String} (found : s.slot id name = some i) :
    ∃ node ∈ s.nodes, node.name = name := by
  induction id using Nat.strong_induction_on with
  | _ id ih =>
    cases id with
    | zero => simp [slot] at found
    | succ id =>
      have bound := bound_of_slot found
      have node := List.getElem?_eq_getElem (l := s.nodes) (i := id) bound
      have older := s.older node
      rw [slot_succ node] at found
      split at found
      · next own => exact ⟨_, List.getElem_mem bound, own⟩
      · exact ih _ (by omega) found

/-- Every transition leads to the node that it made. -/
def Linked (s : Shapes) : Prop :=
  ∀ id name next, s.transitions.lookup (id, name) = some next →
    ∃ i node, next = i + 1 ∧ s.nodes[i]? = some node ∧ node.parent = id ∧ node.name = name

theorem Linked.transition {s : Shapes} (linked : s.Linked) (id : Nat) (name : String) :
    (s.transition id name).2.Linked := by
  unfold Shapes.transition
  split
  · exact linked
  · split
    case isFalse => exact linked
    intro id' name' next' found
    by_cases same : (id', name') = (id, name)
    · cases same
      rw [AList.lookup_insert] at found
      cases found
      exact ⟨s.nodes.length, ⟨id, name, s.depthOf id + 1⟩, rfl, by simp, rfl, rfl⟩
    · rw [AList.lookup_insert_ne same] at found
      obtain ⟨i, node, eq, stored, parent, named⟩ := linked _ _ _ found
      have bound := (List.getElem?_eq_some_iff.mp stored).1
      exact ⟨i, node, eq, by rw [List.getElem?_append_left bound, stored], parent, named⟩

theorem Tidy.transition {s : Shapes} (tidy : s.Tidy) {id : Nat} {name : String}
    (plain : name ≠ "__dict__") :
    (s.transition id name).2.Tidy ∧ ∀ next, (s.transition id name).1 = some next →
      ∀ other, name ≠ other → s.Lacks id other → (s.transition id name).2.Lacks next other := by
  have grown := s.nodes_transition id name
  have linked := Linked.transition (fun _ _ _ => tidy.linked) id name
  unfold Shapes.transition at grown linked ⊢
  split
  · next next known =>
    refine ⟨tidy, fun next' eq other ne lacks => ?_⟩
    obtain ⟨i, node, rfl, stored, rfl, rfl⟩ := tidy.linked known
    cases eq
    exact lacks_succ stored ne lacks
  · next unknown =>
    split
    case isFalse => exact ⟨tidy, fun _ eq => by cases eq⟩
    next room =>
    simp only [unknown, dif_pos room] at grown
    constructor
    · constructor
      · intro node mem
        rcases List.mem_append.mp mem with old | new
        · exact tidy.names node old
        · cases List.mem_singleton.mp new
          exact plain
      · simp only [unknown, dif_pos room] at linked
        exact fun {_ _ _} => linked _ _ _
    · intro next eq other ne lacks
      cases eq
      refine @lacks_succ _ _ ⟨id, name, s.depthOf id + 1⟩ _ (by simp) ne ?_
      exact lacks.grown grown

end Shapes

namespace Attributes

/-- The slots do not hold the name; a dictionary has no slots. -/
def Lacks (shapes : Shapes) (name : String) : Attributes → Prop
  | slots shape _ => shapes.Lacks shape name
  | dictionary _ => True

theorem Lacks.grown {s t : Shapes} {a : Attributes} {name : String} (lacks : a.Lacks s name)
    (grown : s.nodes <+: t.nodes) : a.Lacks t name := by
  cases a with
  | slots shape values => exact Shapes.Lacks.grown lacks grown
  | dictionary values => trivial

theorem tidy_set {shapes : Shapes} (tidy : shapes.Tidy) (a : Attributes) {name : String}
    (plain : name ≠ "__dict__") (value : Value) :
    (a.set shapes name value).2.Tidy ∧ ∀ other, name ≠ other → a.Lacks shapes other →
      (a.set shapes name value).1.Lacks (a.set shapes name value).2 other := by
  cases a with
  | dictionary values => exact ⟨tidy, fun _ _ _ => trivial⟩
  | slots shape values =>
    obtain ⟨kept, lacks⟩ := @Shapes.Tidy.transition _ tidy shape _ plain
    simp only [set]
    split
    · exact ⟨tidy, fun _ _ lacks => lacks⟩
    · split
      · next next grown eq =>
        rw [eq] at kept lacks
        exact ⟨kept, fun other ne absent => lacks next rfl other ne absent⟩
      · next grown eq =>
        rw [eq] at kept
        exact ⟨kept, fun _ _ _ => trivial⟩

end Attributes

namespace Heap

variable {h t : Heap} {owner value : Value} {name : String}

/-- No slot is shadowed by the layout of its object. -/
structure Tidy (h : Heap) : Prop where
  shapes : h.shapes.Tidy
  stops : ∀ {v cls a}, h.face v = some (.exception cls a true) → a.Lacks h.shapes "value"

/-- A step that shows no new exception attributes. -/
theorem Tidy.of_exceptions (tidy : h.Tidy) (shapes : t.shapes = h.shapes)
    (back : ∀ {v cls a}, t.face v = some (.exception cls a true) →
      h.face v = some (.exception cls a true) ∨ a = .empty) : t.Tidy := by
  constructor
  · rw [shapes]
    exact tidy.shapes
  · intro v cls a found
    rw [shapes]
    rcases back found with old | rfl
    · exact tidy.stops old
    · exact Shapes.lacks_zero ..

theorem Keeps.tidy (keeps : h.Keeps t) (hv : h.Valid) (after : After h t) (tidy : h.Tidy) :
    t.Tidy := by
  refine tidy.of_exceptions keeps.shapes fun {v cls a} found => ?_
  by_cases issued : h.Issued v
  · exact .inl ((keeps.face hv after issued).symm.trans found)
  · exact .inr (keeps.fresh hv after issued found)

theorem Edits.tidy {c : ClassFace} (edits : h.Edits t owner c) (lineage : h.Lineage)
    (tidy : h.Tidy) : t.Tidy :=
  tidy.of_exceptions edits.shapes fun found => .inl (edits.back found (by simp) lineage)

theorem Installs.tidy {c : ClassFace} (installs : h.Installs t owner c) (tidy : h.Tidy) :
    t.Tidy := by
  refine tidy.of_exceptions installs.shapes fun {v cls a} found => .inl ?_
  have other : v ≠ owner := by
    rintro rfl
    rw [installs.own] at found
    cases found
  rcases installs.back found other with old | ⟨d, old⟩
  · exact old
  · rw [installs.old old] at found
    cases found

theorem Survives.tidy (survives : h.Survives t) (tidy : h.Tidy) : t.Tidy := by
  refine tidy.of_exceptions survives.shapes fun {v cls a} found => .inl ?_
  obtain ⟨f, old, eq⟩ := survives.back found
  cases f <;> cases eq
  exact old

theorem Refits.tidy (refits : h.Refits t owner) (tidy : h.Tidy) : t.Tidy := by
  have grown := refits.shapes
  obtain ⟨cls, stops, a, b, old, new, stored⟩ := refits.own
  have kept : t.shapes.Tidy ∧ (stops = some true → a.Lacks h.shapes "value" →
      b.Lacks t.shapes "value") := by
    rcases stored with ⟨name, value, plain, apart, set⟩ | ⟨values, rfl, same⟩
    · obtain ⟨shapes, lacks⟩ := Attributes.tidy_set tidy.shapes a plain value
      rw [set] at shapes lacks
      exact ⟨shapes, fun stops => lacks "value" (apart stops)⟩
    · rw [same]
      exact ⟨tidy.shapes, fun _ _ => trivial⟩
  refine ⟨kept.1, fun {v cls' a'} found => ?_⟩
  by_cases own : v = owner
  · rw [own, new] at found
    cases stops with
    | none => cases found
    | some stops =>
      cases found
      exact kept.2 rfl (tidy.stops old)
  · rw [refits.other v own] at found
    exact (tidy.stops found).grown grown

theorem lasting_tidy : Lasting Tidy where
  keeps keeps hv after tidy := keeps.tidy hv after tidy
  edits edits lineage tidy := edits.tidy lineage tidy
  refits refits tidy := refits.tidy tidy
  installs installs tidy := installs.tidy tidy
  survives survives tidy := survives.tidy tidy

end Heap

namespace HeapState

theorem start_tidy : start.heap.Tidy := by
  constructor
  · constructor
    · intro node mem
      cases mem
    · intro id name next found
      cases found
  · intro v cls a found
    cases v <;> simp [start, Heap.empty, Heap.face, tryGet, entry, location] at found

end HeapState

end Tonic
