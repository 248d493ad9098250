import Tonic.InstanceShapes

/-!
## The layout of attributes

An instance keeps one value for each attribute of its shape, so the slot of an attribute is always
inside its values.
-/

namespace Tonic

open Effect Heap

namespace Shapes

/-- Every node adds one attribute to its parent. -/
def Deep (s : Shapes) : Prop :=
  ∀ {i : Nat} {node : Shape}, s.nodes[i]? = some node → node.depth = s.depthOf node.parent + 1

/-- The nodes from a shape up to the empty one. -/
inductive Above (s : Shapes) : Nat → Shape → Prop
  | own {i : Nat} {node : Shape} : s.nodes[i]? = some node → Above s (i + 1) node
  | up {i : Nat} {node other : Shape} : s.nodes[i]? = some node → Above s node.parent other →
      Above s (i + 1) other

theorem depthOf_succ {s : Shapes} {i : Nat} {node : Shape} (stored : s.nodes[i]? = some node) :
    s.depthOf (i + 1) = node.depth := by
  simp [depthOf, stored]

theorem depthOf_grown {s t : Shapes} (grown : s.nodes <+: t.nodes) {id : Nat}
    (bound : id ≤ s.nodes.length) : t.depthOf id = s.depthOf id := by
  cases id with
  | zero => rfl
  | succ i =>
    have stored := List.getElem?_eq_getElem bound
    obtain ⟨rest, eq⟩ := grown
    have stored' : t.nodes[i]? = some s.nodes[i] := by
      rw [← eq, List.getElem?_append_left bound, stored]
    rw [depthOf_succ stored, depthOf_succ stored']

/-- The deeper a node, the more values an object of its shape has. -/
theorem Deep.above {s : Shapes} (deep : s.Deep) {id : Nat} {node : Shape}
    (above : s.Above id node) : 0 < node.depth ∧ node.depth ≤ s.depthOf id := by
  induction above with
  | own stored =>
    rw [depthOf_succ stored]
    have := deep stored
    omega
  | up stored _ ih =>
    rw [depthOf_succ stored]
    have := deep stored
    omega

theorem Linked.deep_transition {s : Shapes} (linked : s.Linked) (deep : s.Deep) {id : Nat}
    (bound : id ≤ s.nodes.length) (name : String) :
    (s.transition id name).2.Deep ∧ ∀ next, (s.transition id name).1 = some next →
      next ≤ (s.transition id name).2.nodes.length ∧
        (s.transition id name).2.depthOf next = s.depthOf id + 1 := by
  have grown := s.nodes_transition id name
  unfold Shapes.transition at grown ⊢
  split
  · next next known =>
    refine ⟨deep, fun next' eq => ?_⟩
    obtain ⟨i, node, rfl, stored, rfl, rfl⟩ := linked _ _ _ known
    cases eq
    have below := (List.getElem?_eq_some_iff.mp stored).1
    refine ⟨Nat.succ_le_of_lt below, ?_⟩
    exact (depthOf_succ stored).trans (deep stored)
  · next unknown =>
    split
    case isFalse => exact ⟨deep, fun _ eq => by cases eq⟩
    next room =>
    simp only [unknown, dif_pos room] at grown
    constructor
    · intro i node stored
      by_cases old : i < s.nodes.length
      · have stored' : s.nodes[i]? = some node := by
          simpa only [List.getElem?_append_left old] using stored
        have older := s.older stored'
        rw [depthOf_grown grown (by omega)]
        exact deep stored'
      · have last : i = s.nodes.length := by
          have := (List.getElem?_eq_some_iff.mp stored).1
          simp only [List.length_append, List.length_singleton] at this
          omega
        subst last
        simp only [List.getElem?_append_right (Nat.le_refl _), Nat.sub_self,
          List.getElem?_cons_zero, Option.some.injEq] at stored
        subst stored
        refine congrArg (· + 1) (Eq.symm (depthOf_grown ?_ bound))
        exact grown
    · intro next eq
      cases eq
      constructor
      · simp
      · simp [depthOf]

end Shapes

namespace Attributes

/-- One value for each attribute of the shape. -/
def Fits (shapes : Shapes) : Attributes → Prop
  | slots shape values => shape ≤ shapes.nodes.length ∧ values.length = shapes.depthOf shape
  | dictionary _ => True

/-- The shape is known, and the slot of each of its attributes is inside the values. -/
def InBounds (shapes : Shapes) : Attributes → Prop
  | slots shape values => shape ≤ shapes.nodes.length ∧
    ∀ node, shapes.Above shape node → node.depth - 1 < values.length
  | dictionary _ => True

theorem Fits.inBounds {shapes : Shapes} {a : Attributes} (deep : shapes.Deep)
    (fits : a.Fits shapes) : a.InBounds shapes := by
  cases a with
  | dictionary values => trivial
  | slots shape values =>
    refine ⟨fits.1, fun node above => ?_⟩
    have bounds := deep.above above
    have length := fits.2
    omega

theorem fits_empty (shapes : Shapes) : Attributes.empty.Fits shapes :=
  ⟨Nat.zero_le _, rfl⟩

theorem Fits.grown {s t : Shapes} {a : Attributes} (fits : a.Fits s) (grown : s.nodes <+: t.nodes) :
    a.Fits t := by
  cases a with
  | dictionary values => trivial
  | slots shape values =>
    have longer := grown.length_le
    refine ⟨by have := fits.1; omega, ?_⟩
    rw [Shapes.depthOf_grown grown fits.1]
    exact fits.2

theorem fits_set {shapes : Shapes} (tidy : shapes.Tidy) (deep : shapes.Deep) {a : Attributes}
    (fits : a.Fits shapes) (name : String) (value : Value) :
    (a.set shapes name value).2.Deep ∧
      (a.set shapes name value).1.Fits (a.set shapes name value).2 := by
  cases a with
  | dictionary values => exact ⟨deep, trivial⟩
  | slots shape values =>
    obtain ⟨kept, next⟩ := Shapes.Linked.deep_transition (fun _ _ _ => tidy.linked) deep fits.1 name
    simp only [set]
    split
    · refine ⟨deep, fits.1, ?_⟩
      rw [List.length_set]
      exact fits.2
    · split
      · next shape' grown eq =>
        rw [eq] at kept next
        obtain ⟨bound, depth⟩ := next shape' rfl
        refine ⟨kept, bound, ?_⟩
        rw [List.length_append, List.length_singleton, fits.2, depth]
      · next grown eq =>
        rw [eq] at kept
        exact ⟨kept, trivial⟩

end Attributes

def Face.attributes : Face → Option Attributes
  | .instanceObject _ attributes | .exception _ attributes _ => some attributes
  | _ => none

theorem attributes_face (o : Object) : o.face.attributes = o.attributes := by
  cases o <;> rfl

namespace Heap

variable {h t : Heap} {owner : Value}

/-- The attributes of every object fit its shape. -/
structure Fitted (h : Heap) : Prop where
  tidy : h.Tidy
  deep : h.shapes.Deep
  fits : ∀ {v f a}, h.face v = some f → f.attributes = some a → a.Fits h.shapes

/-- A step that shows no new attributes. -/
theorem Fitted.of_attributes (fitted : h.Fitted) (tidy : t.Tidy) (shapes : t.shapes = h.shapes)
    (back : ∀ {v f a}, t.face v = some f → f.attributes = some a →
      (∃ f', h.face v = some f' ∧ f'.attributes = some a) ∨ a = .empty) : t.Fitted := by
  constructor
  · exact tidy
  · rw [shapes]
    exact fitted.deep
  · intro v f a found own
    rw [shapes]
    rcases back found own with ⟨f', old, same⟩ | rfl
    · exact fitted.fits old same
    · exact Attributes.fits_empty _

theorem Refits.fitted (refits : h.Refits t owner) (fitted : h.Fitted) : t.Fitted := by
  have grown := refits.shapes
  obtain ⟨cls, stops, a, b, old, new, stored⟩ := refits.own
  have attributes (c : Attributes) : (attributed cls stops c).attributes = some c := by
    cases stops <;> rfl
  have own : t.shapes.Deep ∧ b.Fits t.shapes := by
    rcases stored with ⟨name, value, -, -, set⟩ | ⟨values, rfl, same⟩
    · have kept := Attributes.fits_set fitted.tidy.shapes fitted.deep
        (fitted.fits old (attributes a)) name value
      rwa [set] at kept
    · rw [same]
      exact ⟨fitted.deep, trivial⟩
  refine ⟨refits.tidy fitted.tidy, own.1, fun {v f c} found holds => ?_⟩
  by_cases same : v = owner
  · subst same
    rw [new] at found
    cases found
    rw [attributes b] at holds
    cases holds
    exact own.2
  · rw [refits.other v same] at found
    exact (fitted.fits found holds).grown grown

theorem lasting_fitted : Lasting Fitted where
  keeps {h t} keeps hv after fitted := by
    refine fitted.of_attributes (keeps.tidy hv after fitted.tidy) keeps.shapes ?_
    intro v f a found own
    by_cases issued : h.Issued v
    · exact .inl ⟨f, (keeps.face hv after issued).symm.trans found, own⟩
    · have fresh := keeps.fresh hv after issued found
      cases f <;> cases own <;> exact .inr fresh
  edits {h t owner c} edits lineage fitted := by
    refine fitted.of_attributes (edits.tidy lineage fitted.tidy) edits.shapes ?_
    intro v f a found own
    refine .inl ⟨f, edits.back found ?_ lineage, own⟩
    rintro d rfl
    cases own
  refits refits fitted := refits.fitted fitted
  installs {h t ns c} installs fitted := by
    refine fitted.of_attributes (installs.tidy fitted.tidy) installs.shapes ?_
    intro v f a found own
    have other : v ≠ ns := by
      rintro rfl
      rw [installs.own] at found
      cases found
      cases own
    rcases installs.back found other with old | ⟨d, old⟩
    · exact .inl ⟨f, old, own⟩
    · rw [installs.old old] at found
      cases found
      cases own
  survives {h t} survives fitted := by
    refine fitted.of_attributes (survives.tidy fitted.tidy) survives.shapes ?_
    intro v f a found own
    obtain ⟨f', old, eq⟩ := survives.back found
    refine .inl ⟨f', old, ?_⟩
    subst eq
    cases f' <;> exact own

theorem reachable_fitted [HostLibrary] {s : HeapState} (reach : ClassReachable s) :
    s.heap.Fitted := by
  refine lasting_fitted.reachable ⟨HeapState.start_tidy, ?_, ?_⟩ reach
  · intro i node stored
    cases stored
  · intro v f a found own
    cases v <;> simp [HeapState.start, Heap.empty, Heap.face, tryGet, entry, location] at found

end Heap

end Tonic
