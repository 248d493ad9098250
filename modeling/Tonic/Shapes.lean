import Tonic.Object

namespace Tonic

/-- One node of the shape tree: the attribute it adds to its parent. -/
structure Shape where
  parent : Nat
  name : String
  depth : Nat
deriving DecidableEq, Repr

/-- The shared shape tree. Shape 0 is empty and shape `i + 1` is node `i`, so a parent is always
an older shape. -/
structure Shapes where
  nodes : List Shape
  transitions : AList fun _ : Nat × String => Nat
  older : ∀ {i : Nat} {node : Shape}, nodes[i]? = some node → node.parent ≤ i

namespace Shapes

def empty : Shapes := ⟨[], ∅, by simp⟩

/-- The value slot of a name in a shape: walks up to the node that added the name. -/
def slot (s : Shapes) : Nat → String → Option Nat
  | 0, _ => none
  | id + 1, name =>
    match h : s.nodes[id]? with
    | some shape => if shape.name = name then some (shape.depth - 1) else s.slot shape.parent name
    | none => none
termination_by id => id
decreasing_by have := s.older h; omega

def depthOf (s : Shapes) : Nat → Nat
  | 0 => 0
  | id + 1 => (s.nodes[id]?).elim 0 (·.depth)

theorem older_push (s : Shapes) {id : Nat} (bound : id ≤ s.nodes.length) (name : String)
    (depth : Nat) {i : Nat} {node : Shape}
    (found : (s.nodes ++ [⟨id, name, depth⟩])[i]? = some node) : node.parent ≤ i := by
  rw [List.getElem?_append] at found
  split at found
  · exact s.older found
  · obtain ⟨inside, eq⟩ := List.getElem?_eq_some_iff.mp found
    simp only [List.length_singleton] at inside
    simp only [List.getElem_singleton] at eq
    subst eq
    show id ≤ i
    omega

/-- The shape with one more name, made on first use. Objects with too many or too long names
get no shape and fall back to a dictionary; so does an id outside the table, which no object
holds. -/
def transition (s : Shapes) (id : Nat) (name : String) : Option Nat × Shapes :=
  match s.transitions.lookup (id, name) with
  | some next => (some next, s)
  | none =>
    if h : id ≤ s.nodes.length ∧
        ¬(64 ≤ s.depthOf id ∨ 4096 ≤ s.nodes.length ∨ 1024 < name.utf8ByteSize) then
      let next := s.nodes.length + 1
      (some next,
        { nodes := s.nodes ++ [⟨id, name, s.depthOf id + 1⟩]
          transitions := s.transitions.insert (id, name) next
          older := s.older_push h.1 name _ })
    else (none, s)

theorem nodes_transition (s : Shapes) (id : Nat) (name : String) :
    s.nodes <+: (s.transition id name).2.nodes := by
  unfold transition
  split
  · exact List.prefix_rfl
  · split
    · exact List.prefix_append ..
    · exact List.prefix_rfl

theorem slot_succ {s : Shapes} {id : Nat} {shape : Shape} (node : s.nodes[id]? = some shape)
    (name : String) : s.slot (id + 1) name =
      if shape.name = name then some (shape.depth - 1) else s.slot shape.parent name := by
  rw [slot]
  split
  · next found =>
    rw [node] at found
    cases found
    rfl
  · next none =>
    rw [node] at none
    cases none

/-- A shape is settled for good. -/
theorem slot_grown {s t : Shapes} (grown : s.nodes <+: t.nodes) {id : Nat}
    (bound : id ≤ s.nodes.length) (name : String) : t.slot id name = s.slot id name := by
  induction id using Nat.strong_induction_on with
  | _ id ih =>
    cases id with
    | zero => simp [slot]
    | succ id =>
      have node := List.getElem?_eq_getElem bound
      have node' : t.nodes[id]? = some s.nodes[id] := by
        obtain ⟨rest, eq⟩ := grown
        rw [← eq, List.getElem?_append_left bound, node]
      have parent := s.older node
      have above := ih s.nodes[id].parent (by omega) (by omega)
      rw [slot_succ node, slot_succ node', above]

theorem bound_of_slot {s : Shapes} {id i : Nat} {name : String}
    (found : s.slot id name = some i) : id ≤ s.nodes.length := by
  cases id with
  | zero => exact Nat.zero_le _
  | succ id =>
    rw [slot] at found
    split at found
    · next shape node => exact (List.getElem?_eq_some_iff.mp node).1
    · cases found

/-- The attributes of a slot layout as a dictionary, collected from the leaf to the root. -/
def materializeFrom (s : Shapes) (values : List Value) (map : StringMap) : Nat → StringMap
  | 0 => map
  | id + 1 =>
    match _h : s.nodes[id]? with
    | some shape =>
      match values[shape.depth - 1]? with
      | some value => s.materializeFrom values (map.insert shape.name value) shape.parent
      | none => s.materializeFrom values map shape.parent
    | none => map
termination_by id => id
decreasing_by all_goals have := s.older _h; omega

def materialize (s : Shapes) (id : Nat) (values : List Value) : StringMap :=
  s.materializeFrom values ∅ id

end Shapes

namespace StringMap

theorem mem_values_insert {m : StringMap} {name : String} {v w : Value}
    (h : w ∈ StringMap.values (m.insert name v)) : w = v ∨ w ∈ StringMap.values m := by
  simp only [values, AList.entries_insert, List.map_cons, List.mem_cons] at h ⊢
  refine h.imp_right fun h => ?_
  obtain ⟨x, hx, rfl⟩ := List.mem_map.mp h
  exact List.mem_map_of_mem ((List.kerase_sublist name m.entries).subset hx)

theorem mem_values_erase {m : StringMap} {name : String} {w : Value}
    (h : w ∈ StringMap.values (m.erase name)) : w ∈ StringMap.values m := by
  obtain ⟨x, hx, rfl⟩ := List.mem_map.mp h
  exact List.mem_map_of_mem ((List.kerase_sublist name m.entries).subset hx)

end StringMap

namespace Attributes

def get (a : Attributes) (shapes : Shapes) (name : String) : Option Value :=
  match a with
  | slots shape values => (shapes.slot shape name).bind (values[·]?)
  | dictionary values => values.lookup name

def set (a : Attributes) (shapes : Shapes) (name : String) (value : Value) :
    Attributes × Shapes :=
  match a with
  | slots shape values =>
    match shapes.slot shape name with
    | some i => (slots shape (values.set i value), shapes)
    | none =>
      match shapes.transition shape name with
      | (some next, shapes) => (slots next (values ++ [value]), shapes)
      | (none, shapes) => (dictionary ((shapes.materialize shape values).insert name value), shapes)
  | dictionary values => (dictionary (values.insert name value), shapes)

theorem shapes_set (a : Attributes) (shapes : Shapes) (name : String) (value : Value) :
    shapes.nodes <+: (a.set shapes name value).2.nodes := by
  unfold set
  split
  · next shape values =>
    have grown := shapes.nodes_transition shape name
    split
    · exact List.prefix_rfl
    · split
      · next eq => rwa [eq] at grown
      · next eq => rwa [eq] at grown
  · exact List.prefix_rfl

/-- Deletion turns a slot layout into a dictionary, and reports whether the name was there. -/
def delete (a : Attributes) (shapes : Shapes) (name : String) : Option (Value × Attributes) :=
  match a with
  | slots shape values =>
    let materialized := shapes.materialize shape values
    (materialized.lookup name).map fun v => (v, dictionary (materialized.erase name))
  | dictionary values =>
    (values.lookup name).map fun v => (v, dictionary (values.erase name))

theorem mem_materializeFrom {s : Shapes} {values : List Value} {map : StringMap} {id : Nat}
    {v : Value} (h : v ∈ StringMap.values (s.materializeFrom values map id)) :
    v ∈ values ∨ v ∈ StringMap.values map := by
  induction id using Nat.strong_induction_on generalizing map with
  | _ id ih =>
    cases id with
    | zero => exact .inr (by simpa [Shapes.materializeFrom] using h)
    | succ id =>
      rw [Shapes.materializeFrom] at h
      split at h
      · next shape eq =>
        have parent := s.older eq
        split at h
        · next value found =>
          rcases ih _ (by omega) h with h | h
          · exact .inl h
          · rcases StringMap.mem_values_insert h with rfl | h
            · exact .inl (List.mem_of_getElem? found)
            · exact .inr h
        · exact ih _ (by omega) h
      · exact .inr h

theorem mem_materialize {s : Shapes} {values : List Value} {id : Nat} {v : Value}
    (h : v ∈ StringMap.values (s.materialize id values)) : v ∈ values :=
  (mem_materializeFrom h).resolve_right (by simp [StringMap.values])

/-- A store adds the stored value and nothing else. -/
theorem mem_trace_set {a : Attributes} {shapes : Shapes} {name : String} {v w : Value}
    (h : w ∈ (a.set shapes name v).1.trace) : w = v ∨ w ∈ a.trace := by
  unfold set at h
  split at h
  · split at h
    · exact (List.mem_or_eq_of_mem_set h).symm
    · split at h
      · exact (List.mem_append.mp h).symm.imp_left List.mem_singleton.mp
      · exact (StringMap.mem_values_insert h).imp_right mem_materialize
  · exact StringMap.mem_values_insert h

theorem mem_trace_delete {a b : Attributes} {shapes : Shapes} {name : String} {v w : Value}
    (hd : a.delete shapes name = some (v, b)) (h : w ∈ b.trace) : w ∈ a.trace := by
  unfold delete at hd
  split at hd
  · obtain ⟨_, -, eq⟩ := Option.map_eq_some_iff.mp hd
    cases eq
    exact mem_materialize (StringMap.mem_values_erase h)
  · obtain ⟨_, -, eq⟩ := Option.map_eq_some_iff.mp hd
    cases eq
    exact StringMap.mem_values_erase h

end Attributes

end Tonic
