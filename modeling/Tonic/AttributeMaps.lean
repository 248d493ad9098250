import Tonic.AttributeGet
import Tonic.AttributeLayout
import Tonic.Library.Ordered

/-!
## Attributes as maps

The objects that share one shape table have attributes of their own: each behaves as a finite map
that only its own operations change. A shape is a list of names for good, and the values of an
object of the shape stand in that order.
-/

namespace Tonic

/-- The entries of an insertion-ordered map of attributes. -/
abbrev Entries := List (String × Unit × Value)

namespace Shapes

/-- The names of a shape, in the order of their slots. -/
def layout (s : Shapes) : Nat → List String
  | 0 => []
  | id + 1 =>
    match _h : s.nodes[id]? with
    | some shape => s.layout shape.parent ++ [shape.name]
    | none => []
termination_by id => id
decreasing_by have := s.older _h; omega

/-- The shape tree as its transitions make it: a node adds a new name to its parent. -/
structure Settled (s : Shapes) : Prop where
  linked : s.Linked
  deep : s.Deep
  fresh : ∀ {i : Nat} {node : Shape}, s.nodes[i]? = some node → s.slot node.parent node.name = none

variable {s t : Shapes} {id : Nat} {name : String}

theorem layout_zero : s.layout 0 = [] := by
  rw [layout]

theorem layout_succ {node : Shape} (stored : s.nodes[id]? = some node) :
    s.layout (id + 1) = s.layout node.parent ++ [node.name] := by
  rw [layout]
  split
  · next found =>
    rw [stored] at found
    cases found
    rfl
  · next none =>
    rw [stored] at none
    cases none

/-- A shape has its names for good. -/
theorem layout_grown (grown : s.nodes <+: t.nodes) (bound : id ≤ s.nodes.length) :
    t.layout id = s.layout id := by
  induction id using Nat.strong_induction_on with
  | _ id ih =>
    cases id with
    | zero => rw [layout_zero, layout_zero]
    | succ id =>
      have node := List.getElem?_eq_getElem bound
      have node' : t.nodes[id]? = some s.nodes[id] := by
        obtain ⟨rest, eq⟩ := grown
        rw [← eq, List.getElem?_append_left bound, node]
      have parent := s.older node
      rw [layout_succ node, layout_succ node', ih _ (by omega) (by omega)]

theorem length_layout (deep : s.Deep) (bound : id ≤ s.nodes.length) :
    (s.layout id).length = s.depthOf id := by
  induction id using Nat.strong_induction_on with
  | _ id ih =>
    cases id with
    | zero =>
      rw [layout_zero]
      rfl
    | succ id =>
      have node := List.getElem?_eq_getElem bound
      have parent := s.older node
      rw [layout_succ node, List.length_append, ih _ (by omega) (by omega), depthOf_succ node,
        deep node]
      rfl

/-- A slot is the position of its name. -/
theorem Settled.slot_eq (settled : s.Settled) (bound : id ≤ s.nodes.length) (name : String) :
    s.slot id name = (s.layout id).idxOf? name := by
  induction id using Nat.strong_induction_on generalizing name with
  | _ id ih =>
    cases id with
    | zero =>
      rw [layout_zero]
      simp [slot]
    | succ id =>
      have node := List.getElem?_eq_getElem bound
      have parent := s.older node
      have above (name : String) := ih s.nodes[id].parent (by omega) (by omega) name
      have new : s.nodes[id].name ∉ s.layout s.nodes[id].parent := by
        rw [← List.idxOf?_eq_none_iff, ← above]
        exact settled.fresh node
      have length : (s.layout s.nodes[id].parent).length = s.depthOf s.nodes[id].parent :=
        length_layout settled.deep (by omega)
      have depth := settled.deep node
      rw [slot_succ node, layout_succ node, Ordered.idxOf?_concat new, length, above, depth,
        Nat.add_sub_cancel]

theorem settled_empty : empty.Settled := by
  constructor
  · intro id name next found
    cases found
  · intro i node stored
    cases stored
  · intro i node stored
    cases stored

theorem Settled.transition (settled : s.Settled) (bound : id ≤ s.nodes.length)
    (absent : s.slot id name = none) : (s.transition id name).2.Settled := by
  have linked := settled.linked.transition id name
  have grown := s.nodes_transition id name
  refine ⟨linked, (settled.linked.deep_transition settled.deep bound name).1, ?_⟩
  intro i node stored
  by_cases old : i < s.nodes.length
  · have kept : s.nodes[i]? = some node := by
      obtain ⟨rest, eq⟩ := grown
      rwa [← eq, List.getElem?_append_left old] at stored
    have older := s.older kept
    rw [slot_grown grown (by omega)]
    exact settled.fresh kept
  · have added : node = ⟨id, name, s.depthOf id + 1⟩ := by
      unfold Shapes.transition at stored
      split at stored
      · exact absurd (List.getElem?_eq_some_iff.mp stored).1 old
      · split at stored
        · rw [List.getElem?_append_right (by omega)] at stored
          exact (List.mem_singleton.mp (List.mem_of_getElem? stored))
        · exact absurd (List.getElem?_eq_some_iff.mp stored).1 old
    rw [added, slot_grown grown bound]
    exact absent

/-- A transition adds its name behind the names of the shape. -/
theorem Settled.layout_transition (settled : s.Settled) (bound : id ≤ s.nodes.length) {next : Nat}
    (found : (s.transition id name).1 = some next) :
    (s.transition id name).2.layout next = s.layout id ++ [name] := by
  have grown := s.nodes_transition id name
  unfold Shapes.transition at found grown ⊢
  split at found
  · next known eq =>
    cases found
    obtain ⟨i, node, rfl, stored, rfl, rfl⟩ := settled.linked _ _ _ eq
    exact layout_succ stored
  · next unknown =>
    split at found
    case isFalse => cases found
    next room =>
    cases found
    simp only [unknown, dif_pos room] at grown ⊢
    rw [@layout_succ _ _ ⟨id, name, s.depthOf id + 1⟩ (by simp)]
    exact congrArg (· ++ [name]) (layout_grown grown bound)

theorem materializeFrom_succ {node : Shape} (stored : s.nodes[id]? = some node)
    {values : List Value} {value : Value} (held : values[node.depth - 1]? = some value)
    (map : StringMap) :
    s.materializeFrom values map (id + 1) =
      s.materializeFrom values (map.insert node.name value) node.parent := by
  rw [materializeFrom]
  split
  · next found =>
    rw [stored] at found
    cases found
    rw [held]
  · next none =>
    rw [stored] at none
    cases none

/-- A dictionary made of slots has the value of each slot under the name of the slot. -/
theorem Settled.lookup_materializeFrom (settled : s.Settled) (bound : id ≤ s.nodes.length)
    {values : List Value} (enough : s.depthOf id ≤ values.length) (map : StringMap)
    (name : String) :
    (s.materializeFrom values map id).lookup name =
      ((s.slot id name).bind (values[·]?)).or (map.lookup name) := by
  induction id using Nat.strong_induction_on generalizing map with
  | _ id ih =>
    cases id with
    | zero => simp [materializeFrom, slot]
    | succ id =>
      have node := List.getElem?_eq_getElem bound
      have older := s.older node
      have depth := settled.deep node
      rw [depthOf_succ node] at enough
      have held := List.getElem?_eq_getElem (l := values) (i := s.nodes[id].depth - 1) (by omega)
      rw [materializeFrom_succ node held, ih _ (by omega) (by omega) (by omega), slot_succ node]
      by_cases own : s.nodes[id].name = name
      · subst own
        rw [if_pos rfl, settled.fresh node, AList.lookup_insert, Option.bind_some, held]
        rfl
      · rw [if_neg own, AList.lookup_insert_ne (Ne.symm own)]

end Shapes

/-! ### One object -/

/-- What an insertion-ordered map holds under a name. -/
def Entries.get (entries : Entries) (name : String) : Option Value :=
  (Ordered.get name entries).map (·.2)

namespace Attributes

open Shapes

variable {shapes : Shapes} {a : Attributes} {entries : Entries} {name : String} {value : Value}

/-- The attributes hold the entries; slots hold them in their order. -/
structure Holds (shapes : Shapes) (a : Attributes) (entries : Entries) : Prop where
  nodup : (Ordered.keys entries).Nodup
  get : ∀ name, a.get shapes name = entries.get name
  slots : ∀ shape values, a = .slots shape values → shape ≤ shapes.nodes.length ∧
    Ordered.keys entries = shapes.layout shape ∧ entries.map (·.2.2) = values

theorem get_eq_of_layout (settled : shapes.Settled) {shape : Nat} {values : List Value}
    (bound : shape ≤ shapes.nodes.length) (names : Ordered.keys entries = shapes.layout shape)
    (held : entries.map (·.2.2) = values) (name : String) :
    (Attributes.slots shape values).get shapes name = entries.get name := by
  show (shapes.slot shape name).bind (values[·]?) = (Ordered.get name entries).map (·.2)
  rw [settled.slot_eq bound, ← names, ← held]
  cases at' : (Ordered.keys entries).idxOf? name with
  | none =>
    rw [Ordered.get_eq_none.mpr (List.idxOf?_eq_none_iff.mp at')]
    rfl
  | some i =>
    rw [Ordered.get_of_position at', Option.bind_some, List.getElem?_map, Option.map_map]
    rfl

theorem holds_empty (shapes : Shapes) : Holds shapes .empty [] := by
  constructor
  · exact List.nodup_nil
  · intro name
    show (shapes.slot 0 name).bind _ = none
    simp [slot]
  · intro shape values eq
    cases eq
    exact ⟨Nat.zero_le _, layout_zero.symm, rfl⟩

theorem Holds.grown {t : Shapes} (holds : Holds shapes a entries)
    (grown : shapes.nodes <+: t.nodes) : Holds t a entries := by
  have longer := grown.length_le
  constructor
  · exact holds.nodup
  · intro name
    rw [← holds.get]
    cases a with
    | dictionary values => rfl
    | slots shape values =>
      show (t.slot shape name).bind _ = (shapes.slot shape name).bind _
      rw [slot_grown grown (holds.slots shape values rfl).1]
  · intro shape values eq
    obtain ⟨bound, names, held⟩ := holds.slots shape values eq
    exact ⟨by omega, by rw [layout_grown grown bound, names], held⟩

theorem holds_dictionary {values : StringMap} (nodup : (Ordered.keys entries).Nodup)
    (get : ∀ name, values.lookup name = entries.get name) :
    Holds shapes (.dictionary values) entries :=
  ⟨nodup, get, fun _ _ eq => by cases eq⟩

theorem holds_slots (settled : shapes.Settled) {shape : Nat} {values : List Value}
    (nodup : (Ordered.keys entries).Nodup) (bound : shape ≤ shapes.nodes.length)
    (names : Ordered.keys entries = shapes.layout shape) (held : entries.map (·.2.2) = values) :
    Holds shapes (.slots shape values) entries := by
  refine ⟨nodup, get_eq_of_layout settled bound names held, ?_⟩
  intro shape' values' eq
  cases eq
  exact ⟨bound, names, held⟩

theorem get_put (entries : Entries) (name other : String) (value : Value) :
    Entries.get (Ordered.put name () value entries) other =
      if other = name then some value else entries.get other := by
  unfold Entries.get
  rw [Ordered.get_put]
  split <;> rfl

theorem get_erase (nodup : (Ordered.keys entries).Nodup) (name other : String) :
    Entries.get (Ordered.erase name entries) other =
      if other = name then none else entries.get other := by
  unfold Entries.get
  rw [Ordered.get_erase nodup]
  split <;> rfl

theorem lookup_insert (values : StringMap) (name other : String) (value : Value) :
    (values.insert name value).lookup other =
      if other = name then some value else values.lookup other := by
  split
  · next same => rw [same, AList.lookup_insert]
  · next differ => rw [AList.lookup_insert_ne differ]

theorem lookup_erase (values : StringMap) (name other : String) :
    (values.erase name).lookup other = if other = name then none else values.lookup other := by
  split
  · next same => rw [same, AList.lookup_erase]
  · next differ => rw [AList.lookup_erase_ne differ]

theorem map_modify (entries : Entries) (i : Nat) (value : Value) :
    (entries.modify i fun e => (e.1, e.2.1, value)).map (·.2.2) =
      (entries.map (·.2.2)).set i value := by
  apply List.ext_getElem?
  intro k
  rw [List.getElem?_map, List.getElem?_modify, List.getElem?_set, List.getElem?_map]
  by_cases at' : i = k
  · subst at'
    cases found : entries[i]? with
    | none => simpa using List.getElem?_eq_none_iff.mp found
    | some e => simpa using (List.getElem?_eq_some_iff.mp found).1
  · rw [if_neg at']
    cases entries[k]? <;> simp [at']

/-- The dictionary that slots turn into. -/
theorem lookup_materialize (settled : shapes.Settled) {shape : Nat} {values : List Value}
    (holds : Holds shapes (.slots shape values) entries) (name : String) :
    (shapes.materialize shape values).lookup name = entries.get name := by
  obtain ⟨bound, names, held⟩ := holds.slots shape values rfl
  have enough : shapes.depthOf shape ≤ values.length := by
    rw [← length_layout settled.deep bound, ← names, ← held, Ordered.keys, List.length_map,
      List.length_map]
  have := settled.lookup_materializeFrom bound enough ∅ name
  rw [AList.lookup_empty, Option.or_none] at this
  exact this.trans (holds.get name)

theorem holds_set (settled : shapes.Settled) (holds : Holds shapes a entries) (name : String)
    (value : Value) :
    (a.set shapes name value).2.Settled ∧
      Holds (a.set shapes name value).2 (a.set shapes name value).1
        (Ordered.put name () value entries) := by
  have nodup : (Ordered.keys (Ordered.put name () value entries)).Nodup :=
    Ordered.nodup_put holds.nodup
  cases a with
  | dictionary values =>
    refine ⟨settled, holds_dictionary nodup fun other => ?_⟩
    have old := holds.get other
    rw [lookup_insert, get_put, ← old]
    rfl
  | slots shape values =>
    obtain ⟨bound, names, held⟩ := holds.slots shape values rfl
    have slot := settled.slot_eq bound name
    rw [← names] at slot
    simp only [set]
    split
    · next i found =>
      rw [slot] at found
      have member : name ∈ Ordered.keys entries := by
        by_contra absent
        rw [List.idxOf?_eq_none_iff.mpr absent] at found
        cases found
      refine ⟨settled, holds_slots settled nodup bound ?_ ?_⟩
      · rw [Ordered.keys_put, if_pos member, names]
      · rw [Ordered.put_of_position found, ← held]
        exact map_modify entries i value
    · next absent =>
      have settled' := settled.transition bound absent
      rw [slot] at absent
      have fresh := List.idxOf?_eq_none_iff.mp absent
      split
      · next next shapes' eq =>
        have layout := settled.layout_transition bound (congrArg Prod.fst eq)
        have inside := ((settled.linked.deep_transition settled.deep bound name).2 next
          (congrArg Prod.fst eq)).1
        rw [eq] at settled' layout inside
        refine ⟨settled', holds_slots settled' nodup inside ?_ ?_⟩
        · rw [Ordered.keys_put, if_neg fresh, names, layout]
        · rw [Ordered.put_of_absent absent, List.map_append, held]
          rfl
      · next shapes' eq =>
        have grown := shapes.nodes_transition shape name
        rw [eq] at settled' grown
        refine ⟨settled', holds_dictionary nodup fun other => ?_⟩
        rw [lookup_insert, get_put, lookup_materialize settled' (holds.grown grown)]

theorem holds_delete (settled : shapes.Settled) (holds : Holds shapes a entries) (name : String) :
    match a.delete shapes name with
    | some (value, b) => entries.get name = some value ∧ Holds shapes b (Ordered.erase name entries)
    | none => entries.get name = none := by
  have nodup : (Ordered.keys (Ordered.erase name entries)).Nodup :=
    Ordered.nodup_erase holds.nodup
  have erased {values : StringMap} (same : ∀ name, values.lookup name = entries.get name) :
      Holds shapes (.dictionary (values.erase name)) (Ordered.erase name entries) := by
    refine holds_dictionary nodup fun other => ?_
    rw [lookup_erase, get_erase holds.nodup, same]
  cases a with
  | dictionary values =>
    have same (name : String) : values.lookup name = entries.get name := holds.get name
    simp only [delete]
    cases found : values.lookup name with
    | none => exact (same name).symm.trans found
    | some value => exact ⟨(same name).symm.trans found, erased same⟩
  | slots shape values =>
    have same := lookup_materialize settled holds
    simp only [delete]
    cases found : (shapes.materialize shape values).lookup name with
    | none => exact (same name).symm.trans found
    | some value => exact ⟨(same name).symm.trans found, erased same⟩

end Attributes

/-! ### Any number of objects -/

inductive AttributeOp where
  | get (name : String)
  | set (name : String) (value : Value)
  | delete (name : String)

/-- What an operation answers, and the map after it. -/
def Entries.perform (entries : Entries) : AttributeOp → Option Value × Entries
  | .get name => (entries.get name, entries)
  | .set name value => (none, Ordered.put name () value entries)
  | .delete name => (entries.get name, Ordered.erase name entries)

def Attributes.perform (a : Attributes) (shapes : Shapes) :
    AttributeOp → Option Value × Attributes × Shapes
  | .get name => (a.get shapes name, a, shapes)
  | .set name value => (none, a.set shapes name value)
  | .delete name =>
    match a.delete shapes name with
    | some (value, b) => (some value, b, shapes)
    | none => (none, a, shapes)

namespace Attributes

theorem perform_holds {shapes : Shapes} {a : Attributes} {entries : Entries}
    (settled : shapes.Settled) (holds : Holds shapes a entries) (op : AttributeOp) :
    (a.perform shapes op).1 = (entries.perform op).1 ∧
      (a.perform shapes op).2.2.Settled ∧
      Holds (a.perform shapes op).2.2 (a.perform shapes op).2.1 (entries.perform op).2 ∧
      shapes.nodes <+: (a.perform shapes op).2.2.nodes := by
  cases op with
  | get name => exact ⟨holds.get name, settled, holds, List.prefix_rfl⟩
  | set name value =>
    obtain ⟨settled', holds'⟩ := holds_set settled holds name value
    exact ⟨rfl, settled', holds', a.shapes_set shapes name value⟩
  | delete name =>
    have deleted := holds_delete settled holds name
    unfold Attributes.perform Entries.perform
    dsimp only
    split at deleted
    · next value b eq =>
      obtain ⟨answer, after⟩ := deleted
      exact ⟨answer.symm, settled, after, List.prefix_rfl⟩
    · next eq =>
      have absent : name ∉ Ordered.keys entries := by
        rw [← Ordered.get_eq_none, ← Option.map_eq_none_iff (f := fun held => held.2)]
        exact deleted
      rw [Ordered.erase_of_absent absent]
      exact ⟨deleted.symm, settled, holds, List.prefix_rfl⟩

end Attributes

/-- Objects that share one shape table. -/
structure Instances (ι : Type*) where
  shapes : Shapes
  attributes : ι → Attributes

namespace Instances

open Attributes Shapes

variable {ι : Type*} [DecidableEq ι]

def start : Instances ι := ⟨.empty, fun _ => .empty⟩

def perform (s : Instances ι) (i : ι) (op : AttributeOp) : Option Value × Instances ι :=
  let (answer, a, shapes) := (s.attributes i).perform s.shapes op
  (answer, ⟨shapes, Function.update s.attributes i a⟩)

def run (s : Instances ι) (history : List (ι × AttributeOp)) : Instances ι :=
  history.foldl (fun s step => (s.perform step.1 step.2).2) s

/-- The map that the operations on one object make, whatever happens to the others. -/
def entriesOf (i : ι) (history : List (ι × AttributeOp)) : Entries :=
  history.foldl (fun entries step => if step.1 = i then (entries.perform step.2).2 else entries) []

/-- The table is settled, and every object holds its map. -/
structure Refines (s : Instances ι) (maps : ι → Entries) : Prop where
  settled : s.shapes.Settled
  holds : ∀ i, Holds s.shapes (s.attributes i) (maps i)

omit [DecidableEq ι] in
theorem refines_start : (start : Instances ι).Refines fun _ => [] :=
  ⟨settled_empty, fun _ => holds_empty _⟩

theorem Refines.perform {s : Instances ι} {maps : ι → Entries} (refines : s.Refines maps) (i : ι)
    (op : AttributeOp) :
    (s.perform i op).1 = ((maps i).perform op).1 ∧
      (s.perform i op).2.Refines (fun j => if i = j then ((maps j).perform op).2 else maps j) ∧
      s.shapes.nodes <+: (s.perform i op).2.shapes.nodes := by
  obtain ⟨answer, settled, holds, grown⟩ := perform_holds refines.settled (refines.holds i) op
  refine ⟨answer, ⟨settled, fun j => ?_⟩, grown⟩
  by_cases own : i = j
  · subst own
    rw [if_pos rfl]
    show Holds _ (Function.update s.attributes i _ i) _
    rwa [Function.update_self]
  · rw [if_neg own]
    show Holds _ (Function.update s.attributes i _ j) _
    rw [Function.update_of_ne (Ne.symm own)]
    exact (refines.holds j).grown grown

theorem Refines.run {s : Instances ι} {maps : ι → Entries} (refines : s.Refines maps)
    (history : List (ι × AttributeOp)) :
    (s.run history).Refines (fun i => history.foldl
      (fun entries step => if step.1 = i then (entries.perform step.2).2 else entries) (maps i)) ∧
      s.shapes.nodes <+: (s.run history).shapes.nodes := by
  induction history generalizing s maps with
  | nil => exact ⟨refines, List.prefix_rfl⟩
  | cons step history ih =>
    obtain ⟨-, after, grown⟩ := refines.perform step.1 step.2
    obtain ⟨rest, more⟩ := ih after
    exact ⟨rest, grown.trans more⟩

theorem run_refines (history : List (ι × AttributeOp)) :
    ((start : Instances ι).run history).Refines fun i => entriesOf i history :=
  (refines_start.run history).1

theorem run_append (s : Instances ι) (history later : List (ι × AttributeOp)) :
    s.run (history ++ later) = (s.run history).run later :=
  List.foldl_append

omit [DecidableEq ι] in
/-- A slot that was cached from one object is the named attribute of every object of the shape. -/
theorem Refines.cached {s t : Instances ι} {maps : ι → Entries} (refines : t.Refines maps) (grown : s.shapes.nodes <+: t.shapes.nodes) {i j : ι}
    {name : String} {shape slot : Nat} {values : List Value}
    (cache : (s.attributes i).slotCache s.shapes name = some (shape, slot))
    (same : t.attributes j = .slots shape values) :
    ∃ value, (t.attributes j).cachedSlot shape slot = some value ∧
      (maps j).get name = some value := by
  unfold slotCache at cache
  split at cache
  · next shape' _ _ =>
    obtain ⟨slot', found, eq⟩ := Option.map_eq_some_iff.mp cache
    cases eq
    obtain ⟨bound, names, held⟩ := (refines.holds j).slots shape values same
    have get := (refines.holds j).get name
    rw [← slot_grown grown (bound_of_slot found)] at found
    have position := refines.settled.slot_eq bound name
    rw [found, ← names] at position
    have inside : slot < values.length := by
      have := (List.idxOf?_eq_some_iff.mp position.symm).1
      rw [← held, List.length_map]
      rwa [Ordered.keys, List.length_map] at this
    refine ⟨values[slot], ?_, ?_⟩
    · rw [same]
      show (if shape = shape then values[slot]? else none) = _
      rw [if_pos rfl, List.getElem?_eq_getElem inside]
    · rw [← get, same]
      show (t.shapes.slot shape name).bind (values[·]?) = _
      rw [found, Option.bind_some, List.getElem?_eq_getElem inside]
  · cases cache

theorem attributes_right (history later : List (ι × AttributeOp)) :
    let s := (start : Instances ι).run history
    let t := s.run later
    (∀ i op, (s.perform i op).1 = ((entriesOf i history).perform op).1) ∧
      (∀ i shape values, s.attributes i = .slots shape values →
        Ordered.keys (entriesOf i history) = s.shapes.layout shape ∧
          (entriesOf i history).map (·.2.2) = values) ∧
      (∀ shape ≤ s.shapes.nodes.length, t.shapes.layout shape = s.shapes.layout shape ∧
        ∀ name, t.shapes.slot shape name = (s.shapes.layout shape).idxOf? name) ∧
      ∀ i j name shape slot values,
        (s.attributes i).slotCache s.shapes name = some (shape, slot) →
        t.attributes j = .slots shape values →
        ∃ value, (t.attributes j).cachedSlot shape slot = some value ∧
          (entriesOf j (history ++ later)).get name = some value := by
  intro s t
  have refines : s.Refines fun i => entriesOf i history := run_refines history
  have grown := (refines.run later).2
  have refines' : t.Refines fun i => entriesOf i (history ++ later) := by
    have := run_refines (ι := ι) (history ++ later)
    rwa [run_append] at this
  refine ⟨?_, ?_, ?_, ?_⟩
  · intro i op
    exact (refines.perform i op).1
  · intro i shape values held
    exact ((refines.holds i).slots shape values held).2
  · intro shape bound
    have same := layout_grown grown bound
    have longer := grown.length_le
    refine ⟨same, fun name => ?_⟩
    rw [refines'.settled.slot_eq (Nat.le_trans bound longer), same]
  · intro i j name shape slot values cache held
    exact refines'.cached grown cache held

theorem transition_first :
    ∃ t, Shapes.empty.transition 0 "x" = (some 1, t) ∧ t.nodes = [⟨0, "x", 1⟩] := by
  have unknown : Shapes.empty.transitions.lookup (0, "x") = none := rfl
  have room : 0 ≤ Shapes.empty.nodes.length ∧ ¬ (64 ≤ Shapes.empty.depthOf 0 ∨
      4096 ≤ Shapes.empty.nodes.length ∨ 1024 < "x".utf8ByteSize) := by
    decide
  unfold Shapes.transition
  split
  · next known =>
    rw [unknown] at known
    cases known
  · rw [dif_pos room]
    exact ⟨_, rfl, rfl⟩

/-- What a deletion leaves is a dictionary. -/
theorem run_opening :
    ((start : Instances Unit).run [((), .set "x" .none), ((), .delete "x")]).attributes () =
      .dictionary ∅ := by
  obtain ⟨t, made, nodes⟩ := transition_first
  have stored : t.nodes[0]? = some ⟨0, "x", 1⟩ := by
    rw [nodes]
    rfl
  have first : Attributes.set .empty .empty "x" .none = (.slots 1 [.none], t) := by
    simp only [Attributes.set, Attributes.empty, Shapes.slot]
    rw [made]
    rfl
  have second : Attributes.delete (.slots 1 [.none]) t "x" = some (.none, .dictionary ∅) := by
    simp only [Attributes.delete, Shapes.materialize]
    rw [materializeFrom_succ stored rfl, Shapes.materializeFrom]
    rfl
  have opened : ((start : Instances Unit).perform () (.set "x" .none)).2 =
      ⟨t, Function.update (fun _ => .empty) () (.slots 1 [.none])⟩ := by
    simp only [perform, Attributes.perform, start, first]
  simp only [run, List.foldl_cons, List.foldl_nil, opened]
  simp only [perform, Function.update_self, Attributes.perform, second]

theorem set_dictionary {s : Instances ι} {i : ι} {values : StringMap}
    (held : s.attributes i = .dictionary values) (name : String) (value : Value) :
    (s.perform i (.set name value)).2.attributes i = .dictionary (values.insert name value) := by
  simp only [perform, Attributes.perform, held, Attributes.set, Function.update_self]

/-- Two histories that leave the same attributes, although the names came in another order. -/
theorem order_not_kept :
    let opening := [((), AttributeOp.set "x" .none), ((), .delete "x")]
    let one := opening ++ [((), .set "a" .none), ((), .set "b" .none), ((), .set "a" .none)]
    let two := opening ++ [((), .set "b" .none), ((), .set "a" .none)]
    (start.run one).attributes () = (start.run two).attributes () ∧
      Ordered.keys (entriesOf () one) ≠ Ordered.keys (entriesOf () two) := by
  intro opening one two
  constructor
  · have first := set_dictionary (set_dictionary (set_dictionary run_opening "a" .none)
      "b" .none) "a" .none
    have second := set_dictionary (set_dictionary run_opening "b" .none) "a" .none
    rw [run_append, run_append]
    refine first.trans (Eq.trans (congrArg Attributes.dictionary ?_) second.symm)
    exact AList.ext rfl
  · decide

end Instances

end Tonic
