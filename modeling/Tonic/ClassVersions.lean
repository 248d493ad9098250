import Tonic.ClassRuns

/-!
## Versions and caches

Over any run of the heap, a version of a class stands for one state of its lookups. So whatever was
found at a version may be reused at that version.
-/

namespace Tonic

open Effect Heap

/-- The root class is sealed once its methods are in place. -/
def sealRootClass (cls : Value) : HeapM Unit := do
  let .classObject c ← getObject cls | throw (.panicked "unreachable")
  setObject cls (.classObject { c with root := true })

/-- One operation on a heap with classes: a class is made from a namespace, and an instance starts
without attributes. -/
inductive ClassStep [HostLibrary] : HeapState → HeapState → Prop where
  | alloc (s : HeapState) (o : Object) (fresh : o.face.Fresh) (held : ∀ v ∈ o.trace, s.held v) :
    ClassStep s (s.next (final (alloc o) s.heap))
  | mutate (s : HeapState) (m : Mutation) (held : ∀ v ∈ m.arguments, s.held v) :
    ClassStep s (s.next (final m.run s.heap))
  | sealRoot (s : HeapState) (cls : Value) :
    ClassStep s (s.next (final (sealRootClass cls) s.heap))
  | collect (s : HeapState) (youngOnly : Bool) (roots : List Value) :
    ClassStep s (s.next (final (collectWith youngOnly roots) s.heap))

def ClassReachable [HostLibrary] (s : HeapState) : Prop :=
  Relation.ReflTransGen ClassStep .start s

namespace HeapState

/-- A state of a run over classes. -/
structure Classes (s : HeapState) : Prop where
  proper : s.Proper
  lineage : s.heap.Lineage

theorem start_classes : Classes start := by
  refine ⟨start_proper, ?_⟩
  have none (v : Value) : start.heap.face v = .none := by
    cases v <;> simp [start, Heap.empty, Heap.face, tryGet, entry, location]
  constructor <;> (intro _ _ found; rw [none] at found; cases found)

theorem sealRootClass_after {h : Heap} {cls : Value} (hs : Sound h) :
    wp (sealRootClass cls) (fun _ => After h) (After h) h := by
  simp only [sealRootClass, wp_bind]
  refine wp_getObject hs.after fun o ho => ?_
  split
  · exact wp_setObject_last hs.after ho (.shrink (fun _ hv => hv) fun _ hv => hv)
  · exact hs.after

theorem sealRootClass_keeps {h : Heap} {cls : Value} :
    wp (sealRootClass cls) (fun _ => h.Keeps) h.Keeps h := by
  simp only [sealRootClass, wp_bind]
  refine wp_getObject (.refl h) fun o ho => ?_
  split
  · exact wp_setObject_kept (.refl h) ho rfl
  · exact .refl h

variable [HostLibrary]

theorem step_classes {s t : HeapState} (step : ClassStep s t) (hs : s.Classes) :
    t.Classes ∧ s.heap.Later t.heap := by
  have sound := hs.proper.sound
  -- what an operation carries along, the state it leaves has
  have carried {u : Heap} (c : s.heap.Carries u) :
      (s.next u).Classes ∧ s.heap.Later (s.next u).heap :=
    have ⟨lineage, later⟩ := c.2 hs.lineage
    ⟨⟨hs.proper.next c.1.1 fun _ => c.1.2.issued, lineage⟩, later⟩
  cases step with
  | alloc o fresh held =>
    refine carried (wp_final (wp_keeps_carries sound.valid ?_ (wp_alloc_keeps (.refl _) fresh)))
    exact wp_mono (wp_alloc sound fun v hv => hs.proper.issued v (held v hv))
      (fun _ _ ht => ht.1) fun _ => id
  | mutate m held =>
    exact carried (wp_final (m.run_carries sound fun v hv => hs.proper.issued v (held v hv)))
  | sealRoot cls =>
    exact carried (wp_final (wp_keeps_carries sound.valid (sealRootClass_after sound)
      sealRootClass_keeps))
  | collect youngOnly roots =>
    have proper := step_proper (.collect s youngOnly roots) hs.proper
    obtain ⟨lineage, later⟩ := wp_final (P := fun t => t.Lineage ∧ s.heap.Later t)
      (collect_later youngOnly roots sound hs.lineage)
    exact ⟨⟨proper, lineage⟩, later⟩

theorem run_classes {s t : HeapState} (run : Relation.ReflTransGen ClassStep s t)
    (hs : s.Classes) : t.Classes ∧ s.heap.Later t.heap := by
  induction run with
  | refl => exact ⟨hs, .refl hs.lineage⟩
  | tail _ step ih =>
    obtain ⟨between, later⟩ := ih
    obtain ⟨classes, later'⟩ := step_classes step between
    exact ⟨classes, later.trans hs.proper.sound.valid later'⟩

theorem reachable_classes {s : HeapState} (reach : ClassReachable s) : s.Classes :=
  (run_classes reach start_classes).1

end HeapState

/-! ### Lookups -/

namespace Heap

variable {h t : Heap} {owner cls v value : Value} {name : String}

theorem classOf_eq_face {c : Class} (hc : h.classOf v = .ok c) :
    h.face v = some (.classObject c.face) :=
  face_eq_class.mpr ⟨c, classOf_eq_ok hc, rfl⟩

theorem classOf_of_face {f : ClassFace} (found : h.face v = some (.classObject f)) :
    ∃ c, h.classOf v = .ok c ∧ c.face = f := by
  obtain ⟨c, hc, eq⟩ := face_eq_class.mp found
  exact ⟨c, by simp [classOf, Heap.get, hc], eq⟩

theorem SameAttributes.classOf (same : h.SameAttributes t v) : ∃ c d, h.classOf v = .ok c ∧
    t.classOf v = .ok d ∧ d.attributes = c.attributes := by
  obtain ⟨b, d, hb, hd, attributes, -⟩ := same
  obtain ⟨c, hc, rfl⟩ := classOf_of_face hb
  obtain ⟨e, he, rfl⟩ := classOf_of_face hd
  exact ⟨c, e, hc, he, attributes⟩

theorem firstAttribute_same {classes : List Value}
    (same : ∀ a ∈ classes, h.SameAttributes t a) :
    t.firstAttribute name classes = h.firstAttribute name classes := by
  induction classes with
  | nil => rfl
  | cons a classes ih =>
    obtain ⟨c, d, hc, hd, attributes⟩ := (same a List.mem_cons_self).classOf
    simp only [firstAttribute, hc, hd, bind, Except.bind, attributes]
    rw [ih fun b hb => same b (List.mem_cons_of_mem _ hb)]

/-- A builtin that a lookup finds is still one where nothing has changed. -/
theorem firstAttribute_builtin {classes : List Value} {b : Builtin}
    (same : ∀ a ∈ classes, h.SameAttributes t a)
    (found : h.firstAttribute name classes = .ok (some value))
    (builtin : h.tryGet value = some (.builtin b)) : t.tryGet value = some (.builtin b) := by
  induction classes with
  | nil => cases found
  | cons a classes ih =>
    obtain ⟨f, d, hf, hd, -, keep⟩ := same a List.mem_cons_self
    obtain ⟨c, hc, rfl⟩ := classOf_of_face hf
    simp only [firstAttribute, hc, bind, Except.bind] at found
    cases member : findMember name c.attributes with
    | none =>
      rw [member] at found
      exact ih (fun b hb => same b (List.mem_cons_of_mem _ hb)) found
    | some w =>
      rw [member] at found
      cases found
      obtain ⟨m, hm, rfl⟩ := Option.map_eq_some_iff.mp member
      exact face_eq_builtin.mp (keep m (List.mem_of_find?_eq_some hm) b (face_eq_builtin.mpr builtin))

theorem Lineage.classLookup_ok (lineage : h.Lineage) {c : Class} (hc : h.classOf cls = .ok c)
    (name : String) : ∃ r, h.classLookup cls name = .ok r := by
  have classes : ∀ a ∈ cls :: c.mro, ∃ d, h.classOf a = .ok d := by
    intro a ha
    obtain ⟨d, -, hd, -⟩ := (lineage.sameAttributes (classOf_eq_face hc) a ha).classOf
    exact ⟨d, hd⟩
  obtain ⟨r, hr⟩ := firstAttribute_ok name _ classes
  exact ⟨r, by simp [classLookup, hc, bind, Except.bind, hr]⟩

/-- At the same version nothing on the lineage of a class has changed. -/
theorem Later.unchanged (later : h.Later t) {c d : Class} (hc : h.classOf v = .ok c)
    (hd : t.classOf v = .ok d) : d.mro = c.mro ∧ c.version ≤ d.version ∧
      (d.version = c.version → ∀ a ∈ v :: c.mro, h.SameAttributes t a) := by
  have live := classOf_eq_face hd
  obtain ⟨f, hf, mro, le, same⟩ := later.classes (classOf_eq_face hc) (by simp [live])
  rw [live] at hf
  cases hf
  exact ⟨mro, le, same⟩

theorem Later.classLookup (later : h.Later t) {c d : Class} (hc : h.classOf v = .ok c)
    (hd : t.classOf v = .ok d) (same : d.version = c.version) (name : String) :
    t.classLookup v name = h.classLookup v name := by
  obtain ⟨mro, -, unchanged⟩ := later.unchanged hc hd
  simp only [Heap.classLookup, hc, hd, bind, Except.bind, mro]
  exact firstAttribute_same (unchanged same)

end Heap

namespace Heap

variable {h t : Heap} {owner owner' cls v value : Value} {name : String}

theorem class_of_lookup {r : Option Value} (looked : h.classLookup cls name = .ok r) :
    ∃ c, h.tryGet cls = some (.classObject c) := by
  unfold classLookup at looked
  cases hc : h.classOf cls with
  | error e => simp [hc, bind, Except.bind] at looked
  | ok c => exact ⟨c, classOf_eq_ok hc⟩

/-- What the hook of an instance depends on: the lookup in its class. -/
theorem hasCustomGetattribute_eq {o : Object} {attributes : Attributes}
    (ho : h.tryGet owner = some o) (parts : o.instanceParts = some (cls, attributes)) :
    h.hasCustomGetattribute owner = match h.classLookup cls "__getattribute__" with
      | .ok (some v) => !(h.tryGet v matches some (.builtin .objectGetAttribute))
      | _ => false := by
  have plain : h.isClass owner = false := by
    cases o <;> simp_all [Object.instanceParts, isClass]
  have own : (h.tryGet owner).bind (·.instanceClass) = some cls := by
    cases o <;> simp_all [Object.instanceParts, Object.instanceClass]
  simp only [hasCustomGetattribute, customAttributeMethod, defaultGetattribute, plain,
    Bool.false_eq_true, if_false, specialMethodCall, own, bind, Except.bind]
  cases looked : h.classLookup cls "__getattribute__" with
  | error e => rfl
  | ok found =>
    have apart : cls ≠ owner := by
      rintro rfl
      obtain ⟨c, hc⟩ := class_of_lookup looked
      rw [ho, Option.some.injEq] at hc
      rw [hc] at parts
      cases parts
    cases found with
    | none => rfl
    | some v =>
      simp only [pure, Except.pure, descriptorCallable, isDefaultAttributeMethod, Option.filter]
      cases hv : h.tryGet v with
      | none => simp [hv]
      | some f =>
        cases f with
        | builtin b => cases b <;> simp [hv, Builtin.bindsReceiver]
        | _ => simp [hv, apart]

/-- The lookups an instance attribute is read by: no hook, nothing in the class, a slot. -/
structure Plain (h : Heap) (owner : Value) (name : String) (value : Value) : Prop where
  hook : h.hasCustomGetattribute owner = false
  found : ∃ o cls shape slot values, h.tryGet owner = some o ∧
    o.instanceParts = some (cls, .slots shape values) ∧ h.classLookup cls name = .ok none ∧
    h.shapes.slot shape name = some slot ∧ values[slot]? = some value

/-- What was recorded for a name at some version is right as long as the version lasts. -/
theorem Later.cached (lineage : h.Lineage) (later : h.Later t) {cache : AttrCacheEntry Value}
    (recorded : h.instanceSlotCache owner name = some cache)
    (hit : t.cachedInstanceSlot owner' cache = some value) : t.Plain owner' name value := by
  -- the entry comes from an instance of the class with nothing in its way
  unfold instanceSlotCache at recorded
  split at recorded
  · cases recorded
  next quiet =>
  simp only [Option.bind_eq_bind, Option.bind_eq_some_iff] at recorded
  obtain ⟨o, ho, ⟨cls, attributes⟩, parts, recorded⟩ := recorded
  split at recorded
  · cases recorded
  split at recorded
  · cases recorded
  next absent =>
  simp only [Option.bind_eq_some_iff] at recorded
  obtain ⟨⟨shape, slot⟩, entry, recorded⟩ := recorded
  cases hc : h.classOf cls with
  | error e => simp [hc] at recorded
  | ok c =>
    simp only [hc, pure, Option.some.injEq] at recorded
    subst recorded
    -- the hit is an instance of the same class at the same version, with the same shape
    simp only [cachedInstanceSlot, Option.bind_eq_bind, Option.bind_eq_some_iff] at hit
    obtain ⟨o', ho', ⟨actual, attributes'⟩, parts', hit⟩ := hit
    cases hd : t.classOf actual with
    | error e => simp [hd] at hit
    | ok d =>
      simp only [hd] at hit
      split at hit
      case isFalse => cases hit
      next guards =>
      obtain ⟨rfl, version⟩ := guards
      have lookup := later.classLookup hc hd version
      obtain ⟨r, hr⟩ := lineage.classLookup_ok hc name
      have none : r = .none := by
        cases r with
        | none => rfl
        | some w => exact absurd hr (absent w)
      constructor
      · rw [hasCustomGetattribute_eq ho parts, Bool.not_eq_true] at quiet
        rw [hasCustomGetattribute_eq ho' parts', lookup]
        cases looked : h.classLookup actual "__getattribute__" with
        | error e => rfl
        | ok found =>
          cases found with
          | none => rfl
          | some v =>
            simp only [looked, Bool.not_eq_false'] at quiet
            have builtin : h.tryGet v = some (.builtin .objectGetAttribute) := by
              revert quiet
              split <;> simp_all
            have first : h.firstAttribute "__getattribute__" (actual :: c.mro) = .ok (some v) := by
              simpa [Heap.classLookup, hc, bind, Except.bind] using looked
            simp [firstAttribute_builtin ((later.unchanged hc hd).2.2 version) first builtin]
      · cases attributes with
        | dictionary values => cases entry
        | slots own values =>
          obtain ⟨at_slot, slotted, eq⟩ := Option.map_eq_some_iff.mp entry
          cases eq
          cases attributes' with
          | dictionary values => cases hit
          | slots own' values' =>
            simp only [Attributes.cachedSlot] at hit
            split at hit
            case isFalse => cases hit
            next same =>
            subst same
            have grown := Shapes.slot_grown later.shapes (Shapes.bound_of_slot slotted) name
            exact ⟨o', actual, own', slot, values', ho', parts', by rw [lookup, hr, none],
              by rw [grown, slotted], hit⟩

end Heap

/-- In any run, the dependents of a class are its live proper subclasses, a version of a class is
never taken back and stands for one state of its lineage and so of its lookups, and what an
attribute site recorded answers a later load only as the lookups of that moment would. -/
theorem class_versions [HostLibrary] {s t : HeapState} (reach : ClassReachable s)
    (run : Relation.ReflTransGen ClassStep s t) :
    (∀ v c, t.heap.classOf v = .ok c → c.dependents.Nodup ∧
      ∀ w, w ∈ c.dependents ↔ ∃ d, t.heap.classOf w = .ok d ∧ v ∈ d.mro) ∧
    (∀ v c d, s.heap.classOf v = .ok c → t.heap.classOf v = .ok d →
      c.version ≤ d.version ∧ (d.version = c.version →
        (∀ a ∈ v :: c.mro, ∃ b e, s.heap.classOf a = .ok b ∧ t.heap.classOf a = .ok e ∧
          e.attributes = b.attributes) ∧
        ∀ name, t.heap.classLookup v name = s.heap.classLookup v name)) ∧
    ∀ owner name cache owner' value, s.heap.instanceSlotCache owner name = some cache →
      t.heap.cachedInstanceSlot owner' cache = some value → t.heap.Plain owner' name value := by
  have before := HeapState.reachable_classes reach
  obtain ⟨after, later⟩ := HeapState.run_classes run before
  refine ⟨fun v c hc => ?_, fun v c d hc hd => ?_, fun _ _ _ _ _ recorded hit => ?_⟩
  · obtain ⟨nodup, iff⟩ := after.lineage.dependents (classOf_eq_face hc)
    refine ⟨nodup, fun w => (iff w).trans ⟨?_, ?_⟩⟩
    · rintro ⟨f, hf, mem⟩
      obtain ⟨d, hd, rfl⟩ := classOf_of_face hf
      exact ⟨d, hd, mem⟩
    · rintro ⟨d, hd, mem⟩
      exact ⟨d.face, classOf_eq_face hd, mem⟩
  · obtain ⟨-, le, same⟩ := later.unchanged hc hd
    exact ⟨le, fun version => ⟨fun a ha => (same version a ha).classOf,
      later.classLookup hc hd version⟩⟩
  · exact later.cached before.lineage recorded hit

section BareClass

/-- A class body without anything in it. -/
def bareClass : Class :=
  { root := false, id := 0, version := 0, name := "C", metaclass := .none, namespaceMapping := none
    attributes := [], extraAttributes := [], dictionaryOrder := [], bases := [], mro := []
    dependents := [] }

def emptyClass : Heap :=
  { Heap.empty with
    nextType := 1
    objects := [⟨.classObject { bareClass with id := 1, version := 1 }, 0, true⟩]
    slots := [⟨1, some 0⟩] }

def bareNamespace : Heap :=
  { Heap.empty with objects := [⟨.namespaceObject bareClass, 0, true⟩], slots := [⟨1, some 0⟩] }

theorem linearize_nil : (reading fun h => linearize h [] : HeapM (List Value)) = pure [] := by
  funext h
  have merged : linearize h [] = .ok [] := by
    show c3Merge [[]] = .ok []
    rw [c3Merge]
    rfl
  simp [reading, merged, pure, EStateM.pure]

theorem finishClass_bareClass [HostLibrary] :
    finishClass (.heap 0 1) bareNamespace = .ok () emptyClass := by
  have install : finishClass (.heap 0 1) bareNamespace =
      ((reading fun h => linearize h []) >>= fun mro => (do
        let id ← nextTypeId
        setObject (.heap 0 1) (.classObject { bareClass with id, version := 1, mro })
        mro.forM (addDependent (.heap 0 1)) : HeapM Unit)) bareNamespace := rfl
  rw [install, linearize_nil]
  rfl
/-- A store moves the class on to a new version. -/
theorem reachable_emptyClass [HostLibrary] :
    ClassReachable (.next (.next .start bareNamespace) emptyClass) := by
  have made : final (finishClass (.heap 0 1)) bareNamespace = emptyClass := by
    rw [final, finishClass_bareClass]
  rw [← made]
  refine .tail (.single (.alloc .start (.namespaceObject bareClass) rfl ?_))
    (.mutate (.next .start bareNamespace) (.finishClass (.heap 0 1)) ?_)
  · simp [Object.trace, Class.trace, bareClass, pairs, HeapState.start, Value.heapIndex]
  · intro v hv
    cases List.mem_singleton.mp hv
    exact .inr rfl

theorem class_versions_bareClass : ∃ c d, emptyClass.classOf (.heap 0 1) = .ok c ∧
    (final (setAttr (.heap 0 1) "x" .none) emptyClass).classOf (.heap 0 1) = .ok d ∧
    c.version = 1 ∧ d.version = 2 ∧ c.version ≤ d.version := by
  let _ : HostLibrary := ⟨String.length, List.length, fun _ => ""⟩
  let s := HeapState.next (.next .start bareNamespace) emptyClass
  have held : ∀ v ∈ (Mutation.setAttr (.heap 0 1) "x" .none).arguments, s.held v := by
    intro v hv
    simp only [Mutation.arguments, List.mem_cons, List.not_mem_nil, or_false] at hv
    rcases hv with rfl | rfl
    · exact .inr rfl
    · exact .inl (.inl rfl)
  have versions := (class_versions reachable_emptyClass (.single (.mutate s _ held))).2.1 (.heap 0 1)
  exact ⟨_, _, rfl, rfl, rfl, rfl, (versions _ _ rfl rfl).1⟩

end BareClass

end Tonic
