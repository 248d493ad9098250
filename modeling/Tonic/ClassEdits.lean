import Tonic.Lineage
import Tonic.Stores

/-!
## Edits of classes

A store or a delete on a class, and the completion of a class, as seen by every handle.
-/

namespace Tonic

open Effect

/-- An edit of the object if it is a class. -/
def Object.mapClass (f : Class → Class) : Object → Object
  | .classObject c => .classObject (f c)
  | o => o

namespace Heap

variable {h t : Heap} {owner ns v value : Value} {o o' : Object} {name : String}

/-- One object is replaced in place. -/
structure Replaced (h t : Heap) (owner : Value) (o : Object) : Prop where
  distinct : t.Distinct
  get : t.tryGet = Function.update h.tryGet owner (some o)
  shapes : t.shapes = h.shapes

theorem wp_setObject_replaced (distinct : h.Distinct) (ho : h.tryGet owner = some o) :
    wp (setObject owner o') (fun _ t => h.Replaced t owner o') (fun _ => False) h := by
  obtain ⟨e, he, -⟩ := tryGet_eq_some.mp ho
  obtain ⟨l, hl, -⟩ := entry_eq_some.mp he
  simp only [setObject, wp_bind, wp_get, hl, wp_set]
  refine ⟨fun {v w k} hv hw => ?_, tryGet_store_eq distinct hl ho, rfl⟩
  exact distinct ((location_store h l o' v).symm.trans hv) ((location_store h l o' w).symm.trans hw)

theorem distinct_writeBarrier (distinct : h.Distinct) : (h.writeBarrier owner value).Distinct :=
  fun {_ _ _} hv hw => distinct (by simpa using hv) (by simpa using hw)

/-- A loop that edits every class of a list once. -/
theorem wp_forM_classes {f : Class → Class} {body : Value → HeapM Unit}
    (one : ∀ {h : Heap} {v : Value} {c : Class}, h.Distinct → h.tryGet v = some (.classObject c) →
      wp (body v) (fun _ t => h.Replaced t v (.classObject (f c))) (fun _ => False) h)
    {classes : List Value} (nodup : classes.Nodup) (distinct : h.Distinct)
    (found : ∀ v ∈ classes, ∃ c, h.tryGet v = some (.classObject c)) :
    wp (classes.forM body) (fun _ t => t.Distinct ∧ t.shapes = h.shapes ∧ ∀ v,
      t.tryGet v = if v ∈ classes then (h.tryGet v).map (Object.mapClass f) else h.tryGet v)
      (fun _ => False) h := by
  induction classes generalizing h with
  | nil => exact ⟨distinct, rfl, by simp⟩
  | cons first rest ih =>
    obtain ⟨unseen, nodup⟩ := List.nodup_cons.mp nodup
    obtain ⟨c, hc⟩ := found first List.mem_cons_self
    show wp (body first >>= fun _ => rest.forM body) _ _ h
    rw [wp_bind]
    refine wp_mono (one distinct hc) (fun _ t edited => ?_) fun _ => id
    have later : ∀ v ∈ rest, t.tryGet v = h.tryGet v := by
      intro v hv
      have ne : v ≠ first := fun eq => unseen (eq ▸ hv)
      simp [edited.get, ne]
    refine wp_mono (ih nodup edited.distinct fun v hv => ?_) ?_ fun _ => id
    · obtain ⟨d, hd⟩ := found v (List.mem_cons_of_mem _ hv)
      exact ⟨d, (later v hv).trans hd⟩
    · rintro _ u ⟨distinct, shapes, get⟩
      refine ⟨distinct, shapes.trans edited.shapes, fun v => ?_⟩
      rw [get v]
      by_cases eq : v = first
      · subst eq
        simp [unseen, edited.get, hc, Object.mapClass]
      · by_cases mem : v ∈ rest
        · simp [mem, later v mem]
        · simp [mem, eq, edited.get]

/-! ### Stores and deletes -/

def bumped (c : Class) : Class := { c with version := c.version + 1 }

theorem wp_bumpClassVersion {c : Class} (distinct : h.Distinct)
    (hc : h.tryGet owner = some (.classObject c)) :
    wp (bumpClassVersion owner) (fun _ t => h.Replaced t owner (.classObject (bumped c)))
      (fun _ => False) h := by
  have got : h.get owner = .ok (.classObject c) := by simp [Heap.get, hc]
  simp only [bumpClassVersion, getObject, wp_bind, wp_reading, got]
  exact wp_setObject_replaced distinct hc

/-- Every recorded descendant is live, so all of them are invalidated. -/
theorem classInvalidationTargets_ok (lineage : h.Lineage) {targets : List Value}
    (ok : classInvalidationTargets h owner = .ok targets) :
    ∃ c, h.tryGet owner = some (.classObject c) ∧ targets = c.dependents := by
  unfold classInvalidationTargets at ok
  cases got : h.get owner with
  | error e => simp [got, bind, Except.bind] at ok
  | ok o =>
    cases o with
    | classObject c =>
      have hc := get_eq_ok got
      refine ⟨c, hc, ?_⟩
      simp only [got, bind, Except.bind] at ok
      split at ok
      · cases ok
      split at ok
      · cases ok
      simp only [pure, Except.pure, Except.ok.injEq] at ok
      rw [← ok]
      have live : ∀ d ∈ c.dependents, ∃ e, h.tryGet d = some (.classObject e) := by
        intro d hd
        have found : h.face owner = some (.classObject c.face) := face_eq_class.mpr ⟨c, hc, rfl⟩
        obtain ⟨e, he, -⟩ := ((lineage.dependents found).2 d).mp hd
        obtain ⟨o, ho, -⟩ := face_eq_class.mp he
        exact ⟨o, ho⟩
      generalize c.dependents = ds at live ⊢
      induction ds with
      | nil => rfl
      | cons d ds ih =>
        obtain ⟨e, he⟩ := live d List.mem_cons_self
        simp only [List.filterMap_cons, he, List.map_cons, List.cons.injEq, true_and]
        exact ih fun d hd => live d (List.mem_cons_of_mem _ hd)
    | _ => simp [got, bind, Except.bind, throw, throwThe, MonadExceptOf.throw] at ok

/-- The class has new attributes, and a new version like every class below it. -/
structure Edits (h t : Heap) (owner : Value) (c : ClassFace) : Prop where
  found : h.face owner = some (.classObject c)
  shapes : t.shapes = h.shapes
  own : ∃ attributes,
    t.face owner = some (.classObject { c with attributes, version := c.version + 1 })
  below : ∀ v ∈ c.dependents, ∀ d, h.face v = some (.classObject d) →
    t.face v = some (.classObject { d with version := d.version + 1 })
  other : ∀ v, v ≠ owner → v ∉ c.dependents → t.face v = h.face v

theorem wp_editClass (lineage : h.Lineage) (distinct : h.Distinct) {c : Class}
    (hc : h.tryGet owner = some (.classObject c)) (attributes : List (String × Value))
    (dictionaryOrder : List ClassDictionaryKey) :
    wp (setObject owner (.classObject { c with attributes, dictionaryOrder }))
      (fun _ => wp (applyClassInvalidation owner c.dependents)
        (fun _ t => h.Edits t owner c.face) (fun _ => False)) (fun _ => False) h := by
  have found : h.face owner = some (.classObject c.face) := face_eq_class.mpr ⟨c, hc, rfl⟩
  obtain ⟨nodup, iff⟩ := lineage.dependents found
  have apart : owner ∉ c.dependents := by
    intro mem
    obtain ⟨d, hd, own⟩ := (iff owner).mp mem
    exact lineage.proper hd own
  refine wp_mono (wp_setObject_replaced distinct hc) (fun _ s stored => ?_) fun _ => id
  have others : ∀ v, v ≠ owner → s.tryGet v = h.tryGet v := fun v ne => by simp [stored.get, ne]
  have classes : ∀ v ∈ owner :: c.dependents, ∃ d, s.tryGet v = some (.classObject d) := by
    intro v hv
    rcases List.mem_cons.mp hv with rfl | hv
    · exact ⟨_, by rw [stored.get, Function.update_self]⟩
    · obtain ⟨d, hd, -⟩ := (iff v).mp hv
      obtain ⟨o, ho, -⟩ := face_eq_class.mp hd
      exact ⟨o, (others v fun eq => apart (eq ▸ hv)).trans ho⟩
  have run := wp_forM_classes (f := bumped) wp_bumpClassVersion
    (List.nodup_cons.mpr ⟨apart, nodup⟩) stored.distinct classes
  refine wp_mono run ?_ fun _ => id
  rintro _ t ⟨-, shapes, get⟩
  refine ⟨found, shapes.trans stored.shapes, ⟨attributes, ?_⟩, fun v hv d hd => ?_,
    fun v ne out => ?_⟩
  · refine face_eq_class.mpr ⟨bumped { c with attributes, dictionaryOrder }, ?_, rfl⟩
    simp [get, stored.get, Object.mapClass]
  · obtain ⟨o, ho, rfl⟩ := face_eq_class.mp hd
    have ne : v ≠ owner := fun eq => apart (eq ▸ hv)
    have mem : v ∈ owner :: c.dependents := List.mem_cons_of_mem _ hv
    refine face_eq_class.mpr ⟨bumped o, ?_, rfl⟩
    rw [get, if_pos mem, others v ne, ho, Option.map_some, Object.mapClass]
  · have away : v ∉ owner :: c.dependents := by
      rw [List.mem_cons, not_or]
      exact ⟨ne, out⟩
    simp [face, get, away, others v ne]

theorem Edits.kept {c : ClassFace} (edits : h.Edits t owner c) {f : Face}
    (found : h.face v = some f) (apart : ∀ d, f ≠ .classObject d) (lineage : h.Lineage) :
    t.face v = some f := by
  rw [edits.other v, found]
  · rintro rfl
    rw [edits.found] at found
    cases found
    exact apart _ rfl
  · intro mem
    obtain ⟨d, hd, -⟩ := ((lineage.dependents edits.found).2 v).mp mem
    rw [hd] at found
    cases found
    exact apart _ rfl

theorem Edits.back {c : ClassFace} (edits : h.Edits t owner c) {f : Face}
    (found : t.face v = some f) (apart : ∀ d, f ≠ .classObject d) (lineage : h.Lineage) :
    h.face v = some f := by
  rw [← edits.other v, found]
  · rintro rfl
    obtain ⟨attributes, own⟩ := edits.own
    rw [own] at found
    cases found
    exact apart _ rfl
  · intro mem
    obtain ⟨d, hd, -⟩ := ((lineage.dependents edits.found).2 v).mp mem
    rw [edits.below v mem d hd] at found
    cases found
    exact apart _ rfl

theorem Edits.revises {c : ClassFace} (edits : h.Edits t owner c) (after : After h t)
    (lineage : h.Lineage) : h.Revises t := by
  have iff := (lineage.dependents edits.found).2
  have live {v} (mem : v ∈ c.dependents) : h.face v ≠ none := by
    obtain ⟨d, hd, -⟩ := (iff v).mp mem
    simp [hd]
  -- a class other than the edited one keeps its attributes
  have same {v d} (ne : v ≠ owner) (found : h.face v = some (.classObject d)) :
      ∃ e, t.face v = some (.classObject e) ∧ e.mro = d.mro ∧ e.dependents = d.dependents ∧
        d.version ≤ e.version ∧ e.attributes = d.attributes := by
    by_cases mem : v ∈ c.dependents
    · exact ⟨_, edits.below v mem d found, rfl, rfl, by simp, rfl⟩
    · exact ⟨d, (edits.other v ne mem).trans found, rfl, rfl, Nat.le_refl _, rfl⟩
  refine ⟨fun hi => after.2.issued hi, fun {v} _ none => ?_, by rw [edits.shapes],
    fun {v d} found => ?_, fun {v d} found => ?_, fun {v ds} found => .inl ?_,
    fun found => edits.kept found (by simp) lineage⟩
  · rw [edits.other v, none]
    · rintro rfl
      simp [edits.found] at none
    · exact fun mem => live mem none
  · by_cases own : v = owner
    · subst own
      rw [edits.found] at found
      cases found
      obtain ⟨attributes, own⟩ := edits.own
      exact ⟨_, own, rfl, rfl, by simp, by simp⟩
    · obtain ⟨e, he, mro, dependents, le, attributes⟩ := same own found
      refine ⟨e, he, mro, dependents, le, fun eq a ha => ?_⟩
      have outside : owner ∉ d.mro := by
        intro mem
        have bumped := edits.below v ((iff v).mpr ⟨d, found, mem⟩) d found
        rw [he] at bumped
        cases bumped
        simp at eq
      rcases List.mem_cons.mp ha with rfl | ha
      · exact ⟨d, e, found, he, attributes⟩
      · obtain ⟨b, hb⟩ := lineage.ancestors found a ha
        obtain ⟨f, hf, -, -, -, kept⟩ := same (fun eq => outside (eq ▸ ha)) hb
        exact ⟨b, f, hb, hf, kept⟩
  · by_contra none
    refine none ?_
    by_cases own : v = owner
    · exact ⟨c, own ▸ edits.found⟩
    · by_cases mem : v ∈ c.dependents
      · obtain ⟨e, he, -⟩ := (iff v).mp mem
        exact ⟨e, he⟩
      · exact ⟨d, (edits.other v own mem).symm.trans found⟩
  · exact edits.back found (by simp) lineage

/-! ### Instances -/

/-- The face of an object with attributes of its own: an instance, or an exception. -/
def attributed (cls : Value) (stops : Option Bool) (a : Attributes) : Face :=
  stops.elim (.instanceObject cls a) (.exception cls a)

/-- A store of a name that is not part of the layout, or what a deletion leaves. -/
def Stored (h t : Heap) (stops : Option Bool) (a b : Attributes) : Prop :=
  (∃ name value, name ≠ "__dict__" ∧ (stops = some true → name ≠ "value") ∧
    a.set h.shapes name value = (b, t.shapes)) ∨
  ∃ values, b = .dictionary values ∧ t.shapes = h.shapes

/-- An instance has new attributes. -/
structure Refits (h t : Heap) (owner : Value) : Prop where
  own : ∃ cls stops a b, h.face owner = some (attributed cls stops a) ∧
    t.face owner = some (attributed cls stops b) ∧ Stored h t stops a b
  other : ∀ v, v ≠ owner → t.face v = h.face v

theorem Refits.shapes (refits : h.Refits t owner) : h.shapes.nodes <+: t.shapes.nodes := by
  obtain ⟨cls, stops, a, b, -, -, ⟨name, value, -, -, set⟩ | ⟨values, -, same⟩⟩ := refits.own
  · have grown := Attributes.shapes_set a h.shapes name value
    rwa [set] at grown
  · rw [same]

theorem Refits.same (refits : h.Refits t owner) {f : Face} (found : h.face v = some f)
    (apart : ∀ cls stops a, f ≠ attributed cls stops a) : t.face v = some f := by
  rw [refits.other v, found]
  rintro rfl
  obtain ⟨cls, stops, a, b, old, -, -⟩ := refits.own
  rw [old] at found
  cases found
  exact apart _ _ _ rfl

theorem Refits.back (refits : h.Refits t owner) {f : Face} (found : t.face v = some f)
    (apart : ∀ cls stops a, f ≠ attributed cls stops a) : h.face v = some f := by
  rw [← refits.other v, found]
  rintro rfl
  obtain ⟨cls, stops, a, b, -, new, -⟩ := refits.own
  rw [new] at found
  cases found
  exact apart _ _ _ rfl

theorem Refits.revises (refits : h.Refits t owner) (after : After h t) (lineage : h.Lineage) :
    h.Revises t := by
  have apart {f : Face} (plain : (∃ c, f = .classObject c) ∨ (∃ ds, f = .namespaceObject ds) ∨
      ∃ b, f = .builtin b) (cls : Value) (stops : Option Bool) (a : Attributes) :
      f ≠ attributed cls stops a := by
    rcases plain with ⟨c, rfl⟩ | ⟨ds, rfl⟩ | ⟨b, rfl⟩ <;> cases stops <;> simp [attributed]
  have same {v c} (found : h.face v = some (.classObject c)) :=
    refits.same found (apart (.inl ⟨c, rfl⟩))
  constructor
  · intro v issued
    exact after.2.issued issued
  · intro v _ none
    rw [refits.other v, none]
    rintro rfl
    obtain ⟨cls, stops, a, b, old, -⟩ := refits.own
    simp [old] at none
  · exact refits.shapes
  · intro v c found
    refine ⟨c, same found, rfl, rfl, Nat.le_refl _, fun _ a ha => ?_⟩
    obtain ⟨b, -, hb, -⟩ := lineage.sameAttributes found a ha
    exact ⟨b, b, hb, same hb, rfl⟩
  · intro v d found
    exact ⟨_, refits.back found (apart (.inl ⟨d, rfl⟩))⟩
  · intro v ds found
    exact .inl (refits.back found (apart (.inr (.inl ⟨ds, rfl⟩))))
  · intro v b found
    exact refits.same found (apart (.inr (.inr ⟨b, rfl⟩)))

/-! ### Mutations of attributes -/

/-- A mutation shows an edit of one class or of one instance at most. -/
def Shows (h t : Heap) (owner : Value) : Prop :=
  h.Keeps t ∨ (∃ c, h.Edits t owner c) ∨ h.Refits t owner

theorem Shows.revises (shows' : h.Shows t owner) (hv : h.Valid) (after : After h t)
    (lineage : h.Lineage) : h.Revises t := by
  rcases shows' with keeps | ⟨c, edits⟩ | refits
  · exact keeps.revises hv after lineage
  · exact edits.revises after lineage
  · exact refits.revises after lineage

/-- A mutation carries the classes along if it shows an edit at most. -/
theorem wp_carries {α : Type} {m : HeapM α} (hv : h.Valid)
    (after : wp m (fun _ => After h) (After h) h)
    (shows' : h.Lineage → wp m (fun _ t => h.Shows t owner) (h.Shows · owner) h) :
    wp m (fun _ => h.Carries) h.Carries h := by
  by_cases lineage : h.Lineage
  · apply wp_mono (wp_and after (shows' lineage))
    · intro _ t ⟨after, shows'⟩
      exact (shows'.revises hv after lineage).carries after
    · intro t ⟨after, shows'⟩
      exact (shows'.revises hv after lineage).carries after
  · apply wp_mono after
    · intro _ t after
      exact ⟨after, fun l => absurd l lineage⟩
    · intro t after
      exact ⟨after, fun l => absurd l lineage⟩

theorem wp_keeps_carries {α : Type} {m : HeapM α} (hv : h.Valid)
    (after : wp m (fun _ => After h) (After h) h) (keeps : wp m (fun _ => h.Keeps) h.Keeps h) :
    wp m (fun _ => h.Carries) h.Carries h :=
  wp_mono (wp_and after keeps) (fun _ _ ⟨after, keeps⟩ => keeps.carries hv after)
    fun _ ⟨after, keeps⟩ => keeps.carries hv after

section Attributes

theorem face_writeBarrier : (h.writeBarrier owner value).face = h.face := by
  funext v
  simp [face]

theorem Lineage.writeBarrier (lineage : h.Lineage) : (h.writeBarrier owner value).Lineage := by
  obtain ⟨ancestors, proper, dependents, namespaces⟩ := lineage
  exact ⟨by rwa [face_writeBarrier], by rwa [face_writeBarrier], by rwa [face_writeBarrier],
    by rwa [face_writeBarrier]⟩

theorem Edits.writeBarrier {c : ClassFace} (edits : (h.writeBarrier owner value).Edits t v c) :
    h.Edits t v c := by
  obtain ⟨found, shapes, own, below, other⟩ := edits
  rw [face_writeBarrier] at found below other
  exact ⟨found, by simpa using shapes, own, below, other⟩

theorem setClassAttr_shows (lineage : h.Lineage) (distinct : h.Distinct) :
    wp (setClassAttr owner name value) (fun _ t => h.Shows t owner) (h.Shows · owner) h := by
  have stays : h.Shows h owner := .inl (.refl h)
  have barred : h.Shows (h.writeBarrier owner value) owner := .inl ((Keeps.refl h).barrier ..)
  simp only [setClassAttr, wp_bind]
  refine wp_reading_intro stays fun _ _ => ?_
  split
  · exact stays
  rw [wp_bind]
  refine wp_getObject stays fun o ho => ?_
  split
  case h_2 => exact stays
  split
  · exact stays
  simp only [wp_bind, wp_writeBarrier]
  refine wp_reading_intro barred fun targets ok => ?_
  obtain ⟨c, hc, rfl⟩ := classInvalidationTargets_ok lineage.writeBarrier ok
  have got : (h.writeBarrier owner value).get owner = .ok (.classObject c) := by
    simp only [Heap.get, hc]
  simp only [getObject, wp_reading, got]
  rw [wp_bind]
  refine wp_mono (wp_editClass lineage.writeBarrier (distinct_writeBarrier distinct) hc _ _)
    (fun _ s run => ?_) fun _ => False.elim
  exact wp_mono run (fun _ t edits => .inr (.inl ⟨_, edits.writeBarrier⟩)) fun _ => False.elim

theorem deleteClassAttr_shows (lineage : h.Lineage) (distinct : h.Distinct) :
    wp (deleteClassAttr owner name) (fun _ t => h.Shows t owner) (h.Shows · owner) h := by
  have stays : h.Shows h owner := .inl (.refl h)
  simp only [deleteClassAttr, wp_bind]
  refine wp_getObject stays fun o ho => ?_
  split
  case h_2 => exact stays
  split
  · exact stays
  split
  · exact stays
  rw [wp_bind]
  refine wp_reading_intro stays fun targets ok => ?_
  obtain ⟨c, hc, rfl⟩ := classInvalidationTargets_ok lineage ok
  rw [ho] at hc
  cases hc
  rw [wp_bind]
  refine wp_mono (wp_editClass lineage distinct ho _ _) (fun _ s run => ?_) fun _ => False.elim
  exact wp_mono run (fun _ t edits => .inr (.inl ⟨_, edits⟩)) fun _ => False.elim

/-- The new attributes go into the object, which is an instance or an exception. -/
theorem Refits.of_replaced {s : Heap} {a b : Attributes} (faces : s.face = h.face)
    (ho : h.tryGet owner = some o) (ha : o.attributes = some a)
    (hb : o.withAttributes b = some o') (replaced : s.Replaced t owner o')
    (stored : ∀ cls stops, h.face owner = some (attributed cls stops a) →
      Stored h t stops a b) : h.Refits t owner := by
  have old : h.face owner = some o.face := by simp [face, ho]
  have new : t.face owner = some o'.face := by simp [face, replaced.get]
  constructor
  · cases o <;> cases ha <;> cases hb
    · exact ⟨_, none, _, _, old, new, stored _ _ old⟩
    · exact ⟨_, some _, _, _, old, new, stored _ _ old⟩
  · intro v ne
    rw [← faces]
    simp [face, replaced.get, ne]

theorem setInstanceAttr_shows {cls : Value} (distinct : h.Distinct)
    (open' : ∀ cls a, h.face owner = some (.exception cls a true) → name ≠ "value") :
    wp (setInstanceAttr owner cls name value) (fun _ t => h.Shows t owner)
      (h.Shows · owner) h := by
  have stays : h.Shows h owner := .inl (.refl h)
  have barred : h.Shows (h.writeBarrier owner value) owner := .inl ((Keeps.refl h).barrier ..)
  simp only [setInstanceAttr, wp_bind]
  refine wp_classOf stays fun c _ => ?_
  split
  · exact stays
  split
  · exact stays
  next plain =>
  simp only [wp_bind, wp_writeBarrier]
  refine wp_getObject barred fun o ho => ?_
  cases ha : o.attributes with
  | none => exact barred
  | some a =>
    simp only [wp_bind, wp_get, wp_set, shapes_writeBarrier]
    cases set : a.set h.shapes name value with
    | mk b shapes =>
      cases hb : o.withAttributes b with
      | none => cases o <;> cases ha <;> cases hb
      | some o' =>
        refine wp_mono (wp_setObject_replaced (o := o) (distinct_writeBarrier distinct) ho)
          (fun _ t replaced => .inr (.inr ?_)) fun _ => False.elim
        have faces : Heap.face { h.writeBarrier owner value with shapes } = h.face :=
          face_writeBarrier
        refine .of_replaced faces (by simpa using ho) ha hb replaced
          fun cls stops found => .inl ⟨name, value, ?_, ?_, ?_⟩
        · rintro rfl
          simp [layoutNames] at plain
        · rintro rfl
          exact open' cls a found
        · rw [set, replaced.shapes]

theorem deleteInstanceAttr_shows {cls : Value} (distinct : h.Distinct) :
    wp (deleteInstanceAttr owner cls name) (fun _ t => h.Shows t owner) (h.Shows · owner) h := by
  have stays : h.Shows h owner := .inl (.refl h)
  simp only [deleteInstanceAttr, wp_bind]
  refine wp_classOf stays fun c _ => ?_
  split
  · exact stays
  rw [wp_bind]
  refine wp_getObject stays fun o ho => ?_
  cases ha : o.attributes with
  | none => exact stays
  | some a =>
    simp only [wp_bind, wp_get]
    cases deleted : a.delete h.shapes name with
    | none => exact stays
    | some found =>
      obtain ⟨old, b⟩ := found
      simp only
      cases hb : o.withAttributes b with
      | none => exact stays
      | some o' =>
        refine wp_mono (wp_setObject_replaced distinct ho) (fun _ t replaced => .inr (.inr ?_))
          fun _ => False.elim
        refine .of_replaced rfl ho ha hb replaced fun _ _ _ => .inr ?_
        cases a <;> obtain ⟨_, -, eq⟩ := Option.map_eq_some_iff.mp deleted <;> cases eq <;>
          exact ⟨_, rfl, replaced.shapes⟩

theorem setPlainAttr_shows (lineage : h.Lineage) (distinct : h.Distinct)
    (open' : ∀ cls a, h.face owner = some (.exception cls a true) → name ≠ "value") :
    wp (setPlainAttr owner name value) (fun _ t => h.Shows t owner) (h.Shows · owner) h := by
  simp only [setPlainAttr, wp_bind]
  refine wp_getObject (.inl (.refl h)) fun o _ => ?_
  split
  · exact setInstanceAttr_shows distinct open'
  · exact setClassAttr_shows lineage distinct

theorem deletePlainAttr_shows (lineage : h.Lineage) (distinct : h.Distinct) :
    wp (deletePlainAttr owner name) (fun _ t => h.Shows t owner) (h.Shows · owner) h := by
  simp only [deletePlainAttr, wp_bind]
  refine wp_getObject (.inl (.refl h)) fun o _ => ?_
  split
  · exact deleteInstanceAttr_shows distinct
  · exact deleteClassAttr_shows lineage distinct

theorem wp_keeps_shows {α : Type} {m : HeapM α} (keeps : wp m (fun _ => h.Keeps) h.Keeps h) :
    wp m (fun _ t => h.Shows t owner) (h.Shows · owner) h :=
  wp_mono keeps (fun _ _ => .inl) fun _ => .inl

theorem setAttr_shows (lineage : h.Lineage) (distinct : h.Distinct) :
    wp (setAttr owner name value) (fun _ t => h.Shows t owner) (h.Shows · owner) h := by
  have plain (other : ∀ e, h.tryGet owner ≠ some (.exception e)) (cls : Value) (a : Attributes)
      (found : h.face owner = some (.exception cls a true)) : name ≠ "value" := by
    obtain ⟨o, ho, eq⟩ := Option.map_eq_some_iff.mp found
    cases o with
    | exception e => exact absurd ho (other e)
    | _ => cases eq
  simp only [setAttr, wp_bind, wp_tryGetObject]
  split
  · exact wp_keeps_shows (addModuleMember_keeps (.refl h))
  · next f ho =>
    split
    · exact wp_keeps_shows (setAnnotations_keeps (.refl h) ho)
    · exact setPlainAttr_shows lineage distinct (plain (by simp [ho]))
  · next e ho =>
    split
    · next stops => exact wp_keeps_shows (setStopValue_keeps (.refl h) ho stops.2)
    · next other =>
      refine setPlainAttr_shows lineage distinct fun cls a found named => ?_
      simp only [face, ho, Option.map_some, Object.face, Option.some.injEq,
        Face.exception.injEq] at found
      exact other ⟨named, found.2.2⟩
  · next other => exact setPlainAttr_shows lineage distinct (plain fun e ho => other e ho)

theorem delAttr_shows (lineage : h.Lineage) (distinct : h.Distinct) :
    wp (delAttr owner name) (fun _ t => h.Shows t owner) (h.Shows · owner) h := by
  simp only [delAttr, wp_bind, wp_tryGetObject]
  split
  · exact wp_keeps_shows (deleteModuleMember_keeps (.refl h))
  · next f ho =>
    split
    · exact wp_keeps_shows (wp_setObject_kept (.refl h) ho rfl)
    · exact deletePlainAttr_shows lineage distinct
  · next e ho =>
    split
    · next stops =>
      exact wp_keeps_shows (wp_setObject_kept (.refl h) ho (by simp [Object.face, stops.2]))
    · exact deletePlainAttr_shows lineage distinct
  · exact deletePlainAttr_shows lineage distinct

theorem setAttr_carries (hs : Sound h) (issued : h.Issued value) :
    wp (setAttr owner name value) (fun _ => h.Carries) h.Carries h :=
  wp_carries hs.valid (setAttr_after hs issued) fun lineage =>
    setAttr_shows lineage hs.valid.distinct

theorem delAttr_carries (hs : Sound h) :
    wp (delAttr owner name) (fun _ => h.Carries) h.Carries h :=
  wp_carries hs.valid (delAttr_after hs) fun lineage => delAttr_shows lineage hs.valid.distinct

end Attributes

end Heap

end Tonic
