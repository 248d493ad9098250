import Tonic.ClassEdits

/-!
## Completion of classes

A namespace that becomes a class enters itself with each of its ancestors.
-/

namespace Tonic

open Effect

/-- No candidate comes twice. -/
theorem nodup_c3Merge {sequences : List (List Value)} {mro : List Value}
    (h : c3Merge sequences = .ok mro) : mro.Nodup :=
  (c3Merge_eq_ok.mp h).agrees.nodup

theorem class_lineages {h : Heap} {seen bases : List Value} {ls : List (List Value)}
    (hl : lineages h seen bases = .ok ls) {v : Value} (hv : v ∈ bases) :
    ∃ c, h.classOf v = .ok c := by
  induction bases generalizing seen ls with
  | nil => cases hv
  | cons base rest ih =>
    simp only [lineages, bind, Except.bind] at hl
    split at hl
    · cases hl
    · cases hc : h.classOf base with
      | error e => simp [hc] at hl
      | ok c =>
        simp only [hc] at hl
        rcases List.mem_cons.mp hv with rfl | hv
        · exact ⟨c, hc⟩
        · cases hr : lineages h (seen ++ [base]) rest with
          | error e => simp [hr] at hl
          | ok ls => exact ih hr hv

namespace Heap

variable {h t : Heap} {ns v : Value}

/-- The ancestors of a class to be are classes, each named once. -/
theorem Lineage.linearize (lineage : h.Lineage) {bases mro : List Value}
    (hl : Tonic.linearize h bases = .ok mro) :
    mro.Nodup ∧ ∀ v ∈ mro, ∃ c, h.tryGet v = some (.classObject c) := by
  have classes {v} : v ∈ mro → ∃ c, h.tryGet v = some (.classObject c) := by
    intro hv
    rcases mem_linearize hl hv with mem | ⟨base, c, -, found, mem⟩
    · unfold Tonic.linearize at hl
      cases ls : lineages h [] bases with
      | error e => simp [ls, bind, Except.bind] at hl
      | ok sequences =>
        obtain ⟨c, hc⟩ := class_lineages ls mem
        exact ⟨c, classOf_eq_ok hc⟩
    · obtain ⟨b, hb⟩ := lineage.ancestors (face_eq_class.mpr ⟨c, classOf_eq_ok found, rfl⟩) v mem
      obtain ⟨o, ho, -⟩ := face_eq_class.mp hb
      exact ⟨o, ho⟩
  refine ⟨?_, fun v => classes⟩
  unfold Tonic.linearize at hl
  cases ls : lineages h [] bases with
  | error e => simp [ls, bind, Except.bind] at hl
  | ok sequences =>
    simp only [ls, bind, Except.bind] at hl
    exact nodup_c3Merge hl

/-- The namespace is a class now, and its ancestors know it. -/
structure Installs (h t : Heap) (ns : Value) (c : ClassFace) : Prop where
  found : ∃ ds, h.face ns = some (.namespaceObject ds)
  own : t.face ns = some (.classObject c)
  ancestors : ∀ a ∈ c.mro, ∃ b, h.face a = some (.classObject b)
  above : ∀ a ∈ c.mro, ∀ b, h.face a = some (.classObject b) →
    t.face a = some (.classObject { b with dependents := b.dependents ++ [ns] })
  other : ∀ v, v ≠ ns → v ∉ c.mro → t.face v = h.face v
  alone : c.dependents = []
  shapes : t.shapes = h.shapes

namespace Installs

variable {c : ClassFace} (i : h.Installs t ns c)
include i

theorem apart {d : ClassFace} (found : h.face v = some (.classObject d)) : v ≠ ns := by
  rintro rfl
  obtain ⟨ds, old⟩ := i.found
  rw [old] at found
  cases found

theorem proper : ns ∉ c.mro := fun mem =>
  have ⟨_, hb⟩ := i.ancestors ns mem
  i.apart hb rfl

theorem old {d : ClassFace} (found : h.face v = some (.classObject d)) :
    t.face v = some (.classObject
      { d with dependents := if v ∈ c.mro then d.dependents ++ [ns] else d.dependents }) := by
  by_cases mem : v ∈ c.mro
  · rw [if_pos mem, i.above v mem d found]
  · rw [if_neg mem, i.other v (i.apart found) mem, found]

theorem back {f : Face} (found : t.face v = some f) (ne : v ≠ ns) :
    h.face v = some f ∨ ∃ d, h.face v = some (.classObject d) := by
  by_cases mem : v ∈ c.mro
  · exact .inr (i.ancestors v mem)
  · exact .inl ((i.other v ne mem).symm.trans found)

theorem class_back {d : ClassFace} (found : t.face v = some (.classObject d)) (ne : v ≠ ns) :
    ∃ e, h.face v = some (.classObject e) ∧ e.mro = d.mro := by
  rcases i.back found ne with old | ⟨e, old⟩
  · exact ⟨d, old, rfl⟩
  · rw [i.old old] at found
    cases found
    exact ⟨e, old, rfl⟩

theorem lineage (lineage : h.Lineage) : t.Lineage := by
  have made {v d} (found : t.face v = some (.classObject d)) (own : v = ns) : d = c := by
    rw [own, i.own] at found
    cases found
    rfl
  refine ⟨fun {v d} found a ha => ?_, fun {v d} found => ?_, fun {v d} found => ?_,
    fun {v ds} found => ?_⟩
  · have ⟨b, hb⟩ : ∃ b, h.face a = some (.classObject b) := by
      by_cases own : v = ns
      · exact i.ancestors a (made found own ▸ ha)
      · obtain ⟨e, he, mro⟩ := i.class_back found own
        exact lineage.ancestors he a (mro ▸ ha)
    exact ⟨_, i.old hb⟩
  · by_cases own : v = ns
    · rw [made found own, own]
      exact i.proper
    · obtain ⟨e, he, mro⟩ := i.class_back found own
      exact mro ▸ lineage.proper he
  · -- below a class: what was below it, and the new class if it is an ancestor of that
    have below (w : Value) : (∃ e, t.face w = some (.classObject e) ∧ v ∈ e.mro) ↔
        (w = ns ∧ v ∈ c.mro) ∨ ∃ e, h.face w = some (.classObject e) ∧ v ∈ e.mro := by
      constructor
      · rintro ⟨e, he, mem⟩
        by_cases own : w = ns
        · exact .inl ⟨own, made he own ▸ mem⟩
        · obtain ⟨e', he', mro⟩ := i.class_back he own
          exact .inr ⟨e', he', mro ▸ mem⟩
      · rintro (⟨rfl, mem⟩ | ⟨e, he, mem⟩)
        · exact ⟨c, i.own, mem⟩
        · exact ⟨_, i.old he, mem⟩
    by_cases own : v = ns
    · rw [made found own, i.alone]
      refine ⟨List.nodup_nil, fun w => ⟨fun mem => absurd mem List.not_mem_nil, fun below' => ?_⟩⟩
      rcases (below w).mp below' with ⟨-, mem⟩ | ⟨e, he, mem⟩
      · exact absurd (own ▸ mem) i.proper
      · obtain ⟨b, hb⟩ := lineage.ancestors he v mem
        exact absurd own (i.apart hb)
    · obtain ⟨e, he, -⟩ := i.class_back found own
      rw [i.old he] at found
      cases found
      obtain ⟨nodup, iff⟩ := lineage.dependents he
      by_cases mem : v ∈ c.mro
      · simp only [mem, if_true]
        refine ⟨List.nodup_append.mpr ⟨nodup, by simp, fun w hw x hx => ?_⟩, fun w => ?_⟩
        · obtain ⟨d, hd, -⟩ := (iff w).mp hw
          cases List.mem_singleton.mp hx
          exact i.apart hd
        · rw [below w, List.mem_append, iff w, List.mem_singleton]
          simp [mem, or_comm]
      · simp only [mem, if_false]
        refine ⟨nodup, fun w => ?_⟩
        rw [below w, iff w]
        simp [mem]
  · by_cases own : v = ns
    · rw [own, i.own] at found
      cases found
    · rcases i.back found own with old | ⟨d, old⟩
      · exact lineage.namespaces old
      · rw [i.old old] at found
        cases found

theorem later (lineage : h.Lineage) (after : After h t) : h.Later t where
  issued hi := after.2.issued hi
  gone {v} _ none := by
    rw [i.other v, none]
    · rintro rfl
      obtain ⟨ds, old⟩ := i.found
      simp [old] at none
    · intro mem
      obtain ⟨b, hb⟩ := i.ancestors v mem
      simp [hb] at none
  shapes := by rw [i.shapes]
  classes {v d} found _ := by
    refine ⟨_, i.old found, rfl, Nat.le_refl _, fun _ a ha => ?_⟩
    obtain ⟨b, -, hb, -⟩ := lineage.sameAttributes found a ha
    refine ⟨b, _, hb, i.old hb, rfl, fun m _ f hf => ?_⟩
    rw [i.other m.2, hf]
    · rintro rfl
      obtain ⟨ds, old⟩ := i.found
      simp [old] at hf
    · intro mem
      obtain ⟨e, he⟩ := i.ancestors m.2 mem
      simp [he] at hf

end Installs

theorem wp_addDependent {a : Value} {c : Class} (distinct : h.Distinct)
    (hc : h.tryGet a = some (.classObject c)) :
    wp (addDependent ns a)
      (fun _ t => h.Replaced t a (.classObject { c with dependents := c.dependents ++ [ns] }))
      (fun _ => False) h := by
  have got : h.get a = .ok (.classObject c) := by simp [Heap.get, hc]
  simp only [addDependent, getObject, wp_bind, wp_reading, got]
  exact wp_setObject_replaced distinct hc

/-- The namespace `ns` is a class with these ancestors now, and they all know it. -/
structure Entered (h t : Heap) (ns : Value) (c : Class) (mro : List Value) : Prop where
  own : t.tryGet ns =
    some (.classObject { c with id := h.nextType + 1, version := 1, mro })
  other : ∀ v, v ≠ ns → t.tryGet v =
    if v ∈ mro then (h.tryGet v).map (Object.mapClass fun c =>
      { c with dependents := c.dependents ++ [ns] }) else h.tryGet v
  shapes : t.shapes = h.shapes

/-- The last steps of the completion, once the ancestors are in order. -/
theorem wp_enter {c : Class} {mro : List Value} (distinct : h.Distinct)
    (ho : h.tryGet ns = some (.namespaceObject c)) (nodup : mro.Nodup)
    (classes : ∀ v ∈ mro, ∃ d, h.tryGet v = some (.classObject d)) :
    wp (do
      setObject ns (.classObject { c with id := h.nextType + 1, version := 1, mro })
      mro.forM (addDependent ns))
      (fun _ t => h.Entered t ns c mro) (fun _ => False)
      { h with nextType := h.nextType + 1 } := by
  have out : ns ∉ mro := by
    intro mem
    obtain ⟨d, hd⟩ := classes ns mem
    rw [ho] at hd
    cases hd
  rw [wp_bind]
  refine wp_mono (wp_setObject_replaced (h := { h with nextType := h.nextType + 1 }) distinct ho)
    (fun _ s stored => ?_) fun _ => False.elim
  have others : ∀ v, v ≠ ns → s.tryGet v = h.tryGet v := fun v ne => by
    rw [stored.get, Function.update_of_ne ne]
    rfl
  have kept : ∀ v ∈ mro, ∃ d, s.tryGet v = some (.classObject d) := by
    intro v hv
    obtain ⟨d, hd⟩ := classes v hv
    exact ⟨d, (others v fun eq => out (eq ▸ hv)).trans hd⟩
  refine wp_mono (wp_forM_classes (fun distinct hc => wp_addDependent distinct hc) nodup
    stored.distinct kept) ?_ fun _ => False.elim
  rintro _ t ⟨-, shapes, get⟩
  constructor
  · rw [get ns, if_neg out, stored.get, Function.update_self]
  · intro v ne
    rw [get v, others v ne]
  · exact shapes.trans stored.shapes

/-- The completion of a class either enters it everywhere or leaves the classes alone. -/
theorem wp_installClass (distinct : h.Distinct) (lineage : h.Lineage) :
    wp (installClass ns) (fun _ t => ∃ c, h.Installs t ns c) h.Keeps h := by
  have stays := Keeps.refl h
  simp only [installClass, wp_bind]
  refine wp_getObject stays fun o ho => ?_
  split
  case h_2 => exact stays
  next c =>
  simp only [wp_bind]
  refine wp_reading_intro stays fun _ _ => wp_reading_intro stays fun mro hm => ?_
  simp only [nextTypeId, wp_bind, wp_get]
  split
  · exact stays
  obtain ⟨nodup, classes⟩ := lineage.linearize hm
  have found : h.face ns = some (.namespaceObject c.dependents) := by simp [face, ho, Object.face]
  have entered := wp_enter distinct ho nodup classes
  simp only [wp_bind] at entered
  simp only [wp_bind, wp_set, wp_pure]
  refine wp_mono entered (fun _ s stored => ?_) fun _ => False.elim
  refine wp_mono stored (fun _ t entered => ?_) fun _ => False.elim
  have apart {v : Value} (hv : v ∈ mro) : v ≠ ns := by
    rintro rfl
    obtain ⟨d, hd⟩ := classes v hv
    rw [ho] at hd
    cases hd
  refine ⟨⟨c.attributes, mro, 1, c.dependents⟩, ⟨c.dependents, found⟩, ?_, fun a ha => ?_,
    fun a ha b hb => ?_, fun v ne out => ?_, lineage.namespaces found, entered.shapes⟩
  · exact face_eq_class.mpr ⟨_, entered.own, rfl⟩
  · obtain ⟨d, hd⟩ := classes a ha
    exact ⟨_, face_eq_class.mpr ⟨d, hd, rfl⟩⟩
  · obtain ⟨o, ho, rfl⟩ := face_eq_class.mp hb
    refine face_eq_class.mpr ⟨{ o with dependents := o.dependents ++ [ns] }, ?_, rfl⟩
    rw [entered.other a (apart ha), if_pos ha, ho, Option.map_some, Object.mapClass]
  · simp [face, entered.other v ne, out]

theorem installClass_carries (hs : Sound h) :
    wp (installClass ns) (fun _ => h.Carries) h.Carries h := by
  by_cases lineage : h.Lineage
  · refine wp_mono (wp_and (installClass_after hs.after)
      (wp_installClass hs.valid.distinct lineage)) ?_ ?_
    · rintro _ t ⟨after, c, installs⟩
      exact ⟨after, fun _ => ⟨installs.lineage lineage, installs.later lineage after⟩⟩
    · rintro t ⟨after, keeps⟩
      exact keeps.carries hs.valid after
  · exact wp_mono (installClass_after hs.after)
      (fun _ _ after => ⟨after, fun l => absurd l lineage⟩)
      fun _ after => ⟨after, fun l => absurd l lineage⟩

theorem finishClass_carries [HostLibrary] (hs : Sound h) :
    wp (finishClass ns) (fun _ => h.Carries) h.Carries h := by
  -- what is shown on the way is carried along
  have ended {t : Heap} : After h t ∧ h.Keeps t → h.Carries t := fun ht => ht.2.carries hs.valid ht.1
  have rest {t : Heap} (ht : After h t ∧ h.Keeps t) :
      wp (wrapNew ns) (fun _ => wp (clearHash ns)
        (fun _ => wp (installClass ns) (fun _ => h.Carries) h.Carries) h.Carries) h.Carries t := by
    refine wp_mono (wp_and (wrapNew_after ht.1) (wrapNew_keeps ht.2)) (fun _ u hu => ?_)
      fun _ => ended
    refine wp_mono (wp_and (clearHash_after hu.1) (clearHash_keeps hu.2)) (fun _ w hw => ?_)
      fun _ => ended
    exact wp_mono (installClass_carries hw.1.1) (fun _ _ => (ended hw).trans hs.valid)
      fun _ => (ended hw).trans hs.valid
  simp only [finishClass, wp_bind]
  refine wp_getObject (.refl hs) fun o ho => ?_
  split
  · split
    · simp only [wp_bind]
      exact wp_mono (wp_and (materializeMapping_after hs) (materializeMapping_keeps (.refl h)))
        (fun _ _ => rest) fun _ => ended
    · simp only [wp_bind]
      exact rest ⟨hs.after, .refl h⟩
  · exact .refl hs

end Heap

end Tonic
