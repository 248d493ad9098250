import Tonic.MethodOrder
import Tonic.MutatorsSound

/-!
## Class and attribute mutations and the remembered set
-/

namespace Tonic

open Effect

/-! ### Ancestors come from the lineages -/

theorem mem_c3Merge {sequences : List (List Value)} {mro : List Value}
    (h : c3Merge sequences = .ok mro) {v : Value} (hv : v ∈ mro) : ∃ s ∈ sequences, v ∈ s :=
  ((c3Merge_eq_ok.mp h).agrees.mem v).mp hv

theorem mem_lineages {h : Heap} {seen bases : List Value} {ls : List (List Value)}
    (hl : lineages h seen bases = .ok ls) {s : List Value} (hs : s ∈ ls) :
    ∃ base c, base ∈ bases ∧ h.classOf base = .ok c ∧ s = base :: c.mro := by
  induction bases generalizing seen ls with
  | nil =>
    cases hl
    cases hs
  | cons base rest ih =>
    simp only [lineages, bind, Except.bind] at hl
    split at hl
    · cases hl
    · cases hc : h.classOf base with
      | error e => simp [hc] at hl
      | ok c =>
        simp only [hc] at hl
        cases hr : lineages h (seen ++ [base]) rest with
        | error e => simp [hr] at hl
        | ok ls' =>
          simp only [hr, pure, Except.pure, Except.ok.injEq] at hl
          subst hl
          rcases List.mem_cons.mp hs with rfl | hs
          · exact ⟨base, c, by simp, hc, rfl⟩
          · obtain ⟨b, c', hb, rest⟩ := ih hr hs
            exact ⟨b, c', by simp [hb], rest⟩

/-- Every ancestor is a base or an ancestor of a base. -/
theorem mem_linearize {h : Heap} {bases mro : List Value} (hl : linearize h bases = .ok mro)
    {v : Value} (hv : v ∈ mro) :
    v ∈ bases ∨ ∃ base c, base ∈ bases ∧ h.classOf base = .ok c ∧ v ∈ c.mro := by
  unfold linearize at hl
  cases ls : lineages h [] bases with
  | error e => simp [ls, bind, Except.bind] at hl
  | ok sequences =>
    simp only [ls, bind, Except.bind] at hl
    obtain ⟨s, hs, mem⟩ := mem_c3Merge hl hv
    rcases List.mem_append.mp hs with hs | hs
    · obtain ⟨base, c, hb, hc, rfl⟩ := mem_lineages ls hs
      rcases List.mem_cons.mp mem with rfl | mem
      · exact .inl hb
      · exact .inr ⟨base, c, hb, hc, mem⟩
    · cases List.mem_singleton.mp hs
      exact .inl mem

namespace Heap

variable {h h₀ : Heap} {ns owner value : Value} {E : Heap → Prop}

theorem wp_expectNamespace {Q : Class → Heap → Prop} (failed : E h)
    (ok : ∀ c, h.tryGet ns = some (.namespaceObject c) → Q c h) :
    wp (expectNamespace ns) Q E h := by
  simp only [expectNamespace, wp_bind]
  refine wp_getObject failed fun o ho => ?_
  split
  · exact ok _ ho
  · exact failed

theorem Sound.isYoung_ancestor (hs : Sound h) {o : Object} (ho : h.tryGet owner = some o)
    (old : h.isYoung owner = false) {v : Value} (hv : v ∈ o.ancestors) :
    h.isYoung v = false := by
  obtain ⟨e, he, rfl⟩ := tryGet_eq_some.mp ho
  obtain ⟨l, -, stored⟩ := entry_eq_some.mp he
  exact hs.ancestors stored (by simpa [isYoung, he] using old) v hv

/-- The computed ancestors need no barrier: an old class only has old ancestors. -/
theorem Sound.installs (id : Nat) (hs : Sound h) {c : Class} {mro : List Value}
    (hc : h.tryGet ns = some (.namespaceObject c)) (hm : linearize h c.bases = .ok mro) :
    Replaces h ns (.namespaceObject c) (.classObject { c with id, version := 1, mro }) := by
  have aged {v : Value} (hv : v ∈ mro) : h.isYoung ns = true ∨ h.isYoung v = false := by
    cases young : h.isYoung ns with
    | true => exact .inl rfl
    | false =>
      have base {b : Value} (hb : b ∈ c.bases) : h.isYoung b = false :=
        hs.isYoung_ancestor hc young (List.mem_append_left _ hb)
      rcases mem_linearize hm hv with hb | ⟨b, cb, hb, found, hv⟩
      · exact .inr (base hb)
      · exact .inr (hs.isYoung_ancestor (classOf_eq_ok found) (base hb)
          (List.mem_append_right _ hv))
  have issued {v : Value} (hv : v ∈ mro) : h.Issued v := by
    rcases mem_linearize hm hv with hb | ⟨b, cb, -, found, hv⟩
    · exact hs.valid.issued_trace hc (Object.ancestors_traced (List.mem_append_left _ hb))
    · exact hs.valid.issued_trace (classOf_eq_ok found)
        (Object.ancestors_traced (List.mem_append_right _ hv))
  constructor
  · intro v hv
    simp only [Object.trace, Class.trace, List.mem_cons, List.mem_append] at hv ⊢
    rcases hv with hv | hv | hv
    · exact .inl (.inl hv)
    · exact .inl (.inr (.inl hv))
    · refine .inr ⟨issued hv, fun hy e he old => ?_⟩
      rcases aged hv with young | aged
      · simp [isYoung, he, old] at young
      · rw [aged] at hy
        cases hy
  · intro v hv
    rcases List.mem_append.mp hv with hb | hm
    · exact .inl (List.mem_append_left _ hb)
    · exact .inr (aged hm)

/-! ### Class bodies -/

theorem namespaceWithMetaclass_after {qualname : String} {bases : List Value} {metaclass : Value}
    (hs : Sound h) (hb : ∀ v ∈ bases, h.Issued v) (hm : h.Issued metaclass) :
    wp (namespaceWithMetaclass qualname bases metaclass) (fun _ => After h) (After h) h := by
  simp only [namespaceWithMetaclass, wp_bind]
  refine wp_mono (wp_alloc hs (by simp [Object.trace])) ?_ fun _ => id
  rintro moduleName t ⟨base, -, hmod, -⟩
  refine wp_mono (wp_alloc base.1 (by simp [Object.trace])) ?_ fun _ ht => base.trans ht
  rintro qualified u ⟨step, -, hq, -⟩
  refine wp_mono (wp_alloc step.1 fun v hv => ?_) (fun _ _ ht => base.trans (step.trans ht.1))
    fun _ ht => base.trans (step.trans ht)
  simp only [Object.trace, Class.trace, pairs, Option.toList_none, List.map_cons, List.map_nil,
    List.flatMap_nil, List.append_nil, List.nil_append, List.mem_cons, List.mem_append,
    List.not_mem_nil, or_false] at hv
  rcases hv with rfl | (rfl | rfl | rfl) | hv
  · exact step.2.issued (base.2.issued hm)
  · exact step.2.issued hmod
  · exact hq
  · trivial
  · exact step.2.issued (base.2.issued (hb v hv))

theorem namespaceFromMapping_after {qualname : String} {bases : List Value}
    {metaclass mapping : Value} (hs : Sound h) (hb : ∀ v ∈ bases, h.Issued v)
    (hm : h.Issued metaclass) (hd : h.Issued mapping) :
    wp (namespaceFromMapping qualname bases metaclass mapping) (fun _ => After h) (After h) h := by
  refine wp_mono (wp_alloc hs fun v hv => ?_) (fun _ _ ht => ht.1) fun _ => id
  simp only [Object.trace, Class.trace, pairs, Option.toList_some, List.map_nil,
    List.flatMap_nil, List.append_nil, List.mem_cons, List.mem_append, List.not_mem_nil,
    or_false] at hv
  rcases hv with rfl | rfl | hv
  · exact hm
  · exact hd
  · exact hb v hv

theorem namespaceStore_after {name : String} (base : After h₀ h) (hv : h.Issued value) :
    wp (namespaceStore ns name value) (fun _ => After h₀) (After h₀) h := by
  simp only [namespaceStore, wp_bind, wp_writeBarrier]
  obtain ⟨step, issued, covered⟩ := barrierOne base.1 hv
  have base := base.trans step
  refine wp_expectNamespace base fun c hc => ?_
  refine wp_setObject_last base hc (.store issued covered (fun v hv => ?_) fun _ hv => hv)
  simp only [Object.trace, Class.trace, List.mem_cons, List.mem_append] at hv ⊢
  rcases hv with hv | (((hv | hv) | hv) | hv) | hv
  · exact .inl (.inl hv)
  · tauto
  · obtain ⟨m, hm, rfl⟩ := List.mem_map.mp hv
    rcases mem_setMember hm with old | new
    · exact .inl (.inr (.inl (.inl (.inl (.inr (List.mem_map_of_mem old))))))
    · exact .inr (.inl new)
  all_goals tauto

theorem namespaceSet_after [HostLibrary] {name : String} (base : After h₀ h) (hv : h.Issued value) :
    wp (namespaceSet ns name value) (fun _ => After h₀) (After h₀) h := by
  simp only [namespaceSet, wp_bind]
  refine wp_expectNamespace base fun c hc => ?_
  split
  · exact namespaceStore_after base hv
  · rw [wp_bind]
    refine wp_getObject base fun o ho => ?_
    split
    · exact wp_call base (dictSetStr_after base.1 hv)
    · exact base

theorem namespaceDelete_after [HostLibrary] {name : String} (hs : Sound h) :
    wp (namespaceDelete ns name) (fun _ => After h) (After h) h := by
  simp only [namespaceDelete, wp_bind]
  refine wp_expectNamespace hs.after fun c hc => ?_
  split
  · rw [wp_bind]
    refine wp_mono (wp_alloc hs (by simp [Object.trace])) ?_ fun _ => id
    rintro key t ⟨base, -⟩
    exact wp_call base (dictDelete_after base.1)
  · split
    · exact hs.after
    · refine wp_setObject_last hs.after hc (.shrink (fun v hv => ?_) fun _ hv => hv)
      simp only [Object.trace, Class.trace, List.mem_cons, List.mem_append] at hv ⊢
      rcases hv with hv | (((hv | hv) | hv) | hv) | hv
      · exact .inl hv
      · tauto
      · obtain ⟨m, hm, rfl⟩ := List.mem_map.mp hv
        exact .inr (.inl (.inl (.inl (.inr (List.mem_map_of_mem (List.mem_of_mem_eraseP hm))))))
      all_goals tauto

/-- Installing the mapping of a namespace, once it went through the barrier. -/
theorem storeMapping_after {mapping : Value} {c : Class} (base : After h₀ h)
    (hc : h.tryGet ns = some (.namespaceObject c)) (hm : h.Issued mapping)
    (covered : h.Covered ns mapping) :
    wp (setObject ns (.namespaceObject { c with namespaceMapping := some mapping }))
      (fun _ => After h₀) (After h₀) h := by
  have issued : ∀ v ∈ [mapping], h.Issued v := by simpa using hm
  refine wp_setObject_last base hc (.store issued
    (by simpa using covered) (fun v hv => ?_) fun _ hv => hv)
  simp only [Object.trace, Class.trace, List.mem_cons, List.mem_append, Option.toList_some,
    List.not_mem_nil, or_false] at hv ⊢
  tauto

theorem namespaceMapping_after [HostLibrary] (hs : Sound h) :
    wp (namespaceMapping ns) (fun _ => After h) (After h) h := by
  simp only [namespaceMapping, wp_bind]
  refine wp_expectNamespace hs.after fun c hc => ?_
  split
  · exact hs.after
  · simp only [wp_bind, wp_writeBarrier]
    refine wp_mono (wp_alloc hs (by simp [Object.trace, Dict.empty, pairs])) ?_ fun _ => id
    rintro mapping t ⟨base, -, hm, -⟩
    -- the attributes were handed out before the mapping was made
    have issued {m : String × Value} (hm : m ∈ c.attributes) : h.Issued m.2 := by
      refine hs.valid.issued_trace hc ?_
      simp only [Object.trace, Class.trace, List.mem_cons, List.mem_append]
      exact .inr (.inl (.inl (.inl (.inr (List.mem_map_of_mem hm)))))
    refine wp_mono (wp_forM (P := fun u => After h u ∧ u.Issued mapping) (E := After h)
      (fun m hm u hu => ?_) ⟨base, hm⟩) ?_ fun _ => id
    · refine wp_mono (dictSetStr_after hu.1.1 (hu.1.2.issued (issued hm))) ?_
        fun _ ht => hu.1.trans ht
      exact fun _ _ ht => ⟨hu.1.trans ht, ht.2.issued hu.2⟩
    · rintro _ u ⟨base, hm⟩
      obtain ⟨step, issued, covered⟩ := barrierOne base.1 hm
      have base := base.trans step
      refine wp_getObject base fun o ho => ?_
      split
      · rw [wp_bind]
        exact storeMapping_after base ho (issued _ (by simp)) (covered _ (by simp))
      · exact base

theorem namespaceUseMapping_after {mapping : Value} (hs : Sound h) (hm : h.Issued mapping) :
    wp (namespaceUseMapping ns mapping) (fun _ => After h) (After h) h := by
  simp only [namespaceUseMapping, wp_bind]
  refine wp_getObject hs.after fun o ho => ?_
  split
  · simp only [wp_bind, wp_writeBarrier]
    obtain ⟨base, issued, covered⟩ := barrierOne hs hm
    refine wp_expectNamespace base fun c hc => ?_
    exact storeMapping_after base hc (issued _ (by simp)) (covered _ (by simp))
  · exact hs.after

/-! ### Class completion -/

theorem mem_classDictionary {entries : List (Value × Value)} {v : Value} :
    v ∈ (classDictionary h entries).1.map (·.2) ++ pairs (classDictionary h entries).2.1 →
      v ∈ pairs entries := by
  intro hv
  rcases List.mem_append.mp hv with hv | hv
  · obtain ⟨m, hm, rfl⟩ := List.mem_map.mp hv
    obtain ⟨entry, he, eq⟩ := List.mem_filterMap.mp hm
    obtain ⟨name, -, rfl⟩ := Option.map_eq_some_iff.mp eq
    exact mem_pairs.mpr ⟨entry, he, .inr rfl⟩
  · obtain ⟨entry, he, eq⟩ := mem_pairs.mp hv
    exact mem_pairs.mpr ⟨entry, (List.mem_filter.mp he).1, eq⟩

theorem materializeMapping_after {mapping : Value} (hs : Sound h) :
    wp (materializeMapping ns mapping) (fun _ => After h) (After h) h := by
  simp only [materializeMapping, wp_bind]
  refine wp_getObject hs.after fun o ho => ?_
  split
  · simp only [wp_bind, wp_nativeValue, wp_writeBarriers, wp_get]
    refine wp_expectDict hs.after fun d hd => ?_
    have base : After h (h.writeBarriers ns (pairs d.entries)) := hs.writeBarriers
    refine wp_getObject base fun o ho => ?_
    split
    · next c =>
      refine wp_setObject_last base ho (.store (fun v hv => ?_)
        (fun v => covered_writeBarriers) (fun v hv => ?_) fun _ hv => hv)
      · simpa using hs.valid.issued_trace hd hv
      · simp only [Object.trace, Class.trace, Option.toList_none, List.nil_append,
          List.mem_cons, List.mem_append] at hv ⊢
        rcases hv with hv | (hv | hv) | hv
        · exact .inl (.inl hv)
        · exact .inr (mem_classDictionary (List.mem_append.mpr hv))
        all_goals tauto
    · exact base
  · exact hs.after

theorem wrapNew_after [HostLibrary] (base : After h₀ h) :
    wp (wrapNew ns) (fun _ => After h₀) (After h₀) h := by
  simp only [wrapNew, wp_bind]
  refine wp_reading_intro base fun found hf => ?_
  cases found with
  | none => exact base
  | some f =>
    simp only [wp_bind, wp_tryGetObject]
    split
    · next fn eq =>
      rw [wp_bind]
      have issued : h.Issued f := by
        cases f with
        | heap i g =>
          obtain ⟨e, he, -⟩ := tryGet_eq_some.mp eq
          obtain ⟨l, hl, -⟩ := entry_eq_some.mp he
          obtain ⟨_, s, eq, hs, loc⟩ := location_eq_some.mp hl
          cases eq
          refine ⟨s, hs, .inr ⟨rfl, fun free => ?_⟩⟩
          obtain ⟨s', hs', unlocated⟩ := base.1.valid.freed free
          rw [hs] at hs'
          cases hs'
          rw [loc] at unlocated
          cases unlocated
        | _ => trivial
      refine wp_mono (wp_alloc base.1 (by simpa [Object.trace] using issued)) ?_
        fun _ ht => base.trans ht
      rintro wrapper t ⟨step, -, hw, -⟩
      exact namespaceSet_after (base.trans step) hw
    · exact base

theorem clearHash_after [HostLibrary] (base : After h₀ h) :
    wp (clearHash ns) (fun _ => After h₀) (After h₀) h := by
  simp only [clearHash, wp_bind]
  refine wp_reading_intro base fun equal _ => ?_
  split
  · rw [wp_bind]
    refine wp_reading_intro base fun hash _ => ?_
    split
    · exact namespaceSet_after base trivial
    · exact base
  · exact base

theorem addDependent_after {ancestor : Value} (base : After h₀ h) :
    wp (addDependent ns ancestor) (fun _ => After h₀) (After h₀) h := by
  simp only [addDependent, wp_bind]
  refine wp_getObject base fun o ho => ?_
  split
  · exact wp_setObject_last base ho (.shrink (fun _ hv => hv) fun _ hv => hv)
  · exact base

theorem installClass_after (base : After h₀ h) :
    wp (installClass ns) (fun _ => After h₀) (After h₀) h := by
  simp only [installClass, wp_bind]
  refine wp_getObject base fun o ho => ?_
  split
  · next c =>
    simp only [wp_bind]
    refine wp_reading_intro base fun _ _ => wp_reading_intro base fun mro hm => ?_
    simp only [nextTypeId, wp_bind, wp_get]
    split
    · exact base
    · simp only [wp_bind, wp_set, wp_pure]
      have step : After h { h with nextType := h.nextType + 1 } :=
        base.1.same rfl rfl rfl rfl subset_rfl
      have installs := base.1.installs (h.nextType + 1) ho hm
      refine wp_mono (wp_setObject_last (base.trans step) ho
        ⟨installs.trace, installs.ancestors⟩) ?_ fun _ => id
      exact fun _ t base => wp_forM (fun a _ t base => addDependent_after base) base
  · exact base

theorem finishClass_after [HostLibrary] (hs : Sound h) :
    wp (finishClass ns) (fun _ => After h) (After h) h := by
  simp only [finishClass, wp_bind]
  refine wp_getObject hs.after fun o ho => ?_
  have rest {t : Heap} (base : After h t) :
      wp (wrapNew ns) (fun _ => wp (clearHash ns)
        (fun _ => wp (installClass ns) (fun _ => After h) (After h)) (After h)) (After h) t :=
    wp_mono (wrapNew_after base) (fun _ _ base =>
      wp_mono (clearHash_after base) (fun _ _ base => installClass_after base) fun _ => id)
      fun _ => id
  split
  · split
    · simp only [wp_bind]
      exact wp_mono (materializeMapping_after hs) (fun _ _ base => rest base) fun _ => id
    · simp only [wp_bind]
      exact rest hs.after
  · exact hs.after

theorem setClassMetaclass_after {metaclass : Value} (hs : Sound h) (hm : h.Issued metaclass) :
    wp (setClassMetaclass owner metaclass) (fun _ => After h) (After h) h := by
  simp only [setClassMetaclass, wp_bind, wp_writeBarrier]
  refine wp_classOf hs.after fun _ _ => ?_
  obtain ⟨base, issued, covered⟩ := barrierOne hs hm
  refine wp_getObject base fun o ho => ?_
  split
  · refine wp_setObject_last base ho (.store issued covered (fun v hv => ?_) fun _ hv => hv)
    simp only [Object.trace, Class.trace, List.mem_cons, List.mem_append] at hv ⊢
    tauto
  · exact base

/-! ### Attributes -/

theorem bumpClassVersion_after (base : After h₀ h) :
    wp (bumpClassVersion owner) (fun _ => After h₀) (After h₀) h := by
  simp only [bumpClassVersion, wp_bind]
  refine wp_getObject base fun o ho => ?_
  split
  · exact wp_setObject_last base ho (.shrink (fun _ hv => hv) fun _ hv => hv)
  · exact base

theorem applyClassInvalidation_after {dependents : List Value} (base : After h₀ h) :
    wp (applyClassInvalidation owner dependents) (fun _ => After h₀) (After h₀) h := by
  simp only [applyClassInvalidation, wp_bind]
  refine wp_mono (bumpClassVersion_after base) (fun _ t base => ?_) fun _ => id
  exact wp_forM (fun a _ t base => bumpClassVersion_after base) base

theorem trace_withAttributes (values : List Value) {o o' : Object} {a b : Attributes}
    (ha : o.attributes = some a) (hb : o.withAttributes b = some o')
    (sub : ∀ v ∈ b.trace, v ∈ a.trace ∨ v ∈ values) :
    (∀ v ∈ o'.trace, v ∈ o.trace ∨ v ∈ values) ∧ o'.ancestors = [] := by
  unfold Object.attributes at ha
  unfold Object.withAttributes at hb
  split at ha <;> cases ha <;> cases hb
  all_goals
    refine ⟨fun v hv => ?_, rfl⟩
    simp only [Object.trace, List.mem_cons, List.mem_append] at hv ⊢
    have := sub v
    tauto

theorem setInstanceAttr_after {cls : Value} {name : String} (hs : Sound h) (hv : h.Issued value) :
    wp (setInstanceAttr owner cls name value) (fun _ => After h) (After h) h := by
  simp only [setInstanceAttr, wp_bind]
  refine wp_classOf hs.after fun c _ => ?_
  split
  · exact hs.after
  · split
    · exact hs.after
    · simp only [wp_bind, wp_writeBarrier]
      obtain ⟨base, issued, covered⟩ := barrierOne hs hv
      refine wp_getObject base fun o ho => ?_
      cases ha : o.attributes with
      | none => exact base
      | some a =>
        simp only [wp_bind, wp_get, wp_set]
        cases hb : o.withAttributes
          (a.set (h.writeBarrier owner value).shapes name value).1 with
        | none => exact base.trans (base.1.same rfl rfl rfl rfl subset_rfl)
        | some o' =>
          have step : After (h.writeBarrier owner value) { h.writeBarrier owner value with
              shapes := (a.set (h.writeBarrier owner value).shapes name value).2 } :=
            base.1.same rfl rfl rfl rfl subset_rfl
          have sub := trace_withAttributes [value] ha hb fun v hv =>
            (Attributes.mem_trace_set hv).symm.imp_right (by simp)
          exact wp_setObject_last (base.trans step) ho
            (.store issued covered sub.1 (by simp [sub.2]))

theorem setClassAttr_after {name : String} (hs : Sound h) (hv : h.Issued value) :
    wp (setClassAttr owner name value) (fun _ => After h) (After h) h := by
  simp only [setClassAttr, wp_bind]
  refine wp_reading_intro hs.after fun _ _ => ?_
  split
  · exact hs.after
  · rw [wp_bind]
    refine wp_getObject hs.after fun o ho => ?_
    split
    · split
      · exact hs.after
      · simp only [wp_bind, wp_writeBarrier]
        obtain ⟨base, issued, covered⟩ := barrierOne hs hv
        refine wp_reading_intro base fun dependents _ => wp_getObject base fun o ho => ?_
        split
        · rw [wp_bind]
          refine wp_mono (wp_setObject_last base ho (.store issued covered (fun v hv => ?_)
            fun _ hv => hv)) (fun _ _ base => applyClassInvalidation_after base) fun _ => id
          simp only [Object.trace, Class.trace, List.mem_cons, List.mem_append] at hv ⊢
          rcases hv with hv | (((hv | hv) | hv) | hv) | hv
          · exact .inl (.inl hv)
          · tauto
          · obtain ⟨m, hm, rfl⟩ := List.mem_map.mp hv
            rcases mem_setMember hm with old | new
            · exact .inl (.inr (.inl (.inl (.inl (.inr (List.mem_map_of_mem old))))))
            · exact .inr (.inl new)
          all_goals tauto
        · exact base
    · exact hs.after

theorem setAnnotations_after {f : Function} (hs : Sound h)
    (hf : h.tryGet owner = some (.function f)) (hv : h.Issued value) :
    wp (setAnnotations owner f value) (fun _ => After h) (After h) h := by
  simp only [setAnnotations]
  split
  · refine wp_setObject_shrink hs hf (fun v hv => ?_) rfl
    simp only [Object.trace, List.mem_append, Option.toList_none, List.not_mem_nil] at hv ⊢
    tauto
  · simp only [wp_bind, wp_tryGetObject]
    split
    · simp only [wp_bind, wp_writeBarrier]
      obtain ⟨base, issued, covered⟩ := barrierOne hs hv
      refine wp_setObject_last base (by simpa using hf) (.store issued covered (fun v hv => ?_)
        (by simp [Object.ancestors]))
      simp only [Object.trace, List.mem_append, Option.toList_some] at hv ⊢
      tauto
    · exact hs.after

theorem setStopValue_after {e : Exception} (hs : Sound h)
    (he : h.tryGet owner = some (.exception e)) (hv : h.Issued value) :
    wp (setStopValue owner e value) (fun _ => After h) (After h) h := by
  simp only [setStopValue, wp_bind, wp_writeBarrier]
  obtain ⟨base, issued, covered⟩ := barrierOne hs hv
  refine wp_setObject_last base (by simpa using he) (.store issued covered (fun v hv => ?_)
    (by simp [Object.ancestors]))
  simp only [Object.trace, List.mem_cons, List.mem_append, Option.toList_some] at hv ⊢
  tauto

theorem setPlainAttr_after {name : String} (hs : Sound h) (hv : h.Issued value) :
    wp (setPlainAttr owner name value) (fun _ => After h) (After h) h := by
  simp only [setPlainAttr, wp_bind]
  refine wp_getObject hs.after fun o _ => ?_
  split
  · exact setInstanceAttr_after hs hv
  · exact setClassAttr_after hs hv

theorem setAttr_after {name : String} (hs : Sound h) (hv : h.Issued value) :
    wp (setAttr owner name value) (fun _ => After h) (After h) h := by
  simp only [setAttr, wp_bind, wp_tryGetObject]
  split
  · exact addModuleMember_after hs hv
  · next f hf =>
    split
    · exact setAnnotations_after hs hf hv
    · exact setPlainAttr_after hs hv
  · next e he =>
    split
    · exact setStopValue_after hs he hv
    · exact setPlainAttr_after hs hv
  · exact setPlainAttr_after hs hv

theorem deleteInstanceAttr_after {cls : Value} {name : String} (hs : Sound h) :
    wp (deleteInstanceAttr owner cls name) (fun _ => After h) (After h) h := by
  simp only [deleteInstanceAttr, wp_bind]
  refine wp_classOf hs.after fun c _ => ?_
  split
  · exact hs.after
  · rw [wp_bind]
    refine wp_getObject hs.after fun o ho => ?_
    cases ha : o.attributes with
    | none => exact hs.after
    | some a =>
      simp only [wp_bind, wp_get]
      cases hd : a.delete h.shapes name with
      | none => exact hs.after
      | some removed =>
        simp only
        cases hb : o.withAttributes removed.2 with
        | none => exact hs.after
        | some o' =>
          have sub := trace_withAttributes [] ha hb fun v hv =>
            .inl (Attributes.mem_trace_delete hd hv)
          exact wp_setObject_shrink hs ho (fun v hv => by simpa using sub.1 v hv) sub.2

theorem deleteClassAttr_after {name : String} (hs : Sound h) :
    wp (deleteClassAttr owner name) (fun _ => After h) (After h) h := by
  simp only [deleteClassAttr, wp_bind]
  refine wp_getObject hs.after fun o ho => ?_
  split
  · split
    · exact hs.after
    · split
      · exact hs.after
      · rw [wp_bind]
        refine wp_reading_intro hs.after fun dependents _ => ?_
        rw [wp_bind]
        refine wp_mono (wp_setObject_last hs.after ho (.shrink (fun v hv => ?_)
          fun _ hv => hv)) (fun _ _ base => applyClassInvalidation_after base) fun _ => id
        simp only [Object.trace, Class.trace, List.mem_cons, List.mem_append] at hv ⊢
        rcases hv with hv | (((hv | hv) | hv) | hv) | hv
        · exact .inl hv
        · tauto
        · obtain ⟨m, hm, rfl⟩ := List.mem_map.mp hv
          exact .inr (.inl (.inl (.inl (.inr
            (List.mem_map_of_mem (List.mem_of_mem_eraseP hm))))))
        all_goals tauto
  · exact hs.after

theorem deletePlainAttr_after {name : String} (hs : Sound h) :
    wp (deletePlainAttr owner name) (fun _ => After h) (After h) h := by
  simp only [deletePlainAttr, wp_bind]
  refine wp_getObject hs.after fun o _ => ?_
  split
  · exact deleteInstanceAttr_after hs
  · exact deleteClassAttr_after hs

theorem dropAnnotations_after {f : Function} (hs : Sound h)
    (hf : h.tryGet owner = some (.function f)) :
    wp (setObject owner (.function { f with annotations := none, annotationPlan := none }))
      (fun _ => After h) (After h) h := by
  refine wp_setObject_shrink hs hf (fun v hv => ?_) rfl
  simp only [Object.trace, List.mem_append, Option.toList_none, List.not_mem_nil] at hv ⊢
  tauto

theorem dropStopValue_after {e : Exception} (hs : Sound h)
    (he : h.tryGet owner = some (.exception e)) :
    wp (setObject owner (.exception { e with stopIterationValue := some .none }))
      (fun _ => After h) (After h) h := by
  have issued : ∀ v ∈ [Value.none], h.Issued v := by simp [Issued]
  refine wp_setObject_last hs.after he (.store issued (fun v hv => ?_) (fun v hv => ?_)
    (by simp [Object.ancestors]))
  · cases List.mem_singleton.mp hv
    intro hy
    simp [isYoung, entry, location] at hy
  · simp only [Object.trace, List.mem_cons, List.mem_append, Option.toList_some] at hv ⊢
    tauto

theorem delAttr_after {name : String} (hs : Sound h) :
    wp (delAttr owner name) (fun _ => After h) (After h) h := by
  simp only [delAttr, wp_bind, wp_tryGetObject]
  split
  · exact deleteModuleMember_after hs
  · next f hf =>
    split
    · exact dropAnnotations_after hs hf
    · exact deletePlainAttr_after hs
  · next e he =>
    split
    · exact dropStopValue_after hs he
    · exact deletePlainAttr_after hs
  · exact deletePlainAttr_after hs

theorem functionAnnotations_after (hs : Sound h) :
    wp (functionAnnotations owner) (fun _ => After h) (After h) h := by
  simp only [functionAnnotations, wp_bind]
  refine wp_getObject hs.after fun o ho => ?_
  split
  · split
    · exact hs.after
    · simp only [wp_bind, wp_writeBarrier]
      refine wp_mono (wp_alloc hs (by simp [Object.trace, Dict.empty, pairs])) ?_ fun _ => id
      rintro annotations t ⟨base, -, issued, -⟩
      obtain ⟨step, issued, covered⟩ := barrierOne base.1 issued
      refine wp_getObject (base.trans step) fun o ho => ?_
      split
      · rw [wp_bind]
        refine wp_setObject_last (base.trans step) ho (.store issued covered (fun v hv => ?_)
          (by simp [Object.ancestors]))
        simp only [Object.trace, List.mem_append, Option.toList_some] at hv ⊢
        tauto
      · exact base.trans step
  · exact hs.after

theorem functionTypeParams_after (hs : Sound h) :
    wp (functionTypeParams owner) (fun _ => After h) (After h) h := by
  simp only [functionTypeParams, wp_bind]
  refine wp_getObject hs.after fun o ho => ?_
  split
  · split
    · exact hs.after
    · simp only [wp_bind, wp_writeBarrier]
      refine wp_mono (wp_alloc hs (by simp [Object.trace])) ?_ fun _ => id
      rintro typeParams t ⟨base, -, issued, -⟩
      obtain ⟨step, issued, covered⟩ := barrierOne base.1 issued
      refine wp_getObject (base.trans step) fun o ho => ?_
      split
      · rw [wp_bind]
        refine wp_setObject_last (base.trans step) ho (.store issued covered (fun v hv => ?_)
          (by simp [Object.ancestors]))
        simp only [Object.trace, List.mem_append, Option.toList_some] at hv ⊢
        tauto
      · exact base.trans step
  · exact hs.after

end Heap

end Tonic
