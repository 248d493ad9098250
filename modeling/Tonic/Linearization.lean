import Tonic.ClassVersions

/-!
## Linearization of a class

A class definition either ends in a class that every ancestor knows, its ancestors in the order of
the merge, or in an exception that leaves the classes as they were.
-/

namespace Tonic

open Effect Precedence

/-- The steps of a class completion that come before its ancestors are put in order. -/
def closeBody [HostLibrary] (ns : Value) : HeapM Class := do
  let .namespaceObject c ← getObject ns | throw (bytecodeError "invalid class completion")
  match c.namespaceMapping with
  | some mapping => materializeMapping ns mapping
  | none => pure ()
  wrapNew ns
  clearHash ns
  let .namespaceObject c ← getObject ns | throw (bytecodeError "invalid class completion")
  reading fun h => checkNames h c
  return c

/-- The steps that are left then. -/
def orderAncestors (ns : Value) (c : Class) : HeapM Unit := do
  let mro ← reading fun h => linearize h c.bases
  let id ← nextTypeId
  setObject ns (.classObject { c with id, version := 1, mro })
  mro.forM (addDependent ns)

theorem installClass_eq (ns : Value) : installClass ns = (do
    let .namespaceObject c ← getObject ns | throw (bytecodeError "invalid class completion")
    reading fun h => checkNames h c
    return c) >>= orderAncestors ns := by
  unfold installClass
  rw [bind_assoc]
  congr 1
  funext o
  cases o with
  | namespaceObject c =>
    simp only [bind_assoc, pure_bind]
    rfl
  | _ => rfl

theorem finishClass_eq [HostLibrary] (ns : Value) :
    finishClass ns = closeBody ns >>= orderAncestors ns := by
  unfold finishClass closeBody
  rw [bind_assoc]
  congr 1
  funext o
  cases o with
  | namespaceObject c =>
    dsimp only
    cases c.namespaceMapping <;> simp only [bind_assoc, installClass_eq]
  | _ => rfl

namespace Heap

variable {h t : Heap} {ns : Value} {bases : List Value}

/-- The namespace of a class with these bases, without a mapping of its own. -/
def Bare (h : Heap) (ns : Value) (bases : List Value) : Prop :=
  ∃ c, h.tryGet ns = some (.namespaceObject c) ∧ c.bases = bases ∧ c.namespaceMapping = none

/-! ### The body keeps its bases -/

section Body

variable {name : String} {value : Value}

theorem wp_setObject_bare {c : Class} (bare : h.Bare ns bases) (distinct : h.Distinct)
    (same : c.bases = bases) (none : c.namespaceMapping = none) :
    wp (setObject ns (.namespaceObject c)) (fun _ t => t.Bare ns bases ∧ t.Distinct)
      (fun _ => False) h := by
  obtain ⟨d, found, -⟩ := bare
  refine wp_mono (wp_setObject_replaced distinct found) (fun _ t stored => ?_) fun _ => id
  refine ⟨⟨c, ?_, same, none⟩, stored.distinct⟩
  rw [stored.get, Function.update_self]

theorem namespaceSet_bare [HostLibrary] (bare : h.Bare ns bases) (distinct : h.Distinct) :
    wp (namespaceSet ns name value) (fun _ t => t.Bare ns bases ∧ t.Distinct)
      (fun _ => False) h := by
  obtain ⟨c, found, same, none⟩ := bare
  have bare : (h.writeBarrier ns value).Bare ns bases := ⟨c, by simpa using found, same, none⟩
  have get : h.get ns = .ok (.namespaceObject c) := by simp [Heap.get, found]
  have get' : (h.writeBarrier ns value).get ns = .ok (.namespaceObject c) := by
    simp [Heap.get, found]
  simp only [namespaceSet, expectNamespace, getObject, wp_bind, wp_reading, get, wp_pure, none,
    namespaceStore, wp_writeBarrier, get']
  exact wp_setObject_bare bare (distinct_writeBarrier distinct) same rfl

theorem materializeMapping_bare {mapping : Value} {c : Class} (hs : Sound h)
    (found : h.tryGet ns = some (.namespaceObject c)) :
    wp (materializeMapping ns mapping) (fun _ t => t.Bare ns c.bases) (fun _ => True) h := by
  simp only [materializeMapping, wp_bind]
  refine wp_getObject trivial fun o ho => ?_
  split
  · simp only [wp_bind, wp_nativeValue, wp_get, wp_writeBarriers]
    refine wp_expectDict trivial fun d hd => ?_
    have found : (h.writeBarriers ns (pairs d.entries)).tryGet ns = some (.namespaceObject c) := by
      simpa using found
    have get : (h.writeBarriers ns (pairs d.entries)).get ns = .ok (.namespaceObject c) := by
      simp [Heap.get, found]
    have after : After h (h.writeBarriers ns (pairs d.entries)) := hs.writeBarriers
    simp only [getObject, wp_reading, get]
    refine wp_mono (wp_setObject_replaced after.1.valid.distinct found) (fun _ t stored => ?_) fun _ => False.elim
    exact ⟨_, (congrFun stored.get ns).trans (Function.update_self ..), rfl, rfl⟩
  · trivial

theorem wrapNew_bare [HostLibrary] (hs : Sound h) (bare : h.Bare ns bases) :
    wp (wrapNew ns) (fun _ t => t.Bare ns bases) (fun _ => True) h := by
  simp only [wrapNew, wp_bind]
  refine wp_reading_intro trivial fun found _ => ?_
  cases found with
  | none => exact bare
  | some f =>
    simp only [wp_bind, wp_tryGetObject]
    split
    · next fn eq =>
      have issued : h.Issued f := HeapState.issued_of_resolves hs.valid (by simp [eq])
      rw [wp_bind]
      refine wp_mono (wp_alloc_stores hs (by simpa [Object.trace] using issued)) ?_
        fun _ _ => trivial
      rintro wrapper t ⟨after, stores, new, -⟩
      obtain ⟨c, found, same, none⟩ := bare
      have ne : ns ≠ wrapper := by
        rintro rfl
        exact new (HeapState.issued_of_resolves hs.valid (by simp [found]))
      have bare : t.Bare ns bases := by
        refine ⟨c, ?_, same, none⟩
        rw [stores, Function.update_of_ne ne, found]
      refine wp_mono (namespaceSet_bare bare after.1.valid.distinct) (fun _ _ ht => ht.1) ?_
      exact fun _ => False.elim
    · exact bare

theorem clearHash_bare [HostLibrary] (hs : Sound h) (bare : h.Bare ns bases) :
    wp (clearHash ns) (fun _ t => t.Bare ns bases) (fun _ => True) h := by
  simp only [clearHash, wp_bind]
  refine wp_reading_intro trivial fun equal _ => ?_
  split
  · rw [wp_bind]
    refine wp_reading_intro trivial fun hash _ => ?_
    split
    · exact wp_mono (namespaceSet_bare bare hs.valid.distinct) (fun _ _ ht => ht.1)
        fun _ => False.elim
    · exact bare
  · exact bare

/-- The body is closed with the classes and the bases as they were. -/
theorem wp_closeBody [HostLibrary] {c : Class} (hs : Sound h)
    (found : h.tryGet ns = some (.namespaceObject c)) :
    wp (closeBody ns)
      (fun d t => (After h t ∧ h.Keeps t) ∧ t.tryGet ns = some (.namespaceObject d) ∧
        d.bases = c.bases)
      (fun t => After h t ∧ h.Keeps t) h := by
  have stays : After h h ∧ h.Keeps h := ⟨hs.after, .refl h⟩
  have rest {t : Heap} (ht : (After h t ∧ h.Keeps t) ∧ t.Bare ns c.bases) :
      wp (wrapNew ns) (fun _ => wp (clearHash ns) (fun _ => wp (do
          let .namespaceObject c ← getObject ns
            | throw (bytecodeError "invalid class completion")
          reading fun h => checkNames h c
          return c)
        (fun d t => (After h t ∧ h.Keeps t) ∧ t.tryGet ns = some (.namespaceObject d) ∧
          d.bases = c.bases)
        (fun t => After h t ∧ h.Keeps t)) (fun t => After h t ∧ h.Keeps t))
        (fun t => After h t ∧ h.Keeps t) t := by
    obtain ⟨⟨after, keeps⟩, bare⟩ := ht
    refine wp_mono (wp_and (wp_and (wrapNew_after after) (wrapNew_keeps keeps))
      (wrapNew_bare after.1 bare)) ?_ fun _ => And.left
    rintro _ u ⟨⟨after, keeps⟩, bare⟩
    refine wp_mono (wp_and (wp_and (clearHash_after after) (clearHash_keeps keeps))
      (clearHash_bare after.1 bare)) ?_ fun _ => And.left
    rintro _ w ⟨stays, d, found, same, -⟩
    rw [wp_bind]
    refine wp_getObject stays fun o ho => ?_
    rw [found] at ho
    cases ho
    simp only [wp_bind]
    exact wp_reading_intro stays fun _ _ => ⟨stays, found, same⟩
  have get : h.get ns = .ok (.namespaceObject c) := by simp [Heap.get, found]
  simp only [closeBody, wp_bind, getObject, wp_reading, get] at rest ⊢
  cases mapping : c.namespaceMapping with
  | none =>
    simp only [wp_bind]
    exact rest ⟨stays, c, found, rfl, mapping⟩
  | some mapping =>
    simp only [wp_bind]
    refine wp_mono (wp_and (wp_and (materializeMapping_after hs) (materializeMapping_keeps (.refl h)))
      (materializeMapping_bare hs found)) ?_ fun _ => And.left
    exact fun _ _ => rest

end Body

/-! ### The order of the ancestors -/

/-- Every class is there with its ancestors, its version and its dependents, and no other is. -/
def SameClasses (h t : Heap) : Prop :=
  ∀ v c, t.face v = some (.classObject c) ↔ h.face v = some (.classObject c)

theorem Keeps.sameClasses (keeps : h.Keeps t) (hv : h.Valid) (after : After h t) :
    h.SameClasses t := by
  intro v c
  by_cases issued : h.Issued v
  · rw [keeps.face hv after issued]
  · constructor
    · intro found
      exact (keeps.fresh hv after issued found).elim
    · intro found
      exact absurd (issued_of_face hv found) issued

theorem SameClasses.class_of {v : Value} {c : Class} (same : h.SameClasses t)
    (found : h.tryGet v = some (.classObject c)) :
    ∃ d, t.tryGet v = some (.classObject d) ∧ d.mro = c.mro := by
  obtain ⟨d, hd, eq⟩ := face_eq_class.mp ((same v _).mpr (face_eq_class.mpr ⟨c, found, rfl⟩))
  exact ⟨d, hd, congrArg ClassFace.mro eq⟩

theorem SameClasses.ordered {v : Value} (same : h.SameClasses t) (ordered : h.Ordered v) :
    t.Ordered v ∧ t.methodOrder v = h.methodOrder v := by
  obtain ⟨c, found, ancestors⟩ := ordered
  obtain ⟨d, hd, mro⟩ := same.class_of found
  constructor
  · refine ⟨d, hd, fun a ha => ?_⟩
    rw [mro] at ha
    obtain ⟨b, hb⟩ := ancestors a ha
    obtain ⟨e, he, -⟩ := same.class_of hb
    exact ⟨e, he⟩
  · rw [methodOrder_eq hd, methodOrder_eq found, mro]

/-- The class `ns` is new, it has the ancestors `mro`, and they list it as their dependent. Every
other class, and the version of each class, is as it was. -/
structure Defined (h t : Heap) (ns : Value) (mro : List Value) : Prop where
  own : ∃ c, t.face ns = some (.classObject c) ∧ c.mro = mro
  other : ∀ v, v ≠ ns → ∀ c, t.face v = some (.classObject c) ↔
    ∃ b, h.face v = some (.classObject b) ∧
      c = if v ∈ mro then { b with dependents := b.dependents ++ [ns] } else b

theorem Entered.defined {u : Heap} {c : Class} {mro : List Value}
    (entered : t.Entered u ns c mro) (same : h.SameClasses t) : h.Defined u ns mro := by
  constructor
  · exact ⟨_, face_eq_class.mpr ⟨_, entered.own, rfl⟩, rfl⟩
  · intro v ne d
    have before (b : ClassFace) : h.face v = some (.classObject b) ↔
        ∃ o : Class, t.tryGet v = some (.classObject o) ∧ o.face = b := by
      rw [← same v b, face_eq_class]
    simp only [before, face_eq_class, entered.other v ne]
    by_cases mem : v ∈ mro
    · simp only [mem, if_true, Option.map_eq_some_iff]
      constructor
      · rintro ⟨o, ⟨old, found, eq⟩, rfl⟩
        cases old with
        | classObject b =>
          cases eq
          exact ⟨_, ⟨b, found, rfl⟩, rfl⟩
        | _ => cases eq
      · rintro ⟨_, ⟨b, found, rfl⟩, rfl⟩
        exact ⟨_, ⟨_, found, rfl⟩, rfl⟩
    · simp only [mem, if_false]
      constructor
      · rintro ⟨o, found, rfl⟩
        exact ⟨_, ⟨o, found, rfl⟩, rfl⟩
      · rintro ⟨_, ⟨o, found, rfl⟩, rfl⟩
        exact ⟨o, found, rfl⟩

/-- What is left of a completion once the body is closed. -/
theorem orderAncestors_cases {c : Class} (hv : h.Valid)
    (found : h.tryGet ns = some (.namespaceObject c)) (ordered : ∀ b ∈ c.bases, h.Ordered b) :
    ((¬∃ order, h.MethodOrder ns c.bases order) ∧
      ∃ message, orderAncestors ns c h = .error (typeError message) h) ∨
    ∃ mro, h.MethodOrder ns c.bases (ns :: mro) ∧ Merges (h.precedences c.bases) mro ∧
      if h.nextType + 1 < 2 ^ 32 then
        ∃ t, orderAncestors ns c h = .ok () t ∧ h.Entered t ns c mro
      else orderAncestors ns c h =
        .error (.raise "ResourceError" "type identity space exhausted") h := by
  have new : ∀ d, h.tryGet ns ≠ some (.classObject d) := by simp [found]
  rcases linearize_cases ordered with ⟨mro, merged, merges⟩ | ⟨⟨message, failed⟩, none⟩
  · have order := (methodOrder_cons ordered new).mpr merges.agrees
    have classes : ∀ v ∈ mro, ∃ d, h.tryGet v = some (.classObject d) := by
      intro v mem
      have named := (merges.agrees.mem v).mp mem
      obtain ⟨b, hb, mem⟩ := (mem_precedences ordered v).mp named
      exact (ordered b hb).classes mem
    refine .inr ⟨mro, order, merges, ?_⟩
    have start : orderAncestors ns c h = (do
        let id ← nextTypeId
        setObject ns (.classObject { c with id, version := 1, mro })
        mro.forM (addDependent ns) : HeapM Unit) h :=
      reading_bind_ok (f := fun h => linearize h c.bases) merged _
    rw [start]
    split
    · next room =>
      have id : nextTypeId h = .ok (h.nextType + 1) { h with nextType := h.nextType + 1 } := by
        have full : ¬2 ^ 32 ≤ h.nextType + 1 := by omega
        simp only [nextTypeId, get_bind, full, if_false]
        rfl
      rw [bind_ok id]
      have entered := wp_enter hv.distinct found merges.agrees.nodup classes
      unfold wp at entered
      split at entered
      · next u eq => exact ⟨u, eq, entered⟩
      · exact entered.elim
    · next full =>
      have full : 2 ^ 32 ≤ h.nextType + 1 := by omega
      have none : nextTypeId h =
          .error (.raise "ResourceError" "type identity space exhausted") h := by
        simp only [nextTypeId, get_bind, full, if_true]
        rfl
      show EStateM.bind nextTypeId _ h = _
      simp only [EStateM.bind, none]
  · refine .inl ⟨?_, message, reading_bind_error (f := fun h => linearize h c.bases) failed _⟩
    rintro ⟨order, agrees⟩
    have first := agrees.first
    cases order with
    | nil => cases first
    | cons v order =>
      cases first
      exact none ⟨order, (methodOrder_cons ordered new).mp agrees⟩

end Heap

/-- A class with ordered bases is defined with the order of the merge, or there is no order and
it is a type error. A failure leaves every class as it was. -/
theorem finishClass_linearizes [HostLibrary] {h : Heap} {ns : Value} {c : Class} (hs : h.Sound)
    (found : h.tryGet ns = some (.namespaceObject c)) (ordered : ∀ b ∈ c.bases, h.Ordered b) :
    (∀ e t, closeBody ns h = .error e t → finishClass ns h = .error e t ∧ h.SameClasses t) ∧
    ∀ d t, closeBody ns h = .ok d t → h.SameClasses t ∧
      ((∃ message, finishClass ns h = .error (typeError message) t) ↔
        ¬∃ order, h.MethodOrder ns c.bases order) ∧
      ((∃ order, h.MethodOrder ns c.bases order) →
        if t.nextType + 1 < 2 ^ 32 then
          ∃ mro u, finishClass ns h = .ok () u ∧ h.Defined u ns mro ∧
            h.MethodOrder ns c.bases (ns :: mro) ∧
            Precedence.Merges (h.precedences c.bases) mro
        else finishClass ns h =
          .error (.raise "ResourceError" "type identity space exhausted") t) := by
  have closed := Heap.wp_closeBody hs found
  rw [finishClass_eq]
  constructor
  · intro e t ran
    obtain ⟨after, keeps⟩ := wp_failed closed ran
    refine ⟨?_, keeps.sameClasses hs.valid after⟩
    show EStateM.bind (closeBody ns) _ h = _
    simp only [EStateM.bind, ran]
  · intro d t ran
    obtain ⟨⟨after, keeps⟩, found', bases⟩ := wp_returned closed ran
    have same := keeps.sameClasses hs.valid after
    have ordered' : ∀ b ∈ d.bases, t.Ordered b := by
      rw [bases]
      exact fun b hb => (same.ordered (ordered b hb)).1
    have orders : ∀ b ∈ c.bases, t.methodOrder b = h.methodOrder b :=
      fun b hb => (same.ordered (ordered b hb)).2
    have precedences : t.precedences c.bases = h.precedences c.bases := by
      unfold Heap.precedences
      rw [List.map_congr_left orders]
    have order (l : List Value) :
        t.MethodOrder ns c.bases l ↔ h.MethodOrder ns c.bases l := by
      constructor
      · intro o
        refine ⟨o.first, o.nodup, fun v => (o.mem v).trans ?_, o.listed, fun b hb => ?_⟩
        · refine or_congr_right (exists_congr fun b => and_congr_right fun hb => ?_)
          rw [orders b hb]
        · exact orders b hb ▸ o.kept b hb
      · intro o
        refine ⟨o.first, o.nodup, fun v => (o.mem v).trans ?_, o.listed, fun b hb => ?_⟩
        · refine or_congr_right (exists_congr fun b => and_congr_right fun hb => ?_)
          rw [orders b hb]
        · exact orders b hb ▸ o.kept b hb
    have cases := Heap.orderAncestors_cases after.1.valid found' ordered'
    rw [bind_ok ran]
    simp only [bases, order, precedences] at cases
    refine ⟨same, ?_⟩
    rcases cases with ⟨none, message, failed⟩ | ⟨mro, order, merges, ended⟩
    · exact ⟨⟨fun _ => none, fun _ => ⟨message, failed⟩⟩, fun some => absurd some none⟩
    · refine ⟨⟨?_, fun none => absurd ⟨_, order⟩ none⟩, fun _ => ?_⟩
      · rintro ⟨message, failed⟩
        split at ended
        · obtain ⟨u, ok, -⟩ := ended
          rw [failed] at ok
          cases ok
        · rw [failed] at ended
          simp [typeError, Fault.raise] at ended
      · split
        · next room =>
          rw [if_pos room] at ended
          obtain ⟨u, ok, entered⟩ := ended
          exact ⟨mro, u, ok, entered.defined same, order, merges⟩
        · next full =>
          rwa [if_neg full] at ended

section Derived

/-- The body of a class with one base. -/
def derivedClass : Class := { bareClass with bases := [.heap 0 1] }

def derivedNamespace : Heap :=
  { emptyClass with
    objects := emptyClass.objects ++ [⟨.namespaceObject derivedClass, 1, true⟩]
    slots := [⟨1, some 0⟩, ⟨1, some 1⟩] }

theorem sound_derivedNamespace [HostLibrary] : derivedNamespace.Sound := by
  have sound : emptyClass.Sound := (HeapState.reachable_classes reachable_emptyClass).proper.sound
  have traced : ∀ v ∈ (Object.namespaceObject derivedClass).trace, emptyClass.Issued v := by
    intro v hv
    simp only [Object.trace, Class.trace, derivedClass, bareClass, pairs, List.map_nil,
      List.flatMap_nil, Option.toList_none, List.nil_append, List.append_nil, List.mem_cons,
      List.not_mem_nil, or_false] at hv
    rcases hv with rfl | rfl
    · trivial
    · exact HeapState.issued_of_resolves sound.valid rfl
  exact (wp_returned (Heap.wp_alloc_stores sound traced) (a := .heap 1 1) rfl).1.1

/-- The class comes before its base, and each knows the other. -/
theorem finishClass_derivedClass :
    let _ : HostLibrary := ⟨String.length, List.length, fun _ => ""⟩
    ∃ mro t, finishClass (.heap 1 1) derivedNamespace = .ok () t ∧
      derivedNamespace.Defined t (.heap 1 1) mro ∧
      derivedNamespace.MethodOrder (.heap 1 1) [.heap 0 1] (.heap 1 1 :: mro) := by
  intro _
  have ordered : ∀ b ∈ derivedClass.bases, derivedNamespace.Ordered b := by
    intro b hb
    cases List.mem_singleton.mp hb
    exact ⟨_, rfl, by simp [bareClass]⟩
  have order : derivedNamespace.MethodOrder (.heap 1 1) derivedClass.bases
      [.heap 1 1, .heap 0 1] := by
    constructor
    · rfl
    · decide
    · intro v
      have first : derivedNamespace.methodOrder (.heap 0 1) = [.heap 0 1] := rfl
      simp [derivedClass, first]
    · decide
    · decide
  have closed : closeBody (.heap 1 1) derivedNamespace = .ok derivedClass derivedNamespace := rfl
  have ends := ((finishClass_linearizes sound_derivedNamespace rfl ordered).2 _ _ closed).2.2
    ⟨_, order⟩
  obtain ⟨mro, t, ok, defined, order, -⟩ := ends
  exact ⟨mro, t, ok, defined, order⟩

/-- The body of a class that sets its qualified name to something that is no string. -/
def misnamedClass : Class := { bareClass with attributes := [("__qualname__", .none)] }

def misnamedNamespace : Heap :=
  { bareNamespace with objects := [⟨.namespaceObject misnamedClass, 0, true⟩] }

theorem checkNames_misnamedClass : checkNames misnamedNamespace misnamedClass =
    .error (typeError "__qualname__ must be a string") := by
  have supported : unsupportedHook "__qualname__" = .ok () := by
    have known : supportedHooks.contains "__qualname__" = true := by decide
    unfold unsupportedHook
    rw [known, Bool.not_true, Bool.and_false]
    rfl
  have hooks : misnamedClass.attributes.forM (fun m => unsupportedHook m.1) = .ok () := by
    simp only [misnamedClass, List.forM, supported]
    rfl
  unfold checkNames
  rw [hooks]
  rfl

/-- A type error, although the class alone is an order of a class without bases. -/
theorem finishClass_misnamedClass :
    let _ : HostLibrary := ⟨String.length, List.length, fun _ => ""⟩
    finishClass (.heap 0 1) misnamedNamespace =
        .error (typeError "__qualname__ must be a string") misnamedNamespace ∧
      misnamedNamespace.MethodOrder (.heap 0 1) [] [.heap 0 1] := by
  intro _
  constructor
  · have install : finishClass (.heap 0 1) misnamedNamespace =
        ((reading fun h => checkNames h misnamedClass) >>= fun _ =>
          orderAncestors (.heap 0 1) misnamedClass) misnamedNamespace := rfl
    rw [install]
    exact reading_bind_error (f := fun h => checkNames h misnamedClass) checkNames_misnamedClass _
  · constructor
    · rfl
    · decide
    · simp
    · decide
    · simp

end Derived

end Tonic
