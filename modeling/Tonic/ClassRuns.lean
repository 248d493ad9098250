import Tonic.ClassMaking

/-!
## Runs over classes

What a run of creations, mutations and collections keeps of the classes.
-/

namespace Tonic

open Effect Heap

/-- The mutations that may change what a lookup sees. -/
def Mutation.editsAttributes : Mutation → Bool
  | finishClass _ | setAttr _ _ _ | delAttr _ _ => true
  | _ => false

/-- All other mutations show nothing. -/
theorem Mutation.run_keeps [HostLibrary] {h : Heap} (m : Mutation)
    (plain : m.editsAttributes = false) : wp m.run (fun _ => h.Keeps) h.Keeps h := by
  have base := Keeps.refl h
  cases m with
  | finishClass => cases plain
  | setAttr => cases plain
  | delAttr => cases plain
  | dictSet => exact dictSet_keeps base
  | dictSetStr => exact dictSetStr_keeps base
  | hashSetHashed => exact hashSetHashed_keeps base
  | dictDelete => exact dictDelete_keeps base
  | dictDeleteAt => exact dictDeleteAt_keeps base
  | dictClear => exact dictClear_keeps base
  | dictMerge => exact dictMerge_keeps base
  | setItem => exact setItem_keeps base
  | deleteItem => exact deleteItem_keeps base
  | appendList => exact appendList_keeps base
  | replaceList => exact replaceList_keeps base
  | addModuleMember => exact addModuleMember_keeps base
  | deleteModuleMember => exact deleteModuleMember_keeps base
  | resetModuleMembers => exact resetModuleMembers_keeps base
  | storeCell => exact storeCell_keeps base
  | setTypeParamDefault => exact setTypeParamDefault_keeps base
  | storeExternalField => exact storeExternalField_keeps base
  | setExceptionCause => exact setExceptionCause_keeps base
  | setExceptionContext => exact setExceptionContext_keeps base
  | setExceptionTraceback => exact setExceptionTraceback_keeps base
  | recordExceptionTrace => exact recordExceptionTrace_keeps base
  | requestTaskCancel => exact wp_ignore (requestTaskCancel_keeps base)
  | clearTaskCancelRequest => exact clearTaskCancelRequest_keeps base
  | addAsyncWaiter => exact wp_ignore (addAsyncWaiter_keeps base)
  | removeAsyncWaiter => exact removeAsyncWaiter_keeps base
  | addAsyncCallback => exact wp_ignore (addAsyncCallback_keeps base)
  | completeAsync => exact wp_ignore (completeAsync_keeps base)
  | setTaskWaiting => exact setTaskWaiting_keeps base
  | setAsyncGeneratorAwaitState => exact setAsyncGeneratorAwaitState_keeps base
  | claimAsyncGeneratorDriver => exact claimAsyncGeneratorDriver_keeps base
  | releaseAsyncGeneratorDriver => exact releaseAsyncGeneratorDriver_keeps base
  | resumeGenerator => exact wp_ignore (resumeGenerator_keeps base)
  | suspendGenerator => exact suspendGenerator_keeps base
  | completeGenerator => exact completeGeneratorWithValue_keeps base
  | popGeneratorFinalizer => exact wp_ignore (base.of_same rfl rfl)
  | popObjectFinalizer => exact wp_ignore (base.of_same rfl rfl)
  | namespaceWithMetaclass => exact wp_ignore (namespaceWithMetaclass_keeps base)
  | namespaceFromMapping => exact wp_ignore (namespaceFromMapping_keeps base)
  | namespaceSet => exact namespaceSet_keeps base
  | namespaceDelete => exact namespaceDelete_keeps base
  | namespaceMapping => exact wp_ignore (namespaceMapping_keeps base)
  | namespaceUseMapping => exact namespaceUseMapping_keeps base
  | setClassMetaclass => exact setClassMetaclass_keeps base
  | functionAnnotations => exact wp_ignore (functionAnnotations_keeps base)
  | functionTypeParams => exact wp_ignore (functionTypeParams_keeps base)

/-- No mutation changes a class behind the back of its version. -/
theorem Mutation.run_carries [HostLibrary] {h : Heap} (m : Mutation) (hs : Sound h)
    (held : ∀ v ∈ m.arguments, h.Issued v) : wp m.run (fun _ => h.Carries) h.Carries h := by
  cases plain : m.editsAttributes with
  | false => exact wp_keeps_carries hs.valid (m.run_after hs held) (m.run_keeps plain)
  | true =>
    cases m with
    | finishClass => exact finishClass_carries hs
    | setAttr => exact setAttr_carries hs (held _ (by simp [arguments]))
    | delAttr => exact delAttr_carries hs
    | _ => cases plain

/-- The weak list of dependents loses the dead. -/
def Face.prune (alive : Value → Bool) : Face → Face
  | .classObject c => .classObject { c with dependents := c.dependents.filter alive }
  | f => f

namespace Heap

variable {h t : Heap} {youngOnly : Bool} {roots : List Value} {marked : List Bool} {v : Value}

/-! ### Collections -/

/-- What survives keeps everything it refers to. -/
theorem Traced.live_edge (hv : h.Valid) (complete : h.RememberedComplete)
    (tr : h.Traced youngOnly roots marked t) {l k : Nat} {e f : HeapObject} {w : Value}
    (he : h.objects[l]? = some e) (live : isLive youngOnly marked l e = true)
    (mem : w ∈ h.edges e) (hk : h.location w = some k) (hf : h.objects[k]? = some f) :
    isLive youngOnly marked k f = true := by
  have age : h.isYoung w = f.young := by simp [isYoung, entry_eq_some.mpr ⟨k, hk, hf⟩]
  unfold isLive at live ⊢
  cases outside : !f.young && youngOnly with
  | true => rfl
  | false =>
    have entered : youngOnly = true → h.isYoung w = true := by
      intro minor
      rw [age]
      simpa [minor] using outside
    have mark : marked[k]? = some true := by
      cases old : !e.young && youngOnly with
      | false =>
        rw [old, Bool.false_or] at live
        cases hm : marked[l]? with
        | none => simp [hm] at live
        | some b =>
          have done := tr.closed l (by simpa [hm] using live) w (by simpa [graph, he] using mem)
          exact done_marked done hk entered
      | true =>
        obtain ⟨age, minor⟩ := Bool.and_eq_true_iff.mp old
        have remembered := complete he (by simpa using age) w mem (entered minor)
        refine done_marked (tr.done w ?_) hk entered
        simp [work, minor, mem_rememberedEdges hv he remembered mem]
    simp [mark]


/-- A collection keeps some of the objects, with all they refer to. -/
structure Survives (h t : Heap) : Prop where
  shapes : t.shapes = h.shapes
  face : ∀ v, t.face v = none ∨ t.face v = (h.face v).map (·.prune fun w => (t.face w).isSome)
  closed : ∀ {v e}, h.entry v = some e → t.face v ≠ none → ∀ w ∈ h.edges e, h.face w ≠ none →
    t.face w ≠ none

theorem face_pruneDependents (alive : Value → Bool) (o : Object) :
    (pruneDependents alive o).face = o.face.prune alive := by
  cases o <;> rfl

theorem resolves_eq_face (hv : h.Valid) (v : Value) : h.resolves v = (h.face v).isSome := by
  unfold resolves Heap.face tryGet entry
  cases located : h.location v with
  | none => rfl
  | some l =>
    obtain ⟨i, slot, -, hi, at_l⟩ := location_eq_some.mp located
    obtain ⟨e, stored, -⟩ := hv.located hi at_l
    simp [stored]

theorem survives_swept (hv : h.Valid) (complete : h.RememberedComplete)
    (tr : h.Traced youngOnly roots marked t) : h.Survives (t.swept youngOnly marked) := by
  have tv := tr.queued.valid hv
  have entry : t.entry = h.entry := funext tr.queued.entry
  have face : t.face = h.face := by
    funext v
    simp [Heap.face, tryGet, entry]
  -- what a handle leads to is either gone or pruned
  have kept {v : Value} {l : Nat} {e : HeapObject} (hl : t.location v = some l)
      (he : t.objects[l]? = some e) : (t.swept youngOnly marked).face v =
        if isLive youngOnly marked l e = true then
          some (e.object.face.prune fun w => ((t.swept youngOnly marked).face w).isSome)
        else none := by
    split
    · next live =>
      have alive : (t.swept youngOnly marked).resolves =
          fun w => ((t.swept youngOnly marked).face w).isSome :=
        funext fun w => resolves_eq_face (swept_valid tv) w
      simp [Heap.face, tryGet, entry_swept_live tv hl he live, face_pruneDependents, alive]
    · next dead =>
      simp [Heap.face, tryGet, Heap.entry,
        location_swept_dead tv hl he (by simpa using dead)]
  refine ⟨?_, fun v => ?_, fun {v e} he live w mem found => ?_⟩
  · obtain ⟨_, _, _, rfl⟩ := tr.queued
    rfl
  · cases he : t.entry v with
    | none =>
      left
      have stale : t.location v = none := by
        by_contra located
        obtain ⟨l, hl⟩ := Option.ne_none_iff_exists'.mp located
        obtain ⟨i, slot, -, hi, at_l⟩ := location_eq_some.mp hl
        obtain ⟨e, stored, -⟩ := tv.located hi at_l
        rw [entry_eq_some.mpr ⟨l, hl, stored⟩] at he
        cases he
      simp [Heap.face, tryGet, Heap.entry, location_swept_stale tv stale]
    | some e =>
      obtain ⟨l, hl, stored⟩ := entry_eq_some.mp he
      rw [kept hl stored, ← face]
      split
      · right
        simp [Heap.face, tryGet, he]
      · exact .inl rfl
  · rw [← entry] at he
    obtain ⟨l, hl, stored⟩ := entry_eq_some.mp he
    rw [kept hl stored] at live
    rw [← face] at found
    obtain ⟨f, hf⟩ := Option.ne_none_iff_exists'.mp found
    obtain ⟨o, ho, -⟩ := Option.map_eq_some_iff.mp hf
    obtain ⟨e', he', -⟩ := tryGet_eq_some.mp ho
    obtain ⟨k, hk, stored'⟩ := entry_eq_some.mp he'
    have survivor : isLive youngOnly marked l e = true := by
      by_contra dead
      exact live (if_neg dead)
    have alive := tr.live_edge hv complete (tr.queued.objects ▸ stored) survivor mem
      (tr.queued.location ▸ hk) (tr.queued.objects ▸ stored')
    rw [kept hk stored', if_pos alive]
    simp

namespace Survives

variable {c : ClassFace} (s : h.Survives t)
include s

theorem back {f : Face} (found : t.face v = some f) :
    ∃ g, h.face v = some g ∧ f = g.prune fun w => (t.face w).isSome := by
  rcases s.face v with gone | kept
  · rw [gone] at found
    cases found
  · rw [found] at kept
    obtain ⟨g, hg, eq⟩ := Option.map_eq_some_iff.mp kept.symm
    exact ⟨g, hg, eq.symm⟩

theorem kept {f : Face} (found : h.face v = some f) (live : t.face v ≠ none) :
    t.face v = some (f.prune fun w => (t.face w).isSome) := by
  rcases s.face v with gone | kept
  · exact absurd gone live
  · rw [kept, found, Option.map_some]

theorem class_back {d : ClassFace} (found : t.face v = some (.classObject d)) :
    ∃ c, h.face v = some (.classObject c) ∧
      d = { c with dependents := c.dependents.filter fun w => (t.face w).isSome } := by
  obtain ⟨g, hg, eq⟩ := s.back found
  cases g <;> cases eq
  exact ⟨_, hg, rfl⟩

/-- What a live class refers to lives. -/
theorem referred {w : Value} (found : h.face v = some (.classObject c)) (live : t.face v ≠ none)
    (mem : w ∈ c.mro ++ c.attributes.map (·.2)) (there : h.face w ≠ none) : t.face w ≠ none := by
  obtain ⟨o, ho, rfl⟩ := face_eq_class.mp found
  obtain ⟨e, he, obj⟩ := tryGet_eq_some.mp ho
  refine s.closed he live w (List.mem_append_left _ ?_) there
  rw [obj]
  rcases List.mem_append.mp mem with mem | mem
  · exact Object.ancestors_traced (List.mem_append_right _ mem)
  · simp only [Object.trace, Class.trace, List.mem_cons, List.mem_append]
    exact .inr (.inl (.inl (.inl (.inr mem))))

theorem lineage (lineage : h.Lineage) : t.Lineage := by
  refine ⟨fun {v d} found a ha => ?_, fun {v d} found => ?_, fun {v d} found => ?_,
    fun {v ds} found => ?_⟩
  · obtain ⟨c, hc, rfl⟩ := s.class_back found
    obtain ⟨b, hb⟩ := lineage.ancestors hc a ha
    have live := s.referred hc (by simp [found]) (List.mem_append_left _ ha) (by simp [hb])
    exact ⟨_, s.kept hb live⟩
  · obtain ⟨c, hc, rfl⟩ := s.class_back found
    exact (lineage.proper hc : v ∉ c.mro)
  · obtain ⟨c, hc, rfl⟩ := s.class_back found
    obtain ⟨nodup, iff⟩ := lineage.dependents hc
    refine ⟨nodup.filter _, fun w => ?_⟩
    rw [List.mem_filter, iff w]
    constructor
    · rintro ⟨⟨e, he, mem⟩, live⟩
      exact ⟨_, s.kept he (by simpa [Option.isSome_iff_ne_none] using live), mem⟩
    · rintro ⟨e, he, mem⟩
      obtain ⟨e', he', rfl⟩ := s.class_back he
      exact ⟨⟨e', he', mem⟩, by simp [he]⟩
  · obtain ⟨g, hg, eq⟩ := s.back found
    cases g <;> cases eq
    exact lineage.namespaces hg

theorem later (lineage : h.Lineage) (issued : ∀ v, h.Issued v → t.Issued v) : h.Later t where
  issued := issued _
  gone {v} _ none := by
    rcases s.face v with gone | kept
    · exact gone
    · rw [kept, none, Option.map_none]
  shapes := by rw [s.shapes]
  classes {v c} found live := by
    refine ⟨_, s.kept found live, rfl, Nat.le_refl _, fun _ a ha => ?_⟩
    obtain ⟨b, -, hb, -⟩ := lineage.sameAttributes found a ha
    have there : t.face a ≠ none := by
      rcases List.mem_cons.mp ha with rfl | ha
      · exact live
      · exact s.referred found live (List.mem_append_left _ ha) (by simp [hb])
    refine ⟨b, _, hb, s.kept hb there, rfl, fun m hm f hf => ?_⟩
    have named : m.2 ∈ b.mro ++ b.attributes.map (·.2) :=
      List.mem_append_right _ (List.mem_map_of_mem hm)
    exact s.kept hf (s.referred hb there named (by simp [hf]))

end Survives

variable (youngOnly roots) in
/-- A collection carries the classes along, whether it is completed or not. -/
theorem collect_later (hs : Sound h) (lineage : h.Lineage) :
    wp (collectWith youngOnly roots) (fun _ t => t.Lineage ∧ h.Later t)
      (fun t => t.Lineage ∧ h.Later t) h := by
  refine wp_mono (wp_collectWith hs.valid) ?_ fun t failed => ?_
  · rintro - t ⟨marked, t', tr, rfl⟩
    have survives := survives_swept hs.valid hs.complete tr
    have issued := (collected_sound hs.valid ⟨marked, t', tr, rfl⟩).2
    exact ⟨survives.lineage lineage, survives.later lineage issued⟩
  · have carried : h.Carries t := by
      obtain ⟨_, _, _, rfl⟩ := failed.queued
      exact Keeps.carries ((Keeps.refl h).of_same rfl rfl) hs.valid
        (hs.same rfl rfl rfl rfl (Finset.Subset.refl _))
    exact carried.2 lineage

end Heap

end Tonic
