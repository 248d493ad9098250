import Tonic.ClassVersions

/-!
## What lasts

A property of the heap that outlives every kind of change a run can show holds in each state of
the run.
-/

namespace Tonic

open Effect Heap

/-- A property of the heap that no change of classes or instances ends. -/
structure Lasting (P : Heap → Prop) : Prop where
  keeps : ∀ {h t : Heap}, h.Keeps t → h.Valid → After h t → P h → P t
  edits : ∀ {h t : Heap} {owner : Value} {c : ClassFace}, h.Edits t owner c → h.Lineage → P h → P t
  refits : ∀ {h t : Heap} {owner : Value}, h.Refits t owner → P h → P t
  installs : ∀ {h t : Heap} {ns : Value} {c : ClassFace}, h.Installs t ns c → P h → P t
  survives : ∀ {h t : Heap}, h.Survives t → P h → P t

namespace Lasting

variable {P : Heap → Prop} (lasting : Lasting P) {h t : Heap} {owner : Value}
include lasting

theorem shows' (shown : h.Shows t owner) (hv : h.Valid) (after : After h t) (lineage : h.Lineage)
    (holds : P h) : P t := by
  rcases shown with keeps | ⟨c, edits⟩ | refits
  · exact lasting.keeps keeps hv after holds
  · exact lasting.edits edits lineage holds
  · exact lasting.refits refits holds

theorem finishClass [HostLibrary] (hs : Sound h) (lineage : h.Lineage) (holds : P h) :
    wp (finishClass owner) (fun _ => P) P h := by
  have ended {t : Heap} (ht : After h t ∧ h.Keeps t) : P t :=
    lasting.keeps ht.2 hs.valid ht.1 holds
  have rest {t : Heap} (ht : After h t ∧ h.Keeps t) :
      wp (wrapNew owner) (fun _ => wp (clearHash owner)
        (fun _ => wp (installClass owner) (fun _ => P) P) P) P t := by
    refine wp_mono (wp_and (wrapNew_after ht.1) (wrapNew_keeps ht.2)) (fun _ u hu => ?_)
      fun _ => ended
    refine wp_mono (wp_and (clearHash_after hu.1) (clearHash_keeps hu.2)) (fun _ w hw => ?_)
      fun _ => ended
    have between := (hw.2.carries hs.valid hw.1).2 lineage
    have installs := @wp_installClass w owner hw.1.1.valid.distinct between.1
    apply wp_mono (wp_and (installClass_after hw.1.1.after) installs)
    · rintro _ t ⟨-, c, installs⟩
      exact lasting.installs installs (ended hw)
    · rintro t ⟨after, keeps⟩
      exact lasting.keeps keeps hw.1.1.valid after (ended hw)
  simp only [Tonic.finishClass, wp_bind]
  refine wp_getObject holds fun o ho => ?_
  split
  · split
    · simp only [wp_bind]
      exact wp_mono (wp_and (materializeMapping_after hs) (materializeMapping_keeps (.refl h)))
        (fun _ _ => rest) fun _ => ended
    · simp only [wp_bind]
      exact rest ⟨hs.after, .refl h⟩
  · exact holds

theorem mutation [HostLibrary] (m : Mutation) (hs : Sound h)
    (held : ∀ v ∈ m.arguments, h.Issued v) (lineage : h.Lineage) (holds : P h) :
    wp m.run (fun _ => P) P h := by
  have after := m.run_after hs held
  cases plain : m.editsAttributes with
  | false =>
    exact wp_mono (wp_and after (m.run_keeps plain))
      (fun _ _ ⟨after, keeps⟩ => lasting.keeps keeps hs.valid after holds)
      fun _ ⟨after, keeps⟩ => lasting.keeps keeps hs.valid after holds
  | true =>
    have shown {owner : Value} (shown : wp m.run (fun _ t => h.Shows t owner)
        (h.Shows · owner) h) : wp m.run (fun _ => P) P h :=
      wp_mono (wp_and after shown)
        (fun _ _ ⟨after, shown⟩ => lasting.shows' shown hs.valid after lineage holds)
        fun _ ⟨after, shown⟩ => lasting.shows' shown hs.valid after lineage holds
    cases m with
    | finishClass => exact lasting.finishClass hs lineage holds
    | setAttr => exact shown (setAttr_shows lineage hs.valid.distinct)
    | delAttr => exact shown (delAttr_shows lineage hs.valid.distinct)
    | _ => cases plain

variable [HostLibrary]

theorem step {s t : HeapState} (step : ClassStep s t) (hs : s.Classes) (holds : P s.heap) :
    P t.heap := by
  have sound := hs.proper.sound
  have issued {values : List Value} (held : ∀ v ∈ values, s.held v) :
      ∀ v ∈ values, s.heap.Issued v := fun v hv => hs.proper.issued v (held v hv)
  cases step with
  | alloc o fresh held =>
    have alloc := wp_and (wp_alloc sound (issued held)) (wp_alloc_keeps (.refl _) fresh)
    exact wp_final (wp_mono alloc (fun _ _ ht => lasting.keeps ht.2 sound.valid ht.1.1 holds)
      fun _ ht => lasting.keeps ht.2 sound.valid ht.1 holds)
  | mutate m held => exact wp_final (lasting.mutation m sound (issued held) hs.lineage holds)
  | sealRoot cls =>
    have sealed := wp_and (@HeapState.sealRootClass_after _ cls sound) HeapState.sealRootClass_keeps
    exact wp_final (wp_mono sealed (fun _ _ ht => lasting.keeps ht.2 sound.valid ht.1 holds)
      fun _ ht => lasting.keeps ht.2 sound.valid ht.1 holds)
  | collect youngOnly roots =>
    apply wp_final (P := P)
    apply wp_mono (wp_collectWith sound.valid)
    · rintro - t ⟨marked, t', tr, rfl⟩
      exact lasting.survives (survives_swept sound.valid sound.complete tr) holds
    · intro t failed
      obtain ⟨_, _, _, rfl⟩ := failed.queued
      refine lasting.keeps ((Keeps.refl s.heap).of_same rfl rfl) sound.valid ?_ holds
      exact sound.same rfl rfl rfl rfl subset_rfl

theorem run {s t : HeapState} (run : Relation.ReflTransGen ClassStep s t) (hs : s.Classes)
    (holds : P s.heap) : P t.heap := by
  induction run with
  | refl => exact holds
  | tail before step ih => exact lasting.step step (HeapState.run_classes before hs).1 ih

theorem reachable (start : P HeapState.start.heap) {s : HeapState} (reach : ClassReachable s) :
    P s.heap :=
  lasting.run reach HeapState.start_classes start

end Lasting

end Tonic
