import Tonic.Sweep

/-!
## What a collection keeps

A collection keeps exactly what can still be reached, at any age: a minor one relies on the
remembered owners for the part of the graph it does not enter.
-/

namespace Tonic

open Effect Marking

/-- The part of a collection that decides what it is going to keep. -/
def markLive (youngOnly : Bool) (roots : List Value) : HeapM (List Bool) := do
  let marked ← reading fun h => h.markRoots youngOnly roots
  let h ← get
  let marked ← queueUnreachableGenerators youngOnly (List.range h.objects.length) marked
  queueUnreachableObjectFinalizers youngOnly marked

theorem collectWith_eq (youngOnly : Bool) (roots : List Value) :
    collectWith youngOnly roots = (do
      let marked ← markLive youngOnly roots
      let h ← get
      let (stats, h) := h.sweep youngOnly marked
      set h
      return stats) := by
  simp only [collectWith, markLive, bind_assoc]

namespace Heap

/-- One object leads to another through its payload or through an external field. -/
def Edge (h : Heap) (v w : Value) : Prop := ∃ e, h.entry v = some e ∧ w ∈ h.edges e

def Reachable (h : Heap) (roots : List Value) (v : Value) : Prop :=
  ∃ r ∈ roots, Relation.ReflTransGen h.Edge r v

/-- A stale or forged handle. -/
def Invalid (h : Heap) (v : Value) : Prop := v.heapIndex.isSome = true ∧ h.location v = none

/-- The class of every object is a class object, and so are its ancestors. -/
def ProperClasses (h : Heap) : Prop :=
  ∀ {l : Nat} {e : HeapObject} {cls : Value}, h.objects[l]? = some e →
    e.object.instanceClass = some cls → ∃ c, h.classOf cls = .ok c ∧
      ∀ a ∈ c.mro, ∃ c', h.classOf a = .ok c'

/-- Nothing the collector reads is stale: edges and queues hold live handles, and a finalizer can
be looked up. -/
structure Intact (h : Heap) : Prop where
  edges : ∀ {l : Nat} {e : HeapObject}, h.objects[l]? = some e → ∀ v ∈ h.edges e, ¬ h.Invalid v
  pending : ∀ v ∈ h.pendingGenerators ++ h.pendingFinalizers, ¬ h.Invalid v
  classes : h.ProperClasses

/-- A reason for a collection to fail. -/
def Broken (h : Heap) (roots : List Value) : Prop := (∃ r ∈ roots, h.Invalid r) ∨ ¬ h.Intact

/-! ### The graph -/

section Graph

variable {h : Heap} {youngOnly : Bool} {v w : Value} {l : Nat} {marked : List Bool}

@[simp] theorem graph_look : (h.graph youngOnly).look = h.look youngOnly := rfl

theorem look_eq_node : h.look youngOnly v = .node l ↔
    h.location v = some l ∧ (youngOnly = true → h.isYoung v = true) := by
  unfold look
  cases v with
  | heap i g =>
    simp only [Value.heapIndex, Option.isNone_some, Bool.false_eq_true, ↓reduceIte]
    cases h.location (.heap i g) with
    | none => simp
    | some k => cases youngOnly <;> cases h.isYoung (.heap i g) <;> simp
  | _ => simp [location, Value.heapIndex]

theorem look_eq_invalid {e : Fault} (hl : h.look youngOnly v = .invalid e) : h.Invalid v := by
  unfold look at hl
  split at hl
  · cases hl
  · next some =>
    split at hl
    · next none => exact ⟨by simpa [Option.isSome_iff_ne_none] using some, none⟩
    · split at hl <;> cases hl

variable (youngOnly) in
theorem look_invalid (hv : h.Invalid v) : h.look youngOnly v = .invalid (invalidValue v) := by
  obtain ⟨handle, stale⟩ := hv
  unfold look
  rw [if_neg (by simpa [Option.isSome_iff_ne_none] using handle), stale]

theorem look_bounded (hv : h.Valid) (v : Value) (l : Nat) (hl : h.look youngOnly v = .node l) :
    l < h.objects.length := by
  obtain ⟨i, s, -, hs, located⟩ := location_eq_some.mp (look_eq_node.mp hl).1
  obtain ⟨e, he, -⟩ := hv.located hs located
  exact (List.getElem?_eq_some_iff.mp he).1

theorem graph_edge (edge : (h.graph youngOnly).Edge v w) : h.Edge v w := by
  obtain ⟨l, hl, mem⟩ := edge
  have located := (look_eq_node.mp hl).1
  simp only [graph] at mem
  cases he : h.objects[l]? with
  | none => simp [he] at mem
  | some e => exact ⟨e, entry_eq_some.mpr ⟨l, located, he⟩, by simpa [he] using mem⟩

theorem graph_reach {work : List Value} (reach : (h.graph youngOnly).Reach work v) :
    h.Reachable work v := by
  obtain ⟨r, hr, path⟩ := reach
  exact ⟨r, hr, path.lift id fun _ _ => graph_edge⟩

theorem Reachable.mono {a b : List Value} (reach : h.Reachable a v) (sub : a ⊆ b) :
    h.Reachable b v := by
  obtain ⟨r, hr, path⟩ := reach
  exact ⟨r, sub hr, path⟩

theorem done_marked (done : (h.graph youngOnly).Done marked v) (hl : h.location v = some l)
    (entered : youngOnly = true → h.isYoung v = true) : marked[l]? = some true := by
  have look : h.look youngOnly v = .node l := look_eq_node.mpr ⟨hl, entered⟩
  rcases done with skip | ⟨k, look', mark⟩
  · rw [graph_look, look] at skip
    cases skip
  · rw [graph_look, look] at look'
    cases look'
    exact mark

/-- What the full traversal has finished, a minor one need not look at again. -/
theorem done_weaken (done : (h.graph false).Done marked v) :
    (h.graph youngOnly).Done marked v := by
  cases hl : h.location v with
  | some l =>
    have mark := done_marked done hl (by simp)
    cases entered : youngOnly && !h.isYoung v with
    | true =>
      refine .inl ?_
      show h.look youngOnly v = .skip
      have handle : v.heapIndex.isNone = false := by
        obtain ⟨i, s, rfl, -⟩ := location_eq_some.mp hl
        rfl
      simp [look, handle, hl, entered]
    | false =>
      refine .inr ⟨l, look_eq_node.mpr ⟨hl, fun minor => ?_⟩, mark⟩
      simpa [minor] using entered
  | none =>
    cases handle : v.heapIndex with
    | none =>
      refine .inl ?_
      show h.look youngOnly v = .skip
      simp [look, handle]
    | some i =>
      have bad : h.look false v = .invalid (invalidValue v) :=
        look_invalid false ⟨by simp [handle], hl⟩
      rcases done with skip | ⟨k, node, -⟩
      · rw [graph_look, bad] at skip
        cases skip
      · rw [graph_look, bad] at node
        cases node

theorem not_done_invalid (hv : h.Invalid v) : ¬ (h.graph youngOnly).Done marked v := by
  have bad := look_invalid youngOnly hv
  rintro (skip | ⟨l, node, -⟩)
  · rw [graph_look, bad] at skip
    cases skip
  · rw [graph_look, bad] at node
    cases node

/-- In an intact heap only what the marker starts from can stop it. -/
theorem Intact.mark_error (intact : h.Intact) {work : List Value} {e : Fault}
    (error : mark (h.graph youngOnly) marked work = .error e) : ∃ r ∈ work, h.Invalid r := by
  obtain ⟨v, ⟨r, hr, path⟩, look⟩ := Marking.mark_error error
  have bad := look_eq_invalid look
  cases path.cases_tail with
  | inl eq => exact ⟨r, hr, eq ▸ bad⟩
  | inr step =>
    obtain ⟨u, -, edge⟩ := step
    obtain ⟨e, he, mem⟩ := graph_edge edge
    obtain ⟨l, -, stored⟩ := entry_eq_some.mp he
    exact absurd bad (intact.edges stored v mem)

theorem mem_rememberedEdges (hv : h.Valid) {e : HeapObject} (he : h.objects[l]? = some e)
    (remembered : e.slot ∈ h.remembered) (hw : w ∈ h.edges e) : w ∈ h.rememberedEdges := by
  obtain ⟨s, hs, located⟩ := hv.stored he
  refine List.mem_flatMap.mpr ⟨e.slot, (Finset.mem_sort _).mpr remembered, ?_⟩
  simpa [hs, located, he] using hw

theorem rememberedEdges_edge (hw : w ∈ h.rememberedEdges) :
    ∃ (l : Nat) (e : HeapObject), h.objects[l]? = some e ∧ w ∈ h.edges e := by
  obtain ⟨i, -, hw⟩ := List.mem_flatMap.mp hw
  split at hw
  · next l _ =>
    cases he : h.objects[l]? with
    | none => simp [he] at hw
    | some e => exact ⟨l, e, he, by simpa [he] using hw⟩
  · cases hw

end Graph

/-! ### Marking -/

/-- Until the sweep a collection only adds to its queues. -/
def Queued (h t : Heap) : Prop :=
  ∃ generators finalizers finalized, t = { h with
    pendingGenerators := h.pendingGenerators ++ generators
    pendingFinalizers := h.pendingFinalizers ++ finalizers
    finalizedObjects := finalized }

/-- What a collection keeps by definition, in terms of the queues it ends with. -/
def starts (roots : List Value) (t : Heap) : List Value :=
  roots ++ t.pendingGenerators ++ t.pendingFinalizers

/-- Where the marker starts: a minor collection adds the edges of the remembered owners. -/
def work (h : Heap) (youngOnly : Bool) (roots : List Value) (t : Heap) : List Value :=
  starts roots t ++ (if youngOnly then h.rememberedEdges else [])

/-- The marks are closed, and they are what the starting points lead to. -/
structure Traced (h : Heap) (youngOnly : Bool) (roots : List Value) (marked : List Bool)
    (t : Heap) : Prop where
  queued : h.Queued t
  length : marked.length = h.objects.length
  closed : (h.graph youngOnly).Closed marked
  done : ∀ v ∈ h.work youngOnly roots t, (h.graph youngOnly).Done marked v
  sound : ∀ l : Nat, marked[l]? = some true →
    ∃ v, h.Reachable (h.work youngOnly roots t) v ∧ h.location v = some l

section Collecting

variable {h t : Heap} {youngOnly : Bool} {roots : List Value} {marked : List Bool}

theorem Queued.refl (h : Heap) : h.Queued h := ⟨[], [], h.finalizedObjects, by simp⟩

theorem Queued.graph (q : h.Queued t) : t.graph = h.graph := by
  obtain ⟨_, _, _, rfl⟩ := q
  rfl

theorem Queued.valid (q : h.Queued t) (hv : h.Valid) : t.Valid := by
  obtain ⟨_, _, _, rfl⟩ := q
  exact { hv with }

/-- The failure of a collection: nothing was swept, there is a reason, and a bad root is noticed
before anything changes. -/
structure Failed (h : Heap) (roots : List Value) (t : Heap) : Prop where
  queued : h.Queued t
  broken : h.Broken roots
  atomic : (∃ r ∈ roots, h.Invalid r) → t = h

/-- A complete marking has looked at every root. -/
theorem Traced.roots_valid (tr : h.Traced youngOnly roots marked t) : ∀ r ∈ roots, ¬ h.Invalid r :=
  fun r hr bad => not_done_invalid bad (tr.done r (by simp [work, starts, hr]))

theorem Failed.late {t' : Heap} (valid : ∀ r ∈ roots, ¬ h.Invalid r) (q : h.Queued t')
    (broken : ¬ h.Intact) : h.Failed roots t' :=
  ⟨q, .inr broken, fun ⟨r, hr, bad⟩ => absurd bad (valid r hr)⟩

theorem wp_markRoots (hv : h.Valid) :
    wp (reading fun h => h.markRoots youngOnly roots)
      (fun marked t => t = h ∧ h.Traced youngOnly roots marked h)
      (fun t => t = h ∧ h.Broken roots) h := by
  rw [wp_reading]
  have unfolded : h.markRoots youngOnly roots =
    mark (h.graph youngOnly) (List.replicate h.objects.length false)
      (h.work youngOnly roots h).reverse := rfl
  rw [unfolded]
  cases eq : mark (h.graph youngOnly) (List.replicate h.objects.length false)
    (h.work youngOnly roots h).reverse with
  | ok marked =>
    refine ⟨rfl, ?_⟩
    have m := mark_ok (by simpa using look_bounded hv) eq
    have unmarked (l : Nat) : (List.replicate h.objects.length false)[l]? ≠ some true := by
      simp [List.getElem?_replicate]
    refine ⟨.refl h, by simpa using m.length, m.closes fun l hl => absurd hl (unmarked l), ?_, ?_⟩
    · exact fun v hv => m.done v (List.mem_reverse.mpr hv)
    · intro l hl
      rcases m.sound l hl with before | ⟨v, reach, look⟩
      · exact absurd before (unmarked l)
      · exact ⟨v, (graph_reach reach).mono (List.reverse_subset.mpr (List.Subset.refl _)),
          (look_eq_node.mp look).1⟩
  | error e =>
    refine ⟨rfl, ?_⟩
    by_contra sound
    obtain ⟨valid, intact⟩ := not_or.mp sound
    have intact := not_not.mp intact
    obtain ⟨r, hr, bad⟩ := intact.mark_error eq
    simp only [work, starts, List.mem_reverse, List.append_assoc, List.mem_append] at hr
    rcases hr with root | pending | pending | edge
    · exact valid ⟨r, root, bad⟩
    · exact intact.pending r (List.mem_append_left _ pending) bad
    · exact intact.pending r (List.mem_append_right _ pending) bad
    · split at edge
      · obtain ⟨l, e, he, mem⟩ := rememberedEdges_edge edge
        exact intact.edges he r mem bad
      · cases edge

/-- The queues grow by at most the value `v`, which is in them afterwards. -/
structure Grown (h : Heap) (youngOnly : Bool) (roots : List Value) (v : Value) (t t' : Heap) :
    Prop where
  queued : h.Queued t'
  sub : h.work youngOnly roots t ⊆ h.work youngOnly roots t'
  mem : v ∈ h.work youngOnly roots t'
  only : ∀ u ∈ h.work youngOnly roots t', u ∈ h.work youngOnly roots t ∨ u = v

/-- Resurrecting a queued object keeps the marks what they are meant to be. -/
theorem Traced.resurrect {t' : Heap} {v : Value} (hv : h.Valid)
    (tr : h.Traced youngOnly roots marked t) (grown : h.Grown youngOnly roots v t t')
    (live : ¬ h.Invalid v) :
    wp (resurrect marked v) (h.Traced youngOnly roots) (h.Failed roots) t' := by
  unfold Tonic.resurrect
  rw [wp_reading, grown.queued.graph]
  cases eq : mark (h.graph false) marked [v] with
  | ok marked' =>
    have m := mark_ok (fun v l look => tr.length ▸ look_bounded hv v l look) eq
    have weaken (u : Value) : (h.graph false).Done marked' u →
        (h.graph youngOnly).Done marked' u := done_weaken
    refine ⟨grown.queued, m.length.trans tr.length, ?_, ?_, ?_⟩
    · intro l hl w hw
      rcases m.closed l hl with before | done
      · exact (tr.closed l before w hw).mono m.grows
      · exact weaken w (done w hw)
    · intro u hu
      rcases grown.only u hu with before | rfl
      · exact (tr.done u before).mono m.grows
      · exact weaken u (m.done u (by simp))
    · intro l hl
      rcases m.sound l hl with before | ⟨u, reach, look⟩
      · obtain ⟨u, reach, located⟩ := tr.sound l before
        exact ⟨u, reach.mono grown.sub, located⟩
      · exact ⟨u, (graph_reach reach).mono (by simpa using grown.mem), (look_eq_node.mp look).1⟩
  | error e =>
    refine .late tr.roots_valid grown.queued fun intact => ?_
    obtain ⟨r, hr, bad⟩ := intact.mark_error eq
    rw [List.mem_singleton.mp hr] at bad
    exact live bad

variable (youngOnly roots) in
theorem wp_enqueueGenerator {v : Value} {E : Heap → Prop} (q : h.Queued t) :
    wp (enqueueGenerator v) (fun _ => h.Grown youngOnly roots v t) E t := by
  simp only [enqueueGenerator, wp_bind, wp_get]
  split
  · rw [wp_set]
    refine ⟨?_, ?_, ?_, ?_⟩
    · obtain ⟨generators, finalizers, finalized, rfl⟩ := q
      exact ⟨generators ++ [v], finalizers, finalized, by simp⟩
    · intro u
      simp only [work, starts, List.mem_append]
      tauto
    · simp [work, starts]
    · intro u
      simp only [work, starts, List.mem_append, List.mem_singleton]
      tauto
  · next known =>
    rw [wp_pure]
    exact ⟨q, List.Subset.refl _, by simp [work, starts, not_not.mp known], fun _ => .inl⟩

theorem candidate_stored {p : Object → Bool} {l : Nat} {e : HeapObject} (q : h.Queued t)
    (hc : t.candidate youngOnly p marked l = some e) : h.objects[l]? = some e := by
  obtain ⟨_, _, _, rfl⟩ := q
  exact (Option.filter_eq_some_iff.mp hc).1

theorem live_handle {l : Nat} {e : HeapObject} (hv : h.Valid) (q : h.Queued t)
    (he : h.objects[l]? = some e) : ¬ h.Invalid (t.handle e) := by
  obtain ⟨_, _, _, rfl⟩ := q
  rintro ⟨-, stale⟩
  have located : h.location (h.handle e) = some l := location_handle hv he
  exact absurd (located.symm.trans stale) (by simp)

theorem wp_queueUnreachableGenerators {locations : List Nat} (hv : h.Valid)
    (tr : h.Traced youngOnly roots marked t) :
    wp (queueUnreachableGenerators youngOnly locations marked) (h.Traced youngOnly roots)
      (h.Failed roots) t := by
  induction locations generalizing marked t with
  | nil => exact tr
  | cons l locations ih =>
    simp only [queueUnreachableGenerators, wp_bind, wp_get]
    split
    · exact ih tr
    · next e hc =>
      have live := live_handle hv tr.queued (candidate_stored tr.queued hc)
      simp only [wp_bind]
      refine wp_mono (wp_enqueueGenerator youngOnly roots tr.queued)
        (fun _ t' grown => ?_) fun _ => id
      exact wp_mono (tr.resurrect hv grown live) (fun marked' t'' tr => ih tr) fun _ => id

theorem firstAttribute_ok (name : String) (classes : List Value)
    (proper : ∀ a ∈ classes, ∃ c, h.classOf a = .ok c) :
    ∃ r, h.firstAttribute name classes = .ok r := by
  induction classes with
  | nil => exact ⟨none, rfl⟩
  | cons a classes ih =>
    obtain ⟨c, hc⟩ := proper a (by simp)
    obtain ⟨r, hr⟩ := ih fun b hb => proper b (by simp [hb])
    simp only [firstAttribute, hc, bind, Except.bind]
    split
    · exact ⟨_, rfl⟩
    · exact ⟨r, hr⟩

theorem ProperClasses.specialMethodCall {v : Value} (name : String) (proper : h.ProperClasses) :
    ∃ r, h.specialMethodCall v name = .ok r := by
  unfold Heap.specialMethodCall
  split
  · exact ⟨none, rfl⟩
  · next cls hcls =>
    obtain ⟨o, ho, hcls⟩ := Option.bind_eq_some_iff.mp hcls
    obtain ⟨e, he, rfl⟩ := tryGet_eq_some.mp ho
    obtain ⟨l, -, stored⟩ := entry_eq_some.mp he
    obtain ⟨c, hc, ancestors⟩ := proper stored hcls
    obtain ⟨r, hr⟩ := firstAttribute_ok name (cls :: c.mro) (h := h)
      (by simpa using ⟨⟨c, hc⟩, ancestors⟩)
    simp only [classLookup, hc, bind, Except.bind, hr]
    cases r <;> exact ⟨_, rfl⟩

theorem Queued.properClasses (q : h.Queued t) (proper : h.ProperClasses) : t.ProperClasses := by
  obtain ⟨_, _, _, rfl⟩ := q
  exact fun stored hcls => proper stored hcls

variable (youngOnly) in
/-- An object is queued once, and only when its finalizer was found. -/
theorem wp_queueObjectFinalizer {v : Value} (valid : ∀ r ∈ roots, ¬ h.Invalid r)
    (q : h.Queued t) :
    wp (queueObjectFinalizer v)
      (fun queued t' => if queued then h.Grown youngOnly roots v t t' else t' = t)
      (h.Failed roots) t := by
  simp only [queueObjectFinalizer, wp_bind, wp_get]
  split
  · simp
  · rw [wp_bind, wp_reading]
    cases eq : t.specialMethodCall v "__del__" with
    | error e =>
      refine .late valid q fun intact => ?_
      have proper : t.ProperClasses := q.properClasses intact.classes
      obtain ⟨r, hr⟩ := ProperClasses.specialMethodCall "__del__" (v := v) proper
      rw [eq] at hr
      cases hr
    | ok finalizer =>
      simp only
      split
      · simp
      · simp only [wp_bind, wp_set, wp_pure, ↓reduceIte]
        refine ⟨?_, ?_, ?_, ?_⟩
        · obtain ⟨generators, finalizers, finalized, rfl⟩ := q
          exact ⟨generators, finalizers ++ [v], finalized ++ [v], by simp⟩
        · intro u
          simp only [work, starts, List.mem_append]
          tauto
        · simp [work, starts]
        · intro u
          simp only [work, starts, List.mem_append, List.mem_singleton]
          tauto

theorem wp_queueFinalizers {values : List Value} (hv : h.Valid)
    (live : ∀ v ∈ values, ¬ h.Invalid v) (tr : h.Traced youngOnly roots marked t) :
    wp (queueFinalizers values marked) (h.Traced youngOnly roots) (h.Failed roots) t := by
  induction values generalizing marked t with
  | nil => exact tr
  | cons v values ih =>
    simp only [queueFinalizers, wp_bind]
    refine wp_mono (wp_queueObjectFinalizer youngOnly tr.roots_valid tr.queued)
      (fun queued t' grown => ?_) fun _ => id
    have rest : ∀ u ∈ values, ¬ h.Invalid u := fun u hu => live u (by simp [hu])
    cases queued with
    | true =>
      simp only [↓reduceIte, wp_bind]
      exact wp_mono (tr.resurrect hv grown (live v (by simp))) (fun _ _ tr => ih rest tr)
        fun _ => id
    | false =>
      simp only [Bool.false_eq_true, ↓reduceIte] at grown
      subst grown
      exact ih rest tr

theorem wp_queueUnreachableObjectFinalizers (hv : h.Valid)
    (tr : h.Traced youngOnly roots marked t) :
    wp (queueUnreachableObjectFinalizers youngOnly marked) (h.Traced youngOnly roots)
      (h.Failed roots) t := by
  simp only [queueUnreachableObjectFinalizers, wp_bind, wp_get]
  refine wp_queueFinalizers hv (fun v mem => ?_) tr
  obtain ⟨e, he, rfl⟩ := List.mem_map.mp mem
  obtain ⟨l, -, hc⟩ := List.mem_filterMap.mp he
  exact live_handle hv tr.queued (candidate_stored tr.queued hc)

/-- The marking of a collection is complete, or the collection fails. -/
theorem wp_markLive (hv : h.Valid) :
    wp (markLive youngOnly roots) (h.Traced youngOnly roots) (h.Failed roots) h := by
  simp only [markLive, wp_bind, wp_get]
  refine wp_mono (wp_markRoots hv) ?_ ?_
  · rintro marked t ⟨rfl, tr⟩
    exact wp_mono (wp_queueUnreachableGenerators hv tr)
      (fun _ _ tr => wp_queueUnreachableObjectFinalizers hv tr) fun _ => id
  · rintro t ⟨rfl, broken⟩
    exact ⟨.refl t, broken, fun _ => rfl⟩

/-- A collection is a complete marking, then the sweep. -/
theorem wp_collectWith (hv : h.Valid) :
    wp (collectWith youngOnly roots)
      (fun _ t' => ∃ marked t, h.Traced youngOnly roots marked t ∧ t' = t.swept youngOnly marked)
      (h.Failed roots) h := by
  simp only [collectWith_eq, wp_bind, wp_get, wp_set, wp_pure]
  exact wp_mono (wp_markLive hv) (fun marked t tr => ⟨marked, t, tr, rfl⟩) fun _ => id

/-- Without a sweep the heap is as sound as before, and nothing moved. -/
theorem Queued.sound (q : h.Queued t) (hs : Sound h) :
    Sound t ∧ ∀ v, h.Issued v → t.Issued v := by
  have after : After h t := by
    obtain ⟨_, _, _, rfl⟩ := q
    exact hs.same rfl rfl rfl rfl (Finset.Subset.refl _)
  exact ⟨after.1, fun _ => after.2.issued⟩

theorem collected_sound (hv : h.Valid)
    (collected : ∃ marked t₁, h.Traced youngOnly roots marked t₁ ∧
      t = t₁.swept youngOnly marked) : Sound t ∧ ∀ v, h.Issued v → t.Issued v := by
  obtain ⟨marked, t₁, tr, rfl⟩ := collected
  have valid := tr.queued.valid hv
  refine ⟨swept_sound valid, fun v issued => swept_issued valid ?_⟩
  obtain ⟨_, _, _, eq⟩ := tr.queued
  subst eq
  exact issued

/-! ### Survival -/

/-- Every mark follows an edge: a minor collection relies on the remembered owners for the edges
of the old objects it does not enter. -/
theorem Traced.reaches (hv : h.Valid) (complete : h.RememberedComplete)
    (tr : h.Traced youngOnly roots marked t) {v : Value} (reach : h.Reachable (starts roots t) v)
    {l : Nat} (hl : h.location v = some l) (entered : youngOnly = true → h.isYoung v = true) :
    marked[l]? = some true := by
  obtain ⟨r, hr, path⟩ := reach
  induction path generalizing l with
  | refl => exact done_marked (tr.done r (List.mem_append_left _ hr)) hl entered
  | @tail u w _ edge ih =>
    obtain ⟨e, he, mem⟩ := edge
    obtain ⟨k, hk, stored⟩ := entry_eq_some.mp he
    by_cases inside : youngOnly = true → h.isYoung u = true
    · have done := tr.closed k (ih hk inside) w (by simpa [graph, stored] using mem)
      exact done_marked done hl entered
    · obtain ⟨minor, old⟩ := Classical.not_imp.mp inside
      have age : e.young = false := by simpa [isYoung, he] using old
      have remembered := complete stored age w mem (entered minor)
      refine done_marked (tr.done w ?_) hl entered
      simp [work, minor, mem_rememberedEdges hv stored remembered mem]

theorem Traced.live (hv : h.Valid) (complete : h.RememberedComplete)
    (tr : h.Traced youngOnly roots marked t) {v : Value} (reach : h.Reachable (starts roots t) v)
    {l : Nat} {e : HeapObject} (hl : h.location v = some l) (he : h.objects[l]? = some e) :
    isLive youngOnly marked l e = true := by
  have young : h.isYoung v = e.young := by simp [isYoung, entry_eq_some.mpr ⟨l, hl, he⟩]
  unfold isLive
  cases outside : !e.young && youngOnly with
  | true => rfl
  | false =>
    have mark := tr.reaches hv complete reach hl fun minor => by
      rw [young]
      simpa [minor] using outside
    simp [mark]

/-- A major collection marks nothing else. -/
theorem Traced.reached (hv : h.Valid) (tr : h.Traced false roots marked t) {v : Value} {l : Nat}
    {e : HeapObject} (hl : h.location v = some l) (live : isLive false marked l e = true) :
    h.Reachable (starts roots t) v := by
  have mark : marked[l]? = some true := by
    cases hm : marked[l]? with
    | none => simp [isLive, hm] at live
    | some b => simpa [isLive, hm] using live
  obtain ⟨u, reach, at_l⟩ := tr.sound l mark
  rw [hv.distinct hl at_l]
  exact reach.mono (by simp [work])

/-- The handle leads to the same object as before the collection. Only the weak list of a class's
dependents is not kept as it is: the dead are dropped from it. -/
structure Kept (h t : Heap) (v : Value) : Prop where
  entry : t.entry v = (h.entry v).map fun e =>
    { e with object := pruneDependents t.resolves e.object, young := false }
  fields : (h.entry v).isSome = true → ∀ field,
    t.externalFields.lookup (v, field) = h.externalFields.lookup (v, field)

theorem Queued.location (q : h.Queued t) : t.location = h.location := by
  obtain ⟨_, _, _, rfl⟩ := q
  rfl

theorem Queued.objects (q : h.Queued t) : t.objects = h.objects := by
  obtain ⟨_, _, _, rfl⟩ := q
  rfl

theorem Queued.kept {t' : Heap} {v : Value} (q : h.Queued t) (kept : t.Kept t' v) :
    h.Kept t' v := by
  obtain ⟨_, _, _, rfl⟩ := q
  exact ⟨kept.entry, kept.fields⟩

theorem swept_kept (hv : h.Valid) {v : Value}
    (live : ∀ l e, h.location v = some l → h.objects[l]? = some e →
      isLive youngOnly marked l e = true) : h.Kept (h.swept youngOnly marked) v := by
  cases he : h.entry v with
  | none =>
    have stale : h.location v = none := by
      by_contra found
      obtain ⟨l, hl⟩ := Option.ne_none_iff_exists'.mp found
      obtain ⟨i, slot, -, hi, located⟩ := location_eq_some.mp hl
      obtain ⟨e, stored, -⟩ := hv.located hi located
      rw [entry_eq_some.mpr ⟨l, hl, stored⟩] at he
      cases he
    refine ⟨?_, by simp [he]⟩
    rw [he]
    simp [Heap.entry, location_swept_stale hv stale]
  | some e =>
    obtain ⟨l, hl, stored⟩ := entry_eq_some.mp he
    have entry := entry_swept_live hv hl stored
      (live l e hl stored)
    refine ⟨by rw [entry, he]; rfl, fun _ field => lookup_swept ?_ field⟩
    obtain ⟨n, located, -⟩ := entry_eq_some.mp entry
    simp [resolves, located]

theorem Traced.kept (hv : h.Valid) (complete : h.RememberedComplete)
    (tr : h.Traced youngOnly roots marked t) {v : Value}
    (reach : h.Reachable (starts roots t) v) : h.Kept (t.swept youngOnly marked) v := by
  refine tr.queued.kept (swept_kept (tr.queued.valid hv) fun l e hl he => ?_)
  rw [tr.queued.location] at hl
  rw [tr.queued.objects] at he
  exact tr.live hv complete reach hl he

theorem Queued.entry (q : h.Queued t) (v : Value) : t.entry v = h.entry v := by
  obtain ⟨_, _, _, rfl⟩ := q
  rfl

/-- From a heap whose remembered set is complete, whatever the roots and the queues lead to is
kept, and a major collection frees the rest. A collection only fails for a reason, and then it
frees and moves nothing. -/
theorem collection_safe (h : Heap) (hv : h.Valid) (complete : h.RememberedComplete)
    (youngOnly : Bool) (roots : List Value) :
    wp (collectWith youngOnly roots)
      (fun _ t => (∀ r ∈ roots, ¬ h.Invalid r) ∧
        h.pendingGenerators <+: t.pendingGenerators ∧
        h.pendingFinalizers <+: t.pendingFinalizers ∧
        (∀ v, h.Reachable (starts roots t) v → h.Kept t v) ∧
        (youngOnly = false → ∀ v, (h.entry v).isSome = true →
          (t.entry v = none ↔ ¬ h.Reachable (starts roots t) v)))
      (fun t => h.Queued t ∧ h.Broken roots ∧ ((∃ r ∈ roots, h.Invalid r) → t = h)) h := by
  refine wp_mono (wp_collectWith hv) ?_ fun t failed =>
    ⟨failed.queued, failed.broken, failed.atomic⟩
  rintro - t' ⟨marked, t, tr, rfl⟩
  have queued := tr.queued
  refine ⟨tr.roots_valid, ?_, ?_, fun v reach => ?_, ?_⟩
  · obtain ⟨_, _, _, eq⟩ := queued
    subst eq
    exact List.prefix_append _ _
  · obtain ⟨_, _, _, eq⟩ := queued
    subst eq
    exact List.prefix_append _ _
  · exact tr.kept hv complete reach
  · rintro rfl v found
    obtain ⟨e, he⟩ := Option.isSome_iff_exists.mp found
    obtain ⟨l, hl, stored⟩ := entry_eq_some.mp he
    rw [← queued.location] at hl
    rw [← queued.objects] at stored
    constructor
    · intro freed reach
      have live := tr.live hv complete reach (queued.location ▸ hl) (queued.objects ▸ stored)
      rw [entry_swept_live (queued.valid hv) hl stored live] at freed
      cases freed
    · intro unreached
      cases live : isLive false marked l e with
      | true => exact absurd (tr.reached hv (queued.location ▸ hl) live) unreached
      | false => simp [Heap.entry, location_swept_dead (queued.valid hv) hl stored live]

end Collecting

section DroppedSubclass

def baseClass : Class :=
  { root := false, id := 1, version := 1, name := "Base", metaclass := .none
    namespaceMapping := none, attributes := [], extraAttributes := [], dictionaryOrder := []
    bases := [], mro := [], dependents := [.heap 1 1] }

/-- A class with a subclass that nothing but its weak list refers to. -/
def droppedSubclass : Heap :=
  { Heap.empty with
    objects := [⟨.classObject baseClass, 0, true⟩,
      ⟨.classObject { baseClass with
        id := 2, name := "Derived", bases := [.heap 0 1], mro := [.heap 0 1], dependents := [] },
        1, true⟩]
    slots := [⟨1, some 0⟩, ⟨1, some 1⟩] }

theorem droppedSubclass_valid : droppedSubclass.Valid where
  stored {l e} he := by
    match l with
    | 0 => cases he; exact ⟨_, rfl, rfl⟩
    | 1 => cases he; exact ⟨_, rfl, rfl⟩
    | _ + 2 => cases he
  located {i l s} hi hl := by
    match i with
    | 0 => cases hi; cases hl; exact ⟨_, rfl, rfl⟩
    | 1 => cases hi; cases hl; exact ⟨_, rfl, rfl⟩
    | _ + 2 => cases hi
  freed hi := by cases hi
  freeNodup := .nil
  generations {i s} hi := by
    match i with
    | 0 => cases hi; decide
    | 1 => cases hi; decide
    | _ + 2 => cases hi
  capacity := by decide
  traced {l e} he v hv := by
    have issued : droppedSubclass.Issued (.heap 0 1) := ⟨_, rfl, .inr ⟨rfl, List.not_mem_nil⟩⟩
    match l with
    | 0 =>
      cases he
      cases List.mem_singleton.mp hv
      trivial
    | 1 =>
      cases he
      simp only [Object.trace, Class.trace, baseClass, pairs, Option.toList_none, List.map_nil,
        List.flatMap_nil, List.nil_append, List.cons_append, List.mem_cons,
        List.not_mem_nil, or_false, or_self] at hv
      rcases hv with rfl | rfl
      · trivial
      · exact issued
    | _ + 2 => cases he
  external hx := by cases hx

theorem droppedSubclass_complete : droppedSubclass.RememberedComplete := by
  intro l e he old
  match l with
  | 0 => cases he; cases old
  | 1 => cases he; cases old
  | _ + 2 => cases he

theorem mark_droppedSubclass :
    droppedSubclass.markRoots false [.heap 0 1] = .ok [true, false] := by
  simp [markRoots, droppedSubclass, baseClass, mark, graph, look, location, edges, externalEdges,
    handle, Heap.empty, Object.trace, Class.trace, pairs, Value.heapIndex, isYoung, entry]

theorem collect_droppedSubclass : collect [.heap 0 1] droppedSubclass =
    .ok (droppedSubclass.sweep false [true, false]).1
      (droppedSubclass.sweep false [true, false]).2 := by
  simp only [collect, collectWith, bind, EStateM.bind, reading, mark_droppedSubclass]
  rfl

theorem collection_safe_droppedSubclass :
    droppedSubclass.Kept (droppedSubclass.sweep false [true, false]).2 (.heap 0 1) := by
  have safe := collection_safe droppedSubclass droppedSubclass_valid droppedSubclass_complete false
    [.heap 0 1]
  rw [wp, show collectWith false _ _ = _ from collect_droppedSubclass] at safe
  exact safe.2.2.2.1 _ ⟨.heap 0 1, by simp [starts], .refl⟩

/-- A collection does change the contents of what it keeps: the weak list of dependents. -/
theorem collect_drops_dependents : ¬ ∀ (h : Heap) (roots : List Value), h.Valid →
    h.RememberedComplete → (∀ r ∈ roots, ¬ h.Invalid r) →
    ∀ stats t, collect roots h = .ok stats t →
      ∀ v, h.Reachable (starts roots t) v → t.tryGet v = h.tryGet v := by
  intro same
  have roots : ∀ r ∈ [Value.heap 0 1], ¬ droppedSubclass.Invalid r := by
    intro r hr bad
    cases List.mem_singleton.mp hr
    cases bad.2
  have eq := same droppedSubclass [.heap 0 1] droppedSubclass_valid droppedSubclass_complete roots
    _ _ collect_droppedSubclass (.heap 0 1) ⟨.heap 0 1, by simp [starts], .refl⟩
  have dependents : ([] : List Value) = [.heap 1 1] :=
    congrArg Class.dependents (Object.classObject.inj (Option.some.inj eq))
  cases dependents

end DroppedSubclass

end Heap

end Tonic
