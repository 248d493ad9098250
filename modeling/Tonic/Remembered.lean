import Tonic.Heap

namespace Tonic

open Effect

namespace Heap

/-- The handle was handed out by an allocation: its slot has moved on since, or still carries the
generation and is not waiting to be reused. Immediate values always qualify. -/
def Issued (h : Heap) : Value → Prop
  | .heap i g => ∃ s, h.slots[i]? = some s ∧ (g < s.generation ∨ (g = s.generation ∧ i ∉ h.free))
  | _ => True

/-- Slots and storage point at each other, and every stored edge was once handed out. -/
structure Valid (h : Heap) : Prop where
  stored : ∀ {l : Nat} {e : HeapObject}, h.objects[l]? = some e →
    ∃ s, h.slots[e.slot]? = some s ∧ s.location = some l
  located : ∀ {i l : Nat} {s : Slot}, h.slots[i]? = some s → s.location = some l →
    ∃ e, h.objects[l]? = some e ∧ e.slot = i
  freed : ∀ {i : Nat}, i ∈ h.free → ∃ s, h.slots[i]? = some s ∧ s.location = none
  freeNodup : h.free.Nodup
  generations : ∀ {i : Nat} {s : Slot}, h.slots[i]? = some s →
    0 < s.generation ∧ s.generation ≤ Value.maxGeneration
  capacity : h.slots.length ≤ 2 ^ 32
  traced : ∀ {l : Nat} {e : HeapObject}, h.objects[l]? = some e → ∀ v ∈ e.object.trace, h.Issued v
  external : ∀ {x : Sigma fun _ : Value × Nat => Value}, x ∈ h.externalFields.entries → h.Issued x.1.1 ∧ h.Issued x.2

/-- Every old object with an edge to a young object is in the remembered set. -/
def RememberedComplete (h : Heap) : Prop :=
  ∀ {l : Nat} {e : HeapObject}, h.objects[l]? = some e → e.young = false →
    ∀ v ∈ h.edges e, h.isYoung v = true → e.slot ∈ h.remembered

/-- An old class has no young ancestor: its bases were finished before it. -/
def AncestorsOld (h : Heap) : Prop :=
  ∀ {l : Nat} {e : HeapObject}, h.objects[l]? = some e → e.young = false →
    ∀ v ∈ e.object.ancestors, h.isYoung v = false

structure Sound (h : Heap) : Prop where
  valid : h.Valid
  complete : h.RememberedComplete
  ancestors : h.AncestorsOld

/-- Between two collections handles keep their storage and their age, and the remembered set
only grows. -/
structure Extends (a b : Heap) : Prop where
  issued : ∀ {v : Value}, a.Issued v → b.Issued v
  location : ∀ {v : Value}, a.Issued v → b.location v = a.location v
  young : ∀ {v : Value}, a.Issued v → b.isYoung v = a.isYoung v
  remembered : a.remembered ⊆ b.remembered

theorem Extends.refl (a : Heap) : Extends a a := ⟨id, fun _ => rfl, fun _ => rfl, subset_rfl⟩

theorem Extends.trans {a b c : Heap} (ab : Extends a b) (bc : Extends b c) : Extends a c where
  issued hv := bc.issued (ab.issued hv)
  location hv := (bc.location (ab.issued hv)).trans (ab.location hv)
  young hv := (bc.young (ab.issued hv)).trans (ab.young hv)
  remembered := ab.remembered.trans bc.remembered

/-- What every mutation guarantees of the heap it leaves behind. -/
def After (a b : Heap) : Prop := Sound b ∧ Extends a b

theorem Sound.after {h : Heap} (hs : Sound h) : After h h := ⟨hs, Extends.refl h⟩

theorem After.trans {a b c : Heap} (ab : After a b) (bc : After b c) : After a c :=
  ⟨bc.1, ab.2.trans bc.2⟩

/-- A young value stored into the owner is not missed: the owner is young or remembered. -/
def Covered (h : Heap) (owner v : Value) : Prop :=
  h.isYoung v = true → ∀ {e : HeapObject}, h.entry owner = some e → e.young = false → e.slot ∈ h.remembered

/-! ### Lookups -/

theorem entry_eq_some {h : Heap} {v : Value} {e : HeapObject} :
    h.entry v = some e ↔ ∃ l, h.location v = some l ∧ h.objects[l]? = some e := by
  unfold entry
  cases h.location v <;> simp

theorem location_eq_some {h : Heap} {v : Value} {l : Nat} : h.location v = some l ↔
    ∃ i s, v = .heap i s.generation ∧ h.slots[i]? = some s ∧ s.location = some l := by
  cases v with
  | heap i g =>
    simp only [location]
    cases hs : h.slots[i]? with
    | none => simp [hs]
    | some s =>
      simp only [Value.heap.injEq]
      constructor
      · intro h'
        split at h'
        · next eq => exact ⟨i, s, ⟨rfl, eq.symm⟩, hs, h'⟩
        · cases h'
      · rintro ⟨_, s', ⟨rfl, rfl⟩, hs', hl⟩
        rw [hs] at hs'
        cases hs'
        simpa using hl
  | _ => simp [location]

theorem entry_slot {h : Heap} (hv : h.Valid) {i g : Nat} {e : HeapObject}
    (he : h.entry (.heap i g) = some e) : e.slot = i := by
  obtain ⟨l, hl, stored⟩ := entry_eq_some.mp he
  obtain ⟨i', s, eq, hs, hsl⟩ := location_eq_some.mp hl
  cases eq
  obtain ⟨e', he', slot⟩ := hv.located hs hsl
  rw [stored] at he'
  cases he'
  exact slot

theorem entry_handle {h : Heap} (hv : h.Valid) {v : Value} {e : HeapObject}
    (he : h.entry v = some e) : h.handle e = v := by
  obtain ⟨l, hl, -⟩ := entry_eq_some.mp he
  obtain ⟨i, s, rfl, hs, -⟩ := location_eq_some.mp hl
  simp [handle, entry_slot hv he, hs]

/-- No two handles lead to the same place. -/
def Distinct (h : Heap) : Prop :=
  ∀ {v w : Value} {l : Nat}, h.location v = some l → h.location w = some l → v = w

theorem Valid.distinct {h : Heap} (hv : h.Valid) : h.Distinct := by
  intro v w l hl hl'
  obtain ⟨i, s, -, hs, located⟩ := location_eq_some.mp hl
  obtain ⟨e, he, -⟩ := hv.located hs located
  rw [← entry_handle hv (entry_eq_some.mpr ⟨l, hl, he⟩),
    entry_handle hv (entry_eq_some.mpr ⟨l, hl', he⟩)]

theorem location_handle {h : Heap} (hv : h.Valid) {l : Nat} {e : HeapObject}
    (he : h.objects[l]? = some e) : h.location (h.handle e) = some l := by
  obtain ⟨s, hs, hl⟩ := hv.stored he
  simp [handle, location, hs, hl]

theorem get_eq_ok {h : Heap} {v : Value} {o : Object} (hg : h.get v = .ok o) :
    h.tryGet v = some o := by
  unfold get at hg
  split at hg
  · next o' eq => cases hg; exact eq
  · cases hg

theorem tryGet_eq_some {h : Heap} {v : Value} {o : Object} :
    h.tryGet v = some o ↔ ∃ e, h.entry v = some e ∧ e.object = o := by
  simp [tryGet]

theorem classOf_eq_ok {h : Heap} {v : Value} {c : Class} (hc : h.classOf v = .ok c) :
    h.tryGet v = some (.classObject c) := by
  unfold classOf at hc
  split at hc
  · next c' eq => cases hc; exact get_eq_ok eq
  · cases hc
  · cases hc

/-- What an object traces was handed out. -/
theorem Valid.issued_trace {h : Heap} (hv : h.Valid) {owner v : Value} {o : Object}
    (ho : h.tryGet owner = some o) (hm : v ∈ o.trace) : h.Issued v := by
  obtain ⟨e, he, rfl⟩ := tryGet_eq_some.mp ho
  obtain ⟨l, -, he⟩ := entry_eq_some.mp he
  exact hv.traced he v hm

theorem Valid.issued_native {h : Heap} (hv : h.Valid) {v : Value} (hi : h.Issued v) :
    h.Issued (h.nativeValue v) := by
  unfold nativeValue
  split
  · next cls attributes backing eq => exact hv.issued_trace eq (by simp [Object.trace])
  · exact hi

/-- An unallocated handle cannot be young. -/
theorem isYoung_eq {h : Heap} {v : Value} :
    h.isYoung v = true ↔ ∃ e, h.entry v = some e ∧ e.young = true := by
  unfold isYoung
  cases h.entry v <;> simp

/-! ### The write barrier -/

section Barrier

variable (owner value : Value) (h : Heap)

@[simp] theorem writeBarrier_objects : (h.writeBarrier owner value).objects = h.objects := by
  unfold writeBarrier; split <;> (try split) <;> rfl

@[simp] theorem writeBarrier_slots : (h.writeBarrier owner value).slots = h.slots := by
  unfold writeBarrier; split <;> (try split) <;> rfl

@[simp] theorem writeBarrier_free : (h.writeBarrier owner value).free = h.free := by
  unfold writeBarrier; split <;> (try split) <;> rfl

@[simp] theorem writeBarrier_externalFields :
    (h.writeBarrier owner value).externalFields = h.externalFields := by
  unfold writeBarrier; split <;> (try split) <;> rfl

theorem writeBarrier_remembered : h.remembered ⊆ (h.writeBarrier owner value).remembered := by
  unfold writeBarrier
  split
  · split
    · exact Finset.subset_insert _ _
    · exact subset_rfl
  · exact subset_rfl

end Barrier

/-- Changing nothing but bookkeeping, or remembering more, keeps the heap sound. -/
theorem Sound.same {a b : Heap} (ha : Sound a) (objects : b.objects = a.objects)
    (slots : b.slots = a.slots) (free : b.free = a.free)
    (external : b.externalFields = a.externalFields) (remembered : a.remembered ⊆ b.remembered) :
    After a b := by
  have location (v : Value) : b.location v = a.location v := by
    cases v <;> simp [Heap.location, slots]
  have young (v : Value) : b.isYoung v = a.isYoung v := by
    simp [isYoung, entry, location, objects]
  have issued (v : Value) : b.Issued v ↔ a.Issued v := by
    cases v <;> simp [Issued, slots, free]
  have edges (e : HeapObject) : b.edges e = a.edges e := by
    unfold Heap.edges handle externalEdges
    rw [slots, external]
  refine ⟨⟨⟨?_, ?_, ?_, ?_, ?_, ?_, ?_, ?_⟩, ?_, ?_⟩, ⟨?_, ?_, ?_, remembered⟩⟩
  · rw [objects, slots]; exact ha.valid.stored
  · rw [objects, slots]; exact ha.valid.located
  · rw [free, slots]; exact ha.valid.freed
  · rw [free]; exact ha.valid.freeNodup
  · rw [slots]; exact ha.valid.generations
  · rw [slots]; exact ha.valid.capacity
  · intro l e he v hv
    exact (issued v).mpr (ha.valid.traced (objects ▸ he) v hv)
  · intro x hx
    have := ha.valid.external (external ▸ hx)
    exact ⟨(issued _).mpr this.1, (issued _).mpr this.2⟩
  · intro l e he old v hv hy
    rw [objects] at he
    rw [edges] at hv
    rw [young] at hy
    exact remembered (ha.complete he old v hv hy)
  · intro l e he old v hv
    rw [objects] at he
    rw [young]
    exact ha.ancestors he old v hv
  · exact fun hv => (issued _).mpr hv
  · exact fun _ => location _
  · exact fun _ => young _

theorem Sound.writeBarrier {h : Heap} (hs : Sound h) (owner value : Value) :
    After h (h.writeBarrier owner value) :=
  hs.same (by simp) (by simp) (by simp) (by simp) (writeBarrier_remembered _ _ _)

@[simp] theorem location_writeBarrier (owner value v : Value) (h : Heap) :
    (h.writeBarrier owner value).location v = h.location v := by
  cases v <;> simp [location]

@[simp] theorem entry_writeBarrier (owner value v : Value) (h : Heap) :
    (h.writeBarrier owner value).entry v = h.entry v := by
  simp [entry]

@[simp] theorem tryGet_writeBarrier (owner value v : Value) (h : Heap) :
    (h.writeBarrier owner value).tryGet v = h.tryGet v := by
  simp [tryGet]

/-- The barrier does what it is for. -/
theorem covered_writeBarrier (h : Heap) (owner value : Value) :
    (h.writeBarrier owner value).Covered owner value := by
  intro hy e he old
  rw [entry_writeBarrier] at he
  rw [isYoung_eq] at hy
  obtain ⟨v, hv, young⟩ := hy
  rw [entry_writeBarrier] at hv
  simp [Heap.writeBarrier, he, hv, old, young]

@[simp] theorem isYoung_writeBarrier (owner value v : Value) (h : Heap) :
    (h.writeBarrier owner value).isYoung v = h.isYoung v := by
  simp [isYoung]

@[simp] theorem issued_writeBarrier (owner value v : Value) (h : Heap) :
    (h.writeBarrier owner value).Issued v ↔ h.Issued v := by
  cases v <;> simp [Issued]

theorem Covered.writeBarrier {h : Heap} {owner v : Value} (hc : h.Covered owner v)
    (owner' value : Value) : (h.writeBarrier owner' value).Covered owner v := by
  intro hy e he old
  rw [isYoung_writeBarrier] at hy
  rw [entry_writeBarrier] at he
  exact writeBarrier_remembered _ _ _ (hc hy he old)

/-- A barrier for each of several values. -/
def writeBarriers (owner : Value) (values : List Value) (h : Heap) : Heap :=
  values.foldl (fun h v => h.writeBarrier owner v) h

section Barriers

variable {owner : Value} {values : List Value} {h : Heap}

theorem Sound.writeBarriers (hs : Sound h) : After h (h.writeBarriers owner values) := by
  induction values generalizing h with
  | nil => exact hs.after
  | cons v values ih =>
    have first := hs.writeBarrier owner v
    exact first.trans (ih first.1)

@[simp] theorem entry_writeBarriers (v : Value) :
    (h.writeBarriers owner values).entry v = h.entry v := by
  induction values generalizing h with
  | nil => rfl
  | cons w values ih => exact ih.trans (entry_writeBarrier _ _ _ _)

@[simp] theorem tryGet_writeBarriers (v : Value) :
    (h.writeBarriers owner values).tryGet v = h.tryGet v := by
  simp [tryGet]

@[simp] theorem isYoung_writeBarriers (v : Value) :
    (h.writeBarriers owner values).isYoung v = h.isYoung v := by
  simp [isYoung]

@[simp] theorem issued_writeBarriers (v : Value) :
    (h.writeBarriers owner values).Issued v ↔ h.Issued v := by
  induction values generalizing h with
  | nil => rfl
  | cons w values ih => exact ih.trans (issued_writeBarrier _ _ _ _)

theorem Covered.writeBarriers {owner' v : Value} (hc : h.Covered owner' v) :
    (h.writeBarriers owner values).Covered owner' v := by
  induction values generalizing h with
  | nil => exact hc
  | cons w values ih => exact ih (hc.writeBarrier owner w)

theorem covered_writeBarriers {v : Value} (hv : v ∈ values) :
    (h.writeBarriers owner values).Covered owner v := by
  induction values generalizing h with
  | nil => cases hv
  | cons w values ih =>
    rcases List.mem_cons.mp hv with rfl | hv
    · exact (covered_writeBarrier h owner v).writeBarriers
    · exact ih hv

end Barriers

/-! ### A heap of given objects -/

/-- The objects at their positions, all of them new. -/
def ofObjects (objects : List Object) : Heap :=
  { Heap.empty with
    objects := objects.mapIdx fun i o => ⟨o, i, true⟩
    slots := (List.range objects.length).map fun i => ⟨1, some i⟩ }

/-- A handle of one of the first `n` slots. -/
def Within (n : Nat) : Value → Bool
  | .heap i g => i < n && g = 1
  | _ => true

variable {objects : List Object}

theorem ofObjects_slot {i : Nat} {s : Slot} :
    (ofObjects objects).slots[i]? = some s ↔ i < objects.length ∧ s = ⟨1, some i⟩ := by
  simp only [ofObjects, List.getElem?_map, Option.map_eq_some_iff]
  constructor
  · rintro ⟨j, hj, rfl⟩
    obtain ⟨bound, rfl⟩ := List.getElem?_eq_some_iff.mp hj
    simpa using bound
  · rintro ⟨bound, rfl⟩
    exact ⟨i, by simp [bound], rfl⟩

theorem ofObjects_object {l : Nat} {e : HeapObject} :
    (ofObjects objects).objects[l]? = some e ↔ ∃ o, objects[l]? = some o ∧ e = ⟨o, l, true⟩ := by
  simp only [ofObjects, List.getElem?_mapIdx, Option.map_eq_some_iff]
  exact ⟨fun ⟨o, ho, eq⟩ => ⟨o, ho, eq.symm⟩, fun ⟨o, ho, eq⟩ => ⟨o, ho, eq.symm⟩⟩

theorem ofObjects_issued {v : Value} (h : Within objects.length v = true) :
    (ofObjects objects).Issued v := by
  cases v with
  | heap i g =>
    obtain ⟨bound, rfl⟩ : i < objects.length ∧ g = 1 := by simpa [Within] using h
    exact ⟨⟨1, some i⟩, ofObjects_slot.mpr ⟨bound, rfl⟩, .inr ⟨rfl, List.not_mem_nil⟩⟩
  | _ => trivial

theorem ofObjects_sound (size : objects.length ≤ 2 ^ 32)
    (traced : ∀ o ∈ objects, o.trace.all (Within objects.length) = true) :
    Sound (ofObjects objects) where
  valid :=
    { stored := fun he => by
        obtain ⟨o, ho, rfl⟩ := ofObjects_object.mp he
        exact ⟨_, ofObjects_slot.mpr ⟨(List.getElem?_eq_some_iff.mp ho).1, rfl⟩, rfl⟩
      located := fun hi hl => by
        obtain ⟨bound, rfl⟩ := ofObjects_slot.mp hi
        cases hl
        exact ⟨_, ofObjects_object.mpr ⟨_, List.getElem?_eq_getElem bound, rfl⟩, rfl⟩
      freed := fun hi => by cases hi
      freeNodup := .nil
      generations := fun hi => by
        obtain ⟨-, rfl⟩ := ofObjects_slot.mp hi
        exact ⟨Nat.one_pos, by simp [Value.maxGeneration]⟩
      capacity := by simpa [ofObjects] using size
      traced := fun he v hv => by
        obtain ⟨o, ho, rfl⟩ := ofObjects_object.mp he
        exact ofObjects_issued (List.all_eq_true.mp (traced o (List.mem_of_getElem? ho)) v hv)
      external := fun hx => by cases hx }
  complete he old := by
    obtain ⟨o, -, rfl⟩ := ofObjects_object.mp he
    cases old
  ancestors he old := by
    obtain ⟨o, -, rfl⟩ := ofObjects_object.mp he
    cases old

end Heap

end Tonic
