import Tonic.Remembered

namespace Tonic

open Effect

namespace Heap

/-! ### Replacing a payload -/

/-- Replacing the payload `o` of the owner by `o'` adds no edge that a minor collection would
miss: every edge of `o'` is one of `o`, or was covered by a barrier. -/
structure Replaces (h : Heap) (owner : Value) (o o' : Object) : Prop where
  trace : ∀ v ∈ o'.trace, v ∈ o.trace ∨ (h.Issued v ∧ h.Covered owner v)
  ancestors : ∀ v ∈ o'.ancestors, v ∈ o.ancestors ∨ h.isYoung owner = true ∨ h.isYoung v = false

/-- Stores a payload in place. -/
def store (h : Heap) (l : Nat) (object : Object) : Heap :=
  { h with objects := h.objects.modify l fun e => { e with object } }

theorem store_objects {h : Heap} {l k : Nat} {o : Object} {e : HeapObject}
    (he : (h.store l o).objects[k]? = some e) :
    ∃ e', h.objects[k]? = some e' ∧ e.slot = e'.slot ∧ e.young = e'.young ∧
      (k = l ∧ e.object = o ∨ k ≠ l ∧ e.object = e'.object) := by
  simp only [store, List.getElem?_modify] at he
  cases hk : h.objects[k]? with
  | none => simp [hk] at he
  | some e' =>
    rw [hk] at he
    simp only [Option.map_eq_map, Option.map_some] at he
    split at he
    · next eq => cases he; exact ⟨e', rfl, rfl, rfl, .inl ⟨eq.symm, rfl⟩⟩
    · next ne => cases he; exact ⟨e, rfl, rfl, rfl, .inr ⟨Ne.symm ne, rfl⟩⟩

@[simp] theorem location_store (h : Heap) (l : Nat) (o : Object) (v : Value) :
    (h.store l o).location v = h.location v := by
  cases v <;> rfl

theorem isYoung_store (h : Heap) (l : Nat) (o : Object) (v : Value) :
    (h.store l o).isYoung v = h.isYoung v := by
  simp only [isYoung, entry, location_store]
  cases h.location v with
  | none => rfl
  | some k =>
    simp only [Option.bind_some, store, List.getElem?_modify]
    cases h.objects[k]? with
    | none => rfl
    | some e => simp only [Option.map_eq_map, Option.map_some, Option.any_some]; split <;> rfl

theorem Sound.store {h : Heap} (hs : Sound h) {owner : Value} {l : Nat} {o o' : Object}
    (hl : h.location owner = some l) (ho : h.tryGet owner = some o)
    (safe : Replaces h owner o o') : After h (h.store l o') := by
  have young := isYoung_store h l o'
  have owned : ∃ e, h.entry owner = some e ∧ h.objects[l]? = some e ∧ e.object = o := by
    obtain ⟨e, he, eq⟩ := tryGet_eq_some.mp ho
    obtain ⟨k, hk, he'⟩ := entry_eq_some.mp he
    rw [hl] at hk
    cases hk
    exact ⟨e, he, he', eq⟩
  obtain ⟨owned, entry, stored, rfl⟩ := owned
  refine ⟨⟨⟨?_, ?_, hs.valid.freed, hs.valid.freeNodup, hs.valid.generations, hs.valid.capacity,
    ?_, hs.valid.external⟩, ?_, ?_⟩, ⟨id, fun _ => location_store _ _ _ _, fun _ => young _,
    subset_rfl⟩⟩
  · intro k e he
    obtain ⟨e', he', slot, -⟩ := store_objects he
    rw [slot]
    exact hs.valid.stored he'
  · intro i k s hi hk
    obtain ⟨e, he, slot⟩ := hs.valid.located hi hk
    by_cases eq : l = k
    · exact ⟨{ e with object := o' }, by simp [Heap.store, eq, he], slot⟩
    · exact ⟨e, by simp [Heap.store, eq, he], slot⟩
  · intro k e he v hv
    obtain ⟨e', he', -, -, ⟨rfl, rfl⟩ | ⟨-, same⟩⟩ := store_objects he
    · rcases safe.trace v hv with old | ⟨issued, -⟩
      · exact hs.valid.traced stored v old
      · exact issued
    · rw [same] at hv
      exact hs.valid.traced he' v hv
  · intro k e he old v hv hy
    rw [young] at hy
    obtain ⟨e', he', slot, age, ⟨rfl, rfl⟩ | ⟨-, same⟩⟩ := store_objects he
    · rw [stored] at he'
      cases he'
      rw [age] at old
      rw [slot]
      rcases List.mem_append.mp hv with traced | external
      · rcases safe.trace v traced with before | ⟨-, covered⟩
        · exact hs.complete stored old v (List.mem_append_left _ before) hy
        · exact covered hy entry old
      · have handle : (h.store k e.object).handle e = h.handle owned := by
          simp [Heap.handle, slot, Heap.store]
        rw [handle] at external
        exact hs.complete stored old v (List.mem_append_right _ external) hy
    · have edges : (h.store l o').edges e = h.edges e' := by
        unfold Heap.edges Heap.handle
        rw [slot, same]
        rfl
      rw [edges] at hv
      rw [slot]
      exact hs.complete he' (age ▸ old) v hv hy
  · intro k e he old v hv
    rw [young]
    obtain ⟨e', he', -, age, ⟨rfl, rfl⟩ | ⟨-, same⟩⟩ := store_objects he
    · rw [stored] at he'
      cases he'
      rw [age] at old
      rcases safe.ancestors v hv with before | young | aged
      · exact hs.ancestors stored old v before
      · simp [isYoung, entry, old] at young
      · exact aged
    · rw [same] at hv
      exact hs.ancestors he' (age ▸ old) v hv

/-! ### Allocation -/

/-- The heap with a slot taken for a new object: nothing that was handed out names it. -/
structure Taken (h : Heap) (slot : Nat) (s : Slot) (t : Heap) : Prop where
  objects : t.objects = h.objects
  external : t.externalFields = h.externalFields
  remembered : t.remembered = h.remembered
  taken : t.slots[slot]? = some s
  unlocated : s.location = none
  generation : 0 < s.generation ∧ s.generation ≤ Value.maxGeneration
  other : ∀ i, i ≠ slot → t.slots[i]? = h.slots[i]?
  free : ∀ i, i ∈ t.free ↔ i ∈ h.free ∧ i ≠ slot
  freeNodup : t.free.Nodup
  capacity : t.slots.length ≤ 2 ^ 32
  unused : ∀ g, h.location (.heap slot g) = none
  fresh : ∀ g, h.Issued (.heap slot g) → g < s.generation

theorem wp_allocSlot {h : Heap} (hs : Sound h) :
    wp allocSlot (fun slot t => ∃ s, Taken h slot s t) (After h) h := by
  simp only [allocSlot, wp_bind, wp_get]
  split
  · next slot free eq =>
    have mem : slot ∈ h.free := by simp [eq]
    have nodup := hs.valid.freeNodup
    rw [eq, List.nodup_cons] at nodup
    obtain ⟨s, hslot, unlocated⟩ := hs.valid.freed mem
    simp only [wp_bind, wp_set, wp_pure]
    refine ⟨s, rfl, rfl, rfl, hslot, unlocated, hs.valid.generations hslot, fun _ _ => rfl, ?_,
      nodup.2, hs.valid.capacity, ?_, ?_⟩
    · intro i
      simp only [eq, List.mem_cons]
      constructor
      · intro hi
        exact ⟨.inr hi, fun same => nodup.1 (same ▸ hi)⟩
      · rintro ⟨same | hi, ne⟩
        · exact absurd same ne
        · exact hi
    · intro g
      simp [location, hslot, unlocated]
    · rintro g ⟨s', hs', older | ⟨-, unfree⟩⟩
      · rw [hslot] at hs'
        cases hs'
        exact older
      · exact absurd mem unfree
  · next eq =>
    split
    · next room =>
      simp only [wp_bind, wp_set, wp_pure]
      refine ⟨⟨1, none⟩, rfl, rfl, rfl, by simp, rfl, by simp [Value.maxGeneration], ?_, ?_,
        by simp [eq], by simp only [List.length_append, List.length_singleton]; omega, ?_, ?_⟩
      · intro i ne
        rw [List.getElem?_append]
        split
        · rfl
        · next beyond =>
          rw [List.getElem?_eq_none (by simp; omega), List.getElem?_eq_none (by omega)]
      · simp [eq]
      · intro g
        simp [location]
      · rintro g ⟨s, hs', -⟩
        simp at hs'
    · exact hs.after

theorem Taken.after {h t : Heap} {slot : Nat} {s : Slot} {o : Object} (hs : Sound h)
    (ht : Taken h slot s t) (ho : ∀ v ∈ o.trace, h.Issued v) :
    let u : Heap := { t with
      slots := t.slots.set slot { s with location := some t.objects.length }
      objects := t.objects ++ [⟨o, slot, true⟩] }
    After h u ∧ (∀ v, h.Issued v → u.entry v = h.entry v) ∧
      u.entry (.heap slot s.generation) = some ⟨o, slot, true⟩ ∧
      u.Issued (.heap slot s.generation) := by
  intro u
  have bound : slot < t.slots.length := (List.getElem?_eq_some_iff.mp ht.taken).1
  have own : u.slots[slot]? = some { s with location := some h.objects.length } := by
    simp [u, bound, ht.objects]
  have other (i : Nat) (ne : i ≠ slot) : u.slots[i]? = h.slots[i]? := by
    rw [← ht.other i ne]
    exact List.getElem?_set_ne (Ne.symm ne)
  have objects (l : Nat) (hl : l < h.objects.length) : u.objects[l]? = h.objects[l]? := by
    simp only [u, ht.objects]
    exact List.getElem?_append_left hl
  have last : u.objects[h.objects.length]? = some ⟨o, slot, true⟩ := by
    simp [u, ht.objects]
  have stored {l : Nat} {e : HeapObject} (he : u.objects[l]? = some e) :
      h.objects[l]? = some e ∨ l = h.objects.length ∧ e = ⟨o, slot, true⟩ := by
    rcases Nat.lt_trichotomy l h.objects.length with lt | rfl | gt
    · exact .inl (by rwa [objects l lt] at he)
    · rw [last] at he
      cases he
      exact .inr ⟨rfl, rfl⟩
    · rw [List.getElem?_eq_none (by simp [u, ht.objects]; omega)] at he
      cases he
  have issued {v : Value} (hv : h.Issued v) : u.Issued v := by
    cases v with
    | heap i g =>
      by_cases eq : i = slot
      · subst eq
        exact ⟨_, own, .inl (ht.fresh g hv)⟩
      · obtain ⟨s', hs', age⟩ := hv
        refine ⟨s', (other i eq).trans hs', age.imp_right fun live => ⟨live.1, ?_⟩⟩
        exact fun free => live.2 ((ht.free i).mp free).1
    | _ => trivial
  have location {v : Value} (hv : h.Issued v) : u.location v = h.location v := by
    cases v with
    | heap i g =>
      by_cases eq : i = slot
      · subst eq
        rw [ht.unused g]
        have : s.generation ≠ g := Nat.ne_of_gt (ht.fresh g hv)
        simp [Heap.location, own, this]
      · simp [Heap.location, other i eq]
    | _ => rfl
  have entry {v : Value} (hv : h.Issued v) : u.entry v = h.entry v := by
    unfold Heap.entry
    rw [location hv]
    cases hl : h.location v with
    | none => rfl
    | some l =>
      obtain ⟨i, s', -, hs', loc⟩ := location_eq_some.mp hl
      obtain ⟨e, he, -⟩ := hs.valid.located hs' loc
      exact objects l (List.getElem?_eq_some_iff.mp he).1
  have young {v : Value} (hv : h.Issued v) : u.isYoung v = h.isYoung v := by
    simp [isYoung, entry hv]
  have traced {l : Nat} {e : HeapObject} (he : u.objects[l]? = some e) :
      ∀ v ∈ e.object.trace, h.Issued v := by
    rcases stored he with before | ⟨-, rfl⟩
    · exact hs.valid.traced before
    · exact ho
  have handle {l : Nat} {e : HeapObject} (he : h.objects[l]? = some e) :
      u.edges e = h.edges e := by
    have ne : e.slot ≠ slot := by
      intro eq
      have := location_handle hs.valid he
      rw [Heap.handle, eq, ht.unused] at this
      cases this
    unfold edges Heap.handle externalEdges
    rw [other e.slot ne]
    show _ ++ List.map _ (List.filter _ t.externalFields.entries) = _
    rw [ht.external]
  have external {l : Nat} {e : HeapObject} (he : h.objects[l]? = some e) {v : Value}
      (hv : v ∈ h.edges e) : h.Issued v := by
    rcases List.mem_append.mp hv with hv | hv
    · exact hs.valid.traced he v hv
    · obtain ⟨x, hx, rfl⟩ := List.mem_map.mp hv
      exact (hs.valid.external (List.mem_filter.mp hx).1).2
  refine ⟨⟨⟨⟨?_, ?_, ?_, ht.freeNodup, ?_, ?_, ?_, ?_⟩, ?_, ?_⟩, issued, location, young, ?_⟩,
    fun _ => entry, ?_, ⟨_, own, .inr ⟨rfl, ?_⟩⟩⟩
  · intro l e he
    rcases stored he with before | ⟨rfl, rfl⟩
    · obtain ⟨s', hs', loc⟩ := hs.valid.stored before
      have ne : e.slot ≠ slot := by
        intro eq
        have := location_handle hs.valid before
        rw [Heap.handle, eq, ht.unused] at this
        cases this
      exact ⟨s', (other _ ne).trans hs', loc⟩
    · exact ⟨_, own, rfl⟩
  · intro i l s' hi hl
    by_cases eq : i = slot
    · subst eq
      rw [own] at hi
      cases hi
      cases hl
      exact ⟨_, last, rfl⟩
    · rw [other i eq] at hi
      obtain ⟨e, he, slot⟩ := hs.valid.located hi hl
      exact ⟨e, (objects l (List.getElem?_eq_some_iff.mp he).1).trans he, slot⟩
  · intro i hi
    obtain ⟨free, ne⟩ := (ht.free i).mp hi
    obtain ⟨s', hs', loc⟩ := hs.valid.freed free
    exact ⟨s', (other i ne).trans hs', loc⟩
  · intro i s' hi
    by_cases eq : i = slot
    · subst eq
      rw [own] at hi
      cases hi
      exact ht.generation
    · exact hs.valid.generations ((other i eq).symm.trans hi)
  · simpa [u] using ht.capacity
  · exact fun he v hv => issued (traced he v hv)
  · intro x hx
    have := hs.valid.external (ht.external ▸ hx)
    exact ⟨issued this.1, issued this.2⟩
  · intro l e he old v hv hy
    rcases stored he with before | ⟨-, rfl⟩
    · rw [handle before] at hv
      rw [young (external before hv)] at hy
      exact ht.remembered ▸ hs.complete before old v hv hy
    · cases old
  · intro l e he old v hv
    rcases stored he with before | ⟨-, rfl⟩
    · rw [young (hs.valid.traced before v (Object.ancestors_traced hv))]
      exact hs.ancestors before old v hv
    · cases old
  · exact ht.remembered ▸ subset_rfl
  · simp [Heap.entry, Heap.location, own, last]
  · exact fun free => absurd rfl ((ht.free slot).mp free).2

/-- A new object is young; what was there before is untouched. -/
theorem wp_alloc {h : Heap} (hs : Sound h) {o : Object} (ho : ∀ v ∈ o.trace, h.Issued v) :
    wp (alloc o) (fun v t => After h t ∧ (∀ w, h.Issued w → t.entry w = h.entry w) ∧
      t.Issued v ∧ t.isYoung v = true ∧ t.tryGet v = some o) (After h) h := by
  simp only [alloc, wp_bind]
  refine wp_mono (wp_allocSlot hs) ?_ fun _ => id
  rintro slot t ⟨s, taken⟩
  simp only [wp_get, taken.taken, wp_bind, wp_set, wp_pure]
  obtain ⟨after, same, entry, issued⟩ := taken.after hs ho
  exact ⟨after, same, issued, by simp only [isYoung, entry]; rfl, by simp only [tryGet, entry]; rfl⟩

/-- How many handles can still be allocated. -/
def room (h : Heap) : Nat := h.free.length + (2 ^ 32 - h.slots.length)

/-- An allocation takes one handle, and fails when there is none. -/
theorem wp_alloc_room (hs : Sound h) :
    wp (alloc o) (fun _ t => t.room + 1 = h.room) (fun t => t = h ∧ h.room = 0) h := by
  simp only [alloc, allocSlot, wp_bind, wp_get]
  cases free : h.free with
  | cons slot rest =>
    obtain ⟨s, hslot, -⟩ := hs.valid.freed (show slot ∈ h.free by simp [free])
    simp only [wp_bind, wp_set, wp_pure, hslot, room, List.length_set, free,
      List.length_cons]
    omega
  | nil =>
    by_cases space : h.slots.length < 2 ^ 32
    · rw [if_pos space]
      simp only [wp_bind, wp_set, wp_pure, List.length_append, List.length_singleton,
        List.getElem?_concat_length, room, List.length_set, free, List.length_nil]
      omega
    · rw [if_neg space]
      refine ⟨rfl, ?_⟩
      simp only [room, free, List.length_nil]
      omega

/-! ### Rules for the primitives -/

section Rules

variable {α : Type} {Q : α → Heap → Prop} {E : Heap → Prop} {h h₀ : Heap} {owner v : Value}
  {o o' : Object}

theorem wp_getObject {Q : Object → Heap → Prop} (failed : E h)
    (ok : ∀ o, h.tryGet v = some o → Q o h) : wp (getObject v) Q E h :=
  wp_reading_intro failed fun o eq => ok o (get_eq_ok eq)

@[simp] theorem wp_nativeValue {Q : Value → Heap → Prop} :
    wp (Tonic.nativeValue v) Q E = fun h => Q (h.nativeValue v) h := rfl

@[simp] theorem wp_tryGetObject {Q : Option Object → Heap → Prop} :
    wp (tryGetObject v) Q E = fun h => Q (h.tryGet v) h := rfl

theorem wp_classOf {Q : Class → Heap → Prop} (failed : E h)
    (ok : ∀ c, h.tryGet v = some (.classObject c) → Q c h) : wp (Tonic.classOf v) Q E h :=
  wp_reading_intro failed fun c eq => ok c (classOf_eq_ok eq)

@[simp] theorem wp_writeBarrier {Q : Unit → Heap → Prop} :
    wp (Tonic.writeBarrier owner v) Q E = fun h => Q () (h.writeBarrier owner v) := rfl

@[simp] theorem wp_writeBarrierPair {Q : Unit → Heap → Prop} {first second : Value} :
    wp (writeBarrierPair owner first second) Q E =
      fun h => Q () ((h.writeBarrier owner first).writeBarrier owner second) := rfl

@[simp] theorem wp_writeBarriers {Q : PUnit → Heap → Prop} {values : List Value} :
    wp (values.forM (Tonic.writeBarrier owner)) Q E =
      fun h => Q ⟨⟩ (h.writeBarriers owner values) := by
  induction values with
  | nil => rfl
  | cons v values ih =>
    show wp (Tonic.writeBarrier owner v >>= fun _ => values.forM _) Q E = _
    rw [wp_bind, wp_writeBarrier, ih]
    rfl

theorem tryGet_store {l : Nat} (hl : h.location owner = some l) (ho : h.tryGet owner = some o) :
    (h.store l o').tryGet owner = some o' := by
  obtain ⟨e, he, -⟩ := tryGet_eq_some.mp ho
  obtain ⟨k, hk, stored⟩ := entry_eq_some.mp he
  rw [hl] at hk
  cases hk
  unfold tryGet entry
  rw [location_store, hl]
  simp [store, stored]

theorem wp_setObject (base : After h₀ h) (ho : h.tryGet owner = some o)
    (safe : Replaces h owner o o') :
    wp (setObject owner o') (fun _ t => After h₀ t ∧ t.tryGet owner = some o') (After h₀) h := by
  obtain ⟨e, he, -⟩ := tryGet_eq_some.mp ho
  obtain ⟨l, hl, -⟩ := entry_eq_some.mp he
  simp only [setObject, wp_bind, wp_get, hl, wp_set]
  exact ⟨base.trans (base.1.store hl ho safe), tryGet_store hl ho⟩

/-- The last store of a mutation. -/
theorem wp_setObject_last (base : After h₀ h) (ho : h.tryGet owner = some o)
    (safe : Replaces h owner o o') :
    wp (setObject owner o') (fun _ => After h₀) (After h₀) h :=
  wp_mono (wp_setObject base ho safe) (fun _ _ ht => ht.1) fun _ => id

theorem wp_rebase {m : HeapM α} {Q : α → Heap → Prop} (base : After h₀ h)
    (call : wp m (fun a t => After h t ∧ Q a t) (After h) h) :
    wp m (fun a t => After h₀ t ∧ Q a t) (After h₀) h :=
  wp_mono call (fun _ _ ht => ⟨base.trans ht.1, ht.2⟩) fun _ ht => base.trans ht

/-- A mutation run as a step of another one. -/
theorem wp_call {m : HeapM α} (base : After h₀ h) (call : wp m (fun _ => After h) (After h) h) :
    wp m (fun _ => After h₀) (After h₀) h :=
  wp_mono call (fun _ _ ht => base.trans ht) fun _ ht => base.trans ht

/-- Replacing a payload by one with no new edge. -/
theorem Replaces.shrink (trace : ∀ v ∈ o'.trace, v ∈ o.trace)
    (ancestors : ∀ v ∈ o'.ancestors, v ∈ o.ancestors) : Replaces h owner o o' :=
  ⟨fun v hv => .inl (trace v hv), fun v hv => .inl (ancestors v hv)⟩

/-- Replacing a payload by one whose new edges went through the barrier. -/
theorem Replaces.store {values : List Value} (issued : ∀ v ∈ values, h.Issued v)
    (covered : ∀ v ∈ values, h.Covered owner v)
    (trace : ∀ v ∈ o'.trace, v ∈ o.trace ∨ v ∈ values)
    (ancestors : ∀ v ∈ o'.ancestors, v ∈ o.ancestors) : Replaces h owner o o' :=
  ⟨fun v hv => (trace v hv).imp_right fun hv => ⟨issued v hv, covered v hv⟩,
    fun v hv => .inl (ancestors v hv)⟩

end Rules

end Heap

end Tonic
