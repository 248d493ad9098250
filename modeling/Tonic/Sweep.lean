import Tonic.Collect
import Tonic.Remembered

namespace Tonic

namespace Heap

theorem slot_injective {h : Heap} (hv : h.Valid) {k l : Nat} {a b : HeapObject}
    (ha : h.objects[k]? = some a) (hb : h.objects[l]? = some b) (same : a.slot = b.slot) :
    k = l := by
  obtain ⟨s, hs, hk⟩ := hv.stored ha
  obtain ⟨t, ht, hl⟩ := hv.stored hb
  rw [same, ht] at hs
  cases hs
  rw [hk] at hl
  exact Option.some.inj hl

/-- The object from location `k` is kept as the `n`-th one, and its slot follows. -/
structure Placed (h : Heap) (s : SweepState) (e : HeapObject) (n : Nat) : Prop where
  object : s.kept[n]? = some { e with young := false }
  slot : s.slots[e.slot]? =
    (h.slots[e.slot]?).map fun slot => { slot with location := some n }

/-- The state of a sweep that has treated the objects before location `l`. -/
structure Swept (h : Heap) (live : Nat → HeapObject → Bool) (l : Nat) (s : SweepState) :
    Prop where
  length : s.slots.length = h.slots.length
  untouched : ∀ i, (∀ k < l, ∀ e, h.objects[k]? = some e → e.slot ≠ i) →
    s.slots[i]? = h.slots[i]?
  kept : ∀ {k : Nat} {e : HeapObject}, k < l → h.objects[k]? = some e → live k e = true →
    ∃ n, h.Placed s e n
  dropped : ∀ {k : Nat} {e : HeapObject}, k < l → h.objects[k]? = some e → live k e = false →
    s.slots[e.slot]? = (h.slots[e.slot]?).map Slot.retire
  origin : ∀ {n : Nat} {e' : HeapObject}, s.kept[n]? = some e' → ∃ k e, k < l ∧
    h.objects[k]? = some e ∧ live k e = true ∧ e' = { e with young := false } ∧ h.Placed s e n
  free : ∀ {i : Nat}, i ∈ s.free → i ∈ h.free ∨ ∃ k e slot, k < l ∧ h.objects[k]? = some e ∧
    live k e = false ∧ e.slot = i ∧ h.slots[i]? = some slot ∧
    slot.generation < Value.maxGeneration
  freeNodup : s.free.Nodup

section Steps

variable {h : Heap} {live : Nat → HeapObject → Bool} {l : Nat} {s : SweepState} {e : HeapObject}

theorem Swept.own (hv : h.Valid) (hs : h.Swept live l s) (he : h.objects[l]? = some e) :
    s.slots[e.slot]? = h.slots[e.slot]? :=
  hs.untouched e.slot fun _ hk _ ha same => Nat.ne_of_lt hk (slot_injective hv ha he same)

/-- Changing the slot of the next object leaves the slots of the treated ones alone. -/
theorem Swept.earlier (hv : h.Valid) (he : h.objects[l]? = some e) {k : Nat}
    {a : HeapObject} (hk : k < l) (ha : h.objects[k]? = some a) (f : Slot → Slot) :
    (s.slots.modify e.slot f)[a.slot]? = s.slots[a.slot]? := by
  have ne : e.slot ≠ a.slot := fun same => Nat.ne_of_lt hk (slot_injective hv ha he same.symm)
  rw [List.getElem?_modify]
  simp [ne]

theorem Swept.later (hs : h.Swept live l s) (he : h.objects[l]? = some e) (f : Slot → Slot)
    (i : Nat) (hi : ∀ k < l + 1, ∀ a, h.objects[k]? = some a → a.slot ≠ i) :
    (s.slots.modify e.slot f)[i]? = h.slots[i]? := by
  have ne : e.slot ≠ i := hi l (Nat.lt_succ_self l) e he
  rw [List.getElem?_modify]
  simpa [ne] using hs.untouched i fun k hk => hi k (Nat.lt_succ_of_lt hk)

theorem Swept.keep (hv : h.Valid) (hs : h.Swept live l s) (he : h.objects[l]? = some e)
    (hl : live l e = true) : h.Swept live (l + 1) (s.keep l e) := by
  have placed : h.Placed (s.keep l e) e s.kept.length := by
    refine ⟨by simp [SweepState.keep], ?_⟩
    simp only [SweepState.keep, List.getElem?_modify, hs.own hv he]
    simp
  have old {k : Nat} {a : HeapObject} {n : Nat} (hk : k < l) (ha : h.objects[k]? = some a)
      (p : h.Placed s a n) : h.Placed (s.keep l e) a n := by
    have bound := (List.getElem?_eq_some_iff.mp p.object).1
    refine ⟨?_, (Swept.earlier hv he hk ha _).trans p.slot⟩
    exact (List.getElem?_append_left bound).trans p.object
  refine ⟨by simpa [SweepState.keep] using hs.length, hs.later he _, ?_, ?_, ?_, ?_,
    hs.freeNodup⟩
  · intro k a hk ha hlive
    rcases Nat.lt_succ_iff_lt_or_eq.mp hk with lt | rfl
    · obtain ⟨n, p⟩ := hs.kept lt ha hlive
      exact ⟨n, old lt ha p⟩
    · rw [he] at ha
      cases ha
      exact ⟨_, placed⟩
  · intro k a hk ha hlive
    rcases Nat.lt_succ_iff_lt_or_eq.mp hk with lt | rfl
    · exact (Swept.earlier hv he lt ha _).trans (hs.dropped lt ha hlive)
    · rw [he] at ha
      cases ha
      simp [hl] at hlive
  · intro n e' hn
    rcases Nat.lt_trichotomy n s.kept.length with lt | rfl | gt
    · have before : s.kept[n]? = some e' := by
        rwa [← List.getElem?_append_left lt]
      obtain ⟨k, a, hk, ha, hlive, eq, p⟩ := hs.origin before
      exact ⟨k, a, Nat.lt_succ_of_lt hk, ha, hlive, eq, old hk ha p⟩
    · rw [placed.object] at hn
      exact ⟨l, e, Nat.lt_succ_self l, he, hl, (Option.some.inj hn).symm, placed⟩
    · rw [List.getElem?_eq_none (by simp [SweepState.keep]; omega)] at hn
      cases hn
  · intro i hi
    refine (hs.free hi).imp_right ?_
    rintro ⟨k, a, slot, hk, rest⟩
    exact ⟨k, a, slot, Nat.lt_succ_of_lt hk, rest⟩

theorem Swept.drop (hv : h.Valid) (hs : h.Swept live l s) (he : h.objects[l]? = some e)
    (hl : live l e = false) : h.Swept live (l + 1) (s.drop e) := by
  have own := hs.own hv he
  have old {k : Nat} {a : HeapObject} {n : Nat} (hk : k < l) (ha : h.objects[k]? = some a)
      (p : h.Placed s a n) : h.Placed (s.drop e) a n :=
    ⟨p.object, (Swept.earlier hv he hk ha _).trans p.slot⟩
  -- the slot of the dropped object cannot be free already: it is located
  have taken : e.slot ∉ s.free := by
    intro mem
    obtain ⟨slot, located, at_l⟩ := hv.stored he
    rcases hs.free mem with before | ⟨k, a, _, hk, ha, -, same, -⟩
    · obtain ⟨slot', eq, none⟩ := hv.freed before
      rw [located] at eq
      cases eq
      simp [at_l] at none
    · exact Nat.ne_of_lt hk (slot_injective hv ha he same)
  refine ⟨by simpa [SweepState.drop] using hs.length, hs.later he _, ?_, ?_, ?_, ?_, ?_⟩
  · intro k a hk ha hlive
    rcases Nat.lt_succ_iff_lt_or_eq.mp hk with lt | rfl
    · obtain ⟨n, p⟩ := hs.kept lt ha hlive
      exact ⟨n, old lt ha p⟩
    · rw [he] at ha
      cases ha
      simp [hl] at hlive
  · intro k a hk ha hlive
    rcases Nat.lt_succ_iff_lt_or_eq.mp hk with lt | rfl
    · exact (Swept.earlier hv he lt ha _).trans (hs.dropped lt ha hlive)
    · rw [he] at ha
      cases ha
      simp only [SweepState.drop, List.getElem?_modify, own]
      simp
  · intro n e' hn
    obtain ⟨k, a, hk, ha, hlive, eq, p⟩ := hs.origin hn
    exact ⟨k, a, Nat.lt_succ_of_lt hk, ha, hlive, eq, old hk ha p⟩
  · intro i hi
    have before (hi : i ∈ s.free) : i ∈ h.free ∨ ∃ k e slot, k < l + 1 ∧
        h.objects[k]? = some e ∧ live k e = false ∧ e.slot = i ∧ h.slots[i]? = some slot ∧
        slot.generation < Value.maxGeneration := by
      refine (hs.free hi).imp_right ?_
      rintro ⟨k, a, slot, hk, rest⟩
      exact ⟨k, a, slot, Nat.lt_succ_of_lt hk, rest⟩
    simp only [SweepState.drop, own] at hi
    split at hi
    · next reusable =>
      rcases List.mem_cons.mp hi with rfl | hi
      · obtain ⟨slot, located, -⟩ := hv.stored he
        rw [located] at reusable
        exact .inr ⟨l, e, slot, Nat.lt_succ_self l, he, hl, rfl, located, by simpa using reusable⟩
      · exact before hi
    · exact before hi
  · simp only [SweepState.drop]
    split
    · exact List.nodup_cons.mpr ⟨taken, hs.freeNodup⟩
    · exact hs.freeNodup

theorem sweepObjects_swept (hv : h.Valid) {youngOnly : Bool} {marked : List Bool}
    {rest : List HeapObject} (hr : rest = h.objects.drop l)
    (hs : h.Swept (isLive youngOnly marked) l s) :
    h.Swept (isLive youngOnly marked) h.objects.length
      (sweepObjects youngOnly marked l rest s) := by
  induction rest generalizing l s with
  | nil =>
    have beyond : h.objects.length ≤ l := by simpa using hr.symm
    refine ⟨hs.length, fun i hi => hs.untouched i fun k _ e he => ?_, ?_, ?_, ?_, ?_,
      hs.freeNodup⟩
    · exact hi k (List.getElem?_eq_some_iff.mp he).1 e he
    · exact fun hk => hs.kept (Nat.lt_of_lt_of_le hk beyond)
    · exact fun hk => hs.dropped (Nat.lt_of_lt_of_le hk beyond)
    · intro n e' hn
      obtain ⟨k, e, -, he, rest⟩ := hs.origin hn
      exact ⟨k, e, (List.getElem?_eq_some_iff.mp he).1, he, rest⟩
    · intro i hi
      refine (hs.free hi).imp_right ?_
      rintro ⟨k, e, slot, -, he, rest⟩
      exact ⟨k, e, slot, (List.getElem?_eq_some_iff.mp he).1, he, rest⟩
  | cons e rest ih =>
    have he : h.objects[l]? = some e := by
      have := congrArg List.head? hr
      simpa using this.symm
    have tail : rest = h.objects.drop (l + 1) := by
      rw [← List.drop_drop, ← hr, List.drop_one, List.tail_cons]
    rw [sweepObjects]
    split
    · next live => exact ih tail (hs.keep hv he live)
    · next dead => exact ih tail (hs.drop hv he (by simpa using dead))

end Steps

/-! ### The swept heap -/

theorem trace_pruneDependents (alive : Value → Bool) (o : Object) :
    (pruneDependents alive o).trace = o.trace := by
  unfold pruneDependents
  split <;> rfl

section Sweep

variable {h : Heap} {youngOnly : Bool} {marked : List Bool}

/-- The state after all objects were treated. -/
def sweepEnd (h : Heap) (youngOnly : Bool) (marked : List Bool) : SweepState :=
  sweepObjects youngOnly marked 0 h.objects
    ⟨[], h.slots, h.free, h.pendingForeign, { major := !youngOnly }⟩

def swept (h : Heap) (youngOnly : Bool) (marked : List Bool) : Heap := (h.sweep youngOnly marked).2

theorem swept_slots : (h.swept youngOnly marked).slots = (h.sweepEnd youngOnly marked).slots := rfl

theorem swept_objects : (h.swept youngOnly marked).objects =
    (h.sweepEnd youngOnly marked).kept.map fun e =>
      { e with object := pruneDependents (h.swept youngOnly marked).resolves e.object } := rfl

variable (youngOnly marked) in
theorem sweepEnd_swept (hv : h.Valid) : h.Swept (isLive youngOnly marked) h.objects.length
    (h.sweepEnd youngOnly marked) := by
  refine sweepObjects_swept hv rfl ⟨rfl, fun _ _ => rfl, ?_, ?_, ?_, .inl, hv.freeNodup⟩
  · exact fun hk => absurd hk (Nat.not_lt_zero _)
  · exact fun hk => absurd hk (Nat.not_lt_zero _)
  · intro n e' hn
    cases hn

variable (youngOnly marked) in
/-- What happens to a slot: kept ones keep their generation, dropped ones are retired. -/
theorem swept_slot (hv : h.Valid) {i : Nat} {slot : Slot} (hi : h.slots[i]? = some slot) :
    (slot.location = none ∧ (h.swept youngOnly marked).slots[i]? = some slot) ∨
    (∃ l e, slot.location = some l ∧ h.objects[l]? = some e ∧ e.slot = i ∧
      (isLive youngOnly marked l e = true ∧
        (∃ n, (h.sweepEnd youngOnly marked).kept[n]? = some { e with young := false } ∧
          (h.swept youngOnly marked).slots[i]? = some { slot with location := some n }) ∨
      isLive youngOnly marked l e = false ∧
        (h.swept youngOnly marked).slots[i]? = some slot.retire)) := by
  have hs := sweepEnd_swept youngOnly marked hv
  rw [swept_slots]
  cases located : slot.location with
  | none =>
    refine .inl ⟨rfl, (hs.untouched i fun k _ e he same => ?_).trans hi⟩
    obtain ⟨slot', hs', hl⟩ := hv.stored he
    rw [same, hi] at hs'
    cases hs'
    rw [located] at hl
    cases hl
  | some l =>
    obtain ⟨e, he, same⟩ := hv.located hi located
    subst same
    have bound := (List.getElem?_eq_some_iff.mp he).1
    refine .inr ⟨l, e, rfl, he, rfl, ?_⟩
    cases live : isLive youngOnly marked l e with
    | true =>
      obtain ⟨n, p⟩ := hs.kept bound he live
      exact .inl ⟨rfl, n, p.object, by rw [p.slot, hi]; rfl⟩
    | false => exact .inr ⟨rfl, by rw [hs.dropped bound he live, hi]; rfl⟩

/-- A kept object is found under its old handle, wherever compaction moved it. -/
theorem entry_swept_live (hv : h.Valid) {v : Value} {l : Nat} {e : HeapObject}
    (hl : h.location v = some l) (he : h.objects[l]? = some e)
    (live : isLive youngOnly marked l e = true) :
    (h.swept youngOnly marked).entry v = some { e with
      object := pruneDependents (h.swept youngOnly marked).resolves e.object, young := false } := by
  obtain ⟨i, slot, rfl, hi, located⟩ := location_eq_some.mp hl
  rcases swept_slot youngOnly marked hv hi with
    ⟨none, -⟩ | ⟨k, e', at_k, he', same, ⟨-, n, kept, slot'⟩ | ⟨dead, -⟩⟩
  · rw [located] at none
    cases none
  · rw [located] at at_k
    cases at_k
    rw [he] at he'
    cases he'
    refine entry_eq_some.mpr ⟨n, location_eq_some.mpr ⟨i, ⟨slot.generation, n⟩, rfl, slot', rfl⟩, ?_⟩
    rw [swept_objects, List.getElem?_map, kept]
    rfl
  · rw [located] at at_k
    cases at_k
    rw [he] at he'
    cases he'
    simp [live] at dead

theorem location_swept_dead (hv : h.Valid) {v : Value} {l : Nat} {e : HeapObject}
    (hl : h.location v = some l) (he : h.objects[l]? = some e)
    (dead : isLive youngOnly marked l e = false) :
    (h.swept youngOnly marked).location v = none := by
  obtain ⟨i, slot, rfl, hi, located⟩ := location_eq_some.mp hl
  rcases swept_slot youngOnly marked hv hi with
    ⟨none, -⟩ | ⟨k, e', at_k, he', same, ⟨live, -⟩ | ⟨-, retired⟩⟩
  · rw [located] at none
    cases none
  · rw [located] at at_k
    cases at_k
    rw [he] at he'
    cases he'
    simp [live] at dead
  · simp [location, retired, Slot.retire]

theorem location_swept_stale (hv : h.Valid) {v : Value} (hl : h.location v = none) :
    (h.swept youngOnly marked).location v = none := by
  by_contra found
  obtain ⟨n, found⟩ := Option.ne_none_iff_exists'.mp found
  obtain ⟨i, slot', rfl, hi', located⟩ := location_eq_some.mp found
  have bound : i < h.slots.length := by
    have := (List.getElem?_eq_some_iff.mp hi').1
    rwa [swept_slots, (sweepEnd_swept youngOnly marked hv).length] at this
  have hi := List.getElem?_eq_getElem bound
  rcases swept_slot youngOnly marked hv hi with
    ⟨none, kept⟩ | ⟨k, e, at_k, he, -, ⟨-, n, -, moved⟩ | ⟨-, retired⟩⟩
  · rw [hi'] at kept
    cases kept
    rw [located] at none
    cases none
  · rw [hi'] at moved
    cases moved
    simp [location, hi, at_k] at hl
  · rw [hi'] at retired
    cases retired
    cases located

theorem swept_issued (hv : h.Valid) {v : Value} (issued : h.Issued v) :
    (h.swept youngOnly marked).Issued v := by
  cases v with
  | heap i g =>
    obtain ⟨slot, hi, age⟩ := issued
    have hs := sweepEnd_swept youngOnly marked hv
    -- a slot that is put on the free list moves on to the next generation
    have unfree (same : g = slot.generation) (unfree : i ∉ h.free)
        (kept : ∀ k e, h.objects[k]? = some e → e.slot = i →
          isLive youngOnly marked k e = false → slot.generation = Value.maxGeneration) :
        i ∉ (h.swept youngOnly marked).free := by
      intro mem
      rcases hs.free mem with before | ⟨k, e, slot', -, he, dead, eq, hi', room⟩
      · exact unfree before
      · rw [hi] at hi'
        cases hi'
        exact Nat.ne_of_lt room (kept k e he eq dead)
    have only {l : Nat} (located : slot.location = some l) {k : Nat} {e : HeapObject}
        (he : h.objects[k]? = some e) (same : e.slot = i) : k = l := by
      obtain ⟨slot', hs', hk⟩ := hv.stored he
      rw [same, hi] at hs'
      cases hs'
      rw [located] at hk
      exact (Option.some.inj hk).symm
    rcases swept_slot youngOnly marked hv hi with
      ⟨none, kept⟩ | ⟨l, e, located, he, same, ⟨live, n, -, moved⟩ | ⟨dead, retired⟩⟩
    · refine ⟨slot, kept, age.imp_right fun ⟨eq, free⟩ => ⟨eq, unfree eq free ?_⟩⟩
      intro k e he same
      obtain ⟨slot', hs', hk⟩ := hv.stored he
      rw [same, hi] at hs'
      cases hs'
      rw [none] at hk
      cases hk
    · refine ⟨_, moved, age.imp_right fun ⟨eq, free⟩ => ⟨eq, unfree eq free ?_⟩⟩
      intro k e' he' same' dead
      obtain rfl := only located he' same'
      rw [he] at he'
      cases he'
      simp [live] at dead
    · refine ⟨_, retired, ?_⟩
      unfold Slot.retire
      split
      · next room =>
        left
        rcases age with older | ⟨eq, -⟩
        · exact Nat.lt_succ_of_lt older
        · exact eq ▸ Nat.lt_succ_self _
      · next full =>
        refine age.imp_right fun ⟨eq, free⟩ => ⟨eq, unfree eq free fun _ _ _ _ _ => ?_⟩
        exact Nat.le_antisymm (hv.generations hi).2 (Nat.le_of_not_lt full)
  | _ => trivial

/-- Every survivor is old. -/
theorem swept_stored {n : Nat} (hv : h.Valid) {e' : HeapObject}
    (hn : (h.swept youngOnly marked).objects[n]? = some e') :
    ∃ (k : Nat) (e : HeapObject), h.objects[k]? = some e ∧ e'.slot = e.slot ∧ e'.young = false ∧
      e'.object.trace = e.object.trace ∧ ∃ slot : Slot,
        (h.swept youngOnly marked).slots[e.slot]? = some slot ∧ slot.location = some n := by
  rw [swept_objects, List.getElem?_map, Option.map_eq_some_iff] at hn
  obtain ⟨e₁, kept, rfl⟩ := hn
  obtain ⟨k, e, -, he, -, rfl, p⟩ := (sweepEnd_swept youngOnly marked hv).origin kept
  refine ⟨k, e, he, rfl, rfl, trace_pruneDependents _ _, ?_⟩
  obtain ⟨slot, hs, -⟩ := hv.stored he
  exact ⟨_, by rw [swept_slots, p.slot, hs]; rfl, rfl⟩

theorem isYoung_swept (hv : h.Valid) (v : Value) :
    (h.swept youngOnly marked).isYoung v = false := by
  unfold isYoung
  cases he : (h.swept youngOnly marked).entry v with
  | none => rfl
  | some e =>
    obtain ⟨n, -, hn⟩ := entry_eq_some.mp he
    obtain ⟨-, -, -, -, old, -⟩ := swept_stored hv hn
    exact old

theorem swept_valid (hv : h.Valid) : (h.swept youngOnly marked).Valid := by
  have hs := sweepEnd_swept youngOnly marked hv
  have back {i : Nat} {slot' : Slot} (hi : (h.swept youngOnly marked).slots[i]? = some slot') :
      ∃ slot, h.slots[i]? = some slot := by
    have bound := (List.getElem?_eq_some_iff.mp hi).1
    rw [swept_slots, hs.length] at bound
    exact ⟨_, List.getElem?_eq_getElem bound⟩
  refine ⟨?_, ?_, ?_, hs.freeNodup, ?_, ?_, ?_, ?_⟩
  · intro n e' hn
    obtain ⟨k, e, -, same, -, -, slot, hi, located⟩ := swept_stored hv hn
    exact ⟨slot, same ▸ hi, located⟩
  · intro i n slot' hi' located
    obtain ⟨slot, hi⟩ := back hi'
    rcases swept_slot youngOnly marked hv hi with
      ⟨none, kept⟩ | ⟨l, e, -, -, same, ⟨-, m, kept, moved⟩ | ⟨-, retired⟩⟩
    · rw [hi'] at kept
      cases kept
      rw [located] at none
      cases none
    · rw [hi'] at moved
      cases moved
      cases located
      have stored := congrArg (Option.map fun e : HeapObject =>
        { e with object := pruneDependents (h.swept youngOnly marked).resolves e.object }) kept
      rw [← List.getElem?_map, ← swept_objects] at stored
      exact ⟨_, stored, same⟩
    · rw [hi'] at retired
      cases retired
      cases located
  · intro i hi
    rcases hs.free hi with before | ⟨k, e, slot, -, he, dead, rfl, hslot, -⟩
    · obtain ⟨slot, hslot, none⟩ := hv.freed before
      rcases swept_slot youngOnly marked hv hslot with
        ⟨-, kept⟩ | ⟨l, -, located, -⟩
      · exact ⟨slot, kept, none⟩
      · rw [none] at located
        cases located
    · exact ⟨slot.retire, by
        rw [swept_slots, hs.dropped (List.getElem?_eq_some_iff.mp he).1 he dead, hslot]; rfl, rfl⟩
  · intro i slot' hi'
    obtain ⟨slot, hi⟩ := back hi'
    have old := hv.generations hi
    rcases swept_slot youngOnly marked hv hi with
      ⟨-, kept⟩ | ⟨-, -, -, -, -, ⟨-, m, -, moved⟩ | ⟨-, retired⟩⟩
    · rw [hi'] at kept
      cases kept
      exact old
    · rw [hi'] at moved
      cases moved
      exact old
    · rw [hi'] at retired
      cases retired
      unfold Slot.retire
      split
      · next room => exact ⟨Nat.succ_pos _, room⟩
      · exact old
  · rw [swept_slots, hs.length]
    exact hv.capacity
  · intro n e' hn v hm
    obtain ⟨k, e, he, -, -, trace, -⟩ := swept_stored hv hn
    exact swept_issued hv (hv.traced he v (trace ▸ hm))
  · intro x hx
    have mem : x ∈ h.externalFields.entries := (List.mem_filter.mp hx).1
    exact ⟨swept_issued hv (hv.external mem).1, swept_issued hv (hv.external mem).2⟩

theorem swept_sound (hv : h.Valid) : Sound (h.swept youngOnly marked) where
  valid := swept_valid hv
  complete _ _ v _ young := by
    rw [isYoung_swept hv] at young
    cases young
  ancestors _ _ v _ := isYoung_swept hv v

/-- The external fields of a survivor are kept. -/
theorem lookup_swept {v : Value} (resolves : (h.swept youngOnly marked).resolves v = true)
    (field : Nat) : (h.swept youngOnly marked).externalFields.lookup (v, field) =
      h.externalFields.lookup (v, field) := by
  ext w
  simp only [← Option.mem_def]
  rw [AList.mem_lookup_iff, AList.mem_lookup_iff]
  show _ ∈ List.filter _ h.externalFields.entries ↔ _
  rw [List.mem_filter]
  exact and_iff_left resolves

end Sweep

end Heap

end Tonic
