import Tonic.EqualitySound
import Tonic.Run
import Tonic.Stores

/-!
## Handles and the objects they were handed out for

Every object is born with a number of its own, which goes where compaction moves the object and is
gone when the object is reclaimed. A handle leads to the object it was handed out for, or nowhere.
-/

namespace Tonic

open Effect

namespace Heap

/-- `Heap::try_get` on the packed word: the slot and the generation are decoded from it. -/
def tryGetWord (h : Heap) (word : Nat) : Option Object :=
  if word % 8 = 0 then h.tryGet (.heap (word / 8 % 2 ^ 32) (word / 2 ^ 35)) else none

theorem tryGetWord_raw (h : Heap) {v : Value} (heap : v.heapIndex.isSome) (fits : v.Encodable) :
    h.tryGetWord v.raw = h.tryGet v := by
  cases v with
  | heap i g =>
    obtain ⟨index, -, -⟩ := fits
    have tag : (g * 2 ^ 35 + i * 8) % 8 = 0 := by omega
    have slot : (g * 2 ^ 35 + i * 8) / 8 % 2 ^ 32 = i := by omega
    have generation : (g * 2 ^ 35 + i * 8) / 2 ^ 35 = g := by omega
    rw [tryGetWord, Value.raw, if_pos tag, slot, generation]
  | _ => cases heap

/-- The objects a sweep keeps, each with the location it had. -/
def remaining (h : Heap) (youngOnly : Bool) (marked : List Bool) : List (HeapObject × Nat) :=
  h.objects.zipIdx.filter fun (e, l) => isLive youngOnly marked l e

theorem kept_sweepObjects (youngOnly : Bool) (marked : List Bool) (l : Nat)
    (rest : List HeapObject) (s : SweepState) :
    (sweepObjects youngOnly marked l rest s).kept = s.kept ++
      ((rest.zipIdx l).filter fun (e, k) => isLive youngOnly marked k e).map
        fun (e, _) => { e with young := false } := by
  induction rest generalizing l s with
  | nil => simp [sweepObjects]
  | cons e rest ih =>
    rw [sweepObjects, ih, List.zipIdx_cons, List.filter_cons]
    split
    · next live => simp [SweepState.keep]
    · next dead => simp [SweepState.drop]

section Remaining

variable {h : Heap} {youngOnly : Bool} {marked : List Bool} {n k : Nat} {e : HeapObject}

/-- Compaction keeps the order: the `n`-th object that remains is the `n`-th one afterwards. -/
theorem kept_remaining (hn : (h.remaining youngOnly marked)[n]? = some (e, k)) :
    (h.sweepEnd youngOnly marked).kept[n]? = some { e with young := false } := by
  rw [sweepEnd, kept_sweepObjects, List.nil_append, List.getElem?_map]
  show Option.map _ ((h.remaining youngOnly marked)[n]?) = _
  rw [hn]
  rfl

theorem remaining_stored (hn : (h.remaining youngOnly marked)[n]? = some (e, k)) :
    h.objects[k]? = some e ∧ isLive youngOnly marked k e = true := by
  obtain ⟨mem, live⟩ := List.mem_filter.mp (List.mem_of_getElem? hn)
  exact ⟨by simpa [List.mem_zipIdx_iff_getElem?] using mem, live⟩

theorem length_remaining :
    (h.swept youngOnly marked).objects.length = (h.remaining youngOnly marked).length := by
  rw [swept_objects, List.length_map, sweepEnd, kept_sweepObjects]
  simp [remaining]

/-- A handle leads to the place that its object moved to, if its object remains. -/
theorem location_swept (hv : h.Valid) {v : Value} (n : Nat) :
    (h.swept youngOnly marked).location v = some n ↔
      ∃ e k, h.location v = some k ∧ (h.remaining youngOnly marked)[n]? = some (e, k) := by
  have moved {k : Nat} (hk : h.location v = some k) (e : HeapObject) (he : h.objects[k]? = some e)
      (m : Nat) (hm : (h.swept youngOnly marked).location v = some m) :
      (h.remaining youngOnly marked)[m]? = some (e, k) := by
    obtain ⟨i, slot, rfl, hs, at_m⟩ := location_eq_some.mp hm
    obtain ⟨i', slot', same, hs', at_k⟩ := location_eq_some.mp hk
    obtain ⟨rfl, -⟩ := Value.heap.inj same
    obtain ⟨e₂, stored, same₂⟩ := (swept_valid hv).located hs at_m
    have bound := (List.getElem?_eq_some_iff.mp stored).1
    rw [length_remaining] at bound
    obtain ⟨⟨e₁, k₁⟩, hn⟩ : ∃ x, (h.remaining youngOnly marked)[m]? = some x :=
      ⟨_, List.getElem?_eq_getElem bound⟩
    have slot₁ : e₁.slot = i := by
      rw [swept_objects, List.getElem?_map, kept_remaining hn] at stored
      cases stored
      exact same₂
    obtain ⟨e', he', slot'⟩ := hv.located hs' at_k
    rw [he] at he'
    cases he'
    obtain ⟨stored₁, -⟩ := remaining_stored hn
    obtain rfl := slot_injective hv stored₁ he (slot₁.trans slot'.symm)
    rw [he] at stored₁
    cases stored₁
    exact hn
  constructor
  · intro hn
    cases hk : h.location v with
    | none =>
      rw [location_swept_stale hv hk] at hn
      cases hn
    | some k =>
      obtain ⟨i, slot, rfl, hs, at_k⟩ := location_eq_some.mp hk
      obtain ⟨e, he, -⟩ := hv.located hs at_k
      exact ⟨e, k, rfl, moved hk e he n hn⟩
  · rintro ⟨e, k, hk, hn⟩
    obtain ⟨he, live⟩ := remaining_stored hn
    obtain ⟨m, hm, -⟩ := entry_eq_some.mp (entry_swept_live hv hk he live)
    have again := moved hk e he m hm
    -- a location remains once
    have once : ((h.remaining youngOnly marked).map (·.2)).Nodup := by
      refine List.Nodup.sublist (List.filter_sublist.map _) ?_
      rw [List.zipIdx_map_snd]
      exact List.nodup_range'
    obtain ⟨bound, -⟩ := List.getElem?_eq_some_iff.mp hn
    have eq : m = n := by
      refine ((List.getElem?_inj (by simpa using bound) once).mp ?_).symm
      rw [List.getElem?_map, List.getElem?_map, hn, again]
    exact eq ▸ hm

end Remaining

end Heap

/-- A heap whose objects are numbered in the order of their birth, and the handles that were ever
handed out, each with the number of the object it was for. -/
structure Census where
  heap : Heap
  births : List Nat
  next : Nat
  handed : Value → Nat → Prop

namespace Census

def start : Census := ⟨.empty, [], 0, fun _ _ => False⟩

/-- The object of a number, as long as it is there. -/
def object (s : Census) (n : Nat) : Option Object :=
  (s.births.idxOf? n).bind fun l => (s.heap.objects[l]?).map (·.object)

/-- An operation keeps the objects where they are and may make new ones behind them. -/
def grow (s : Census) (t : Heap) : Census where
  heap := t
  births := s.births ++ List.range' s.next (t.objects.length - s.births.length)
  next := s.next + (t.objects.length - s.births.length)
  handed v n := s.handed v n ∨ ∃ l e, s.births.length ≤ l ∧ t.objects[l]? = some e ∧
    v = t.handle e ∧ n = s.next + (l - s.births.length)

/-- A collection drops the numbers of what it reclaims and closes the gaps. -/
def collected (s : Census) (youngOnly : Bool) (roots : List Value) : Census where
  heap := final (collectWith youngOnly roots) s.heap
  births :=
    match markLive youngOnly roots s.heap with
    | .ok marked h => (h.remaining youngOnly marked).map fun (_, l) => s.births.getD l 0
    | .error _ _ => s.births
  next := s.next
  handed := s.handed

end Census

/-- One operation on a numbered heap. -/
inductive CensusStep [HostLibrary] : Census → Census → Prop where
  | alloc (s : Census) (o : Object) (issued : ∀ v ∈ o.trace, s.heap.Issued v) :
    CensusStep s (s.grow (final (alloc o) s.heap))
  | mutate (s : Census) (m : Mutation) (issued : ∀ v ∈ m.arguments, s.heap.Issued v) :
    CensusStep s (s.grow (final m.run s.heap))
  | collect (s : Census) (youngOnly : Bool) (roots : List Value) :
    CensusStep s (s.collected youngOnly roots)

inductive CensusRun [HostLibrary] : Census → Census → Prop where
  | refl (s : Census) : CensusRun s s
  | next {s t u : Census} : CensusRun s t → CensusStep t u → CensusRun s u

/-! ### The numbers follow the objects -/

namespace Census

open Heap

/-- Every handle that was handed out is located where its number is. -/
structure Proper (s : Census) : Prop where
  sound : Sound s.heap
  length : s.births.length = s.heap.objects.length
  nodup : s.births.Nodup
  born : ∀ n ∈ s.births, n < s.next
  issued : ∀ {v : Value} {n : Nat}, s.handed v n → s.heap.Issued v ∧ n < s.next
  fits : ∀ {v : Value} {n : Nat}, s.handed v n → v.heapIndex.isSome ∧ v.Encodable
  located : ∀ {v : Value} {n : Nat}, s.handed v n → ∀ l,
    s.heap.location v = some l ↔ s.births[l]? = some n
  numbered : ∀ {l : Nat} {e : HeapObject} {n : Nat}, s.heap.objects[l]? = some e →
    s.births[l]? = some n → s.handed (s.heap.handle e) n

variable {s : Census} {t : Heap}

theorem start_proper : start.Proper where
  sound := HeapState.start_proper.sound
  length := rfl
  nodup := .nil
  born n hn := by cases hn
  issued handed := handed.elim
  fits handed := handed.elim
  located handed := handed.elim
  numbered hl := by cases hl

theorem idxOf?_births (hs : s.Proper) {l n : Nat} :
    s.births.idxOf? n = some l ↔ s.births[l]? = some n := by
  rw [List.idxOf?_eq_some_iff, List.getElem?_eq_some_iff]
  constructor
  · rintro ⟨bound, found, -⟩
    exact ⟨bound, by simpa using found⟩
  · rintro ⟨bound, found⟩
    refine ⟨bound, by simpa using found, fun k hk same => ?_⟩
    have again : s.births[k] = s.births[l] := by rw [found]; simpa using same
    exact Nat.ne_of_lt hk ((List.Nodup.getElem_inj_iff hs.nodup).mp again)

theorem object_eq_some (hs : s.Proper) {n : Nat} {o : Object} : s.object n = some o ↔
    ∃ (l : Nat) (e : HeapObject), s.births[l]? = some n ∧ s.heap.objects[l]? = some e ∧
      e.object = o := by
  simp only [object, Option.bind_eq_some_iff, idxOf?_births hs, Option.map_eq_some_iff]
  constructor
  · rintro ⟨l, hl, e, he, rfl⟩
    exact ⟨l, e, hl, he, rfl⟩
  · rintro ⟨l, e, hl, he, rfl⟩
    exact ⟨l, hl, e, he, rfl⟩

theorem object_eq_none (hs : s.Proper) {n : Nat} : s.object n = none ↔ n ∉ s.births := by
  rw [← not_iff_not, not_not, ← ne_eq, Option.ne_none_iff_exists']
  constructor
  · rintro ⟨o, ho⟩
    obtain ⟨l, -, hl, -⟩ := (object_eq_some hs).mp ho
    exact List.mem_of_getElem? hl
  · intro mem
    obtain ⟨l, bound, hl⟩ := List.mem_iff_getElem.mp mem
    have stored := List.getElem?_eq_getElem (hs.length ▸ bound : l < s.heap.objects.length)
    have numbered : s.births[l]? = some n := List.getElem?_eq_some_iff.mpr ⟨bound, hl⟩
    exact ⟨_, (object_eq_some hs).mpr ⟨l, _, numbered, stored, rfl⟩⟩

/-- A handle resolves to the object it was handed out for. -/
theorem Proper.tryGet (hs : s.Proper) {v : Value} {n : Nat} (handed : s.handed v n) :
    s.heap.tryGet v = s.object n := by
  ext o
  rw [object_eq_some hs, tryGet_eq_some]
  constructor
  · rintro ⟨e, he, rfl⟩
    obtain ⟨l, hl, stored⟩ := entry_eq_some.mp he
    exact ⟨l, e, (hs.located handed l).mp hl, stored, rfl⟩
  · rintro ⟨l, e, hl, stored, rfl⟩
    exact ⟨e, entry_eq_some.mpr ⟨l, (hs.located handed l).mpr hl, stored⟩, rfl⟩

theorem Proper.tryGetWord (hs : s.Proper) {v : Value} {n : Nat} (handed : s.handed v n) :
    s.heap.tryGetWord v.raw = s.object n := by
  obtain ⟨heap, fits⟩ := hs.fits handed
  rw [tryGetWord_raw _ heap fits, hs.tryGet handed]

/-! ### Growth -/

theorem issued_handle {h : Heap} (hv : h.Valid) {l : Nat} {e : HeapObject}
    (he : h.objects[l]? = some e) : h.Issued (h.handle e) := by
  by_contra new
  have located := location_handle hv he
  rw [location_unissued hv new] at located
  cases located

theorem old_location (hv : s.heap.Valid) (after : After s.heap t) {l : Nat} {e : HeapObject}
    (he : s.heap.objects[l]? = some e) : t.location (s.heap.handle e) = some l := by
  rw [after.2.location (issued_handle hv he), location_handle hv he]

theorem objects_grow (hv : s.heap.Valid) (after : After s.heap t) :
    s.heap.objects.length ≤ t.objects.length := by
  by_contra short
  have bound : t.objects.length < s.heap.objects.length := Nat.lt_of_not_le short
  have located := old_location hv after (List.getElem?_eq_getElem bound)
  obtain ⟨i, slot, -, hs, at_l⟩ := location_eq_some.mp located
  obtain ⟨e, he, -⟩ := after.1.valid.located hs at_l
  exact Nat.lt_irrefl _ (List.getElem?_eq_some_iff.mp he).1

theorem births_grow {l n : Nat} (old : n < s.next) :
    (s.grow t).births[l]? = some n ↔ s.births[l]? = some n := by
  simp only [grow, List.getElem?_append]
  split
  · rfl
  · next beyond =>
    rw [List.getElem?_eq_none (Nat.le_of_not_lt beyond)]
    constructor
    · intro found
      obtain ⟨k, -, eq⟩ := List.mem_range'.mp (List.mem_of_getElem? found)
      omega
    · intro found
      cases found

theorem births_new {l : Nat} (new : s.births.length ≤ l) (bound : l < t.objects.length) :
    (s.grow t).births[l]? = some (s.next + (l - s.births.length)) := by
  rw [grow, List.getElem?_append_right new, List.getElem?_range' (by omega), Nat.one_mul]

theorem Proper.grow (hs : s.Proper) (after : After s.heap t) : (s.grow t).Proper := by
  have valid := hs.sound.valid
  have grown := objects_grow valid after
  rw [← hs.length] at grown
  have nodup : (s.grow t).births.Nodup := by
    refine List.nodup_append.mpr ⟨hs.nodup, List.nodup_range', fun a ha b hb same => ?_⟩
    have old := hs.born a ha
    obtain ⟨k, -, eq⟩ := List.mem_range'.mp hb
    omega
  constructor
  · exact after.1
  · simp only [Census.grow, List.length_append, List.length_range']
    omega
  · exact nodup
  · intro n hn
    rcases List.mem_append.mp hn with old | new
    · have := hs.born n old
      simp only [Census.grow]
      omega
    · obtain ⟨k, bound, eq⟩ := List.mem_range'.mp new
      simp only [Census.grow]
      omega
  · rintro v n (old | ⟨l, e, new, he, rfl, rfl⟩)
    · obtain ⟨issued, bound⟩ := hs.issued old
      exact ⟨after.2.issued issued, Nat.lt_of_lt_of_le bound (Nat.le_add_right ..)⟩
    · have bound := (List.getElem?_eq_some_iff.mp he).1
      constructor
      · exact issued_handle after.1.valid he
      · simp only [Census.grow]
        omega
  · rintro v n (old | ⟨l, e, new, he, rfl, rfl⟩)
    · exact hs.fits old
    · have found : t.tryGet (t.handle e) = some e.object :=
        tryGet_eq_some.mpr ⟨e, entry_eq_some.mpr ⟨l, location_handle after.1.valid he, he⟩, rfl⟩
      exact ⟨rfl, encodable_of_tryGet after.1.valid found⟩
  · rintro v n (old | ⟨l₀, e, new, he, rfl, rfl⟩) l
    · obtain ⟨issued, bound⟩ := hs.issued old
      rw [births_grow bound, ← hs.located old l]
      exact Eq.congr_left (after.2.location issued)
    · have located := location_handle after.1.valid he
      have own := births_new new (List.getElem?_eq_some_iff.mp he).1
      show t.location _ = _ ↔ _
      rw [located]
      constructor
      · intro same
        cases same
        exact own
      · intro found
        obtain ⟨bound, -⟩ := List.getElem?_eq_some_iff.mp own
        rw [(List.getElem?_inj bound nodup).mp (own.trans found.symm)]
  · intro l e n he hn
    rcases Nat.lt_or_ge l s.births.length with old | new
    · obtain ⟨e₀, stored⟩ : ∃ e₀, s.heap.objects[l]? = some e₀ :=
        ⟨_, List.getElem?_eq_getElem (hs.length ▸ old)⟩
      have same : t.handle e = s.heap.handle e₀ :=
        after.1.valid.distinct (location_handle after.1.valid he) (old_location valid after stored)
      left
      simp only [Census.grow, List.getElem?_append_left old] at hn
      show s.handed (t.handle e) n
      rw [same]
      exact hs.numbered stored hn
    · right
      have bound : l < t.objects.length := (List.getElem?_eq_some_iff.mp he).1
      rw [births_new new bound] at hn
      exact ⟨l, e, new, he, rfl, (Option.some.inj hn).symm⟩

theorem alloc_length (h : Heap) (o : Object) :
    wp (Tonic.alloc o) (fun _ t => t.objects.length = h.objects.length + 1) (fun _ => True) h := by
  simp only [Tonic.alloc, allocSlot, wp_bind, wp_get]
  split
  · simp only [wp_bind, wp_set, wp_pure]
    split <;> simp
  · split
    · simp only [wp_bind, wp_set, wp_pure]
      split <;> simp
    · simp

/-- A new object is the next one, under the handle that the allocation returns. -/
theorem alloc_handed (hs : s.Proper) {o : Object} {v : Value} {t : Heap}
    (issued : ∀ v ∈ o.trace, s.heap.Issued v) (ran : Tonic.alloc o s.heap = .ok v t) :
    (s.grow t).handed v s.next ∧ (s.grow t).object s.next = some o := by
  obtain ⟨after, stores, new, -⟩ := wp_returned (wp_alloc_stores hs.sound issued) ran
  have found : t.tryGet v = some o := by
    rw [stores, Function.update_self]
  obtain ⟨e, he, rfl⟩ := tryGet_eq_some.mp found
  obtain ⟨l, hl, stored⟩ := entry_eq_some.mp he
  have behind : s.births.length ≤ l := by
    by_contra before
    have bound : l < s.heap.objects.length := hs.length ▸ Nat.lt_of_not_le before
    have old : s.heap.objects[l]? = some s.heap.objects[l] := List.getElem?_eq_getElem bound
    have same := after.1.valid.distinct hl (old_location hs.sound.valid after old)
    exact new (same ▸ issued_handle hs.sound.valid old)
  have bound := (List.getElem?_eq_some_iff.mp stored).1
  have last : l = s.births.length := by
    have length := wp_returned (alloc_length s.heap e.object) ran
    rw [← hs.length] at length
    omega
  have handed : (s.grow t).handed v s.next := by
    refine .inr ⟨l, e, behind, stored, ?_, by omega⟩
    exact (entry_handle after.1.valid he).symm
  exact ⟨handed, ((hs.grow after).tryGet handed).symm.trans found⟩

/-! ### Collection -/

section Collected

variable {youngOnly : Bool} {roots : List Value}

theorem final_collectWith (h : Heap) : final (collectWith youngOnly roots) h =
    match markLive youngOnly roots h with
    | .ok marked t => t.swept youngOnly marked
    | .error _ t => t := by
  rw [collectWith_eq]
  simp only [final, bind, EStateM.bind]
  cases markLive youngOnly roots h <;> rfl

theorem collected_heap_sound (hs : Sound s.heap) : Sound (s.collected youngOnly roots).heap ∧
    ∀ v, s.heap.Issued v → (s.collected youngOnly roots).heap.Issued v :=
  wp_final (P := fun t => Sound t ∧ ∀ v, s.heap.Issued v → t.Issued v)
    (wp_mono (wp_collectWith hs.valid) (fun _ _ ht => collected_sound hs.valid ht)
      fun _ ht => ht.queued.sound hs)

/-- What a collection does to the numbers: it removes some, and the objects follow. -/
structure Compacts (s t : Census) : Prop where
  sub : t.births.Sublist s.births
  length : t.births.length = t.heap.objects.length
  location : ∀ (v : Value) (l : Nat), t.heap.location v = some l ↔
    ∃ k n, s.heap.location v = some k ∧ s.births[k]? = some n ∧ t.births[l]? = some n
  object : ∀ {l k n : Nat} {e : HeapObject}, t.heap.objects[l]? = some e → t.births[l]? = some n →
    s.births[k]? = some n → ∃ e₀ alive, s.heap.objects[k]? = some e₀ ∧
      e.object = pruneDependents alive e₀.object

theorem collected_compacts (hs : s.Proper) : s.Compacts (s.collected youngOnly roots) := by
  have valid := hs.sound.valid
  have marks : wp (markLive youngOnly roots) (s.heap.Traced youngOnly roots)
      (s.heap.Failed roots) s.heap := wp_markLive valid
  cases ran : markLive youngOnly roots s.heap with
  | error e t =>
    have queued := (wp_failed marks ran).queued
    have heap : (s.collected youngOnly roots).heap = t := by
      simp only [collected, final_collectWith, ran]
    have births : (s.collected youngOnly roots).births = s.births := by
      simp only [collected, ran]
    refine ⟨births ▸ List.Sublist.refl _, ?_, fun v l => ?_, fun {l k n e} he hl hk => ?_⟩
    · rw [births, heap, queued.objects, hs.length]
    · rw [births, heap, queued.location]
      constructor
      · intro hl
        obtain ⟨i, slot, -, at_i, at_l⟩ := location_eq_some.mp hl
        obtain ⟨e, he, -⟩ := valid.located at_i at_l
        have bound := hs.length ▸ (List.getElem?_eq_some_iff.mp he).1
        exact ⟨l, _, hl, List.getElem?_eq_getElem bound, List.getElem?_eq_getElem bound⟩
      · rintro ⟨k, n, hk, before, now⟩
        obtain ⟨bound, -⟩ := List.getElem?_eq_some_iff.mp before
        rw [hk, (List.getElem?_inj bound hs.nodup).mp (before.trans now.symm)]
    · rw [births] at hl
      rw [heap, queued.objects] at he
      obtain ⟨bound, -⟩ := List.getElem?_eq_some_iff.mp hl
      obtain rfl := (List.getElem?_inj bound hs.nodup).mp (hl.trans hk.symm)
      refine ⟨e, fun _ => true, he, ?_⟩
      unfold pruneDependents
      split <;> simp [*]
  | ok marked t =>
    have queued := (wp_returned marks ran).queued
    have heap : (s.collected youngOnly roots).heap = t.swept youngOnly marked := by
      simp only [collected, final_collectWith, ran]
    have births : (s.collected youngOnly roots).births =
        (t.remaining youngOnly marked).map fun (_, l) => s.births.getD l 0 := by
      simp only [collected, ran]
    have all : (t.objects.zipIdx.map fun (_, l) => s.births.getD l 0) = s.births := by
      refine List.ext_getElem (by simp [queued.objects, hs.length]) fun l _ bound => ?_
      simp [bound]
    have number {e : HeapObject} {k l : Nat}
        (at_l : (t.remaining youngOnly marked)[l]? = some (e, k)) {n : Nat} :
        (s.collected youngOnly roots).births[l]? = some n ↔ s.births[k]? = some n := by
      have bound : k < s.births.length := by
        have stored := (remaining_stored at_l).1
        rw [queued.objects] at stored
        exact hs.length ▸ (List.getElem?_eq_some_iff.mp stored).1
      rw [births, List.getElem?_map, at_l, List.getElem?_eq_getElem bound]
      simp [bound]
    have origin {k l n : Nat} (now : (s.collected youngOnly roots).births[l]? = some n)
        (before : s.births[k]? = some n) : ∃ e, (t.remaining youngOnly marked)[l]? = some (e, k) := by
      have bound := (List.getElem?_eq_some_iff.mp now).1
      rw [births, List.length_map] at bound
      have at_l := List.getElem?_eq_getElem bound
      obtain ⟨own, -⟩ := List.getElem?_eq_some_iff.mp before
      have same := (List.getElem?_inj own hs.nodup).mp (before.trans ((number at_l).mp now).symm)
      exact ⟨_, at_l.trans (congrArg some (Prod.ext rfl same.symm))⟩
    constructor
    · have sub := (List.filter_sublist (p := fun (e, l) => isLive youngOnly marked l e)
        (l := t.objects.zipIdx)).map fun (_, l) => s.births.getD l 0
      rw [all] at sub
      exact births ▸ sub
    · rw [births, heap, length_remaining, List.length_map]
    · intro v l
      rw [heap, location_swept (queued.valid valid), queued.location]
      constructor
      · rintro ⟨e, k, hk, at_l⟩
        have stored := (remaining_stored at_l).1
        rw [queued.objects] at stored
        have bound := hs.length ▸ (List.getElem?_eq_some_iff.mp stored).1
        have before := List.getElem?_eq_getElem bound
        exact ⟨k, _, hk, before, (number at_l).mpr before⟩
      · rintro ⟨k, n, hk, before, now⟩
        obtain ⟨e, at_l⟩ := origin now before
        exact ⟨e, k, hk, at_l⟩
    · intro l k n e he now before
      obtain ⟨e₀, at_l⟩ := origin now before
      have stored := (remaining_stored at_l).1
      rw [queued.objects] at stored
      rw [heap, swept_objects, List.getElem?_map, kept_remaining at_l] at he
      cases he
      exact ⟨e₀, _, stored, rfl⟩

theorem Proper.collected (hs : s.Proper) : (s.collected youngOnly roots).Proper := by
  have c : s.Compacts (s.collected youngOnly roots) := collected_compacts hs
  obtain ⟨sound, issued⟩ := @collected_heap_sound s youngOnly roots hs.sound
  have nodup := hs.nodup.sublist c.sub
  constructor
  · exact sound
  · exact c.length
  · exact nodup
  · exact fun n hn => hs.born n (c.sub.subset hn)
  · exact fun handed => ⟨issued _ (hs.issued handed).1, (hs.issued handed).2⟩
  · exact hs.fits
  · intro v n handed l
    rw [c.location]
    constructor
    · rintro ⟨k, m, hk, before, now⟩
      have own := (hs.located handed k).mp hk
      rw [own] at before
      rwa [before]
    · intro now
      obtain ⟨k, bound, hk⟩ := List.mem_iff_getElem.mp (c.sub.subset (List.mem_of_getElem? now))
      have before : s.births[k]? = some n := List.getElem?_eq_some_iff.mpr ⟨bound, hk⟩
      exact ⟨k, n, (hs.located handed k).mpr before, before, now⟩
  · intro l e n he hn
    obtain ⟨k, m, hk, before, now⟩ := (c.location _ l).mp (location_handle sound.valid he)
    obtain rfl := Option.some.inj (now.symm.trans hn)
    have bound := hs.length ▸ (List.getElem?_eq_some_iff.mp before).1
    have stored : s.heap.objects[k]? = some s.heap.objects[k] := List.getElem?_eq_getElem bound
    have same := hs.sound.valid.distinct hk (location_handle hs.sound.valid stored)
    show s.handed _ _
    rw [same]
    exact hs.numbered stored before

end Collected

/-! ### Runs -/

variable [HostLibrary] {u : Census}

theorem step_proper (step : CensusStep s u) (hs : s.Proper) : u.Proper := by
  cases step with
  | alloc o issued =>
    exact hs.grow (wp_final (wp_mono (wp_alloc hs.sound issued) (fun _ _ ht => ht.1) fun _ => id))
  | mutate m issued => exact hs.grow (wp_final (m.run_after hs.sound issued))
  | collect youngOnly roots => exact hs.collected

theorem run_proper (run : CensusRun s u) (hs : s.Proper) : u.Proper := by
  induction run with
  | refl => exact hs
  | next _ step ih => exact step_proper step ih

/-- Numbers are not given out twice, and what was handed out stays so. -/
structure Later (s u : Census) : Prop where
  handed : ∀ v n, s.handed v n → u.handed v n
  next : s.next ≤ u.next
  births : ∀ n ∈ u.births, n < s.next → n ∈ s.births

theorem step_later (step : CensusStep s u) (hs : s.Proper) : s.Later u := by
  have grow (t : Heap) : s.Later (s.grow t) := by
    refine ⟨fun _ _ => .inl, Nat.le_add_right .., fun n hn old => ?_⟩
    rcases List.mem_append.mp hn with before | new
    · exact before
    · obtain ⟨k, -, eq⟩ := List.mem_range'.mp new
      omega
  cases step with
  | alloc o issued => exact grow _
  | mutate m issued => exact grow _
  | collect youngOnly roots =>
    exact ⟨fun _ _ => id, Nat.le_refl _, fun n hn _ => (collected_compacts hs).sub.subset hn⟩

theorem run_later (run : CensusRun s u) (hs : s.Proper) : s.Later u := by
  induction run with
  | refl => exact ⟨fun _ _ => id, Nat.le_refl _, fun _ hn _ => hn⟩
  | next run step ih =>
    have later := step_later step (run_proper run hs)
    constructor
    · exact fun v n handed => later.handed v n (ih.handed v n handed)
    · exact ih.next.trans later.next
    · exact fun n hn old => ih.births n (later.births n hn (Nat.lt_of_lt_of_le old ih.next)) old

end Census

open Heap in
/-- A handle leads to the object it was handed out for until a collection reclaims the object, and
to nothing ever after, also when it is passed around as a word; no two stored objects share one. -/
theorem handles_never_alias [HostLibrary] {s : Census} (reach : CensusRun .start s) :
    (∀ v n, s.handed v n →
      s.heap.tryGet v = s.object n ∧ s.heap.tryGetWord v.raw = s.object n) ∧
    (∀ t, CensusRun s t → ∀ v n, s.handed v n → s.object n = none →
      t.heap.tryGet v = none ∧ t.heap.tryGetWord v.raw = none) ∧
    (∀ t, CensusStep s t → ∀ n, (s.object n).isSome → t.object n = none →
      ∃ youngOnly roots, t = s.collected youngOnly roots) ∧
    (∀ youngOnly roots n o, (s.collected youngOnly roots).object n = some o →
      ∃ o₀ alive, s.object n = some o₀ ∧ o = pruneDependents alive o₀) ∧
    (∀ o v t, (∀ w ∈ o.trace, s.heap.Issued w) → alloc o s.heap = .ok v t →
      (s.grow t).handed v s.next ∧ (s.grow t).object s.next = some o) ∧
    (∀ (l : Nat) (e : HeapObject), s.heap.objects[l]? = some e → ∃ n, s.handed (s.heap.handle e) n) ∧
    (∀ (k l : Nat) (a b : HeapObject), s.heap.objects[k]? = some a → s.heap.objects[l]? = some b →
      (s.heap.handle a).raw = (s.heap.handle b).raw → k = l) := by
  have hs := Census.run_proper reach Census.start_proper
  refine ⟨fun v n handed => ⟨hs.tryGet handed, hs.tryGetWord handed⟩, ?_, ?_, ?_, ?_, ?_, ?_⟩
  · intro t run v n handed gone
    have ht := Census.run_proper run hs
    have later := Census.run_later run hs
    have still : t.object n = none := by
      rw [Census.object_eq_none hs] at gone
      rw [Census.object_eq_none ht]
      exact fun mem => gone (later.births n mem (hs.issued handed).2)
    have now := later.handed v n handed
    exact ⟨(ht.tryGet now).trans still, (ht.tryGetWord now).trans still⟩
  · intro t step n there gone
    have ht := Census.step_proper step hs
    have grown (t : Heap) (ht : (s.grow t).Proper) (gone : (s.grow t).object n = none) : False := by
      rw [Census.object_eq_none ht] at gone
      have : n ∉ s.births := fun mem => gone (List.mem_append_left _ mem)
      rw [(Census.object_eq_none hs).mpr this] at there
      cases there
    cases step with
    | alloc o issued => exact (grown _ ht gone).elim
    | mutate m issued => exact (grown _ ht gone).elim
    | collect youngOnly roots => exact ⟨youngOnly, roots, rfl⟩
  · intro youngOnly roots n o found
    have c := @Census.collected_compacts s youngOnly roots hs
    obtain ⟨l, e, now, stored, rfl⟩ := (Census.object_eq_some hs.collected).mp found
    obtain ⟨k, bound, hk⟩ := List.mem_iff_getElem.mp (c.sub.subset (List.mem_of_getElem? now))
    have before : s.births[k]? = some n := List.getElem?_eq_some_iff.mpr ⟨bound, hk⟩
    obtain ⟨e₀, alive, stored₀, same⟩ := c.object stored now before
    exact ⟨e₀.object, alive, (Census.object_eq_some hs).mpr ⟨k, e₀, before, stored₀, rfl⟩, same⟩
  · intro o v t issued ran
    exact Census.alloc_handed hs issued ran
  · intro l e stored
    have bound := hs.length ▸ (List.getElem?_eq_some_iff.mp stored).1
    exact ⟨_, hs.numbered stored (List.getElem?_eq_getElem bound)⟩
  · intro k l a b ha hb same
    have located := location_handle hs.sound.valid ha
    have fits {l : Nat} {e : HeapObject} (he : s.heap.objects[l]? = some e) :
        (s.heap.handle e).Encodable :=
      encodable_of_tryGet hs.sound.valid (tryGet_eq_some.mpr
        ⟨e, entry_eq_some.mpr ⟨l, location_handle hs.sound.valid he, he⟩, rfl⟩)
    rw [Value.raw_injective (fits ha) (fits hb) same, location_handle hs.sound.valid hb] at located
    exact (Option.some.inj located).symm

section Recycled

open Heap Census

/-- A list was allocated. -/
def listMade : Census := start.grow (final (alloc (.list [])) .empty)

/-- The list was reclaimed. -/
def listReclaimed : Census := listMade.collected false []

/-- A string was allocated in the slot of the list. -/
def recycled : Census := listReclaimed.grow (final (alloc (.str "s")) listReclaimed.heap)

theorem markLive_listMade : markLive false [] listMade.heap = .ok [false] newList := by
  show markLive false [] newList = _
  have marks : newList.markRoots false [] = .ok [false] := by
    simp [newList, markRoots, Marking.mark, Heap.empty]
  simp only [markLive, bind, EStateM.bind, reading, marks]
  rfl

theorem listReclaimed_births : listReclaimed.births = [] := by
  simp only [listReclaimed, collected, markLive_listMade]
  rfl

theorem listReclaimed_heap : listReclaimed.heap =
    { Heap.empty with slots := [⟨2, none⟩], free := [0] } := by
  simp only [listReclaimed, collected, final_collectWith, markLive_listMade]
  rfl

theorem handles_never_alias_recycled : recycled.heap.tryGet (.heap 0 1) = none ∧
    recycled.heap.tryGet (.heap 0 2) = some (.str "s") := by
  let _ : HostLibrary := ⟨String.length, List.length, fun _ => ""⟩
  have made : CensusRun start listMade :=
    .next (.refl start) (.alloc start (.list []) (by simp [Object.trace]))
  have reclaimed : CensusRun start listReclaimed := made.next (.collect listMade false [])
  have step : CensusStep listReclaimed recycled :=
    .alloc listReclaimed (.str "s") (by simp [Object.trace])
  have ran : alloc (.str "s") listReclaimed.heap = .ok (.heap 0 2) recycled.heap := by
    simp only [recycled, grow, listReclaimed_heap]
    rfl
  obtain ⟨-, never, -, -, born, -⟩ := handles_never_alias reclaimed
  obtain ⟨handed, found⟩ := born (.str "s") (.heap 0 2) recycled.heap (by simp [Object.trace]) ran
  have old : listReclaimed.handed (.heap 0 1) 0 :=
    .inr ⟨0, ⟨.list [], 0, true⟩, Nat.le_refl _, rfl, rfl, rfl⟩
  constructor
  · have gone : listReclaimed.object 0 = none := by
      simp [object, listReclaimed_births]
    exact (never recycled (.next (.refl _) step) _ _ old gone).1
  · exact ((handles_never_alias (reclaimed.next step)).1 _ _ handed).1.trans found

end Recycled

end Tonic
