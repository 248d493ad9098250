import Tonic.DictRep
import Tonic.DictSound
import Tonic.KeyFrame
import Tonic.Stores

/-!
## What the operations on a container do to the heap

An operation that succeeds stores one new state of its container. One that fails has changed
nothing, as long as the epochs of the container are not exhausted.
-/

namespace Tonic

open Effect

namespace Heap

variable {h t : Heap} {owner key value v : Value} {o o' : Object} {d : Dict} {i : Nat}

def Unchanged (h t : Heap) : Prop := t.tryGet = h.tryGet

theorem unchanged_barriers (h : Heap) (owner key value : Value) :
    Unchanged h ((h.writeBarrier owner key).writeBarrier owner value) :=
  funext fun v => by simp

theorem Stores.stored (hs : Stores h t owner o) : t.tryGet owner = some o := by
  rw [show t.tryGet = _ from hs, Function.update_self]

theorem Stores.others (hs : Stores h t owner o) (ne : v ≠ owner) : t.tryGet v = h.tryGet v := by
  rw [show t.tryGet = _ from hs, Function.update_of_ne ne]

/-- A store after a store. -/
theorem Stores.trans {h' : Heap} (first : Stores h h' owner o) (second : Stores h' t owner o') :
    Stores h t owner o' := by
  unfold Stores at *
  rw [second, first, Function.update_idem]

theorem Stores.refl (ho : h.tryGet owner = some o) : Stores h h owner o := by
  unfold Stores
  rw [← ho, Function.update_eq_self]

/-- The new content of a container is no matter for keys. -/
theorem Stores.alike (hs : Stores h t owner o') (ho : h.tryGet owner = some o)
    (kind : o.isContainer = true) (kind' : o'.isContainer = true) : h.Alike t fun _ => True where
  same {v} _ := by
    by_cases eq : v = owner
    · exact .inr ⟨o, o', eq ▸ ho, eq ▸ hs.stored, kind, kind'⟩
    · exact .inl (hs.others eq)
  closed _ _ _ := trivial

/-- The payload stored behind the barriers of a key and a value. -/
theorem wp_setObject_barriers (hs : Sound h) (ho : h.tryGet owner = some o)
    {Q : Unit → Heap → Prop} {E : Heap → Prop} (next : ∀ t, Stores h t owner o' → Q () t) :
    wp (setObject owner o') Q E ((h.writeBarrier owner key).writeBarrier owner value) :=
  have same := unchanged_barriers h owner key value
  wp_setObject_stores ((hs.writeBarrier owner key).1.writeBarrier owner value).1.valid
    ((congrFun same owner).trans ho) fun t ht => next t (ht.of_same same)

theorem wp_nextEpoch_eq {name : String} {n : Nat} {Q : Nat → Heap → Prop} {E : Heap → Prop}
    (failed : 2 ^ 64 ≤ n + 1 → E h) (ok : n + 1 < 2 ^ 64 → Q (n + 1) h) :
    wp (nextEpoch name n) Q E h := by
  unfold nextEpoch
  split
  · next small => exact ok small
  · next large => exact failed (by omega)

theorem wp_expectDict_of {Q : Dict → Heap → Prop} {E : Heap → Prop}
    (hd : h.tryGet owner = some (.dict d)) (ok : Q d h) : wp (expectDict owner) Q E h := by
  simp only [expectDict, wp_bind]
  rw [getObject, wp_reading, get_ok hd]
  exact ok

/-! ### Stores -/

section

variable [HostLibrary]

theorem dictSet_spec (hs : Sound h) : wp (dictSet owner key value)
    (fun _ t => ∃ m d, h.dictKey key = .ok m ∧ h.tryGet (h.nativeValue owner) = some (.dict d) ∧
      Stores h t (h.nativeValue owner) (.dict (d.stored (d.find m) (Dict.hashKey m) m key value)))
    (Unchanged h) h := by
  have same := unchanged_barriers h (h.nativeValue owner) key value
  simp only [dictSet, wp_bind, wp_nativeValue]
  refine wp_reading_intro rfl fun m hm => ?_
  refine wp_expectDict same fun d hd => wp_nextEpoch_eq (fun _ => same) fun _ => ?_
  replace hd := (congrFun same _).symm.trans hd
  split
  · next i found =>
    refine wp_setObject_barriers hs hd fun t ht => ⟨m, d, hm, hd, ?_⟩
    rw [found]
    exact ht
  · next found =>
    rw [wp_bind]
    refine wp_nextEpoch_eq (fun _ => same) fun _ => ?_
    refine wp_setObject_barriers hs hd fun t ht => ⟨m, d, hm, hd, ?_⟩
    rw [found]
    exact ht

/-- With a key and room in both epochs, a store succeeds. -/
theorem dictSet_runs {m : Key} (hs : Sound h) (hd : h.tryGet owner = some (.dict d))
    (hm : h.dictKey key = .ok m) (epochs : d.HasEpochs 1) : wp (dictSet owner key value)
    (fun _ t => Stores h t owner (.dict (d.stored (d.find m) (Dict.hashKey m) m key value)))
    (fun _ => False) h := by
  have same := unchanged_barriers h owner key value
  simp only [dictSet, wp_bind, wp_nativeValue, native_of_tryGet hd rfl]
  rw [wp_reading, hm]
  refine wp_expectDict_of ((congrFun same owner).trans hd)
    (wp_nextEpoch_eq (fun large => absurd epochs.2 (by omega)) fun _ => ?_)
  split
  · next i found =>
    refine wp_setObject_barriers hs hd fun t ht => ?_
    rw [found]
    exact ht
  · next found =>
    rw [wp_bind]
    refine wp_nextEpoch_eq (fun large => absurd epochs.1 (by omega)) fun _ => ?_
    refine wp_setObject_barriers hs hd fun t ht => ?_
    rw [found]
    exact ht

end

theorem hashSetHashed_spec {hash : Int} {found : Option Nat} (hs : Sound h) :
    wp (hashSetHashed owner key value hash found)
      (fun _ t => ∃ m o d wrap, h.dictKey key = .ok m ∧ h.tryGet (h.nativeValue owner) = some o ∧
        o.hashed = some (d, wrap) ∧ (∀ i, found = some i → i < d.entries.length) ∧
        Stores h t (h.nativeValue owner) (wrap (d.stored found (asU64 hash) m key value)))
      (Unchanged h) h := by
  have same := unchanged_barriers h (h.nativeValue owner) key value
  simp only [hashSetHashed, wp_bind, wp_nativeValue]
  refine wp_reading_intro rfl fun m hm => ?_
  refine wp_getObject same fun o ho => ?_
  replace ho := (congrFun same _).symm.trans ho
  cases hashed : o.hashed with
  | none => exact same
  | some view =>
    obtain ⟨d, wrap⟩ := view
    rw [wp_bind]
    refine wp_nextEpoch_eq (fun _ => same) fun _ => ?_
    cases found with
    | some i =>
      simp only
      split
      · exact same
      · next inside =>
        refine wp_setObject_barriers hs ho fun t ht => ?_
        refine ⟨m, o, d, wrap, hm, ho, hashed, fun j eq => ?_, ht⟩
        cases eq
        omega
    | none =>
      rw [wp_bind]
      refine wp_nextEpoch_eq (fun _ => same) fun _ => ?_
      refine wp_setObject_barriers hs ho fun t ht => ?_
      exact ⟨m, o, d, wrap, hm, ho, hashed, (fun _ eq => by cases eq), ht⟩

/-! ### Removals -/

theorem commitRemoval_spec {d' : Dict} (hs : Sound h) (hd : h.tryGet owner = some (.dict d))
    (sub : ∀ entry ∈ d'.entries, entry ∈ d.entries) (epochs : d'.HasEpochs 1) {E : Heap → Prop} :
    wp (commitRemoval owner d') (fun _ t => Stores h t owner
      (.dict { d' with version := d'.version + 1, mutationVersion := d'.mutationVersion + 1 }))
      E h := by
  have store {h : Heap} {d d' : Dict} (hs : Sound h) (hd : h.tryGet owner = some (.dict d))
      (sub : ∀ entry ∈ d'.entries, entry ∈ d.entries) : wp (setObject owner (.dict d'))
      (fun _ t => Sound t ∧ Stores h t owner (.dict d')) (fun _ => False) h :=
    wp_mono (wp_and (wp_setObject hs.after hd (.entries sub))
        (wp_setObject_stores (E := fun _ => False) hs.valid hd fun _ ht => ht))
      (fun _ _ ht => ⟨ht.1.1.1, ht.2⟩) fun _ ht => ht.2
  simp only [commitRemoval, wp_bind]
  refine wp_mono (store hs hd sub) ?_ fun _ => False.elim
  rintro _ t₁ ⟨sound₁, stores₁⟩
  refine wp_nextEpoch_eq (fun large => absurd epochs.1 (by omega)) fun _ => ?_
  refine wp_mono (store sound₁ stores₁.stored fun _ => id) ?_ fun _ => False.elim
  rintro _ t₂ ⟨sound₂, stores₂⟩
  refine wp_nextEpoch_eq (fun large => absurd epochs.2 (by omega)) fun _ => ?_
  refine wp_mono (store sound₂ stores₂.stored fun _ => id) ?_ fun _ => False.elim
  rintro _ t ⟨-, stores⟩
  exact (stores₁.trans stores₂).trans stores

/-- What a removal needs of the dictionary it is called on. -/
def Removable (h : Heap) (owner : Value) : Prop :=
  ∀ d, h.tryGet (h.nativeValue owner) = some (.dict d) → d.Rep ∧ d.HasEpochs 1

theorem find_lt [HostLibrary] {m : Key} (rep : d.Rep) (found : d.find m = some i) :
    i < d.entries.length :=
  rep.hashes ▸ (List.getElem?_eq_some_iff.mp (Dict.find_some rep found).2).1

theorem remove_runs (hs : Sound h) (hd : h.tryGet owner = some (.dict d)) (rep : d.Rep)
    (epochs : d.HasEpochs 1) (hi : i < d.entries.length) {E : Heap → Prop} :
    wp (reading (fun _ => d.removeAt i) >>= commitRemoval owner)
      (fun _ t => Stores h t owner (.dict (d.removed i))) E h := by
  rw [wp_bind, wp_reading, Dict.removeAt_eq rep hi]
  have sub : ∀ entry ∈ (d.without i).entries, entry ∈ d.entries :=
    fun _ => List.mem_of_mem_eraseIdx
  exact commitRemoval_spec hs hd sub epochs

theorem dictDelete_spec [HostLibrary] (hs : Sound h) (ready : h.Removable owner) :
    wp (dictDelete owner key) (fun _ t => ∃ d m i,
      h.tryGet (h.nativeValue owner) = some (.dict d) ∧ h.dictKey key = .ok m ∧
      d.find m = some i ∧ Stores h t (h.nativeValue owner) (.dict (d.removed i)))
    (Unchanged h) h := by
  simp only [dictDelete, wp_bind, wp_nativeValue]
  refine wp_reading_intro rfl fun m hm => ?_
  refine wp_expectDict rfl fun d hd => ?_
  obtain ⟨rep, epochs⟩ := ready d hd
  split
  · rw [wp_bind]
    exact wp_reading_intro rfl fun _ _ => rfl
  · next i found =>
    exact wp_mono (remove_runs hs hd rep epochs (find_lt rep found))
      (fun _ t ht => ⟨d, m, i, hd, hm, found, ht⟩) fun _ => id

theorem dictDeleteAt_spec (hs : Sound h) (ready : h.Removable owner) : wp (dictDeleteAt owner i)
    (fun _ t => ∃ d, h.tryGet (h.nativeValue owner) = some (.dict d) ∧ i < d.entries.length ∧
      Stores h t (h.nativeValue owner) (.dict (d.removed i))) (Unchanged h) h := by
  simp only [dictDeleteAt, wp_bind, wp_nativeValue]
  refine wp_expectDict rfl fun d hd => ?_
  obtain ⟨rep, epochs⟩ := ready d hd
  split
  · exact rfl
  · next inside =>
    have hi : i < d.entries.length := by omega
    exact wp_mono (remove_runs hs hd rep epochs hi) (fun _ t ht => ⟨d, hd, hi, ht⟩) fun _ => id

theorem dictClear_spec (hs : Sound h) (ready : h.Removable owner) : wp (dictClear owner)
    (fun _ t => ∃ d, h.tryGet (h.nativeValue owner) = some (.dict d) ∧
      Stores h t (h.nativeValue owner) (.dict d.cleared)) (Unchanged h) h := by
  simp only [dictClear, wp_bind, wp_nativeValue]
  refine wp_expectDict rfl fun d hd => ?_
  let empty : Dict := { d with entries := [], materials := [], hashes := [], index := ∅ }
  have sub : ∀ entry ∈ empty.entries, entry ∈ d.entries := by simp [empty]
  exact wp_mono (commitRemoval_spec hs hd sub (ready d hd).2) (fun _ t ht => ⟨d, hd, ht⟩)
    fun _ => id

/-! ### Merging -/

variable [HostLibrary]

/-- What is left of a merge, once some entries are stored. -/
theorem merge_runs {other : Value} {e : Dict} (done : List (Key × Value × Value))
    {rest : List (Key × Value × Value)}
    (hs : Sound t)
    (stores : Stores h t owner (.dict (d.putAll done))) (hd : h.tryGet owner = some (.dict d))
    (he : h.tryGet other = some (.dict e)) (apart : other ≠ owner)
    (entries : (done ++ rest).map (·.2) = e.entries)
    (keys : ∀ item ∈ rest, h.dictKey item.2.1 = .ok item.1)
    (epochs : (d.putAll done).HasEpochs rest.length) :
    wp ((List.range' done.length rest.length).forM fun i => do
        let .dict d ← getObject other | throw (.panicked "unreachable")
        let some (key, value) := d.entries[i]? | throw (.panicked "index out of bounds")
        dictSet owner key value)
      (fun _ t => Stores h t owner (.dict (d.putAll (done ++ rest)))) (fun _ => False) t := by
  induction rest generalizing done t with
  | nil =>
    rw [List.append_nil]
    exact stores
  | cons item rest ih =>
    obtain ⟨m, key, value⟩ := item
    have there : t.tryGet other = some (.dict e) := (stores.others apart).trans he
    have entry : e.entries[done.length]? = some (key, value) := by simp [← entries]
    obtain ⟨issuedKey, issuedValue⟩ := hs.valid.issued_entry there (List.mem_of_getElem? entry)
    have hm : t.dictKey key = .ok m :=
      ((stores.alike hd rfl rfl).dictKeyAt trivial).trans (keys _ List.mem_cons_self)
    rw [List.length_cons, List.range'_succ]
    show wp (_ >>= fun _ => (List.range' (done.length + 1) rest.length).forM _) _ _ _
    rw [wp_bind, wp_bind, getObject, wp_reading, get_ok there]
    simp only [entry]
    have room : (d.putAll done).HasEpochs 1 := by
      obtain ⟨version, mutationVersion⟩ := epochs
      simp only [List.length_cons] at version mutationVersion
      exact ⟨by omega, by omega⟩
    refine wp_mono (wp_and (dictSet_runs hs stores.stored hm room)
      (dictSet_after hs issuedKey issuedValue)) ?_ fun _ ht => ht.1
    rintro _ t' ⟨stores', sound⟩
    have whole : done ++ (m, key, value) :: rest = done ++ [(m, key, value)] ++ rest := by simp
    rw [whole] at entries ⊢
    have next : d.putAll (done ++ [(m, key, value)]) = (d.putAll done).stored
        ((d.putAll done).find m) (Dict.hashKey m) m key value := by simp [Dict.putAll]
    have loop := ih (done ++ [(m, key, value)]) sound.1 (next ▸ stores.trans stores')
      entries (fun item mem => keys item (List.mem_cons_of_mem _ mem)) (next ▸ epochs.stored)
    rwa [List.length_append, List.length_singleton] at loop

/-- What a merge needs: the keys of the other dictionary, and room in the epochs for all of it. -/
def Mergeable (h : Heap) (owner other : Value) : Prop :=
  ∀ d e, h.tryGet (h.nativeValue owner) = some (.dict d) →
    h.tryGet (h.nativeValue other) = some (.dict e) → h.nativeValue owner ≠ h.nativeValue other →
    (∀ entry ∈ e.entries, ∃ m, h.dictKey entry.1 = .ok m) ∧ d.HasEpochs e.entries.length

omit [HostLibrary] in
theorem exists_items {entries : List (Value × Value)}
    (keys : ∀ entry ∈ entries, ∃ m, h.dictKey entry.1 = .ok m) :
    ∃ items : List (Key × Value × Value), items.map (·.2) = entries ∧
      ∀ item ∈ items, h.dictKey item.2.1 = .ok item.1 := by
  induction entries with
  | nil => exact ⟨[], rfl, by simp⟩
  | cons entry entries ih =>
    obtain ⟨m, hm⟩ := keys entry List.mem_cons_self
    obtain ⟨items, rfl, hitems⟩ := ih fun e he => keys e (List.mem_cons_of_mem _ he)
    refine ⟨(m, entry) :: items, rfl, fun item mem => ?_⟩
    rcases List.mem_cons.mp mem with rfl | mem
    · exact hm
    · exact hitems item mem

/-- A merge stores the entries of the other dictionary one after the other. -/
theorem dictMerge_spec {other : Value} (hs : Sound h)
    (hd : h.tryGet (h.nativeValue owner) = some (.dict d))
    (ready : h.Mergeable owner other) : wp (dictMerge owner other)
    (fun _ t => Unchanged h t ∧ h.nativeValue owner = h.nativeValue other ∨ ∃ e items,
      h.tryGet (h.nativeValue other) = some (.dict e) ∧ items.map (·.2) = e.entries ∧
      h.nativeValue owner ≠ h.nativeValue other ∧
      (∀ item ∈ items, h.dictKey item.2.1 = .ok item.1) ∧
      Stores h t (h.nativeValue owner) (.dict (d.putAll items))) (Unchanged h) h := by
  simp only [dictMerge, wp_bind, wp_nativeValue]
  refine wp_getObject rfl fun o ho => ?_
  split
  · next e =>
    split
    · next same => exact .inl ⟨rfl, same⟩
    · next apart =>
      obtain ⟨keys, epochs⟩ := ready d e hd ho apart
      obtain ⟨items, entries, keys⟩ := exists_items keys
      have length : e.entries.length = items.length := by rw [← entries, List.length_map]
      rw [List.range_eq_range', length]
      have runs := merge_runs [] hs (.refl hd) hd ho (Ne.symm apart) entries keys
        (length ▸ epochs)
      exact wp_mono runs (fun _ t ht => .inr ⟨e, items, ho, entries, apart, keys, ht⟩)
        fun _ => False.elim
  · exact rfl

/-- Into a set only an empty dictionary is merged. -/
theorem dictMerge_set {other : Value} (hs : Sound h)
    (hd : h.tryGet (h.nativeValue owner) = some (.set d)) :
    wp (dictMerge owner other) (fun _ t => Unchanged h t ∧
      (h.nativeValue owner = h.nativeValue other ∨
        ∃ e, h.tryGet (h.nativeValue other) = some (.dict e) ∧ e.entries = []))
      (Unchanged h) h := by
  simp only [dictMerge, wp_bind, wp_nativeValue]
  refine wp_getObject rfl fun o ho => ?_
  split
  · next e =>
    split
    · next same => exact ⟨rfl, .inl same⟩
    · cases entries : e.entries with
      | nil => exact ⟨rfl, .inr ⟨e, ho, entries⟩⟩
      | cons entry rest =>
        rw [List.length_cons, List.range_eq_range', List.range'_succ]
        show wp (_ >>= fun _ => (List.range' 1 rest.length).forM _) _ _ _
        rw [wp_bind, wp_bind, getObject, wp_reading, get_ok ho]
        simp only [entries, List.getElem?_cons_zero]
        refine wp_mono (dictSet_spec hs) ?_ fun _ => id
        rintro _ t ⟨m, d', -, hd', -⟩
        rw [native_of_tryGet hd rfl, hd] at hd'
        cases hd'
  · exact rfl

end Heap

end Tonic
