import Tonic.ClassEdits
import Tonic.Iterators
import Tonic.Library.Cursor

/-!
## What happens to a container

A mutation of a container changes one object. A list may become any list; a dictionary or a set
moves its version on exactly when its keys change; the dictionary of a class loses one name or
gets one at its end.
-/

namespace Tonic

open Effect Heap

namespace Class

/-- The value under a key of the class dictionary. -/
def member (c : Class) : ClassDictionaryKey → Option Value
  | .string name => (c.attributes.find? (·.1 = name)).map (·.2)
  | .other key => (c.extraAttributes.find? (·.1 = key)).map (·.2)

theorem dictionaryEntry_eq (c : Class) (i : Nat) :
    c.dictionaryEntry i = c.dictionaryOrder[i]?.bind fun key => (c.member key).map (key, ·) := by
  unfold dictionaryEntry
  cases c.dictionaryOrder[i]? with
  | none => rfl
  | some key =>
    cases key with
    | string name => cases found : c.attributes.find? (·.1 = name) <;> simp [member, found]
    | other k => cases found : c.extraAttributes.find? (·.1 = k) <;> simp [member, found]

/-- Every key of the dictionary has a value. -/
def Filed (c : Class) : Prop := ∀ key ∈ c.dictionaryOrder, (c.member key).isSome = true

theorem Filed.entry {c : Class} (filed : c.Filed) (i : Nat) :
    (c.dictionaryEntry i).map (·.1) = c.dictionaryOrder[i]? := by
  rw [dictionaryEntry_eq]
  cases found : c.dictionaryOrder[i]? with
  | none => rfl
  | some key =>
    obtain ⟨value, stored⟩ := Option.isSome_iff_exists.mp (filed key (List.mem_of_getElem? found))
    simp [stored]

/-- The same dictionary, whatever else differs. -/
structure SameDictionary (c c' : Class) : Prop where
  order : c'.dictionaryOrder = c.dictionaryOrder
  attributes : c'.attributes = c.attributes
  extra : c'.extraAttributes = c.extraAttributes

theorem SameDictionary.filed {c c' : Class} (same : c.SameDictionary c') (filed : c.Filed) :
    c'.Filed := by
  intro key mem
  rw [same.order] at mem
  have found := filed key mem
  cases key <;> simpa [member, same.attributes, same.extra] using found

theorem find_setMember {n name : String} {value : Value} {members : List (String × Value)} :
    ((setMember name value members).find? (·.1 = n)).isSome =
      (decide (n = name) || (members.find? (·.1 = n)).isSome) := by
  induction members with
  | nil => by_cases same : n = name <;> simp [setMember, same, Ne.symm]
  | cons m members ih =>
    obtain ⟨k, v⟩ := m
    unfold setMember
    split
    · next same =>
      subst same
      by_cases eq : k = n <;> simp [eq, Ne.symm]
    · next differ =>
      simp only [List.find?_cons]
      by_cases eq : k = n
      · simp [eq]
      · simpa [eq] using ih

theorem find_eraseP {n name : String} (differ : n ≠ name) {members : List (String × Value)} :
    (members.eraseP (·.1 = name)).find? (·.1 = n) = members.find? (·.1 = n) := by
  induction members with
  | nil => rfl
  | cons m members ih =>
    by_cases same : m.1 = name
    · simp [same, differ.symm]
    · rw [List.eraseP_cons_of_neg (by simpa using same), List.find?_cons, List.find?_cons, ih]

/-- The class dictionary after an attribute is set, and after one is deleted. -/
def withMember (c : Class) (name : String) (value : Value) : Class :=
  { c with
    attributes := setMember name value c.attributes
    dictionaryOrder :=
      if c.attributes.any (·.1 = name) then c.dictionaryOrder
      else c.dictionaryOrder ++ [.string name] }

def withoutMember (c : Class) (name : String) : Class :=
  { c with
    attributes := c.attributes.eraseP (·.1 = name)
    dictionaryOrder := c.dictionaryOrder.filter (· ≠ .string name) }

variable {c : Class} {name : String} {value : Value}

theorem Filed.withMember (filed : c.Filed) : (c.withMember name value).Filed := by
  intro key mem
  have old : key ∈ c.dictionaryOrder ∨ key = .string name := by
    simp only [Class.withMember] at mem
    split at mem
    · exact .inl mem
    · simpa using mem
  cases key with
  | string n =>
    simp only [member, Class.withMember, Option.isSome_map, find_setMember, Bool.or_eq_true,
      decide_eq_true_eq]
    rcases old with old | new
    · right
      simpa [member] using filed _ old
    · left
      cases new
      rfl
  | other k =>
    rcases old with old | new
    · exact filed _ old
    · cases new

theorem Filed.withoutMember (filed : c.Filed) : (c.withoutMember name).Filed := by
  intro key mem
  obtain ⟨old, differ⟩ := List.mem_filter.mp mem
  have found := filed key old
  cases key with
  | string n =>
    have apart : n ≠ name := fun same => by simp [same] at differ
    simpa [member, Class.withoutMember, find_eraseP apart] using found
  | other k => exact found

theorem Filed.edit_withMember (filed : c.Filed) :
    Cursor.Edit c.dictionaryOrder (c.withMember name value).dictionaryOrder := by
  simp only [Class.withMember]
  split
  · exact .none _
  · next absent =>
    refine .insert fun mem => absent ?_
    have found := filed _ mem
    simp only [member, Option.isSome_map, List.find?_isSome] at found
    simpa using found

theorem edit_withoutMember : Cursor.Edit c.dictionaryOrder (c.withoutMember name).dictionaryOrder :=
  .delete _ _

end Class

/-- A dictionary that got some keys, each under a new version, or lost some at once. -/
inductive Dict.Turns (d : Dict) : Dict → Prop where
  | grows {d' : Dict} (extra : List Value) (keys : d'.keys = d.keys ++ extra)
    (version : d'.version = d.version + extra.length) : Turns d d'
  | shrinks {d' : Dict} (fewer : d'.keys.length < d.keys.length)
    (version : d'.version = d.version + 1) : Turns d d'

/-- What a mutation makes of a container. -/
inductive Object.Turns : Object → Object → Prop where
  | same (o : Object) : Turns o o
  | list (values values' : List Value) : Turns (.list values) (.list values')
  | hashed {o : Object} {d d' : Dict} {wrap : Dict → Object} (view : o.hashed = some (d, wrap))
    (turns : d.Turns d') (rep : d.Rep → d'.Rep) : Turns o (wrap d')
  | cls {c c' : Class} (edit : c.Filed → Cursor.Edit c.dictionaryOrder c'.dictionaryOrder)
    (filed : c.Filed → c'.Filed) : Turns (.classObject c) (.classObject c')

theorem Object.Turns.dict {d d' : Dict} (turns : d.Turns d') (rep : d.Rep → d'.Rep) :
    Object.Turns (.dict d) (.dict d') :=
  @Object.Turns.hashed _ _ _ .dict rfl turns rep

/-! ### The operations -/

namespace Heap

variable {h t u : Heap} {source owner : Value} {o o' : Object}

/-- From one heap to another, one container turned, and no object but a class changed besides. -/
structure Turned (h t : Heap) (source : Value) : Prop where
  others : ∀ {v x}, v ≠ source → h.tryGet v = some x → (∀ c, x ≠ .classObject c) →
    t.tryGet v = some x
  turns : ∀ {o}, h.tryGet source = some o → ∃ o', t.tryGet source = some o' ∧ o.Turns o'

theorem Turned.unchanged (same : Unchanged h t) : Turned h t source where
  others _ hx _ := (congrFun same _).trans hx
  turns {o} ho := ⟨o, (congrFun same _).trans ho, .same o⟩

theorem Turned.stores (ho : h.tryGet source = some o) (stores : Stores h t source o')
    (turns : o.Turns o') : Turned h t source where
  others ne hx _ := (stores.others ne).trans hx
  turns ho' := by
    rw [ho] at ho'
    cases ho'
    exact ⟨o', stores.stored, turns⟩

/-- An allocation comes before it. -/
theorem Turned.alloc {key : Value} (hv : h.Valid) (new : ¬ h.Issued key)
    (stores : Stores h t key o) (turned : Turned t u source) : Turned h u source := by
  have same {v : Value} {x : Object} (hx : h.tryGet v = some x) : t.tryGet v = some x := by
    refine (stores.others fun eq => ?_).trans hx
    rw [eq, tryGet_unissued hv new] at hx
    cases hx
  exact ⟨fun ne hx plain => turned.others ne (same hx) plain, fun ho => turned.turns (same ho)⟩

/-! #### Lists -/

/-- A payload stored behind barriers. -/
theorem wp_setObject_turned (same : Unchanged h t) (ht : t.Valid)
    (ho : h.tryGet source = some o) (turns : o.Turns o') {E : Heap → Prop} :
    wp (setObject source o') (fun _ u => Turned h u source) E t :=
  wp_setObject_stores ht ((congrFun same source).trans ho)
    fun _ stores => .stores ho (stores.of_same same) turns

theorem appendList_turned {value : Value} (hs : Sound h) (owned : h.nativeValue owner = source) :
    wp (appendList owner value) (fun _ t => Turned h t source) (Turned h · source) h := by
  simp only [appendList, wp_bind, wp_nativeValue, wp_writeBarrier, owned]
  have same : Unchanged h (h.writeBarrier source value) := tryGet_barrier ..
  refine wp_getObject (.unchanged same) fun o ho => ?_
  split
  · next values =>
    exact wp_setObject_turned same (hs.writeBarrier _ _).1.valid
      ((congrFun same source).symm.trans ho) (.list ..)
  · exact .unchanged same

theorem replaceList_turned {values : List Value} (hs : Sound h)
    (owned : h.nativeValue owner = source) :
    wp (replaceList owner values) (fun _ t => Turned h t source) (Turned h · source) h := by
  simp only [replaceList, wp_bind, wp_nativeValue, owned]
  refine wp_getObject (.unchanged rfl) fun o ho => ?_
  split
  · next old =>
    simp only [wp_bind, wp_writeBarriers]
    have same : Unchanged h (h.writeBarriers source values) := funext fun v => by simp
    exact wp_setObject_turned same hs.writeBarriers.1.valid ho (.list ..)
  · exact .unchanged rfl

/-! #### Dictionaries and sets -/

theorem turns_stored {d : Dict} {found : Option Nat} {hash : Nat} {m : Key} {key value : Value} :
    d.Turns (d.stored found hash m key value) := by
  cases found with
  | some i =>
    refine .grows [] ?_ rfl
    rw [List.append_nil]
    exact Dict.keys_replaceValue d i value
  | none => exact .grows [key] (by simp [Dict.keys, Dict.stored, Dict.append]) rfl

theorem turned_stored {d : Dict} {wrap : Dict → Object} {found : Option Nat} {hash : Nat} {m : Key}
    {key value : Value} (ho : h.tryGet source = some o) (view : o.hashed = some (d, wrap))
    (stores : Stores h t source (wrap (d.stored found hash m key value))) : Turned h t source :=
  .stores ho stores (.hashed view turns_stored fun rep => rep.stored found hash m key value)

theorem commitRemoval_turned {d d' : Dict} (hs : Sound h) (hd : h.tryGet source = some (.dict d))
    (sub : ∀ entry ∈ d'.entries, entry ∈ d.entries) (rep : d'.Rep)
    (fewer : d'.keys.length < d.keys.length) (version : d'.version = d.version)
    (room : d.version + 1 < 2 ^ 64) :
    wp (commitRemoval source d') (fun _ t => Turned h t source) (Turned h · source) h := by
  have turned {t : Heap} {n m : Nat} (moved : n = d.version + 1)
      (stores : Stores h t source (.dict { d' with version := n, mutationVersion := m })) :
      Turned h t source :=
    .stores hd stores (.dict (.shrinks fewer moved) fun _ => rep.epochs _ _)
  have store {h t : Heap} {d d' : Dict} (base : Stores h t source (.dict d)) (hs : Sound t)
      (sub : ∀ entry ∈ d'.entries, entry ∈ d.entries) : wp (setObject source (.dict d'))
      (fun _ u => Sound u ∧ Stores h u source (.dict d')) (fun _ => False) t :=
    wp_mono (wp_and (wp_setObject hs.after base.stored (.entries sub))
        (wp_setObject_stores (E := fun _ => False) hs.valid base.stored fun _ ht => ht))
      (fun _ _ ht => ⟨ht.1.1.1, base.trans ht.2⟩) fun _ ht => ht.2
  simp only [commitRemoval, wp_bind]
  refine wp_mono (store (.refl hd) hs sub) ?_ fun _ => False.elim
  rintro _ t₁ ⟨sound₁, stores₁⟩
  refine wp_nextEpoch_eq (fun large => absurd room (by omega)) fun _ => ?_
  refine wp_mono (store stores₁ sound₁ fun _ => id) ?_ fun _ => False.elim
  rintro _ t₂ ⟨sound₂, stores₂⟩
  have moved : d'.version + 1 = d.version + 1 := by rw [version]
  refine wp_nextEpoch_eq (fun _ => turned moved stores₂) fun _ => ?_
  refine wp_mono (store stores₂ sound₂ fun _ => id) ?_ fun _ => False.elim
  rintro _ t ⟨-, stores⟩
  exact turned moved stores

theorem removal_turned {d : Dict} {i : Nat} (hs : Sound h)
    (hd : h.tryGet source = some (.dict d)) (rep : d.Rep) (inside : i < d.entries.length)
    (room : d.version + 1 < 2 ^ 64) :
    wp (reading (fun _ => d.removeAt i) >>= commitRemoval source)
      (fun _ t => Turned h t source) (Turned h · source) h := by
  rw [wp_bind, wp_reading, Dict.removeAt_eq rep inside]
  refine commitRemoval_turned hs hd (fun _ => List.mem_of_mem_eraseIdx) (rep.without inside) ?_ rfl
    room
  simp only [Dict.keys, Dict.without, List.length_map, List.length_eraseIdx, if_pos inside]
  omega

section

variable [HostLibrary] {key value : Value}

theorem dictSet_turned (hs : Sound h) (owned : h.nativeValue owner = source) :
    wp (dictSet owner key value) (fun _ t => Turned h t source) (Turned h · source) h := by
  refine wp_mono (dictSet_spec hs) ?_ fun _ => .unchanged
  rintro _ t ⟨m, d, -, hd, stores⟩
  rw [owned] at hd stores
  exact @turned_stored _ _ _ _ _ .dict _ _ _ _ _ hd rfl stores

theorem dictDelete_turned (hs : Sound h) (owned : h.nativeValue owner = source)
    (ready : ∀ d, h.tryGet source = some (.dict d) → d.Rep ∧ d.version + 1 < 2 ^ 64) :
    wp (dictDelete owner key) (fun _ t => Turned h t source) (Turned h · source) h := by
  simp only [dictDelete, wp_bind, wp_nativeValue, owned]
  refine wp_reading_intro (.unchanged rfl) fun m hm => ?_
  refine wp_expectDict (.unchanged rfl) fun d hd => ?_
  obtain ⟨rep, room⟩ := ready d hd
  split
  · rw [wp_bind]
    exact wp_reading_intro (.unchanged rfl) fun _ _ => .unchanged rfl
  · next i found => exact removal_turned hs hd rep (find_lt rep found) room

end

theorem dictDeleteAt_turned {i : Nat} (hs : Sound h) (owned : h.nativeValue owner = source)
    (ready : ∀ d, h.tryGet source = some (.dict d) → d.Rep ∧ d.version + 1 < 2 ^ 64) :
    wp (dictDeleteAt owner i) (fun _ t => Turned h t source) (Turned h · source) h := by
  simp only [dictDeleteAt, wp_bind, wp_nativeValue, owned]
  refine wp_expectDict (.unchanged rfl) fun d hd => ?_
  obtain ⟨rep, room⟩ := ready d hd
  split
  · exact .unchanged rfl
  · next inside => exact removal_turned hs hd rep (by omega) room

theorem dictClear_turned (hs : Sound h) (owned : h.nativeValue owner = source)
    (ready : ∀ d, h.tryGet source = some (.dict d) → d.entries ≠ [] ∧ d.version + 1 < 2 ^ 64) :
    wp (dictClear owner) (fun _ t => Turned h t source) (Turned h · source) h := by
  simp only [dictClear, wp_bind, wp_nativeValue, owned]
  refine wp_expectDict (.unchanged rfl) fun d hd => ?_
  obtain ⟨some', room⟩ := ready d hd
  refine commitRemoval_turned hs hd (by simp) ?_ ?_ rfl room
  · exact ⟨rfl, rfl, fun _ => rfl, fun _ eq => by cases eq⟩
  · simpa [Dict.keys, List.length_pos_iff] using some'

theorem hashSetHashed_turned [HostLibrary] {key value : Value} {hash : Int} {found : Option Nat}
    (hs : Sound h) (owned : h.nativeValue owner = source) :
    wp (hashSetHashed owner key value hash found) (fun _ t => Turned h t source)
      (Turned h · source) h := by
  refine wp_mono (hashSetHashed_spec hs) ?_ fun _ => .unchanged
  rintro _ t ⟨m, o, d, wrap, -, ho, view, -, stores⟩
  rw [owned] at ho stores
  exact turned_stored ho view stores

theorem dictSetStr_turned [HostLibrary] {name : String} {value : Value} (hs : Sound h)
    (ho : h.tryGet source = some o) (owned : h.nativeValue owner = source) :
    wp (dictSetStr owner name value) (fun _ t => Turned h t source) (Turned h · source) h := by
  rw [dictSetStr, wp_bind]
  refine wp_mono (wp_alloc_stores hs (by simp [Object.trace])) ?_ ?_
  · rintro key t ⟨after, stores, new, -⟩
    have same : t.tryGet owner = h.tryGet owner := stores.others fun eq => by
      have absent := tryGet_unissued hs.valid new
      have native : h.nativeValue owner = owner := by simp [nativeValue, eq, absent]
      rw [← owned, native, eq, absent] at ho
      cases ho
    have owned' : t.nativeValue owner = source := by
      rw [← owned]
      simp [nativeValue, same]
    exact wp_mono (dictSet_turned after.1 owned')
      (fun _ _ => .alloc hs.valid new stores) fun _ => .alloc hs.valid new stores
  · rintro t ⟨-, rfl⟩
    exact .unchanged rfl

/-- A dictionary that has only grown. -/
structure Growing (h t : Heap) (source : Value) (d : Dict) : Prop where
  sound : Sound t
  grown : ∃ d' extra, t.tryGet source = some (.dict d') ∧ d'.keys = d.keys ++ extra ∧
    d'.version = d.version + extra.length ∧ (d.Rep → d'.Rep)
  others : ∀ v, v ≠ source → t.tryGet v = h.tryGet v

theorem Growing.turned {d : Dict} (growing : Growing h t source d)
    (hd : h.tryGet source = some (.dict d)) : Turned h t source := by
  obtain ⟨d', extra, hd', keys, version, rep⟩ := growing.grown
  refine ⟨fun ne hx _ => (growing.others _ ne).trans hx, fun ho => ?_⟩
  rw [hd] at ho
  cases ho
  exact ⟨_, hd', .dict (.grows extra keys version) rep⟩

theorem Growing.dictSet [HostLibrary] {d : Dict} {key value : Value}
    (growing : Growing h t source d) (issuedKey : t.Issued key) (issuedValue : t.Issued value) :
    wp (dictSet source key value) (fun _ u => Growing h u source d)
      (Growing h · source d) t := by
  obtain ⟨d₁, extra, hd₁, keys, version, rep⟩ := growing.grown
  refine wp_mono (wp_and (dictSet_spec growing.sound)
    (dictSet_after growing.sound issuedKey issuedValue)) ?_ ?_
  · rintro _ u ⟨⟨m, d₂, -, hd₂, stores⟩, after⟩
    rw [native_of_tryGet hd₁ rfl] at hd₂ stores
    rw [hd₁] at hd₂
    cases hd₂
    refine ⟨after.1, ?_, fun v ne => (stores.others ne).trans (growing.others v ne)⟩
    cases found : d₁.find m with
    | some i =>
      rw [found] at stores
      refine ⟨_, extra, stores.stored, ?_, version, fun h => (rep h).stored ..⟩
      exact (Dict.keys_replaceValue d₁ i value).trans keys
    | none =>
      rw [found] at stores
      refine ⟨_, extra ++ [key], stores.stored, ?_, ?_, fun h => (rep h).stored ..⟩
      · rw [← List.append_assoc, ← keys]
        simp [Dict.keys, Dict.stored, Dict.append]
      · rw [List.length_append, ← Nat.add_assoc, ← version]
        rfl
  · rintro u ⟨same, after⟩
    refine ⟨after.1, ⟨d₁, extra, (congrFun same _).trans hd₁, keys, version, rep⟩, fun v ne => ?_⟩
    exact (congrFun same v).trans (growing.others v ne)

/-- A merge keeps what each of its stores keeps. -/
theorem mergeLoop_keeps [HostLibrary] {other : Value} {positions : List Nat} {P : Heap → Prop}
    (sound : ∀ t, P t → Sound t)
    (store : ∀ t key value, P t → t.Issued key → t.Issued value →
      wp (dictSet source key value) (fun _ => P) P t) (start : P h) :
    wp (positions.forM fun i => do
      let .dict d ← getObject other | throw (.panicked "unreachable")
      let some (key, value) := d.entries[i]? | throw (.panicked "index out of bounds")
      dictSet source key value) (fun _ => P) P h := by
  refine wp_forM (fun i mem t holds => ?_) start
  rw [wp_bind]
  refine wp_getObject holds fun o ho => ?_
  split
  · next e =>
    split
    · next key value entry =>
      have issued := (sound t holds).valid.issued_entry ho (List.mem_of_getElem? entry)
      exact store t key value holds issued.1 issued.2
    · exact holds
  · exact holds

theorem dictMerge_turned [HostLibrary] {other : Value} (hs : Sound h)
    (ho : h.tryGet source = some o) (direct : isDirect o = true) (owned : h.nativeValue owner = source) :
    wp (dictMerge owner other) (fun _ t => Turned h t source) (Turned h · source) h := by
  simp only [dictMerge, wp_bind, wp_nativeValue, owned]
  refine wp_getObject (.unchanged rfl) fun o' ho' => ?_
  split
  · next e =>
    split
    · exact .unchanged rfl
    · by_cases dict : ∃ d, o = .dict d
      · obtain ⟨d, rfl⟩ := dict
        have start : Growing h h source d := ⟨hs, ⟨d, [], ho, by simp, rfl, id⟩, fun _ _ => rfl⟩
        refine wp_mono (mergeLoop_keeps (P := (Growing h · source d)) (fun _ => Growing.sound)
          (fun t key value => Growing.dictSet) start) (fun _ t growing => ?_) fun t growing => ?_
        · exact growing.turned ho
        · exact growing.turned ho
      · -- a set cannot be merged into: the first store fails
        have store (t : Heap) (key value : Value) (kept : Sound t ∧ Unchanged h t)
            (issued : t.Issued key) (issued' : t.Issued value) :
            wp (dictSet source key value) (fun _ t => Sound t ∧ Unchanged h t)
              (fun t => Sound t ∧ Unchanged h t) t := by
          refine wp_mono (wp_and (dictSet_spec kept.1) (dictSet_after kept.1 issued issued')) ?_
            fun u failed => ⟨failed.2.1, Eq.trans failed.1 kept.2⟩
          rintro _ u ⟨⟨m, d, -, hd, -⟩, -⟩
          have plain : t.tryGet source = some o := (congrFun kept.2 source).trans ho
          rw [native_of_tryGet plain direct, plain] at hd
          exact absurd ⟨d, Option.some.inj hd⟩ dict
        refine wp_mono (mergeLoop_keeps (P := fun t => Sound t ∧ Unchanged h t)
          (fun _ kept => kept.1) store ⟨hs, rfl⟩) (fun _ t kept => ?_) fun t kept => ?_
        · exact .unchanged kept.2
        · exact .unchanged kept.2
  · exact .unchanged rfl

/-! #### Items -/

/-- What is iterated by position, or through a class mapping; a range iterator has no container but
itself. -/
def isIterated : Object → Bool
  | .tuple _ | .list _ | .str _ | .bytes _ | .dict _ | .set _ | .classObject _
  | .rangeIterator _ _ _ => true
  | _ => false

theorem isDirect_of_iterated (iterated : isIterated o = true) : isDirect o = true := by
  cases o <;> first | rfl | cases iterated

theorem setItem_turned [HostLibrary] {key value : Value} (hs : Sound h)
    (ho : h.tryGet source = some o) (iterated : isIterated o = true)
    (owned : h.nativeValue owner = source) :
    wp (setItem owner key value) (fun _ t => Turned h t source) (Turned h · source) h := by
  simp only [setItem, wp_bind, wp_nativeValue, owned]
  refine wp_getObject (.unchanged rfl) fun o' ho' => ?_
  rw [ho] at ho'
  cases ho'
  split
  · exact dictSet_turned hs (native_of_tryGet ho rfl)
  · exact .unchanged rfl
  · cases iterated
  · rw [wp_bind]
    refine wp_reading_intro (.unchanged rfl) fun raw _ => ?_
    split
    · exact .unchanged rfl
    · split
      · next values =>
        rw [wp_bind]
        refine wp_reading_intro (.unchanged rfl) fun i _ => ?_
        rw [wp_bind, wp_writeBarrier]
        exact wp_setObject_turned (tryGet_barrier ..) (hs.writeBarrier _ _).1.valid ho (.list ..)
      · exact .unchanged rfl

theorem deleteItem_turned [HostLibrary] {key : Value} (hs : Sound h)
    (ho : h.tryGet source = some o) (owned : h.nativeValue owner = source)
    (ready : ∀ d, h.tryGet source = some (.dict d) → d.Rep ∧ d.version + 1 < 2 ^ 64) :
    wp (deleteItem owner key) (fun _ t => Turned h t source) (Turned h · source) h := by
  simp only [deleteItem, wp_bind, wp_nativeValue, owned]
  refine wp_getObject (.unchanged rfl) fun o' ho' => ?_
  rw [ho] at ho'
  cases ho'
  split
  · exact dictDelete_turned hs (native_of_tryGet ho rfl) ready
  · exact .unchanged rfl
  · rw [wp_bind]
    refine wp_reading_intro (.unchanged rfl) fun raw _ => ?_
    split
    · exact .unchanged rfl
    · split
      · next values =>
        rw [wp_bind]
        refine wp_reading_intro (.unchanged rfl) fun i _ => ?_
        exact wp_setObject_turned rfl hs.valid ho (.list ..)
      · exact .unchanged rfl

/-! #### Class attributes -/

/-- Whatever is in one heap is in the other, with the same dictionary if it is a class. -/
def Rereads (h t : Heap) : Prop := ∀ {v o}, h.tryGet v = some o → t.tryGet v = some o ∨
  ∃ c c', o = .classObject c ∧ t.tryGet v = some (.classObject c') ∧ c.SameDictionary c'

theorem Rereads.refl (h : Heap) : Rereads h h := .inl

theorem Rereads.bump {cls : Value} {c : Class} {n : Nat} (rereads : Rereads h t)
    (hc : t.tryGet cls = some (.classObject c))
    (stores : Stores t u cls (.classObject { c with version := n })) : Rereads h u := by
  intro v o ho
  by_cases same : v = cls
  · subst same
    right
    rcases rereads ho with kept | ⟨c₁, c₂, rfl, found, dictionary⟩
    · rw [hc] at kept
      cases kept
      exact ⟨c, _, rfl, stores.stored, rfl, rfl, rfl⟩
    · rw [hc] at found
      cases found
      exact ⟨c₁, _, rfl, stores.stored, dictionary.order, dictionary.attributes, dictionary.extra⟩
  · rw [stores.others same]
    exact rereads ho

theorem bumpClassVersion_rereads {cls : Value} (distinct : t.Distinct) (rereads : Rereads h t) :
    wp (bumpClassVersion cls) (fun _ u => u.Distinct ∧ Rereads h u)
      (fun u => u.Distinct ∧ Rereads h u) t := by
  unfold bumpClassVersion
  rw [wp_bind]
  refine wp_getObject ⟨distinct, rereads⟩ fun o ho => ?_
  split
  · next c =>
    exact wp_mono (wp_setObject_replaced distinct ho)
      (fun _ u stored => ⟨stored.distinct, rereads.bump ho stored.get⟩) fun _ => False.elim
  · exact ⟨distinct, rereads⟩

theorem applyClassInvalidation_rereads {dependents : List Value} (distinct : h.Distinct) :
    wp (applyClassInvalidation owner dependents) (fun _ => Rereads h) (Rereads h) h := by
  simp only [applyClassInvalidation, wp_bind]
  refine wp_mono (bumpClassVersion_rereads distinct (Rereads.refl h)) (fun _ t first => ?_)
    fun _ => And.right
  have loop : wp (dependents.forM bumpClassVersion) (fun _ u => u.Distinct ∧ Rereads h u)
      (fun u => u.Distinct ∧ Rereads h u) t :=
    wp_forM (fun _ _ u kept => bumpClassVersion_rereads kept.1 kept.2) first
  exact wp_mono loop (fun _ _ => And.right) fun _ => And.right

/-- A class that is stored and then gets new versions. -/
theorem Turned.reread {c c' : Class} (hc : h.tryGet source = some (.classObject c))
    (stores : Stores h t source (.classObject c'))
    (edit : c.Filed → Cursor.Edit c.dictionaryOrder c'.dictionaryOrder)
    (filed : c.Filed → c'.Filed) (rereads : Rereads t u) : Turned h u source where
  others ne hx plain := by
    rcases rereads ((stores.others ne).trans hx) with kept | ⟨c₁, -, rfl, -⟩
    · exact kept
    · exact absurd rfl (plain c₁)
  turns ho := by
    rw [hc] at ho
    cases ho
    rcases rereads stores.stored with kept | ⟨c₁, c₂, eq, found, same⟩
    · exact ⟨_, kept, .cls edit filed⟩
    · cases eq
      refine ⟨_, found, .cls (fun start => ?_) fun start => same.filed (filed start)⟩
      rw [same.order]
      exact edit start

/-- A new dictionary for a class, and then new versions. -/
theorem wp_storeClass_turned {c : Class} (c' : Class) {dependents : List Value} (same : Unchanged h t)
    (distinct : t.Distinct) (hc : h.tryGet source = some (.classObject c))
    (edit : c.Filed → Cursor.Edit c.dictionaryOrder c'.dictionaryOrder)
    (filed : c.Filed → c'.Filed) :
    wp (do setObject source (.classObject c'); applyClassInvalidation source dependents : HeapM Unit)
      (fun _ u => Turned h u source) (Turned h · source) t := by
  rw [wp_bind]
  refine wp_mono (wp_setObject_replaced distinct ((congrFun same source).trans hc))
    (fun _ u stored => ?_) fun _ => False.elim
  have stores : Stores h u source (.classObject c') := Stores.of_same same stored.get
  refine wp_mono (applyClassInvalidation_rereads stored.distinct) (fun _ w rereads => ?_)
    fun w rereads => ?_
  · exact .reread hc stores edit filed rereads
  · exact .reread hc stores edit filed rereads

theorem setClassAttr_turned {name : String} {value : Value} (hs : Sound h)
    (owned : h.nativeValue owner = source) :
    wp (setClassAttr owner name value) (fun _ t => Turned h t source) (Turned h · source) h := by
  simp only [setClassAttr, wp_bind]
  refine wp_reading_intro (.unchanged rfl) fun _ _ => ?_
  split
  · exact .unchanged rfl
  · rw [wp_bind]
    refine wp_getObject (.unchanged rfl) fun o ho => ?_
    split
    · next c =>
      obtain rfl : owner = source := (native_of_tryGet ho rfl).symm.trans owned
      split
      · exact .unchanged rfl
      · simp only [wp_bind, wp_writeBarrier]
        have same : Unchanged h (h.writeBarrier owner value) := tryGet_barrier ..
        refine wp_reading_intro (.unchanged same) fun dependents _ =>
          wp_getObject (.unchanged same) fun o ho' => ?_
        rw [show (h.writeBarrier owner value).tryGet = h.tryGet from same, ho] at ho'
        cases ho'
        exact wp_storeClass_turned (c.withMember name value) same
          (distinct_writeBarrier hs.valid.distinct) ho Class.Filed.edit_withMember
          Class.Filed.withMember
    · exact .unchanged rfl

theorem deleteClassAttr_turned {name : String} (hs : Sound h)
    (owned : h.nativeValue owner = source) :
    wp (deleteClassAttr owner name) (fun _ t => Turned h t source) (Turned h · source) h := by
  simp only [deleteClassAttr, wp_bind]
  refine wp_getObject (.unchanged rfl) fun o ho => ?_
  split
  · next c =>
    obtain rfl : owner = source := (native_of_tryGet ho rfl).symm.trans owned
    split
    · exact .unchanged rfl
    · split
      · exact .unchanged rfl
      · rw [wp_bind]
        refine wp_reading_intro (.unchanged rfl) fun dependents _ => ?_
        exact wp_storeClass_turned (c.withoutMember name) rfl hs.valid.distinct ho
          (fun _ => Class.edit_withoutMember) Class.Filed.withoutMember
  · exact .unchanged rfl

/-! ### One call of `next` -/

variable {it : Value} {n : Nat}

theorem trace_advanced (o : Object) : o.advanced.trace = o.trace := by
  cases o <;> rfl

theorem advance_ends (hs : Sound h) (ho : h.tryGet it = some o) : ends (advance it)
    (fun _ t => After h t ∧ Stores h t it o.advanced ∧ t.room = h.room) (fun _ _ => False) h := by
  have room : wp (setObject it o.advanced) (fun _ t => t.room = h.room) (fun _ => False) h := by
    obtain ⟨e, he, -⟩ := tryGet_eq_some.mp ho
    obtain ⟨l, hl, -⟩ := entry_eq_some.mp he
    simp only [setObject, wp_bind, wp_get, hl, wp_set]
    rfl
  have ancestors : o.advanced.ancestors = o.ancestors := by cases o <;> rfl
  have stores : wp (setObject it o.advanced) (fun _ t => Stores h t it o.advanced)
      (fun _ => False) h := wp_setObject_stores hs.valid ho fun _ => id
  have after : wp (setObject it o.advanced) (fun _ => After h) (After h) h :=
    wp_setObject_last hs.after ho
      (.shrink (fun v hv => trace_advanced o ▸ hv) fun v hv => ancestors ▸ hv)
  have stored := wp_and after (wp_and stores room)
  refine ends_of_wp (E := fun _ => False) ?_ fun _ _ _ => id
  unfold advance
  rw [wp_bind, getObject, wp_reading, get_ok ho]
  exact wp_mono stored (fun _ _ => id) fun _ failed => failed.2.2

theorem ends_next_hashed {d : Dict} {wrap : Dict → Object} {version : Nat} (hs : Sound h)
    (hit : h.tryGet it = some (.dictIterator source n version))
    (ho : h.tryGet source = some o) (view : o.hashed = some (d, wrap)) :
    ends (iteratorNext it)
      (fun r t => d.version = version ∧ r = d.keys[n]? ∧ After h t ∧
        Stores h t it (.dictIterator source (if r.isSome then n + 1 else n) version))
      (fun f t => t = h ∧ d.version ≠ version ∧
        f = runtimeError "container changed size during iteration") h := by
  unfold iteratorNext
  rw [ends_bind, getObject, ends_reading, get_ok hit]
  simp only [ends_bind]
  rw [getObject, ends_reading, get_ok ho]
  simp only [view]
  split
  · next differ => exact ⟨rfl, differ, rfl⟩
  · next same =>
    have read : d.keys[n]? = (d.entries[n]?).map (·.1) := by simp [Dict.keys]
    rw [read]
    cases entry : d.entries[n]? with
    | none => exact ⟨not_not.mp same, rfl, hs.after, .refl hit⟩
    | some e =>
      simp only [ends_bind]
      exact ends_mono (advance_ends hs hit)
        (fun _ t ht => ⟨not_not.mp same, rfl, ht.1, ht.2.1⟩) fun _ _ => False.elim

/-- What an allocation leaves, for a caller that looks at the error. -/
theorem ends_alloc_stores {o : Object} (hs : Sound h) (ho : ∀ v ∈ o.trace, h.Issued v) :
    ends (alloc o) (fun v t => After h t ∧ Stores h t v o ∧ ¬ h.Issued v)
      (fun _ t => After h t ∧ t = h ∧ h.room = 0) h :=
  ends_of_wp (wp_mono (wp_and (wp_alloc_stores hs ho) (wp_alloc_room hs))
    (fun _ _ ht => ⟨ht.1.1, ht.1.2.1, ht.1.2.2.1⟩) fun _ ht => ⟨ht.1.1, ht.2⟩) fun _ _ _ => id

theorem ends_next_class {c : Class} {size : Nat} (hs : Sound h)
    (hit : h.tryGet it = some (.mappingProxyIterator source n size))
    (hc : h.tryGet source = some (.classObject c)) (filed : c.Filed) :
    ends (iteratorNext it)
      (fun r t => c.dictionaryLen = size ∧ After h t ∧
        ((r = none ∧ c.dictionaryOrder[n]? = none ∧ t = h) ∨
          ∃ v t₁, r = some v ∧ Stores h t₁ it (.mappingProxyIterator source (n + 1) size) ∧
          ((c.dictionaryOrder[n]? = some (.other v) ∧ h.Issued v ∧ t = t₁) ∨
            ∃ name, c.dictionaryOrder[n]? = some (.string name) ∧ ¬ h.Issued v ∧
              Stores t₁ t v (.str name))))
      (fun f t => After h t ∧ (t = h ∧ c.dictionaryLen ≠ size ∧
          f = runtimeError "dictionary changed size during iteration" ∨
        c.dictionaryLen = size ∧ n < c.dictionaryLen ∧ h.room = 0)) h := by
  have got : h.classOf source = .ok c := by simp [Heap.classOf, get_ok hc]
  unfold iteratorNext
  rw [ends_bind, getObject, ends_reading, get_ok hit]
  simp only [ends_bind]
  rw [Tonic.classOf, ends_reading, got]
  simp only
  split
  · next differ => exact ⟨hs.after, .inl ⟨rfl, differ, rfl⟩⟩
  · next same =>
    have size := not_not.mp same
    have read := filed.entry n
    cases entry : c.dictionaryEntry n with
    | none =>
      rw [entry] at read
      exact ⟨size, hs.after, .inl ⟨rfl, read.symm, rfl⟩⟩
    | some e =>
      obtain ⟨key, value⟩ := e
      rw [entry] at read
      replace read : c.dictionaryOrder[n]? = some key := read.symm
      simp only [ends_bind]
      refine ends_mono (advance_ends hs hit) (fun _ t₁ advanced => ?_) fun _ _ => False.elim
      obtain ⟨after, stores, room⟩ := advanced
      show ends (classKey key >>= fun v => pure (some v)) _ _ t₁
      rw [ends_bind]
      cases key with
      | string name =>
        refine ends_mono (ends_alloc_stores after.1 (by simp [Object.trace])) (fun v t made => ?_)
          fun f t failed => ?_
        · obtain ⟨later, stored, new⟩ := made
          refine ⟨size, after.trans later, .inr ⟨v, t₁, rfl, stores, .inr ⟨name, read, ?_, stored⟩⟩⟩
          exact fun issued => new (after.2.issued issued)
        · have inside := (List.getElem?_eq_some_iff.mp read).1
          exact ⟨after.trans failed.1, .inr ⟨size, inside, room ▸ failed.2.2⟩⟩
      | other k =>
        obtain ⟨v, found⟩ := Option.isSome_iff_exists.mp (filed _ (List.mem_of_getElem? read))
        obtain ⟨e, mem, -⟩ := Option.map_eq_some_iff.mp found
        have key : e.1 = k := by simpa using List.find?_some mem
        have issued : h.Issued k := by
          refine hs.valid.issued_trace hc ?_
          simp only [Object.trace, Class.trace, List.mem_cons, List.mem_append]
          refine .inr (.inl (.inl (.inr (mem_pairs.mpr ⟨e, List.mem_of_find?_eq_some mem, ?_⟩))))
          exact .inl key.symm
        exact ⟨size, after, .inr ⟨k, t₁, rfl, stores, .inl ⟨read, issued, rfl⟩⟩⟩

/-- The items of a sequence. -/
def sequenceLength : Object → Option Nat
  | .tuple values | .list values => some values.length
  | .str text => some text.toList.length
  | .bytes bytes => some bytes.length
  | _ => none

theorem ends_sequenceItem {length : Nat} (hs : Sound h) (seq : sequenceLength o = some length) :
    ends (sequenceItem n o) (fun r t => After h t ∧ (r = none ↔ length ≤ n) ∧
        (∀ values, o = .list values → r = values[n]?) ∧ (r = none → t = h) ∧
        ∀ {v x}, h.tryGet v = some x → t.tryGet v = some x)
      (fun _ t => t = h ∧ n < length ∧ ∀ values, o ≠ .list values) h := by
  cases o with
  | tuple values =>
    cases seq
    exact ⟨hs.after, by simp, fun _ eq => (by cases eq), fun _ => rfl, id⟩
  | list values =>
    cases seq
    exact ⟨hs.after, by simp, fun _ eq => (by cases eq; rfl), fun _ => rfl, id⟩
  | str text =>
    cases seq
    simp only [sequenceItem]
    cases read : text.toList[n]? with
    | none => exact ⟨hs.after, by simpa using read, fun _ eq => (by cases eq), fun _ => rfl, id⟩
    | some c =>
      have inside : n < text.toList.length := (List.getElem?_eq_some_iff.mp read).1
      show ends (alloc (.str c.toString) >>= fun v => pure (some v)) _ _ h
      rw [ends_bind]
      refine ends_mono (ends_alloc_stores hs (by simp [Object.trace])) (fun v t made => ?_)
        fun f t failed => ⟨failed.2.1, inside, fun _ eq => by cases eq⟩
      obtain ⟨after, stored, new⟩ := made
      refine ⟨after, ?_, fun _ eq => (by cases eq), fun eq => (by cases eq), fun {w x} hx => ?_⟩
      · simpa using inside
      · refine (stored.others fun eq => ?_).trans hx
        rw [eq, tryGet_unissued hs.valid new] at hx
        cases hx
  | bytes bytes =>
    cases seq
    simp only [sequenceItem]
    cases read : bytes[n]? with
    | none => exact ⟨hs.after, by simpa using read, fun _ eq => (by cases eq), fun _ => rfl, id⟩
    | some byte =>
      have inside : n < bytes.length := (List.getElem?_eq_some_iff.mp read).1
      have small : minInt ≤ (byte.toNat : Int) ∧ (byte.toNat : Int) ≤ maxInt := by
        have := byte.toNat_lt
        unfold minInt maxInt
        omega
      simp only [Value.int, dif_pos small]
      exact ⟨hs.after, by simpa using inside, fun _ eq => (by cases eq), fun eq => (by cases eq), id⟩
  | _ => cases seq

theorem ends_next_sequence {length : Nat} (hs : Sound h)
    (hit : h.tryGet it = some (.iterator source n)) (ho : h.tryGet source = some o)
    (seq : sequenceLength o = some length) :
    ends (iteratorNext it)
      (fun r t => After h t ∧ (r = none ↔ length ≤ n) ∧
        (∀ values, o = .list values → r = values[n]?) ∧ t.tryGet source = some o ∧
        t.tryGet it = some (.iterator source (if r.isSome then n + 1 else n)))
      (fun _ t => t = h ∧ n < length ∧ ∀ values, o ≠ .list values) h := by
  unfold iteratorNext
  rw [ends_bind, getObject, ends_reading, get_ok hit]
  simp only [ends_bind]
  rw [getObject, ends_reading, get_ok ho]
  simp only
  refine ends_mono (ends_sequenceItem hs seq) (fun r t read => ?_) fun _ _ => id
  obtain ⟨after, beyond, item, _, kept⟩ := read
  have apart : source ≠ it := by
    rintro rfl
    rw [hit] at ho
    cases ho
    cases seq
  cases r with
  | none => exact ⟨after, beyond, item, kept ho, kept hit⟩
  | some v =>
    simp only [Option.isSome_some, if_true, ends_bind]
    refine ends_mono (advance_ends after.1 (kept hit)) (fun _ u advanced => ?_) fun _ _ => False.elim
    obtain ⟨later, stores, -⟩ := advanced
    exact ⟨after.trans later, beyond, item, (stores.others apart).trans (kept ho), stores.stored⟩

theorem wp_allocInt_kept {x : Int} (hs : Sound h) (ho : h.tryGet source = some o) :
    wp (allocInt x) (fun _ t => After h t ∧ t.tryGet source = some o)
      (fun t => After h t ∧ t.tryGet source = some o) h := by
  unfold allocInt
  split
  · exact ⟨hs.after, ho⟩
  · refine wp_mono (wp_alloc_stores hs (by simp [Object.trace])) (fun v t made => ?_) fun t failed => ?_
    · obtain ⟨after, stored, new, -⟩ := made
      refine ⟨after, (stored.others fun eq => ?_).trans ho⟩
      rw [eq, tryGet_unissued hs.valid new] at ho
      cases ho
    · exact ⟨failed.1, failed.2 ▸ ho⟩

/-- The end of a range is at its bound, on the side it counts towards. -/
def rangeOver (next stop step : Int) : Prop := 0 < step ∧ stop ≤ next ∨ step < 0 ∧ next ≤ stop

theorem ends_next_range {next stop step : Int} (hs : Sound h)
    (hit : h.tryGet it = some (.rangeIterator next stop step)) :
    ends (iteratorNext it)
      (fun r t => After h t ∧ (rangeOver next stop step ∧ r = none ∧ t = h ∨
        ¬ rangeOver next stop step ∧ r ≠ none ∧
          t.tryGet it = some (.rangeIterator (next + step) stop step)))
      (fun _ t => After h t ∧ ¬ rangeOver next stop step ∧
        t.tryGet it = some (.rangeIterator (next + step) stop step)) h := by
  have stored : wp (setObject it (.rangeIterator (next + step) stop step))
      (fun _ t => After h t ∧ t.tryGet it = some (.rangeIterator (next + step) stop step))
      (After h) h :=
    wp_setObject hs.after hit (.shrink (by simp [Object.trace]) (by simp [Object.ancestors]))
  have moved : wp (setObject it (.rangeIterator (next + step) stop step))
      (fun _ _ => True) (fun _ => False) h := wp_setObject_stores hs.valid hit fun _ _ => trivial
  unfold iteratorNext
  rw [ends_bind, getObject, ends_reading, get_ok hit]
  simp only
  split
  · next beyond => exact ⟨hs.after, .inl ⟨beyond, rfl, rfl⟩⟩
  · next more =>
    rw [ends_bind]
    refine ends_mono (ends_of_wp (wp_and stored moved) fun _ _ _ => id) (fun _ t first => ?_)
      fun _ _ failed => failed.2.elim
    show ends (allocInt next >>= fun v => pure (some v)) _ _ t
    rw [ends_bind]
    refine ends_mono (ends_of_wp (wp_allocInt_kept first.1.1.1 first.1.2) fun _ _ _ => id)
      (fun v u made => ?_) fun _ u failed => ?_
    · exact ⟨first.1.1.trans made.1, .inr ⟨more, Option.some_ne_none v, made.2⟩⟩
    · exact ⟨first.1.1.trans failed.1, more, failed.2⟩

/-! ### A new iterator -/

/-- The iterator that is made for a container. -/
inductive Iterates (h : Heap) (w : Value) : Object → Prop where
  | range {start stop step : Int} (ho : h.tryGet w = some (.range start stop step)) :
    Iterates h w (.rangeIterator start stop step)
  | sequence {o : Object} {length : Nat} (ho : h.tryGet w = some o)
    (seq : sequenceLength o = some length) : Iterates h w (.iterator w 0)
  | hashed {o : Object} {d : Dict} {wrap : Dict → Object} (ho : h.tryGet w = some o)
    (view : o.hashed = some (d, wrap)) : Iterates h w (.dictIterator w 0 d.version)
  | cls {cls : Value} {c : Class} (hc : h.tryGet cls = some (.classObject c)) :
    Iterates h w (.mappingProxyIterator cls 0 c.dictionaryLen)

theorem issued_of_tryGet (hs : Sound h) {v : Value} (ho : h.tryGet v = some o) : h.Issued v := by
  by_contra new
  rw [tryGet_unissued hs.valid new] at ho
  cases ho

theorem iterator_spec {v : Value} (hs : Sound h) : wp (iterator v)
    (fun it t => h.Issued it ∨ After h t ∧ ∃ o, Iterates h (h.nativeValue v) o ∧ Stores h t it o)
    (fun _ => True) h := by
  have make {o : Object} (makes : Iterates h (h.nativeValue v) o)
      (trace : ∀ v ∈ o.trace, h.Issued v) : wp (alloc o) (fun it t => h.Issued it ∨ After h t ∧
        ∃ o, Iterates h (h.nativeValue v) o ∧ Stores h t it o) (fun _ => True) h :=
    wp_mono (wp_alloc_stores hs trace) (fun _ _ made => .inr ⟨made.1, o, makes, made.2.1⟩)
      fun _ _ => trivial
  simp only [iterator, wp_bind, wp_nativeValue]
  refine wp_getObject trivial fun o ho => ?_
  have issued := issued_of_tryGet hs ho
  have own : ∀ w ∈ [h.nativeValue v], h.Issued w := by simpa using issued
  split
  · exact make (.range ho) (by simp [Object.trace])
  · exact make (.sequence ho rfl) own
  · exact make (.sequence ho rfl) own
  · exact make (.sequence ho rfl) own
  · exact make (.sequence ho rfl) own
  · exact make (@Iterates.hashed _ _ _ _ .dict ho rfl) own
  · exact make (@Iterates.hashed _ _ _ _ .set ho rfl) own
  · next cls =>
    simp only [wp_bind]
    refine wp_classOf trivial fun c hc => make (.cls hc) fun w mem => ?_
    exact hs.valid.issued_trace ho mem
  all_goals try exact .inl issued
  · split
    · exact .inl issued
    · trivial
  · trivial

end Heap

end Tonic
