import Mathlib.Data.List.InsertIdx
import Tonic.DictRep
import Tonic.KeyFrame

/-!
## The keys of one dictionary

Entries with keys that the program adds no method to differ in their materials, and such an entry
is found by its material.
-/

namespace Tonic

theorem zip_eraseIdx {α β : Type} (xs : List α) (ys : List β) (i : Nat) :
    (xs.eraseIdx i).zip (ys.eraseIdx i) = (xs.zip ys).eraseIdx i := by
  induction xs generalizing ys i with
  | nil => rfl
  | cons x xs ih =>
    cases ys with
    | nil => simp
    | cons y ys =>
      cases i with
      | zero => rfl
      | succ i => simp [ih]

instance : DecidableEq Key := fun a b => decidable_of_iff _ (Key.compare_eq a b)

namespace Dict

variable {d : Dict} {i hash : Nat} {m : Key} {key value : Value}

def keys (d : Dict) : List Value := d.entries.map (·.1)

/-- Each entry without its value: the stored hash, the material and the key. -/
def labels (d : Dict) : List (Nat × Key × Value) :=
  d.hashes.zip (d.materials.zip d.keys)

def contents (d : Dict) : List (Key × Value × Value) := d.materials.zip d.entries

theorem keys_contents (rep : d.Rep) : Ordered.keys d.contents = d.materials :=
  List.map_fst_zip rep.materials.le

theorem keys_replaceValue (d : Dict) (i : Nat) (value : Value) :
    (d.replaceValue i value).keys = d.keys := by
  refine List.ext_getElem? fun j => ?_
  simp only [keys, replaceValue, List.getElem?_map, List.getElem?_modify]
  cases d.entries[j]? with
  | none => rfl
  | some entry =>
    simp only [Option.map_some]
    split <;> rfl

theorem labels_replaceValue (d : Dict) (i : Nat) (value : Value) :
    (d.replaceValue i value).labels = d.labels := by
  rw [labels, keys_replaceValue]
  rfl

theorem labels_append (rep : d.Rep) :
    (d.append hash m key value).labels = d.labels ++ [(hash, m, key)] := by
  have materials : d.materials.length = d.keys.length := by
    rw [keys, List.length_map, rep.materials]
  have hashes : d.hashes.length = (d.materials.zip d.keys).length := by
    rw [List.length_zip, ← materials, Nat.min_self, rep.hashes, rep.materials]
  simp only [labels, keys, append, List.map_append, List.map_cons, List.map_nil]
  rw [keys] at materials hashes
  rw [List.zip_append materials, List.zip_append hashes]
  rfl

theorem labels_without (d : Dict) (i : Nat) : (d.without i).labels = d.labels.eraseIdx i := by
  simp only [labels, keys, without, ← List.eraseIdx_map, zip_eraseIdx]

theorem label_at (d : Dict) : d.labels[i]? = some (hash, m, key) ↔ d.hashes[i]? = some hash ∧
    d.materials[i]? = some m ∧ ∃ value, d.entries[i]? = some (key, value) := by
  simp [labels, keys, List.getElem?_zip_eq_some, List.getElem?_map, Option.map_eq_some_iff]

theorem label_of_entry (rep : d.Rep) (entry : d.entries[i]? = some (key, value)) :
    ∃ hash m, d.labels[i]? = some (hash, m, key) := by
  obtain ⟨lt, -⟩ := List.getElem?_eq_some_iff.mp entry
  exact ⟨_, _, (label_at d).mpr ⟨List.getElem?_eq_getElem (rep.hashes ▸ lt),
    List.getElem?_eq_getElem (rep.materials ▸ lt), value, entry⟩⟩

theorem contents_replaceValue (d : Dict) (i : Nat) (value : Value) :
    (d.replaceValue i value).contents = d.contents.modify i fun e => (e.1, e.2.1, value) := by
  refine List.ext_getElem? fun j => ?_
  simp only [contents, replaceValue, List.zip, List.getElem?_zipWith, List.getElem?_modify]
  cases d.materials[j]? with
  | none => rfl
  | some m =>
    cases d.entries[j]? with
    | none => rfl
    | some entry => by_cases eq : i = j <;> simp [eq]

theorem contents_append (rep : d.Rep) :
    (d.append hash m key value).contents = d.contents ++ [(m, key, value)] := by
  simp only [contents, append]
  rw [List.zip_append rep.materials]
  rfl

theorem contents_without (d : Dict) (i : Nat) :
    (d.without i).contents = d.contents.eraseIdx i := by
  simp only [contents, without, zip_eraseIdx]

/-! ### Entries that differ -/

variable [HostLibrary] {h t : Heap}

/-- A representation whose entries with native keys are known by their materials. -/
structure Fair (h : Heap) (d : Dict) : Prop where
  rep : d.Rep
  known : ∀ {hash m key}, (hash, m, key) ∈ d.labels → h.Native key →
    h.dictKey key = .ok m ∧ hash = hashKey m
  apart : d.labels.Pairwise fun l l' => h.Native l.2.2 → h.Native l'.2.2 → l.2.1 ≠ l'.2.1

theorem empty_fair : Fair h empty where
  rep := empty_rep
  known mem := by cases mem
  apart := .nil

/-- The same keys, and other values or epochs. -/
theorem Fair.relabel {d' : Dict} (fair : d.Fair h) (rep : d'.Rep) (same : d'.labels = d.labels) :
    d'.Fair h where
  rep := rep
  known mem := fair.known (same ▸ mem)
  apart := same ▸ fair.apart

theorem Fair.overwritten (fair : d.Fair h) : (d.stored (some i) hash m key value).Fair h :=
  fair.relabel (fair.rep.stored ..) (labels_replaceValue d i value)

/-- A native key that is added has a hash of its own, and a new material. -/
theorem Fair.appended (fair : d.Fair h) (new : h.Native key → h.dictKey key = .ok m ∧
    hash = hashKey m ∧ ∀ l ∈ d.labels, h.Native l.2.2 → l.2.1 ≠ m) :
    (d.stored none hash m key value).Fair h := by
  have labels : (d.stored none hash m key value).labels = d.labels ++ [(hash, m, key)] :=
    labels_append fair.rep
  constructor
  · exact fair.rep.stored ..
  · intro hash' m' key' mem native
    rw [labels] at mem
    rcases List.mem_append.mp mem with old | added
    · exact fair.known old native
    · cases List.mem_singleton.mp added
      exact ⟨(new native).1, (new native).2.1⟩
  · rw [labels, List.pairwise_append]
    refine ⟨fair.apart, List.pairwise_singleton _ _, fun l old l' added => ?_⟩
    cases List.mem_singleton.mp added
    exact fun native native' => (new native').2.2 l old native

theorem Fair.removed (fair : d.Fair h) (hi : i < d.entries.length) : (d.removed i).Fair h := by
  have labels : (d.removed i).labels = d.labels.eraseIdx i := labels_without d i
  exact ⟨fair.rep.removed hi, fun mem => fair.known (List.mem_of_mem_eraseIdx (labels ▸ mem)),
    labels ▸ fair.apart.sublist (List.eraseIdx_sublist ..)⟩

theorem cleared_fair : d.cleared.Fair h where
  rep := cleared_rep d
  known mem := by cases mem
  apart := .nil

/-- A search for a material passes no entry that has it. -/
theorem Fair.find_none (fair : d.Fair h) (absent : d.find m = none) :
    ∀ l ∈ d.labels, h.Native l.2.2 → l.2.1 ≠ m := by
  rintro ⟨hash, m', key⟩ mem native rfl
  obtain ⟨-, rfl⟩ := fair.known mem native
  obtain ⟨i, label⟩ := List.mem_iff_getElem?.mp mem
  obtain ⟨stored, material, -⟩ := (label_at d).mp label
  exact Dict.find_none fair.rep absent stored material

theorem Fair.stored (fair : d.Fair h) (hm : h.dictKey key = .ok m) :
    (d.stored (d.find m) (hashKey m) m key value).Fair h := by
  cases found : d.find m with
  | some i => exact fair.overwritten
  | none => exact fair.appended fun _ => ⟨hm, rfl, fair.find_none found⟩

theorem Fair.putAll {items : List (Key × Value × Value)} (fair : d.Fair h)
    (keys : ∀ item ∈ items, h.dictKey item.2.1 = .ok item.1) : (d.putAll items).Fair h := by
  induction items generalizing d with
  | nil => exact fair
  | cons item items ih =>
    exact ih (fair.stored (keys item List.mem_cons_self))
      fun item mem => keys item (List.mem_cons_of_mem _ mem)

/-- What the heap says of the keys stays. -/
theorem Fair.of_same (fair : d.Fair h) (same : ∀ l ∈ d.labels, t.Native l.2.2 →
    h.Native l.2.2 ∧ t.dictKey l.2.2 = h.dictKey l.2.2) : d.Fair t where
  rep := fair.rep
  known mem native := by
    obtain ⟨native, key⟩ := same _ mem native
    rw [key]
    exact fair.known mem native
  apart := fair.apart.imp_of_mem fun mem mem' apart native native' =>
    apart (same _ mem native).1 (same _ mem' native').1

/-! ### Dictionaries of native keys -/

def AllNative (h : Heap) (d : Dict) : Prop := ∀ l ∈ d.labels, h.Native l.2.2

omit [HostLibrary] in
theorem materials_eq (rep : d.Rep) : d.materials = d.labels.map (·.2.1) := by
  have materials : (d.materials.zip d.keys).map (·.1) = d.materials :=
    List.map_fst_zip (by simp [keys, rep.materials])
  have labels : d.labels.map (·.2) = d.materials.zip d.keys :=
    List.map_snd_zip (by simp [keys, rep.materials, rep.hashes])
  rw [← materials, ← labels, List.map_map]
  rfl

theorem Fair.nodup (fair : d.Fair h) (native : d.AllNative h) : d.materials.Nodup := by
  rw [materials_eq fair.rep, List.Nodup, List.pairwise_map]
  exact fair.apart.imp_of_mem fun mem mem' apart => apart (native _ mem) (native _ mem')

omit [HostLibrary] in
theorem idxOf?_of_nodup {xs : List Key} (nodup : xs.Nodup) (at' : xs[i]? = some m) :
    xs.idxOf? m = some i := by
  rw [List.idxOf?, List.findIdx?_eq_some_iff_getElem]
  obtain ⟨lt, rfl⟩ := List.getElem?_eq_some_iff.mp at'
  refine ⟨lt, by simp, fun j hj => ?_⟩
  have differ : xs[j] ≠ xs[i] := fun eq => hj.ne ((nodup.getElem_inj_iff).mp eq)
  simpa using differ

/-- The entry of a material is where the material is. -/
theorem Fair.find_eq (fair : d.Fair h) (native : d.AllNative h) :
    d.find m = d.materials.idxOf? m := by
  cases found : d.find m with
  | some i => exact (idxOf?_of_nodup (fair.nodup native) (find_some fair.rep found).1).symm
  | none =>
    refine (List.idxOf?_eq_none_iff.mpr fun mem => ?_).symm
    rw [materials_eq fair.rep] at mem
    obtain ⟨l, mem, eq⟩ := List.mem_map.mp mem
    exact fair.find_none found l mem (native l mem) eq

omit [HostLibrary] in
theorem contents_stored (rep : d.Rep) :
    (d.stored (d.materials.idxOf? m) hash m key value).contents =
      Ordered.put m key value d.contents := by
  cases found : d.materials.idxOf? m with
  | some i =>
    rw [Ordered.put_of_position (i := i) (by rw [keys_contents rep, found])]
    exact contents_replaceValue d i value
  | none =>
    rw [Ordered.put_of_absent (by rw [keys_contents rep, found])]
    show (d.append hash m key value).contents = _
    exact contents_append rep

omit [HostLibrary] in
theorem contents_removed (rep : d.Rep) (found : d.materials.idxOf? m = some i) :
    (d.removed i).contents = Ordered.erase m d.contents := by
  rw [Ordered.erase_of_position (i := i) (by rw [keys_contents rep, found])]
  exact contents_without d i

omit [HostLibrary] in
/-- The value at the position of a material is the one of its entry. -/
theorem entry_of_material (rep : d.Rep) :
    (d.materials.idxOf? m).bind (d.entries[·]?) = Ordered.get m d.contents := by
  cases found : d.materials.idxOf? m with
  | some i =>
    rw [Ordered.get_of_position (i := i) (by rw [keys_contents rep, found])]
    obtain ⟨lt, -⟩ := List.findIdx?_eq_some_iff_getElem.mp found
    have lt' : i < d.entries.length := rep.materials ▸ lt
    simp [contents, List.zip, List.getElem?_zipWith, List.getElem?_eq_getElem lt,
      List.getElem?_eq_getElem lt']
  | none =>
    rw [Option.bind_none, eq_comm, Ordered.get_eq_none, keys_contents rep]
    exact List.idxOf?_eq_none_iff.mp found

omit [HostLibrary] in
theorem AllNative.stored {found : Option Nat} (rep : d.Rep) (native : d.AllNative h)
    (hk : h.Native key) : (d.stored found hash m key value).AllNative h := by
  cases found with
  | some i =>
    intro l mem
    rw [show (d.stored (some i) hash m key value).labels = d.labels from
      labels_replaceValue d i value] at mem
    exact native l mem
  | none =>
    intro l mem
    rw [show (d.stored none hash m key value).labels = _ from labels_append rep] at mem
    rcases List.mem_append.mp mem with old | added
    · exact native l old
    · cases List.mem_singleton.mp added
      exact hk

omit [HostLibrary] in
theorem AllNative.removed (native : d.AllNative h) : (d.removed i).AllNative h := fun l mem =>
  native l (List.mem_of_mem_eraseIdx (labels_without d i ▸ mem))

/-- One entry after the other is stored under its material. -/
theorem contents_putAll {items : List (Key × Value × Value)} (fair : d.Fair h)
    (native : d.AllNative h) (keys : ∀ item ∈ items, h.dictKey item.2.1 = .ok item.1 ∧
      h.Native item.2.1) : (d.putAll items).AllNative h ∧ (d.putAll items).contents =
      items.foldl (fun s item => Ordered.put item.1 item.2.1 item.2.2 s) d.contents := by
  induction items generalizing d with
  | nil => exact ⟨native, rfl⟩
  | cons item items ih =>
    obtain ⟨hm, hk⟩ := keys item List.mem_cons_self
    have stored : (d.stored (d.find item.1) (hashKey item.1) item.1 item.2.1 item.2.2).Fair h :=
      fair.stored hm
    have rest := ih stored (native.stored fair.rep hk)
      fun item mem => keys item (List.mem_cons_of_mem _ mem)
    rw [fair.find_eq native, contents_stored fair.rep, ← fair.find_eq native] at rest
    exact rest

end Dict

end Tonic
