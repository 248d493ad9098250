import Tonic.DictEffects
import Tonic.DictKeys

/-!
## The operations on a dictionary or a set

The structural and the hashed operations, and what each makes of the container. The hashed ones are
given what the protocols found.
-/

namespace Tonic

open Effect Heap Ordered

variable [HostLibrary]

/-! ### What the protocols found -/

omit [HostLibrary] in
/-- What a protocol answers. A method of the program may answer anything. -/
def Answer {α : Type} (result : Except Stop α) (x : α) : Prop :=
  result = .ok x ∨ ∃ s, result = .error s ∧ ∀ fault, s ≠ .fails fault

omit [HostLibrary] in
theorem Answer.of_stays {α : Type} {result : Except Stop α} {x : α} (answer : Answer result x)
    (stays : Stays result) : result = .ok x := by
  rcases answer with answer | ⟨s, failed, foreign⟩
  · exact answer
  · obtain ⟨fault, rfl⟩ := stays s failed
    exact absurd rfl (foreign fault)

/-- The candidates are compared with a key one after the other, until one is equal. -/
inductive Finds (h : Heap) (d : Dict) (key : Value) : List Nat → Option Nat → Prop where
  | exhausted : Finds h d key [] none
  | here {i : Nat} {rest : List Nat} {candidate value : Value}
    (entry : d.entries[i]? = some (candidate, value))
    (equal : candidate = key ∨ Answer (h.equalityProtocol candidate key) true) :
    Finds h d key (i :: rest) (some i)
  | next {i : Nat} {rest : List Nat} {candidate value : Value} {found : Option Nat}
    (entry : d.entries[i]? = some (candidate, value)) (apart : candidate ≠ key)
    (unequal : Answer (h.equalityProtocol candidate key) false) (more : Finds h d key rest found) :
    Finds h d key (i :: rest) found

/-- The hash of a key, and the first candidate of that hash that is equal to it. -/
structure Found (h : Heap) (d : Dict) (key : Value) (hash : Int) (found : Option Nat) : Prop where
  hashed : Answer (h.hashProtocol key) hash
  finds : Finds h d key ((d.index.lookup (asU64 hash)).getD []) found

section Found

variable {h : Heap} {d : Dict} {key : Value} {hash : Int} {found : Option Nat} {i : Nat} {m : Key}
  {candidates : List Nat}

theorem Finds.of_some (finds : Finds h d key candidates (some i)) :
    i ∈ candidates ∧ ∃ candidate value, d.entries[i]? = some (candidate, value) ∧
      (candidate = key ∨ Answer (h.equalityProtocol candidate key) true) := by
  generalize eq : some i = found at finds
  induction finds with
  | exhausted => cases eq
  | here entry equal =>
    cases eq
    exact ⟨List.mem_cons_self, _, _, entry, equal⟩
  | next _ _ _ _ ih =>
    obtain ⟨mem, rest⟩ := ih eq
    exact ⟨List.mem_cons_of_mem _ mem, rest⟩

theorem Finds.of_none (finds : Finds h d key candidates none) (mem : i ∈ candidates)
    {candidate value : Value} (entry : d.entries[i]? = some (candidate, value)) :
    candidate ≠ key ∧ Answer (h.equalityProtocol candidate key) false := by
  generalize eq : none = found at finds
  induction finds with
  | exhausted => cases mem
  | here => cases eq
  | next entry' apart unequal _ ih =>
    rcases List.mem_cons.mp mem with rfl | mem
    · rw [entry] at entry'
      cases entry'
      exact ⟨apart, unequal⟩
    · exact ih mem eq

/-- A native key has the hash of its material. -/
theorem Found.hash_eq (found' : Found h d key hash found) (native : h.Native key)
    (hm : h.dictKey key = .ok m) : hash = m.hash :=
  native.hash hm (found'.hashed.of_stays native.hash_stays)

/-- If no candidate was equal, no native key of the dictionary has the material. -/
theorem Found.unmatched (found : Found h d key hash none) (hv : h.Valid) (fair : d.Fair h)
    (native : h.Native key) (hm : h.dictKey key = .ok m) :
    ∀ l ∈ d.labels, h.Native l.2.2 → l.2.1 ≠ m := by
  rintro ⟨hash', m', key'⟩ mem native' rfl
  obtain ⟨hm', rfl⟩ := fair.known mem native'
  obtain ⟨i, label⟩ := List.mem_iff_getElem?.mp mem
  obtain ⟨stored, -, value, entry⟩ := (Dict.label_at d).mp label
  have finds := found.finds
  rw [found.hash_eq native hm, fair.rep.buckets] at finds
  obtain ⟨-, unequal⟩ := finds.of_none (mem_idxsOf_of_getElem? stored) entry
  have differ := native'.decides native hv hm' hm (unequal.of_stays (native'.equal_stays native))
  exact absurd (differ.mpr rfl) Bool.false_ne_true

/-- What is found among native keys is the entry with the material. -/
theorem Found.eq_idxOf (found' : Found h d key hash found) (hv : h.Valid) (fair : d.Fair h)
    (all : d.AllNative h) (native : h.Native key) (hm : h.dictKey key = .ok m) :
    found = d.materials.idxOf? m := by
  cases found with
  | none =>
    refine (List.idxOf?_eq_none_iff.mpr fun mem => ?_).symm
    rw [Dict.materials_eq fair.rep] at mem
    obtain ⟨l, mem, eq⟩ := List.mem_map.mp mem
    exact found'.unmatched hv fair native hm l mem (all l mem) eq
  | some i =>
    obtain ⟨-, candidate, value, entry, equal⟩ := found'.finds.of_some
    obtain ⟨hash', m', label⟩ := Dict.label_of_entry fair.rep entry
    have mem := List.mem_of_getElem? label
    have native' : h.Native candidate := all _ mem
    have hm' := (fair.known mem native').1
    have same : m' = m := by
      rcases equal with rfl | equal
      · exact Except.ok.inj (hm'.symm.trans hm)
      · exact (native'.decides native hv hm' hm
          (equal.of_stays (native'.equal_stays native))).mp rfl
    subst same
    exact (Dict.idxOf?_of_nodup (fair.nodup all) ((Dict.label_at d).mp label).2.1).symm

end Found

/-! ### Operations -/

/-- The operations of both families; the key and the hash of `deleteAt` are those it was found
by. -/
inductive DictOp where
  | set (key value : Value)
  | setStr (name : String) (value : Value)
  | delete (key : Value)
  | merge (other : Value)
  | clear
  | setHashed (key value : Value) (hash : Int) (found : Option Nat)
  | deleteAt (key : Value) (hash : Int) (index : Nat)

namespace DictOp

def run (owner : Value) : DictOp → HeapM Unit
  | set key value => dictSet owner key value
  | setStr name value => dictSetStr owner name value
  | delete key => dictDelete owner key
  | merge other => dictMerge owner other
  | clear => dictClear owner
  | setHashed key value hash found => hashSetHashed owner key value hash found
  | deleteAt _ _ index => dictDeleteAt owner index

def arguments : DictOp → List Value
  | set key value | setHashed key value _ _ => [key, value]
  | setStr _ value => [value]
  | delete v | merge v | deleteAt v _ _ => [v]
  | clear => []

/-- An operation that removes entries, or stores many, has room in the epochs for it, and every key
it merges can be a key. -/
def Careful (h : Heap) (owner : Value) (d : Dict) : DictOp → Prop
  | delete _ | deleteAt _ _ _ | clear => d.HasEpochs 1
  | merge other => h.Mergeable owner other
  | _ => True

/-- A hashed operation is given what the protocols found. -/
def Informed (h : Heap) (d : Dict) : DictOp → Prop
  | setHashed key _ hash found => Found h d key hash found
  | deleteAt key hash index => Found h d key hash (some index)
  | _ => True

/-- What an operation makes of the dictionary. -/
inductive Makes (h : Heap) (owner : Value) (d : Dict) : DictOp → Dict → Prop where
  | set {key value : Value} {m : Key} (hm : h.dictKey key = .ok m) :
    Makes h owner d (set key value) (d.stored (d.find m) (Dict.hashKey m) m key value)
  | delete {key : Value} {m : Key} {i : Nat} (hm : h.dictKey key = .ok m)
    (found : d.find m = some i) : Makes h owner d (delete key) (d.removed i)
  | mergeNone {other : Value} (nothing : h.nativeValue owner = h.nativeValue other ∨
      ∃ e, h.tryGet (h.nativeValue other) = some (.dict e) ∧ e.entries = []) :
    Makes h owner d (merge other) d
  | merge {other : Value} {e : Dict} {items : List (Key × Value × Value)}
    (he : h.tryGet (h.nativeValue other) = some (.dict e)) (entries : items.map (·.2) = e.entries)
    (apart : h.nativeValue owner ≠ h.nativeValue other)
    (keys : ∀ item ∈ items, h.dictKey item.2.1 = .ok item.1) :
    Makes h owner d (merge other) (d.putAll items)
  | clear : Makes h owner d clear d.cleared
  | setHashed {key value : Value} {hash : Int} {found : Option Nat} {m : Key}
    (hm : h.dictKey key = .ok m) (inside : ∀ i, found = some i → i < d.entries.length) :
    Makes h owner d (setHashed key value hash found) (d.stored found (asU64 hash) m key value)
  | deleteAt {key : Value} {hash : Int} {i : Nat} (inside : i < d.entries.length) :
    Makes h owner d (deleteAt key hash i) (d.removed i)

variable {h t : Heap} {owner : Value} {o : Object} {d d' : Dict} {wrap : Dict → Object} {op : DictOp}

/-- An operation on a container without a string key: one store, or none when it fails. -/
theorem spec (hs : Sound h) (ho : h.tryGet (h.nativeValue owner) = some o)
    (hashed : o.hashed = some (d, wrap)) (rep : d.Rep) (careful : op.Careful h owner d)
    (noStr : ∀ name value, op ≠ setStr name value) :
    wp (op.run owner) (fun _ t => ∃ d', op.Makes h owner d d' ∧
      Stores h t (h.nativeValue owner) (wrap d')) (Unchanged h) h := by
  have only {e : Dict} (he : h.tryGet (h.nativeValue owner) = some (.dict e)) :
      e = d ∧ wrap = .dict := by
    rw [ho] at he
    cases he
    cases hashed
    exact ⟨rfl, rfl⟩
  have ready (epochs : d.HasEpochs 1) : h.Removable owner := fun e he => by
    obtain ⟨rfl, -⟩ := only he
    exact ⟨rep, epochs⟩
  cases op with
  | set key value =>
    refine wp_mono (dictSet_spec hs) ?_ fun _ => id
    rintro _ t ⟨m, e, hm, he, ht⟩
    obtain ⟨rfl, rfl⟩ := only he
    exact ⟨_, .set hm, ht⟩
  | setStr name value => exact absurd rfl (noStr name value)
  | delete key =>
    refine wp_mono (dictDelete_spec hs (ready careful)) ?_ fun _ => id
    rintro _ t ⟨e, m, i, he, hm, found, ht⟩
    obtain ⟨rfl, rfl⟩ := only he
    exact ⟨_, .delete hm found, ht⟩
  | merge other =>
    have same {t : Heap} (ht : Unchanged h t) : Stores h t (h.nativeValue owner) o :=
      Eq.trans ht (Stores.refl ho)
    cases o <;> cases hashed
    case dict.refl =>
      refine wp_mono (dictMerge_spec hs ho careful) ?_ fun _ => id
      rintro _ t (⟨ht, nothing⟩ | ⟨e, items, he, entries, apart, keys, ht⟩)
      · exact ⟨d, .mergeNone (.inl nothing), same ht⟩
      · exact ⟨_, .merge he entries apart keys, ht⟩
    case set.refl =>
      refine wp_mono (dictMerge_set hs ho) ?_ fun _ => id
      rintro _ t ⟨ht, nothing⟩
      exact ⟨d, .mergeNone nothing, same ht⟩
  | clear =>
    refine wp_mono (dictClear_spec hs (ready careful)) ?_ fun _ => id
    rintro _ t ⟨e, he, ht⟩
    obtain ⟨rfl, rfl⟩ := only he
    exact ⟨_, .clear, ht⟩
  | setHashed key value hash found =>
    refine wp_mono (hashSetHashed_spec hs) ?_ fun _ => id
    rintro _ t ⟨m, o', e, wrap', hm, ho', hashed', inside, ht⟩
    rw [ho] at ho'
    cases ho'
    rw [hashed] at hashed'
    cases hashed'
    exact ⟨_, .setHashed hm inside, ht⟩
  | deleteAt key hash i =>
    refine wp_mono (dictDeleteAt_spec hs (ready careful)) ?_ fun _ => id
    rintro _ t ⟨e, he, inside, ht⟩
    obtain ⟨rfl, rfl⟩ := only he
    exact ⟨_, .deleteAt inside, ht⟩

theorem after (hs : Sound h) (issued : ∀ v ∈ op.arguments, h.Issued v) :
    wp (op.run owner) (fun _ => After h) (After h) h := by
  cases op with
  | set key value =>
    exact dictSet_after hs (issued _ (by simp [arguments])) (issued _ (by simp [arguments]))
  | setStr name value => exact dictSetStr_after hs (issued _ (by simp [arguments]))
  | delete key => exact dictDelete_after hs
  | merge other => exact dictMerge_after hs
  | clear => exact dictClear_after hs
  | setHashed key value hash found =>
    exact hashSetHashed_after hs (issued _ (by simp [arguments])) (issued _ (by simp [arguments]))
  | deleteAt key hash i => exact dictDeleteAt_after hs

/-! ### What stays true -/

theorem Makes.fair (makes : op.Makes h owner d d') (informed : op.Informed h d) (hv : h.Valid)
    (fair : d.Fair h) : d'.Fair h := by
  cases makes with
  | set hm => exact fair.stored hm
  | delete hm found => exact fair.removed (find_lt fair.rep found)
  | mergeNone => exact fair
  | merge _ _ _ keys => exact fair.putAll keys
  | clear => exact Dict.cleared_fair
  | @setHashed key value hash found m hm inside =>
    cases found with
    | some i => exact fair.overwritten
    | none =>
      refine fair.appended fun native => ⟨hm, ?_, informed.unmatched hv fair native hm⟩
      rw [informed.hash_eq native hm]
      rfl
  | deleteAt inside => exact fair.removed inside

theorem Makes.follows (makes : op.Makes h owner d d') : Follows d.keys d'.keys := by
  have stored {found : Option Nat} {hash : Nat} {m : Key} {key value : Value} {d : Dict} :
      Follows d.keys (d.stored found hash m key value).keys := by
    cases found with
    | some i =>
      rw [show (d.stored (some i) hash m key value).keys = d.keys from
        Dict.keys_replaceValue d i value]
      exact .refl _
    | none =>
      have keys : (d.stored none hash m key value).keys = d.keys ++ [key] := by
        simp [Dict.keys, Dict.stored, Dict.append]
      exact keys ▸ follows_append ..
  have removed {i : Nat} : Follows d.keys (d.removed i).keys :=
    follows_sublist ((List.eraseIdx_sublist ..).map _)
  cases makes with
  | set | setHashed => exact stored
  | delete | deleteAt => exact removed
  | mergeNone => exact .refl _
  | @merge _ _ items _ _ _ _ =>
    clear *- stored
    induction items generalizing d with
    | nil => exact .refl _
    | cons item items ih => exact stored.trans ih
  | clear => exact follows_sublist (List.nil_sublist _)

/-- The changes that an operation with native keys makes, from the heap it starts in to the heap it
ends in. -/
inductive Records (h t : Heap) (owner : Value) : DictOp → List (Change Key Value Value) → Prop where
  | set {key value : Value} {m : Key} (native : h.Native key) (hm : h.dictKey key = .ok m) :
    Records h t owner (set key value) [.put m key value]
  | setStr {name : String} {key value : Value} (new : ¬ h.Issued key)
    (hk : t.tryGet key = some (.str name)) :
    Records h t owner (setStr name value) [.put (.str name) key value]
  | delete {key : Value} {m : Key} (native : h.Native key) (hm : h.dictKey key = .ok m) :
    Records h t owner (delete key) [.erase m]
  | mergeSelf {other : Value} (same : h.nativeValue owner = h.nativeValue other) :
    Records h t owner (merge other) []
  | merge {other : Value} {e : Dict} {items : List (Key × Value × Value)}
    (apart : h.nativeValue owner ≠ h.nativeValue other)
    (he : h.tryGet (h.nativeValue other) = some (.dict e)) (entries : items.map (·.2) = e.entries)
    (keys : ∀ item ∈ items, h.dictKey item.2.1 = .ok item.1 ∧ h.Native item.2.1) :
    Records h t owner (merge other) (items.map fun item => .put item.1 item.2.1 item.2.2)
  | clear : Records h t owner clear [.clear]
  | setHashed {key value : Value} {hash : Int} {found : Option Nat} {m : Key}
    (native : h.Native key) (hm : h.dictKey key = .ok m) :
    Records h t owner (setHashed key value hash found) [.put m key value]
  | deleteAt {key : Value} {hash : Int} {i : Nat} {m : Key} (native : h.Native key)
    (hm : h.dictKey key = .ok m) : Records h t owner (deleteAt key hash i) [.erase m]

omit [HostLibrary] in
theorem items_unique {items items' : List (Key × Value × Value)}
    (entries : items.map (·.2) = items'.map (·.2))
    (keys : ∀ item ∈ items, h.dictKey item.2.1 = .ok item.1)
    (keys' : ∀ item ∈ items', h.dictKey item.2.1 = .ok item.1) : items = items' := by
  induction items generalizing items' with
  | nil => exact (List.map_eq_nil_iff.mp entries.symm).symm
  | cons item items ih =>
    cases items' with
    | nil => cases entries
    | cons item' items' =>
      obtain ⟨head, tail⟩ := List.cons.inj entries
      replace head : item.2 = item'.2 := head
      have same := keys item List.mem_cons_self
      rw [head, keys' item' List.mem_cons_self] at same
      rw [ih tail (fun i mem => keys i (List.mem_cons_of_mem _ mem))
        fun i mem => keys' i (List.mem_cons_of_mem _ mem), Prod.ext (Except.ok.inj same).symm head]

/-- A dictionary of native keys changes as the operation records it. -/
theorem Makes.records {changes : List (Change Key Value Value)} (makes : op.Makes h owner d d')
    (informed : op.Informed h d) (hv : h.Valid) (fair : d.Fair h) (all : d.AllNative h)
    (records : op.Records h t owner changes) :
    d'.AllNative h ∧ d'.contents = changes.foldl Change.apply d.contents := by
  cases records with
  | @set key value m native hm =>
    cases makes with
    | set hm' =>
      cases Except.ok.inj (hm'.symm.trans hm)
      refine ⟨all.stored fair.rep native, ?_⟩
      rw [fair.find_eq all]
      exact Dict.contents_stored fair.rep
  | setStr => cases makes
  | delete native hm =>
    cases makes with
    | delete hm' found =>
      cases Except.ok.inj (hm'.symm.trans hm)
      rw [fair.find_eq all] at found
      exact ⟨all.removed, Dict.contents_removed fair.rep found⟩
  | mergeSelf same =>
    cases makes with
    | mergeNone => exact ⟨all, rfl⟩
    | merge _ _ apart => exact absurd same apart
  | @merge _ e items apart he entries keys =>
    cases makes with
    | mergeNone nothing =>
      obtain ⟨e', he', empty⟩ := nothing.resolve_left apart
      rw [he] at he'
      cases he'
      rw [List.map_eq_nil_iff.mp (entries.trans empty)]
      exact ⟨all, rfl⟩
    | merge he' entries' _ keys' =>
      rw [he] at he'
      cases he'
      cases items_unique (entries.trans entries'.symm) (fun i mem => (keys i mem).1) keys'
      rw [List.foldl_map]
      exact Dict.contents_putAll fair all keys
  | clear =>
    cases makes
    exact ⟨fun _ mem => (List.not_mem_nil mem).elim, rfl⟩
  | setHashed native hm =>
    cases makes with
    | setHashed hm' inside =>
      cases Except.ok.inj (hm'.symm.trans hm)
      refine ⟨all.stored fair.rep native, ?_⟩
      rw [informed.eq_idxOf hv fair all native hm]
      exact Dict.contents_stored fair.rep
  | deleteAt native hm =>
    cases makes with
    | deleteAt inside =>
      exact ⟨all.removed, Dict.contents_removed fair.rep
        (informed.eq_idxOf hv fair all native hm).symm⟩

end DictOp

end Tonic
