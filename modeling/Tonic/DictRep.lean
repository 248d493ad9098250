import Mathlib.Data.List.Triplewise
import Tonic.Dict
import Tonic.KeyOrder
import Tonic.Library.Ordered

/-!
## The representation of dictionaries and sets

The entries, their materials and their hashes are lists of one length, and the index has the
positions of every stored hash.
-/

namespace Tonic

section Positions

variable {α : Type} [DecidableEq α]

/-- Every position behind the erased one moves down. -/
def shift (i k : Nat) : Nat := if i < k then k - 1 else k

/-- The positions of an element once a position is erased. -/
theorem idxsOf_eraseIdx (xs : List α) (x : α) (i s : Nat) :
    (xs.eraseIdx i).idxsOf x s = ((xs.idxsOf x s).erase (i + s)).map (shift (i + s)) := by
  induction xs generalizing i s with
  | nil => rfl
  | cons a xs ih =>
    have later : (xs.idxsOf x (s + 1)).map (shift s) = xs.idxsOf x s := by
      rw [List.idxsOf_start, List.map_map, List.idxsOf_start (s := s)]
      refine List.map_congr_left fun k _ => ?_
      show (if s < k + (s + 1) then k + (s + 1) - 1 else k + (s + 1)) = k + s
      rw [if_pos (by omega)]
      rfl
    have absent : s ∉ xs.idxsOf x (s + 1) := fun mem => by
      have := List.ge_of_mem_idxsOf s mem
      omega
    cases i with
    | zero =>
      rw [List.eraseIdx_zero, List.tail_cons, List.idxsOf_cons, Nat.zero_add]
      split
      · rw [List.erase_cons_head, later]
      · rw [List.erase_of_not_mem absent, later]
    | succ i =>
      rw [List.eraseIdx_cons_succ, List.idxsOf_cons, List.idxsOf_cons, ih,
        show i + (s + 1) = i + 1 + s by omega]
      split
      · rw [List.erase_cons_tail (by simp), List.map_cons, shift, if_neg (by omega)]
      · rfl

theorem mem_idxsOf_of_getElem? {xs : List α} {x : α} {i : Nat} (hi : xs[i]? = some x) :
    i ∈ xs.idxsOf x := by
  obtain ⟨lt, eq⟩ := List.getElem?_eq_some_iff.mp hi
  simp [lt, eq]

end Positions

namespace Dict

variable {d : Dict} {i hash : Nat} {material : Key} {key value : Value}

structure Rep (d : Dict) : Prop where
  materials : d.materials.length = d.entries.length
  hashes : d.hashes.length = d.entries.length
  /-- A bucket has the positions of its hash, each once and in order. -/
  buckets : ∀ hash, (d.index.lookup hash).getD [] = d.hashes.idxsOf hash
  nonempty : ∀ hash, d.index.lookup hash ≠ some []

theorem empty_rep : empty.Rep := ⟨rfl, rfl, fun _ => rfl, fun _ eq => by cases eq⟩

theorem Rep.epochs (rep : d.Rep) (version mutationVersion : Nat) :
    { d with version, mutationVersion }.Rep :=
  ⟨rep.materials, rep.hashes, rep.buckets, rep.nonempty⟩

theorem Rep.replaceValue (rep : d.Rep) (i : Nat) (value : Value) : (d.replaceValue i value).Rep :=
  ⟨by simpa [Dict.replaceValue] using rep.materials, by simpa [Dict.replaceValue] using rep.hashes,
    rep.buckets, rep.nonempty⟩

theorem Rep.append (rep : d.Rep) (hash : Nat) (material : Key) (key value : Value) :
    (d.append hash material key value).Rep where
  materials := by simp [Dict.append, rep.materials]
  hashes := by simp [Dict.append, rep.hashes]
  buckets other := by
    simp only [Dict.append, List.idxsOf_append, Nat.zero_add]
    by_cases eq : other = hash
    · subst eq
      simp [rep.buckets, rep.hashes]
    · rw [AList.lookup_insert_ne eq, rep.buckets]
      simp [Ne.symm eq]
  nonempty other := by
    simp only [Dict.append]
    by_cases eq : other = hash
    · subst eq
      simp
    · rw [AList.lookup_insert_ne eq]
      exact rep.nonempty other

theorem lookup_shiftIndex (index : AList fun _ : Nat => List Nat) (i hash : Nat) :
    (shiftIndex index i).lookup hash = (index.lookup hash).map (·.map (shift i)) := by
  have map := List.dlookup_map₂ (l := index.entries)
    (f := fun _ (bucket : List Nat) => bucket.map (shift i)) hash
  exact map

/-- The bucket of a removed entry. -/
def bucketWithout (d : Dict) (hash i : Nat) : AList fun _ : Nat => List Nat :=
  let bucket := (d.hashes.idxsOf hash).erase i
  shiftIndex (if bucket = [] then d.index.erase hash else d.index.insert hash bucket) i

/-- The dictionary without the entry at a position. -/
def without (d : Dict) (i : Nat) : Dict :=
  { d with
    entries := d.entries.eraseIdx i
    materials := d.materials.eraseIdx i
    hashes := d.hashes.eraseIdx i
    index := d.bucketWithout ((d.hashes[i]?).getD 0) i }

theorem removeAt_eq (rep : d.Rep) (hi : i < d.entries.length) : d.removeAt i = .ok (d.without i) := by
  obtain ⟨hash, hh⟩ : ∃ hash, d.hashes[i]? = some hash :=
    ⟨_, List.getElem?_eq_getElem (rep.hashes ▸ hi)⟩
  have bucket := rep.buckets hash
  have mem := mem_idxsOf_of_getElem? hh
  cases found : d.index.lookup hash with
  | none =>
    rw [found] at bucket
    rw [← show [] = d.hashes.idxsOf hash from bucket] at mem
    cases mem
  | some slots =>
    rw [found] at bucket
    subst bucket
    simp only [removeAt, hh, found, mem, not_true_eq_false, if_false, without, bucketWithout,
      Option.getD_some]
    rfl

theorem Rep.without (rep : d.Rep) (hi : i < d.entries.length) : (d.without i).Rep := by
  obtain ⟨hash, hh⟩ : ∃ hash, d.hashes[i]? = some hash :=
    ⟨_, List.getElem?_eq_getElem (rep.hashes ▸ hi)⟩
  have lookup (other : Nat) : (d.without i).index.lookup other =
      if other = hash then
        if (d.hashes.idxsOf hash).erase i = [] then none
        else some (((d.hashes.idxsOf hash).erase i).map (shift i))
      else (d.index.lookup other).map (·.map (shift i)) := by
    simp only [Dict.without, hh, Option.getD_some, bucketWithout, lookup_shiftIndex]
    by_cases eq : other = hash
    · subst eq
      split <;> simp [*]
    · split <;> simp [*]
  constructor
  · simp [Dict.without, rep.materials, List.length_eraseIdx]
  · simp [Dict.without, rep.hashes, List.length_eraseIdx]
  · intro other
    rw [lookup]
    show _ = (d.hashes.eraseIdx i).idxsOf other
    rw [idxsOf_eraseIdx, Nat.add_zero]
    by_cases eq : other = hash
    · subst eq
      rw [if_pos rfl]
      split <;> simp [*]
    · rw [if_neg eq, ← rep.buckets]
      rw [List.erase_of_not_mem]
      · cases d.index.lookup other <;> rfl
      · rw [rep.buckets]
        intro mem
        obtain ⟨_, same⟩ := List.mem_idxsOf_iff_exists_getElem_pos.mp mem
        exact eq ((beq_iff_eq.mp same).symm.trans (List.getElem?_eq_some_iff.mp hh).2)
  · intro other
    rw [lookup]
    split
    · split
      · exact fun eq => by cases eq
      · simp [*]
    · cases found : d.index.lookup other with
      | none => exact fun eq => by cases eq
      | some bucket =>
        have := rep.nonempty other
        simp_all

/-! ### Whole operations -/

/-- A value for the entry at a position, or a new entry. -/
def stored (d : Dict) (found : Option Nat) (hash : Nat) (material : Key) (key value : Value) : Dict :=
  match found with
  | some i => { d.replaceValue i value with mutationVersion := d.mutationVersion + 1 }
  | none =>
    { d.append hash material key value with
      version := d.version + 1, mutationVersion := d.mutationVersion + 1 }

/-- Both epochs can move on so many times. -/
def HasEpochs (d : Dict) (n : Nat) : Prop :=
  d.version + n < 2 ^ 64 ∧ d.mutationVersion + n < 2 ^ 64

def removed (d : Dict) (i : Nat) : Dict :=
  { d.without i with version := d.version + 1, mutationVersion := d.mutationVersion + 1 }

def cleared (d : Dict) : Dict :=
  { d with
    entries := [], materials := [], hashes := [], index := ∅
    version := d.version + 1, mutationVersion := d.mutationVersion + 1 }

/-- One entry after the other, as `dict_merge` stores them. -/
def putAll [HostLibrary] (d : Dict) (items : List (Key × Value × Value)) : Dict :=
  items.foldl (fun d item =>
    d.stored (d.find item.1) (hashKey item.1) item.1 item.2.1 item.2.2) d

theorem Rep.stored (rep : d.Rep) (found : Option Nat) (hash : Nat) (material : Key)
    (key value : Value) : (d.stored found hash material key value).Rep := by
  cases found with
  | some i =>
    have rep := rep.replaceValue i value
    exact ⟨rep.materials, rep.hashes, rep.buckets, rep.nonempty⟩
  | none =>
    have rep := rep.append hash material key value
    exact ⟨rep.materials, rep.hashes, rep.buckets, rep.nonempty⟩

theorem Rep.putAll [HostLibrary] (rep : d.Rep) (items : List (Key × Value × Value)) :
    (d.putAll items).Rep := by
  induction items generalizing d with
  | nil => exact rep
  | cons item items ih => exact ih (rep.stored ..)

theorem HasEpochs.stored {n : Nat} {found : Option Nat} (epochs : d.HasEpochs (n + 1)) :
    (d.stored found hash material key value).HasEpochs n := by
  obtain ⟨version, mutationVersion⟩ := epochs
  cases found <;> refine ⟨?_, ?_⟩ <;> simp only [Dict.stored, replaceValue, append] <;> omega

theorem Rep.removed (rep : d.Rep) (hi : i < d.entries.length) : (d.removed i).Rep := by
  have rep := rep.without hi
  exact ⟨rep.materials, rep.hashes, rep.buckets, rep.nonempty⟩

theorem cleared_rep (d : Dict) : d.cleared.Rep :=
  ⟨rfl, rfl, fun _ => rfl, fun _ eq => by cases eq⟩

/-! ### Finding an entry by its material -/

theorem find_some [HostLibrary] (rep : d.Rep) (found : d.find material = some i) :
    d.materials[i]? = some material ∧ d.hashes[i]? = some (hashKey material) := by
  unfold find at found
  rw [rep.buckets] at found
  obtain ⟨lt, eq⟩ := List.mem_idxsOf_iff_exists_getElem_pos.mp (List.mem_of_find?_eq_some found)
  have same := List.find?_some found
  refine ⟨?_, List.getElem?_eq_some_iff.mpr ⟨lt, beq_iff_eq.mp eq⟩⟩
  cases at' : d.materials[i]? with
  | none => simp [at'] at same
  | some m =>
    simp only [at', Option.any_some, Key.compare_beq_eq] at same
    rw [same]

theorem find_none [HostLibrary] (rep : d.Rep) (absent : d.find material = none) (hash : d.hashes[i]? =
    some (hashKey material)) : d.materials[i]? ≠ some material := by
  intro at'
  unfold find at absent
  rw [rep.buckets] at absent
  have mem : i ∈ d.hashes.idxsOf (hashKey material) := mem_idxsOf_of_getElem? hash
  have differs := List.find?_eq_none.mp absent i mem
  simp [at'] at differs

end Dict

end Tonic
