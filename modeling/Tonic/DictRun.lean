import Mathlib.Logic.Relation
import Tonic.DictOps

/-!
## Runs of a dictionary or a set

The operations in any order, with the rest of the interpreter between them.
-/

namespace Tonic

open Effect Heap Ordered Outcome

variable [HostLibrary]

namespace Heap

/-- The dictionary or set that a value is, or that is its native part. -/
def container (h : Heap) (owner : Value) : Option Dict :=
  ((h.tryGet (h.nativeValue owner)).bind Object.hashed).map (·.1)

/-- A change of the heap by the rest of the interpreter. It leaves the container alone, and a key
that the program adds no method to is the same key as before. -/
structure Beside (h t : Heap) (owner : Value) (d : Dict) : Prop where
  sound : Sound t
  issued : ∀ {v}, h.Issued v → t.Issued v
  native : t.nativeValue owner = h.nativeValue owner
  same : t.tryGet (h.nativeValue owner) = h.tryGet (h.nativeValue owner)
  keys : ∀ l ∈ d.labels, t.Native l.2.2 → h.Native l.2.2 ∧ t.dictKey l.2.2 = h.dictKey l.2.2

/-- A container whose dictionary is fair. -/
structure Holds (h : Heap) (owner : Value) (o : Object) (d : Dict) (wrap : Dict → Object) : Prop where
  sound : Sound h
  issued : h.Issued owner
  object : h.tryGet (h.nativeValue owner) = some o
  hashed : o.hashed = some (d, wrap)
  fair : d.Fair h

section Holds

variable {h t : Heap} {owner : Value} {o : Object} {d d' : Dict} {wrap : Dict → Object}

theorem Holds.container (holds : h.Holds owner o d wrap) : h.container owner = some d := by
  simp [Heap.container, holds.object, holds.hashed]

omit [HostLibrary] in
theorem hashed_wrap (d' : Dict) (hashed : o.hashed = some (d, wrap)) :
    o.isContainer = true ∧ (wrap d').isContainer = true ∧ (wrap d').hashed = some (d', wrap) ∧
      ∀ key ∈ d.keys, key ∈ o.trace := by
  cases o <;> cases hashed
  · refine ⟨rfl, rfl, rfl, fun key mem => ?_⟩
    obtain ⟨entry, inside, rfl⟩ := List.mem_map.mp mem
    exact mem_pairs.mpr ⟨entry, inside, .inl rfl⟩
  · exact ⟨rfl, rfl, rfl, fun key mem => mem⟩

omit [HostLibrary] in
theorem key_of_label {l : Nat × Key × Value} (mem : l ∈ d.labels) : l.2.2 ∈ d.keys :=
  (List.of_mem_zip (List.of_mem_zip mem).2).2

theorem Holds.issued_key (holds : h.Holds owner o d wrap) {l : Nat × Key × Value}
    (mem : l ∈ d.labels) : h.Issued l.2.2 :=
  holds.sound.valid.issued_trace holds.object
    ((hashed_wrap d holds.hashed).2.2.2 _ (key_of_label mem))

theorem Holds.beside (holds : h.Holds owner o d wrap) (beside : Beside h t owner d) :
    t.Holds owner o d wrap where
  sound := beside.sound
  issued := beside.issued holds.issued
  object := by rw [beside.native, beside.same, holds.object]
  hashed := holds.hashed
  fair := holds.fair.of_same beside.keys

/-- What leaves the issued values alike is beside the container. -/
theorem Holds.beside_of_alike (holds : h.Holds owner o d wrap) (after : After h t)
    (alike : h.Alike t h.Issued)
    (same : t.tryGet (h.nativeValue owner) = h.tryGet (h.nativeValue owner)) :
    Beside h t owner d where
  sound := after.1
  issued := after.2.issued
  native := alike.nativeValue holds.issued
  same := same
  keys _ mem native := ⟨(alike.native (holds.issued_key mem)).mp native,
    alike.dictKeyAt (holds.issued_key mem)⟩

omit [HostLibrary] in
theorem Unchanged.alike (same : Unchanged h t) (hv : h.Valid) : h.Alike t h.Issued where
  same _ := .inl (congrFun same _)
  closed _ := hv.issued_trace

omit [HostLibrary] in
/-- An object that was not there before is alike for the values that were. -/
theorem Stores.alike_new {key : Value} (stores : Stores h t key o) (hv : h.Valid)
    (new : ¬ h.Issued key) : h.Alike t h.Issued where
  same issued := .inl (stores.others fun eq => new (eq ▸ issued))
  closed _ := hv.issued_trace

/-- The stored dictionary takes the place of the old one. -/
theorem Holds.stores (holds : h.Holds owner o d wrap) (after : After h t)
    (stores : Stores h t (h.nativeValue owner) (wrap d')) (fair : d'.Fair h) :
    t.Holds owner (wrap d') d' wrap := by
  obtain ⟨kind, kind', hashed, -⟩ := hashed_wrap d' holds.hashed
  have alike := stores.alike holds.object kind kind'
  refine ⟨after.1, after.2.issued holds.issued, ?_, hashed, ?_⟩
  · rw [alike.nativeValue trivial]
    exact stores.stored
  · exact fair.of_same fun l _ native =>
      ⟨(alike.native trivial).mp native, alike.dictKeyAt trivial⟩

theorem Holds.allNative (holds : h.Holds owner o d wrap)
    (stores : Stores h t (h.nativeValue owner) (wrap d')) (all : d'.AllNative h) :
    d'.AllNative t := by
  obtain ⟨kind, kind', -⟩ := hashed_wrap d' holds.hashed
  exact fun l mem => ((stores.alike holds.object kind kind').native trivial).mpr (all l mem)

omit [HostLibrary] in
/-- A string is a key of its own. -/
theorem native_str {key : Value} {name : String} (hk : h.tryGet key = some (.str name)) :
    h.Native key ∧ h.dictKey key = .ok (.str name) := by
  have native : h.nativeValue key = key := native_of_tryGet hk rfl
  have none (special : String) : h.operatorMethodCall key special = .ok none := by
    simp [operatorMethodCall, specialMethodCall, hk, Object.instanceClass]
  obtain ⟨i, g, rfl⟩ : ∃ i g, key = .heap i g := by
    cases key <;> first | exact ⟨_, _, rfl⟩ | cases hk
  refine ⟨⟨1, ?_⟩, ?_⟩
  · simp [quietAt, plainAt, builtinHash, none, native, content, hk, Object.isStorage]
  · unfold dictKey dictKeyAt
    rw [native]
    simp only [get_ok hk, ok_bind]
    rfl

omit [HostLibrary] in
theorem Beside.trans {h' : Heap} (first : Beside h h' owner d) (second : Beside h' t owner d) :
    Beside h t owner d where
  sound := second.sound
  issued old := second.issued (first.issued old)
  native := second.native.trans first.native
  same := by rw [← first.native, second.same, first.native, first.same]
  keys l mem native := by
    obtain ⟨native, key⟩ := second.keys l mem native
    obtain ⟨native', key'⟩ := first.keys l mem native
    exact ⟨native', key.trans key'⟩

end Holds

end Heap

/-! ### One operation -/

namespace DictOp

variable {h t : Heap} {owner : Value} {o : Object} {d : Dict} {wrap : Dict → Object} {op : DictOp}

/-- What an operation leaves: its container, and the changes it recorded. -/
structure Leaves (h t : Heap) (owner : Value) (d d' : Dict) (wrap : Dict → Object) (op : DictOp) :
    Prop where
  holds : t.Holds owner (wrap d') d' wrap
  follows : Follows d.keys d'.keys
  others : ∀ v, v ≠ h.nativeValue owner → t.tryGet v = h.tryGet v
  records : ∀ changes, op.Records h t owner changes → d.AllNative h →
    d'.AllNative t ∧ d'.contents = changes.foldl Change.apply d.contents

theorem leaves (holds : h.Holds owner o d wrap) (careful : op.Careful h owner d)
    (informed : op.Informed h d) (issued : ∀ v ∈ op.arguments, h.Issued v)
    (noStr : ∀ name value, op ≠ setStr name value) :
    wp (op.run owner) (fun _ t => ∃ d', Leaves h t owner d d' wrap op)
      (fun t => Unchanged h t ∧ After h t) h := by
  refine wp_mono (wp_and (spec holds.sound holds.object holds.hashed holds.fair.rep careful noStr)
    (after holds.sound issued)) ?_ fun _ => id
  rintro _ t ⟨⟨d', makes, stores⟩, after⟩
  have fair := makes.fair informed holds.sound.valid holds.fair
  refine ⟨d', holds.stores after stores fair, makes.follows, fun v => stores.others, ?_⟩
  intro changes records all
  obtain ⟨all', contents⟩ := makes.records informed holds.sound.valid holds.fair all records
  exact ⟨holds.allNative stores all', contents⟩

/-- The key that is made for a string is the only new string. -/
theorem leaves_str {name : String} {value : Value} (holds : h.Holds owner o d wrap)
    (issued : h.Issued value) : wp (dictSetStr owner name value)
      (fun _ t => ∃ h₁ key d', Beside h h₁ owner d ∧ Stores h h₁ key (.str name) ∧
        ¬ h.Issued key ∧ Leaves h₁ t owner d d' wrap (.set key value))
      (fun t => Beside h t owner d ∧ h.Alike t h.Issued) h := by
  have same (h : Heap) : Unchanged h h := rfl
  rw [dictSetStr, wp_bind]
  refine wp_mono (wp_alloc_stores holds.sound (by simp [Object.trace])) ?_ ?_
  · rintro key h₁ ⟨after, stores, new, issuedKey⟩
    have alike := stores.alike_new holds.sound.valid new
    have apart : h.nativeValue owner ≠ key := fun eq =>
      absurd (tryGet_unissued holds.sound.valid new) (by simp [← eq, holds.object])
    have beside := holds.beside_of_alike after alike (stores.others apart)
    have store := @leaves _ h₁ owner o d wrap (.set key value) (holds.beside beside) trivial trivial
      (by simp [arguments, issuedKey, after.2.issued issued]) (fun _ _ eq => by cases eq)
    refine wp_mono store ?_ ?_
    · rintro _ t ⟨d', leaves⟩
      exact ⟨h₁, key, d', beside, stores, new, leaves⟩
    · rintro t ⟨unchanged, after'⟩
      have alike' : h.Alike t h.Issued :=
        ⟨fun old => congrFun unchanged _ ▸ alike.same old, alike.closed⟩
      exact ⟨holds.beside_of_alike (after.trans after') alike'
        ((congrFun unchanged _).trans (stores.others apart)), alike'⟩
  · rintro t ⟨after, rfl⟩
    have alike := (same t).alike holds.sound.valid
    exact ⟨holds.beside_of_alike after alike rfl, alike⟩

end DictOp

/-! ### Runs -/

/-- The heap, and the changes of the container as long as all its keys were native. -/
structure DictState where
  heap : Heap
  history : Option (List (Change Key Value Value))

/-- A call of an operation with values that the program was given. -/
structure DictOp.Called (op : DictOp) (h : Heap) (owner : Value) (d : Dict) : Prop where
  container : h.container owner = some d
  issued : ∀ v ∈ op.arguments, h.Issued v
  careful : op.Careful h owner d
  informed : op.Informed h d

inductive DictStep (owner : Value) : DictState → DictState → Prop where
  | returns {h t : Heap} {d : Dict} {op : DictOp} {past past' : Option (List (Change Key Value Value))}
    (called : op.Called h owner d) (ran : op.run owner h = .ok () t)
    (recorded : past' = none ∨ ∃ old changes, past = some old ∧ op.Records h t owner changes ∧
      past' = some (old ++ changes)) : DictStep owner ⟨h, past⟩ ⟨t, past'⟩
  | fails {h t : Heap} {d : Dict} {op : DictOp} {past : Option (List (Change Key Value Value))}
    {fault : Fault} (called : op.Called h owner d) (ran : op.run owner h = .error fault t) :
    DictStep owner ⟨h, past⟩ ⟨t, past⟩
  | elsewhere {h t : Heap} {d : Dict} {past past' : Option (List (Change Key Value Value))}
    (container : h.container owner = some d) (beside : Beside h t owner d)
    (kept : past' = none ∨ past' = past ∧ d.AllNative t) : DictStep owner ⟨h, past⟩ ⟨t, past'⟩

def DictRun (owner : Value) : DictState → DictState → Prop := Relation.ReflTransGen (DictStep owner)

namespace DictState

structure Starts (owner : Value) (s : DictState) : Prop where
  sound : Sound s.heap
  issued : s.heap.Issued owner
  container : s.heap.container owner = some .empty
  history : s.history = some []

/-- The container is fair, and a recorded history tells what is in it. -/
def Keeps (owner : Value) (s : DictState) (d : Dict) : Prop :=
  (∃ o wrap, s.heap.Holds owner o d wrap) ∧
    ∀ past, s.history = some past → d.AllNative s.heap ∧ d.contents = replay past

variable {owner : Value} {s t : DictState} {d : Dict} {op : DictOp}

omit [HostLibrary] in
theorem container_eq_some {h : Heap} (found : h.container owner = some d) :
    ∃ o wrap, h.tryGet (h.nativeValue owner) = some o ∧ o.hashed = some (d, wrap) := by
  obtain ⟨⟨d', wrap⟩, view, rfl⟩ := Option.map_eq_some_iff.mp found
  obtain ⟨o, ho, hashed⟩ := Option.bind_eq_some_iff.mp view
  exact ⟨o, wrap, ho, hashed⟩

theorem Starts.keeps (start : s.Starts owner) : s.Keeps owner .empty := by
  obtain ⟨o, wrap, ho, hashed⟩ := container_eq_some start.container
  refine ⟨⟨o, wrap, start.sound, start.issued, ho, hashed, Dict.empty_fair⟩, fun past eq => ?_⟩
  rw [start.history] at eq
  cases eq
  exact ⟨fun _ mem => (List.not_mem_nil mem).elim, rfl⟩

/-- An operation that fails leaves the container as it was. -/
theorem failed {h : Heap} {o : Object} {wrap : Dict → Object} (holds : h.Holds owner o d wrap)
    (called : op.Called h owner d) : wp (op.run owner) (fun _ _ => True)
      (fun t => Beside h t owner d ∧ (d.AllNative h → d.AllNative t)) h := by
  have native {t : Heap} (alike : h.Alike t h.Issued) (all : d.AllNative h) : d.AllNative t :=
    fun l mem => (alike.native (holds.issued_key mem)).mpr (all l mem)
  by_cases str : ∃ name value, op = .setStr name value
  · obtain ⟨name, value, rfl⟩ := str
    have issued := called.issued value (by simp [DictOp.arguments])
    exact wp_mono (DictOp.leaves_str holds issued) (fun _ _ _ => trivial)
      fun t ht => ⟨ht.1, native ht.2⟩
  · have leaves := DictOp.leaves holds called.careful called.informed called.issued
      fun name value eq => str ⟨name, value, eq⟩
    refine wp_mono leaves (fun _ _ _ => trivial) ?_
    rintro t ⟨unchanged, after⟩
    have alike := unchanged.alike holds.sound.valid
    exact ⟨holds.beside_of_alike after alike (congrFun unchanged _), native alike⟩

/-- An operation that returns leaves a fair container, changed as recorded. -/
theorem returned {h : Heap} {o : Object} {wrap : Dict → Object} (holds : h.Holds owner o d wrap)
    (called : op.Called h owner d) : wp (op.run owner)
      (fun _ t => ∃ d', t.Holds owner (wrap d') d' wrap ∧ Follows d.keys d'.keys ∧
        ∀ changes, op.Records h t owner changes → d.AllNative h →
          d'.AllNative t ∧ d'.contents = changes.foldl Change.apply d.contents)
      (fun _ => True) h := by
  by_cases str : ∃ name value, op = .setStr name value
  · obtain ⟨name, value, rfl⟩ := str
    have issued := called.issued value (by simp [DictOp.arguments])
    refine wp_mono (DictOp.leaves_str holds issued) ?_ fun _ _ => trivial
    rintro _ t ⟨h₁, key, d', beside, stores, new, leaves⟩
    refine ⟨d', leaves.holds, leaves.follows, fun changes records all => ?_⟩
    cases records with
    | @setStr _ key' _ new' hk' =>
      -- The string that is new in the end was new when the entry was stored.
      have absent := tryGet_unissued holds.sound.valid new'
      have apart : key' ≠ h₁.nativeValue owner := fun eq => by
        rw [eq, beside.native, holds.object] at absent
        cases absent
      rw [leaves.others _ apart, show h₁.tryGet = _ from stores] at hk'
      obtain rfl : key' = key := by
        by_contra differ
        rw [Function.update_of_ne differ, absent] at hk'
        cases hk'
      obtain ⟨native, hm⟩ := native_str stores.stored
      refine leaves.records _ (.set native hm) fun l mem => ?_
      exact ((stores.alike_new holds.sound.valid new).native (holds.issued_key mem)).mpr (all l mem)
  · have leaves := DictOp.leaves holds called.careful called.informed called.issued
      fun name value eq => str ⟨name, value, eq⟩
    refine wp_mono leaves ?_ fun _ _ => trivial
    rintro _ t ⟨d', leaves⟩
    exact ⟨d', leaves.holds, leaves.follows, leaves.records⟩

theorem Keeps.step (keeps : s.Keeps owner d) (step : DictStep owner s t) :
    ∃ d', t.Keeps owner d' ∧ Follows d.keys d'.keys := by
  obtain ⟨⟨o, wrap, holds⟩, told⟩ := keeps
  cases step with
  | @returns h t e op past past' called ran recorded =>
    obtain rfl : d = e := Option.some.inj (holds.container.symm.trans called.container)
    obtain ⟨d', holds', follows, records⟩ := wp_returned (returned holds called) ran
    refine ⟨d', ⟨⟨_, _, holds'⟩, fun new eq => ?_⟩, follows⟩
    obtain rfl | ⟨old, changes, rfl, records', rfl⟩ := recorded
    · cases eq
    · cases eq
      obtain ⟨all, contents⟩ := told old rfl
      obtain ⟨all', contents'⟩ := records changes records' all
      refine ⟨all', ?_⟩
      rw [contents', contents, replay, replay, List.foldl_append]
  | @fails h t e op past fault called ran =>
    obtain rfl : d = e := Option.some.inj (holds.container.symm.trans called.container)
    obtain ⟨beside, native⟩ := wp_failed (failed holds called) ran
    refine ⟨d, ⟨⟨o, wrap, holds.beside beside⟩, fun past eq => ?_⟩, .refl _⟩
    exact ⟨native (told past eq).1, (told past eq).2⟩
  | @elsewhere h t e past past' container beside kept =>
    obtain rfl : d = e := Option.some.inj (holds.container.symm.trans container)
    refine ⟨d, ⟨⟨o, wrap, holds.beside beside⟩, fun new eq => ?_⟩, .refl _⟩
    obtain rfl | ⟨rfl, all⟩ := kept
    · cases eq
    · exact ⟨all, (told new eq).2⟩

theorem Keeps.run (keeps : s.Keeps owner d) (run : DictRun owner s t) :
    ∃ d', t.Keeps owner d' ∧ Follows d.keys d'.keys := by
  induction run with
  | refl => exact ⟨d, keeps, .refl _⟩
  | tail _ step ih =>
    obtain ⟨d₁, keeps₁, follows₁⟩ := ih
    obtain ⟨d₂, keeps₂, follows₂⟩ := keeps₁.step step
    exact ⟨d₂, keeps₂, follows₁.trans follows₂⟩

end DictState

/-! ### What a run keeps -/

namespace Dict

variable {h : Heap} {owner : Value} {d : Dict} {past : List (Change Key Value Value)}

/-- Two entries with native keys have different keys, however these are compared. -/
def Distinct (h : Heap) (d : Dict) : Prop :=
  ∀ (i j : Nat) (a b x y : Value), d.entries[i]? = some (a, x) → d.entries[j]? = some (b, y) → i ≠ j →
    h.Native a → h.Native b → a ≠ b ∧ (∀ m, h.dictKey a = .ok m → h.dictKey b ≠ .ok m) ∧
      h.equalityProtocol a b ≠ .ok true

/-- A lookup of a native key gives what was stored last under an equal key. -/
structure Answers (h : Heap) (owner : Value) (d : Dict) (past : List (Change Key Value Value)) :
    Prop where
  get : h.tryGet (h.nativeValue owner) = some (.dict d) → ∀ key m, h.Native key →
    h.dictKey key = .ok m → h.dictGet owner key = .ok ((latest m past).map (·.2))
  getStr : h.tryGet (h.nativeValue owner) = some (.dict d) → ∀ name,
    h.dictGetStr owner name = .ok ((latest (.str name) past).map (·.2))
  hashed : ∀ key m hash found, h.Native key → h.dictKey key = .ok m →
    Found h d key hash found → found.bind (d.entries[·]?) = latest m past

theorem Fair.distinct (fair : d.Fair h) (hv : h.Valid) : d.Distinct h := by
  intro i j a b x y ha hb apart nativeA nativeB
  obtain ⟨_, m, label⟩ := label_of_entry fair.rep ha
  obtain ⟨_, m', label'⟩ := label_of_entry fair.rep hb
  obtain ⟨hm, -⟩ := fair.known (List.mem_of_getElem? label) nativeA
  obtain ⟨hm', -⟩ := fair.known (List.mem_of_getElem? label') nativeB
  have differ : m ≠ m' := by
    obtain ⟨hi, labelled⟩ := List.getElem?_eq_some_iff.mp label
    obtain ⟨hj, labelled'⟩ := List.getElem?_eq_some_iff.mp label'
    rcases Nat.lt_or_gt_of_ne apart with lt | gt
    · have := List.pairwise_iff_getElem.mp fair.apart i j hi hj lt
      rw [labelled, labelled'] at this
      exact this nativeA nativeB
    · have := List.pairwise_iff_getElem.mp fair.apart j i hj hi gt
      rw [labelled, labelled'] at this
      exact (this nativeB nativeA).symm
  have material (k : Key) (hk : h.dictKey a = .ok k) : h.dictKey b ≠ .ok k := fun hk' =>
    differ (Except.ok.inj ((hm.symm.trans hk).trans (hk'.symm.trans hm')))
  refine ⟨?_, material, fun equal => ?_⟩
  · rintro rfl
    exact material m hm hm
  · exact differ ((nativeA.decides nativeB hv hm hm' equal).mp rfl)

theorem Fair.answers (fair : d.Fair h) (hv : h.Valid) (all : d.AllNative h)
    (told : d.contents = replay past) : d.Answers h owner past := by
  have entry (m : Key) : (d.materials.idxOf? m).bind (d.entries[·]?) = latest m past := by
    rw [entry_of_material fair.rep, told, get_replay]
  have value (m : Key) : ((d.find m).bind fun i => (d.entries[i]?).map (·.2)) =
      (latest m past).map (·.2) := by
    rw [← entry m, fair.find_eq all, Option.map_bind]
    rfl
  constructor
  · intro hd key m native hm
    unfold dictGet
    simp only [hm, get_ok hd, ok_bind, value m]
    rfl
  · intro hd name
    unfold dictGetStr
    simp only [get_ok hd, ok_bind, value (.str name)]
    rfl
  · intro key m hash found native hm found'
    rw [found'.eq_idxOf hv fair all native hm, entry m]

end Dict

/-- Whatever the operations of both families do to a dictionary or a set, in any order: its index
has each entry once, native keys differ, lookups give what was stored last, the entries stay in
the order they were inserted in, and an operation that fails has changed nothing. -/
theorem dictionary_represented {owner : Value} {s₀ s : DictState} (start : s₀.Starts owner)
    (run : DictRun owner s₀ s) : ∃ d, s.heap.container owner = some d ∧ d.Rep ∧ d.Distinct s.heap ∧
      (∀ past, s.history = some past →
        d.contents = replay past ∧ d.Answers s.heap owner past) ∧
      (∀ t, DictRun owner s t → ∃ d', t.heap.container owner = some d' ∧ Follows d.keys d'.keys) ∧
      ∀ op : DictOp, op.Called s.heap owner d → wp (op.run owner) (fun _ _ => True)
        (fun t => t.nativeValue owner = s.heap.nativeValue owner ∧
          t.tryGet (s.heap.nativeValue owner) = s.heap.tryGet (s.heap.nativeValue owner)) s.heap := by
  obtain ⟨d, keeps, -⟩ := start.keeps.run run
  obtain ⟨o, wrap, holds⟩ := keeps.1
  refine ⟨d, holds.container, holds.fair.rep, holds.fair.distinct holds.sound.valid, ?_, ?_, ?_⟩
  · intro past eq
    obtain ⟨all, told⟩ := keeps.2 past eq
    exact ⟨told, holds.fair.answers holds.sound.valid all told⟩
  · intro t later
    obtain ⟨d', ⟨⟨_, _, holds'⟩, -⟩, follows⟩ := keeps.run later
    exact ⟨d', holds'.container, follows⟩
  · intro op called
    exact wp_mono (DictState.failed holds called) (fun _ _ _ => trivial)
      fun t ht => ⟨ht.1.native, ht.1.same⟩

section NanKey

omit [HostLibrary]

def subclass : Class :=
  { root := false, id := 1, version := 1, name := "Measure", metaclass := .none
    namespaceMapping := none, attributes := [], extraAttributes := []
    dictionaryOrder := [], bases := [], mro := [], dependents := [] }

/-- An instance of a float subclass that holds a NaN, and an empty dictionary. -/
def nanKey : Heap :=
  final (alloc (.dict .empty)) <|
  final (alloc (.instanceObject (.heap 1 1) (.slots 0 []) (some (.heap 0 1)))) <|
  final (alloc (.classObject subclass)) <|
  final (alloc (.float ⟨0x7ff8000000000000, by decide⟩)) .empty

theorem nanKey_starts [HostLibrary] : (DictState.mk nanKey (some [])).Starts (.heap 3 1) := by
  have reach := HeapReachable.start
    |>.next (.alloc _ (.float ⟨0x7ff8000000000000, by decide⟩) (by simp [Object.trace]))
    |>.next (.alloc _ (.classObject subclass) (by
      intro v hv
      simp only [Object.trace, Class.trace, subclass, pairs, Option.toList_none, List.map_nil,
        List.flatMap_nil, List.append_nil, List.mem_cons, List.not_mem_nil, or_false] at hv
      exact hv ▸ .inl rfl))
    |>.next (.alloc _ (.instanceObject (.heap 1 1) (.slots 0 []) (some (.heap 0 1))) (by
      intro v hv
      simp only [Object.trace, Attributes.trace, Option.toList_some, List.nil_append,
        List.mem_cons, List.not_mem_nil, or_false] at hv
      rcases hv with rfl | rfl
      · exact .inr rfl
      · exact .inl (.inr rfl)))
    |>.next (.alloc _ (.dict .empty) (by simp [Object.trace, Dict.empty, pairs]))
  have sound : Sound nanKey := (HeapState.reachable_proper reach).sound
  exact ⟨sound, ⟨_, rfl, .inr ⟨rfl, by decide⟩⟩, rfl, rfl⟩

/-- A dictionary in which `True` was stored. -/
theorem dictionary_represented_true :
    let _ : HostLibrary := ⟨String.length, List.length, fun _ => ""⟩
    ∃ d, (final (dictSet (.heap 3 1) (.bool true) .none) nanKey).container (.heap 3 1) = some d ∧
      d.contents = [(.smallInt 1, .bool true, .none)] := by
  intro _
  have native : nanKey.Native (.bool true) := ⟨1, rfl⟩
  have stored : DictStep (.heap 3 1) ⟨nanKey, some []⟩
      ⟨final (dictSet (.heap 3 1) (.bool true) .none) nanKey,
        some ([] ++ [.put (.smallInt 1) (.bool true) .none])⟩ := by
    have called : (DictOp.set (.bool true) .none).Called nanKey (.heap 3 1) .empty :=
      ⟨rfl, by simp [DictOp.arguments, Issued], trivial, trivial⟩
    exact .returns called rfl (.inr ⟨_, _, rfl, .set native rfl, rfl⟩)
  obtain ⟨d, container, -, -, told, -⟩ :=
    dictionary_represented nanKey_starts (.single stored)
  exact ⟨d, container, (told _ rfl).1⟩

/-- The NaN is stored with the hash of its key material, and then with the one that the hash
protocol computes. -/
def storedOnce : Heap :=
  let _ : HostLibrary := ⟨String.length, List.length, fun _ => ""⟩
  final (dictSet (.heap 3 1) (.heap 2 1) .none) nanKey

def storedTwice : Heap :=
  let _ : HostLibrary := ⟨String.length, List.length, fun _ => ""⟩
  final (hashSetHashed (.heap 3 1) (.heap 2 1) .none 34359738368 none) storedOnce

theorem storedOnce_container : ∃ d, storedOnce.container (.heap 3 1) = some d ∧
    (d.index.lookup (asU64 34359738368)).getD [] = [] := by
  refine Option.map_eq_some_iff.mp (?_ : (storedOnce.container (.heap 3 1)).map
    (fun d => (d.index.lookup (asU64 34359738368)).getD []) = some [])
  decide +kernel

theorem storedTwice_container : ∃ d, storedTwice.container (.heap 3 1) = some d ∧
    d.keys = [.heap 2 1, .heap 2 1] := by
  refine Option.map_eq_some_iff.mp (?_ : (storedTwice.container (.heap 3 1)).map Dict.keys = some _)
  decide +kernel

theorem storedTwice_run :
    let _ : HostLibrary := ⟨String.length, List.length, fun _ => ""⟩
    DictRun (.heap 3 1) ⟨nanKey, some []⟩ ⟨storedTwice, none⟩ := by
  intro _
  have young : nanKey.Issued (.heap 2 1) := ⟨_, rfl, .inr ⟨rfl, by decide⟩⟩
  have immediate (h : Heap) : h.Issued .none := trivial
  have ran : dictSet (.heap 3 1) (.heap 2 1) .none nanKey = .ok () storedOnce :=
    ran_final (by decide +kernel)
  have old : storedOnce.Issued (.heap 2 1) :=
    (wp_returned (dictSet_after nanKey_starts.sound young (immediate _)) ran).2.issued young
  have ranAgain : hashSetHashed (.heap 3 1) (.heap 2 1) .none 34359738368 none storedOnce =
      .ok () storedTwice := ran_final (by decide +kernel)
  obtain ⟨d, container, bucket⟩ := storedOnce_container
  have first : DictStep (.heap 3 1) ⟨nanKey, some []⟩ ⟨storedOnce, none⟩ := by
    have called : (DictOp.set (.heap 2 1) .none).Called nanKey (.heap 3 1) .empty :=
      ⟨rfl, by simp [DictOp.arguments, young, immediate], trivial, trivial⟩
    exact .returns called ran (.inl rfl)
  have second : DictStep (.heap 3 1) ⟨storedOnce, none⟩ ⟨storedTwice, none⟩ := by
    have called : (DictOp.setHashed (.heap 2 1) .none 34359738368 none).Called storedOnce
        (.heap 3 1) d := by
      refine ⟨container, ?_, trivial, .inl ?_, ?_⟩
      · simp [DictOp.arguments, old, immediate]
      · decide +kernel
      · rw [bucket]
        exact .exhausted
    exact .returns called ranAgain (.inl rfl)
  exact .tail (.single first) second

/-- A NaN in an instance of a float subclass is stored twice under one key: the key material has
the identity of the instance, and the hash protocol that of the NaN. -/
theorem nan_stored_twice : ¬ ∀ (_ : HostLibrary) (s₀ s : DictState) (owner : Value) (d : Dict),
    s₀.Starts owner → DictRun owner s₀ s → s.heap.container owner = some d →
    (∀ key ∈ d.keys, s.heap.operatorMethodCall key "__eq__" = .ok none ∧
      s.heap.builtinHash key = true) → d.keys.Nodup := by
  intro distinct
  let library : HostLibrary := ⟨String.length, List.length, fun _ => ""⟩
  obtain ⟨d, container, keys⟩ := storedTwice_container
  have quiet : storedTwice.operatorMethodCall (.heap 2 1) "__eq__" = .ok none ∧
      storedTwice.builtinHash (.heap 2 1) = true := by decide +kernel
  have nodup := distinct library ⟨nanKey, some []⟩ ⟨storedTwice, none⟩ (.heap 3 1) d nanKey_starts
    storedTwice_run container (by simpa [keys] using quiet)
  rw [keys] at nodup
  simp at nodup

end NanKey

end Tonic
