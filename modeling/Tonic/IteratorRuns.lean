import Tonic.DictRun
import Tonic.IteratorsSound
import Tonic.Run

/-!
## Runs of an iterator

Calls of `next` and mutations of the container, in any order, with the rest of the interpreter
between them.
-/

namespace Tonic

open Effect Heap Cursor

/-- The mutations of a container. -/
inductive ContainerOp where
  | appendList (value : Value)
  | replaceList (values : List Value)
  | setItem (key value : Value)
  | deleteItem (key : Value)
  | hashed (op : DictOp)
  | setClassAttr (name : String) (value : Value)
  | deleteClassAttr (name : String)

namespace ContainerOp

def run [HostLibrary] (owner : Value) : ContainerOp → HeapM Unit
  | appendList value => Tonic.appendList owner value
  | replaceList values => Tonic.replaceList owner values
  | setItem key value => Tonic.setItem owner key value
  | deleteItem key => Tonic.deleteItem owner key
  | hashed op => op.run owner
  | setClassAttr name value => Tonic.setClassAttr owner name value
  | deleteClassAttr name => Tonic.deleteClassAttr owner name

def arguments : ContainerOp → List Value
  | appendList value | setClassAttr _ value => [value]
  | replaceList values => values
  | setItem key value => [key, value]
  | deleteItem key => [key]
  | hashed op => op.arguments
  | deleteClassAttr _ => []

/-- The mutations that take entries out of a dictionary. -/
def removes : ContainerOp → Bool
  | deleteItem _ | hashed (.delete _) | hashed (.deleteAt _ _ _) | hashed .clear => true
  | _ => false

/-- A removal finds room in the version counter, and a clear something to remove. -/
def Permitted (op : ContainerOp) (h : Heap) (source : Value) : Prop :=
  ∀ d, h.tryGet source = some (.dict d) →
    (op.removes = true → d.version + 1 < 2 ^ 64) ∧ (op = .hashed .clear → d.entries ≠ [])

variable [HostLibrary] {h : Heap} {owner source : Value} {o : Object} {op : ContainerOp}

theorem after (hs : Sound h) (issued : ∀ v ∈ op.arguments, h.Issued v) :
    wp (op.run owner) (fun _ => After h) (After h) h := by
  cases op with
  | appendList => exact appendList_after hs (issued _ (by simp [arguments]))
  | replaceList => exact replaceList_after hs issued
  | setItem => exact setItem_after hs (issued _ (by simp [arguments])) (issued _ (by simp [arguments]))
  | deleteItem => exact deleteItem_after hs
  | hashed op => exact op.after hs issued
  | setClassAttr => exact setClassAttr_after hs (issued _ (by simp [arguments]))
  | deleteClassAttr => exact deleteClassAttr_after hs

/-- Every mutation turns its container. -/
theorem turned (hs : Sound h) (ho : h.tryGet source = some o) (iterated : isIterated o = true)
    (rep : ∀ d, o = .dict d → d.Rep) (owned : h.nativeValue owner = source)
    (permitted : op.Permitted h source) :
    wp (op.run owner) (fun _ t => Turned h t source) (Turned h · source) h := by
  have ready (removes : op.removes = true) :
      ∀ d, h.tryGet source = some (.dict d) → d.Rep ∧ d.version + 1 < 2 ^ 64 := fun d hd =>
    ⟨rep d (Option.some.inj (ho.symm.trans hd)), (permitted d hd).1 removes⟩
  cases op with
  | appendList => exact appendList_turned hs owned
  | replaceList => exact replaceList_turned hs owned
  | setItem => exact setItem_turned hs ho iterated owned
  | deleteItem => exact deleteItem_turned hs ho owned (ready rfl)
  | setClassAttr => exact setClassAttr_turned hs owned
  | deleteClassAttr => exact deleteClassAttr_turned hs owned
  | hashed op =>
    cases op with
    | set => exact dictSet_turned hs owned
    | setStr => exact dictSetStr_turned hs ho owned
    | delete => exact dictDelete_turned hs owned (ready rfl)
    | merge => exact dictMerge_turned hs ho (isDirect_of_iterated iterated) owned
    | clear => exact dictClear_turned hs owned fun d hd => ⟨(permitted d hd).2 rfl, (ready rfl d hd).2⟩
    | setHashed => exact hashSetHashed_turned hs owned
    | deleteAt => exact dictDeleteAt_turned hs owned (ready rfl)

end ContainerOp

/-! ### Steps -/

/-- What a call of `next` told. -/
inductive Told where
  | item
  | exhausted
  | raised (fault : Fault)

/-- The keys of a container, in order. -/
def Heap.keysOf (h : Heap) (source : Value) : List ClassDictionaryKey :=
  match h.tryGet source with
  | some (.dict d) | some (.set d) => d.keys.map .other
  | some (.classObject c) => c.dictionaryOrder
  | _ => []

open Classical in
/-- The key that a value stands for: a new string is the name of a class attribute. -/
noncomputable def Heap.keyOf (h t : Heap) (v : Value) : ClassDictionaryKey :=
  if h.Issued v then .other v
  else match t.tryGet v with
    | some (.str name) => .string name
    | _ => .other v

/-- A heap, what the calls of `next` told so far, and what is known of the keys they read. -/
structure Iteration where
  heap : Heap
  log : List Told
  reading : Reading ClassDictionaryKey

inductive IteratorAction where
  | next
  | mutate (owner : Value) (op : ContainerOp)
  | elsewhere

/-- A change of the heap by the rest of the interpreter: the iterator and its container are as
they were, apart from the version and the like of a class. -/
structure Heap.Apart (h t : Heap) (it source : Value) : Prop where
  sound : Sound t
  issued : ∀ {v}, h.Issued v → t.Issued v
  iterator : t.tryGet it = h.tryGet it
  container : ∀ {o}, h.tryGet source = some o → t.tryGet source = some o ∨
    ∃ c c', o = .classObject c ∧ t.tryGet source = some (.classObject c') ∧ c.SameDictionary c'

inductive IteratorStep [HostLibrary] (it source : Value) :
    IteratorAction → Iteration → Iteration → Prop where
  | item {s : Iteration} {v : Value} {t : Heap} (ran : iteratorNext it s.heap = .ok (some v) t) :
    IteratorStep it source .next s
      ⟨t, s.log ++ [.item], s.reading.yields (s.heap.keyOf t v)⟩
  | exhausted {s : Iteration} {t : Heap} (ran : iteratorNext it s.heap = .ok none t) :
    IteratorStep it source .next s ⟨t, s.log ++ [.exhausted], s.reading⟩
  | raised {s : Iteration} {fault : Fault} {t : Heap}
    (ran : iteratorNext it s.heap = .error fault t) :
    IteratorStep it source .next s ⟨t, s.log ++ [.raised fault], s.reading⟩
  | mutate {s : Iteration} {owner : Value} {op : ContainerOp}
    (owned : s.heap.nativeValue owner = source) (issued : ∀ v ∈ op.arguments, s.heap.Issued v) :
    IteratorStep it source (.mutate owner op) s
      ⟨final (op.run owner) s.heap, s.log,
        s.reading.change ((final (op.run owner) s.heap).keysOf source)⟩
  | elsewhere {s : Iteration} {t : Heap} (apart : s.heap.Apart t it source) :
    IteratorStep it source .elsewhere s ⟨t, s.log, s.reading.change (t.keysOf source)⟩

/-- What keeps an iterator from the defect when `next` is called. After the end was reported, the
list is no longer than what was read of it, the keys of the dictionary or set never changed, and
the class has as many as at the start. An iterator over a class that has as many entries as at the
start, and is not at its end, has seen no key go away that it read, and finds room for the name. -/
structure Iteration.Ready (s : Iteration) (it : Value) : Prop where
  list : ∀ {source n values}, s.heap.tryGet it = some (.iterator source n) →
    s.heap.tryGet source = some (.list values) → .exhausted ∈ s.log →
    values.length ≤ s.reading.yielded.length
  hashed : ∀ {source n version}, s.heap.tryGet it = some (.dictIterator source n version) →
    .exhausted ∈ s.log → ¬ s.reading.altered
  cls : ∀ {source n size c}, s.heap.tryGet it = some (.mappingProxyIterator source n size) →
    s.heap.tryGet source = some (.classObject c) →
    (.exhausted ∈ s.log → c.dictionaryLen = size) ∧
    (c.dictionaryLen = size → s.reading.yielded.length < size →
      s.reading.intact ∧ 0 < s.heap.room)

def IteratorAction.Permitted (s : Iteration) (it source : Value) : IteratorAction → Prop
  | .next => s.Ready it
  | .mutate _ op => op.Permitted s.heap source
  | .elsewhere => True

/-- The iterator has just been made for a container that is kept as its operations keep it. -/
structure Iteration.Starts (s : Iteration) (it source : Value) : Prop where
  made : ∃ h v, Sound h ∧ h.Issued v ∧ iterator v h = .ok it s.heap ∧ ¬ h.Issued it
  goesOver : ∀ o, s.heap.tryGet it = some o → match o with
    | .iterator container _ | .dictIterator container _ _ | .mappingProxyIterator container _ _ =>
      container = source
    | _ => source = it
  rep : ∀ o d wrap, s.heap.tryGet source = some o → o.hashed = some (d, wrap) → d.Rep
  filed : ∀ c, s.heap.tryGet source = some (.classObject c) → c.Filed
  log : s.log = []
  reading : s.reading = .start (s.heap.keysOf source)

/-- The iterator reads keys, of a dictionary, a set or a class. -/
def Heap.Keyed (h : Heap) (it : Value) : Prop := ∃ source n m,
  h.tryGet it = some (.dictIterator source n m) ∨ h.tryGet it = some (.mappingProxyIterator source n m)

/-- Iteration as it should be. Once the end was told it is told forever. The keys present all the
time are read in order, each as often as it was there, and all of them when the end is told. A
failure is a RuntimeError, after the keys changed. The next item of a list is the one that is at
the position then. -/
structure Iteration.Right (s : Iteration) (it : Value) : Prop where
  permanent : s.log.Pairwise fun a b => a = .exhausted → b = .exhausted
  order : s.reading.lasting s.reading.yielded <+: s.reading.lasting s.reading.first
  complete : .exhausted ∈ s.log →
    s.reading.lasting s.reading.yielded = s.reading.lasting s.reading.first
  raised : s.heap.Keyed it → ∀ fault, .raised fault ∈ s.log →
    s.reading.altered ∧ ∃ message, fault = runtimeError message
  list : ∀ {source n values}, s.heap.tryGet it = some (.iterator source n) →
    s.heap.tryGet source = some (.list values) →
    ∃ t, iteratorNext it s.heap = .ok values[s.reading.yielded.length]? t

/-! ### The invariant -/

/-- Whatever failed is a RuntimeError, and the keys have changed. -/
def Iteration.Blamed (s : Iteration) : Prop :=
  ∀ fault, .raised fault ∈ s.log → s.reading.altered ∧ ∃ message, fault = runtimeError message

/-- What the position of an iterator has to do with what it read. -/
inductive Iteration.Tracks (s : Iteration) (it source : Value) : Prop where
  | range {next stop step : Int} (own : source = it)
    (object : s.heap.tryGet it = some (.rangeIterator next stop step))
    (keys : ∀ k, ¬ s.reading.present k)
    (ended : .exhausted ∈ s.log → rangeOver next stop step)
  | sequence {o : Object} {length : Nat}
    (object : s.heap.tryGet it = some (.iterator source s.reading.yielded.length))
    (container : s.heap.tryGet source = some o) (seq : sequenceLength o = some length)
    (keys : ∀ k, ¬ s.reading.present k)
    (ended : .exhausted ∈ s.log → (∃ values, o = .list values) ∨ length ≤ s.reading.yielded.length)
  | hashed {o : Object} {d : Dict} {wrap : Dict → Object} {version : Nat}
    (object : s.heap.tryGet it = some (.dictIterator source s.reading.yielded.length version))
    (container : s.heap.tryGet source = some o) (view : o.hashed = some (d, wrap)) (rep : d.Rep)
    (keys : s.reading.keys = d.keys.map .other)
    (read : s.reading.yielded = s.reading.first.take s.reading.yielded.length)
    (later : version ≤ d.version) (same : d.version = version → s.reading.keys = s.reading.first)
    (altered : s.reading.altered ↔ d.version ≠ version)
    (ended : .exhausted ∈ s.log → s.reading.first.length ≤ s.reading.yielded.length)
    (told : s.Blamed)
  | cls {c : Class}
    (object : s.heap.tryGet it = some (.mappingProxyIterator source s.reading.yielded.length
      s.reading.first.length))
    (container : s.heap.tryGet source = some (.classObject c)) (filed : c.Filed)
    (keys : s.reading.keys = c.dictionaryOrder) (positioned : s.reading.Positioned)
    (inside : s.reading.yielded.length ≤ s.reading.first.length)
    (ended : .exhausted ∈ s.log → s.reading.first.length ≤ s.reading.yielded.length)
    (told : s.Blamed)

namespace Iteration

variable {s s' : Iteration} {it source : Value}

theorem faithful_of_absent {r : Reading ClassDictionaryKey} (absent : ∀ k, ¬ r.present k) :
    r.Faithful := by
  have empty (keys : List ClassDictionaryKey) : r.lasting keys = [] := by
    simp [Reading.lasting, absent]
  constructor
  · rw [empty, empty]
  · intro
    rw [empty, empty]

theorem Tracks.faithful (tracks : s.Tracks it source) : s.reading.Faithful := by
  cases tracks with
  | range own object keys => exact faithful_of_absent keys
  | sequence object container seq keys => exact faithful_of_absent keys
  | hashed object container view rep keys read => exact .of_take read
  | cls object container filed keys positioned => exact positioned.faithful

theorem Tracks.complete (tracks : s.Tracks it source) (ended : .exhausted ∈ s.log) :
    s.reading.lasting s.reading.yielded = s.reading.lasting s.reading.first := by
  cases tracks with
  | range own object keys => simp [Reading.lasting, keys]
  | sequence object container seq keys => simp [Reading.lasting, keys]
  | hashed object container view rep keys read later same altered all told =>
    exact (Reading.Faithful.of_take read).complete (all ended)
  | cls object container filed keys positioned inside all told =>
    exact positioned.faithful.complete (all ended)

/-! ### Changes of the container -/

theorem keysOf_hashed {h : Heap} {o : Object} {d : Dict} {wrap : Dict → Object}
    (ho : h.tryGet source = some o) (view : o.hashed = some (d, wrap)) :
    h.keysOf source = d.keys.map .other := by
  unfold keysOf
  rw [ho]
  cases o <;> cases view <;> rfl

/-- Keys move on together with the version. -/
theorem turns_version {d d' : Dict} (turns : d.Turns d') :
    d.version ≤ d'.version ∧ (d'.version = d.version ↔ d'.keys = d.keys) := by
  cases turns with
  | grows extra keys version =>
    refine ⟨by omega, fun same => ?_, fun same => ?_⟩
    · have none : extra = [] := List.length_eq_zero_iff.mp (by omega)
      rw [keys, none, List.append_nil]
    · have none : extra = [] := by simpa using keys.symm.trans same
      rw [version, none]
      rfl
  | shrinks fewer version =>
    refine ⟨by omega, fun same => by omega, fun same => ?_⟩
    rw [same] at fewer
    omega

theorem Blamed.turned (told : s.Blamed) {t : Heap} {keys : List ClassDictionaryKey} :
    Blamed ⟨t, s.log, s.reading.change keys⟩ :=
  fun fault mem => ⟨.inl (told fault mem).1, (told fault mem).2⟩

/-- Whatever a mutation makes of the container, the position stays what it was. -/
theorem Tracks.turned (tracks : s.Tracks it source) {t : Heap}
    (object : t.tryGet it = s.heap.tryGet it)
    (turns : ∀ {o}, s.heap.tryGet source = some o → ∃ o', t.tryGet source = some o' ∧ o.Turns o') :
    Tracks ⟨t, s.log, s.reading.change (t.keysOf source)⟩ it source := by
  cases tracks with
  | range own iterator keys ended =>
    exact .range own (object.trans iterator) (fun k present => keys k present.1) ended
  | @sequence o length iterator container seq keys ended =>
    obtain ⟨o', container', turns⟩ := turns container
    obtain ⟨length', seq', ended'⟩ : ∃ length', sequenceLength o' = some length' ∧
        (.exhausted ∈ s.log → (∃ values, o' = .list values) ∨
          length' ≤ s.reading.yielded.length) := by
      cases turns with
      | same => exact ⟨length, seq, ended⟩
      | list values values' => exact ⟨_, rfl, fun _ => .inl ⟨values', rfl⟩⟩
      | hashed view => cases o <;> cases view <;> cases seq
      | cls => cases seq
    exact .sequence (object.trans iterator) container' seq' (fun k present => keys k present.1)
      ended'
  | @hashed o d wrap version iterator container view rep keys read later same altered ended told =>
    obtain ⟨o', container', turns⟩ := turns container
    cases turns with
    | same =>
      have unchanged : s.reading.keys = t.keysOf source :=
        keys.trans (keysOf_hashed container' view).symm
      refine .hashed (object.trans iterator) container' view rep (keysOf_hashed container' view)
        read later (fun eq => unchanged.symm.trans (same eq)) ?_ ended
        told.turned
      show s.reading.altered ∨ t.keysOf source ≠ s.reading.keys ↔ _
      rw [unchanged]
      simpa using altered
    | list => cases view
    | cls => cases view
    | @hashed o d₁ d' wrap₁ view' moved rep' =>
      rw [view] at view'
      cases view'
      have now := keysOf_hashed container' (hashed_wrap d' view).2.2.1
      have injective : Function.Injective ClassDictionaryKey.other := fun _ _ eq => by
        cases eq
        rfl
      obtain ⟨le, iff⟩ := turns_version moved
      have keysIff : t.keysOf source = s.reading.keys ↔ d'.version = d.version := by
        rw [now, keys, iff]
        exact ⟨fun eq => List.map_injective_iff.mpr injective eq, fun eq => by rw [eq]⟩
      refine .hashed (object.trans iterator) container' (hashed_wrap d' view).2.2.1 (rep' rep) now
        read (later.trans le) (fun eq => ?_) ?_ ended told.turned
      · have back : d.version = version := by omega
        exact (keysIff.mpr (by omega)).trans (same back)
      · show s.reading.altered ∨ t.keysOf source ≠ s.reading.keys ↔ _
        have differ : t.keysOf source ≠ s.reading.keys ↔ d'.version ≠ d.version :=
          not_congr keysIff
        rw [altered, differ]
        omega
  | @cls c iterator container filed keys positioned inside ended told =>
    obtain ⟨o', container', turns⟩ := turns container
    obtain ⟨c', rfl, edit, filed'⟩ : ∃ c', o' = .classObject c' ∧
        Edit c.dictionaryOrder c'.dictionaryOrder ∧ c'.Filed := by
      cases turns with
      | same => exact ⟨c, rfl, .none _, filed⟩
      | hashed view => cases view
      | cls edit filed' => exact ⟨_, rfl, edit filed, filed' filed⟩
    have now : t.keysOf source = c'.dictionaryOrder := by simp [keysOf, container']
    refine .cls (object.trans iterator) container' filed' now (positioned.change ?_) inside ended
      told.turned
    rw [keys, now]
    exact edit

/-! ### Calls of `next` -/

theorem keyOf_issued {h t : Heap} {v : Value} (issued : h.Issued v) : h.keyOf t v = .other v :=
  if_pos issued

theorem keyOf_made {h t : Heap} {v : Value} {name : String} (new : ¬ h.Issued v)
    (made : t.tryGet v = some (.str name)) : h.keyOf t v = .string name := by
  simp [keyOf, new, made]

/-- A call that told an item. -/
theorem Tracks.item (tracks : s.Tracks it source) (hs : Sound s.heap) (ready : s.Ready it)
    {v : Value} {t : Heap} (ran : iteratorNext it s.heap = .ok (some v) t) :
    Tracks ⟨t, s.log ++ [.item], s.reading.yields (s.heap.keyOf t v)⟩ it source ∧ Sound t ∧
      (∀ {v}, s.heap.Issued v → t.Issued v) ∧ .exhausted ∉ s.log := by
  have log {P : Prop} (ended : Told.exhausted ∈ s.log → P) :
      Told.exhausted ∈ s.log ++ [.item] → P := fun mem => ended (by simpa using mem)
  have blamed (told : s.Blamed) :
      Blamed ⟨t, s.log ++ [.item], s.reading.yields (s.heap.keyOf t v)⟩ :=
    fun fault mem => told fault (by simpa using mem)
  cases tracks with
  | @range next stop step own iterator keys ended =>
    obtain ⟨after, cases'⟩ := ends_returned (ends_next_range hs iterator) ran
    obtain ⟨-, none, -⟩ | ⟨more, -, moved⟩ := cases'
    · cases none
    · have fresh : .exhausted ∉ s.log := fun mem => more (ended mem)
      exact ⟨.range own moved keys (log fun mem => absurd mem fresh), after.1, after.2.issued, fresh⟩
  | @sequence o length iterator container seq keys ended =>
    obtain ⟨after, past, item, container', iterator'⟩ :=
      ends_returned (ends_next_sequence hs iterator container seq) ran
    have inside : s.reading.yielded.length < length := by
      by_contra beyond
      cases past.mpr (by omega)
    have fresh : .exhausted ∉ s.log := by
      intro mem
      rcases ended mem with ⟨values, rfl⟩ | beyond
      · have := ready.list iterator container mem
        cases seq
        omega
      · omega
    refine ⟨.sequence ?_ container' seq keys (log fun mem => absurd mem fresh), after.1,
      after.2.issued, fresh⟩
    simpa [Reading.yields] using iterator'
  | @hashed o d wrap version iterator container view rep keys read later same altered ended told =>
    obtain ⟨current, at', after, stores⟩ :=
      ends_returned (ends_next_hashed hs iterator container view) ran
    have issued : s.heap.Issued v := hs.valid.issued_trace container
      ((hashed_wrap d view).2.2.2 v (List.mem_of_getElem? at'.symm))
    have apart : source ≠ it := by
      rintro rfl
      rw [iterator] at container
      cases container
      cases view
    have first : s.reading.first[s.reading.yielded.length]? = some (.other v) := by
      rw [← same current, keys, List.getElem?_map, ← at']
      rfl
    have fresh : .exhausted ∉ s.log := by
      intro mem
      have inside := (List.getElem?_eq_some_iff.mp first).1
      have := ended mem
      omega
    refine ⟨.hashed ?_ ((stores.others apart).trans container) view rep keys ?_ later same altered
      (log fun mem => absurd mem fresh) (blamed told), after.1, after.2.issued, fresh⟩
    · simpa [Reading.yields] using stores.stored
    · rw [keyOf_issued issued]
      show s.reading.yielded ++ [.other v] = s.reading.first.take (s.reading.yielded ++ [_]).length
      rw [List.length_append, List.length_singleton, List.take_add_one, first, ← read]
      rfl
  | @cls c iterator container filed keys positioned inside ended told =>
    obtain ⟨size, after, cases'⟩ := ends_returned (ends_next_class hs iterator container filed) ran
    obtain ⟨none, -⟩ | ⟨w, t₁, same, stores, read⟩ := cases'
    · cases none
    cases same
    have apart : source ≠ it := by
      rintro rfl
      rw [iterator] at container
      cases container
    have kept : t₁.tryGet source = some (.classObject c) := (stores.others apart).trans container
    obtain ⟨at', iterator', container'⟩ :
        c.dictionaryOrder[s.reading.yielded.length]? = some (s.heap.keyOf t v) ∧
        t.tryGet it = some (.mappingProxyIterator source (s.reading.yielded.length + 1)
          s.reading.first.length) ∧ t.tryGet source = some (.classObject c) := by
      rcases read with ⟨at', issued, rfl⟩ | ⟨name, at', new, made⟩
      · rw [keyOf_issued issued]
        exact ⟨at', stores.stored, kept⟩
      · rw [keyOf_made new made.stored]
        have other {w : Value} {x : Object} (held : s.heap.tryGet w = some x) : w ≠ v := by
          rintro rfl
          rw [tryGet_unissued hs.valid new] at held
          cases held
        exact ⟨at', (made.others (other iterator)).trans stores.stored,
          (made.others (other container)).trans kept⟩
    have within : s.reading.yielded.length < s.reading.first.length :=
      size ▸ (List.getElem?_eq_some_iff.mp at').1
    have fresh : .exhausted ∉ s.log := by
      intro mem
      have := ended mem
      omega
    obtain ⟨intact, -⟩ := (ready.cls iterator container).2 size within
    refine ⟨.cls ?_ container' filed keys (positioned.yields intact (keys ▸ at') (keys ▸ size)) ?_
      (log fun mem => absurd mem fresh) (blamed told), after.1, after.2.issued, fresh⟩
    · simpa [Reading.yields] using iterator'
    · simpa [Reading.yields] using Nat.succ_le_of_lt within

/-- A call that told the end. -/
theorem Tracks.exhausted (tracks : s.Tracks it source) (hs : Sound s.heap) {t : Heap}
    (ran : iteratorNext it s.heap = .ok none t) :
    Tracks ⟨t, s.log ++ [.exhausted], s.reading⟩ it source ∧ Sound t ∧
      (∀ {v}, s.heap.Issued v → t.Issued v) := by
  have blamed (told : s.Blamed) : Blamed ⟨t, s.log ++ [.exhausted], s.reading⟩ :=
    fun fault mem => told fault (by simpa using mem)
  cases tracks with
  | @range next stop step own iterator keys ended =>
    obtain ⟨after, cases'⟩ := ends_returned (ends_next_range hs iterator) ran
    obtain ⟨beyond, -, rfl⟩ | ⟨-, item, -⟩ := cases'
    · exact ⟨.range own iterator keys fun _ => beyond, after.1, after.2.issued⟩
    · exact absurd rfl item
  | @sequence o length iterator container seq keys ended =>
    obtain ⟨after, beyond, -, container', iterator'⟩ :=
      ends_returned (ends_next_sequence hs iterator container seq) ran
    exact ⟨.sequence iterator' container' seq keys fun _ => .inr (beyond.mp rfl), after.1,
      after.2.issued⟩
  | @hashed o d wrap version iterator container view rep keys read later same altered ended told =>
    obtain ⟨current, at', after, stores⟩ :=
      ends_returned (ends_next_hashed hs iterator container view) ran
    have apart : source ≠ it := by
      rintro rfl
      rw [iterator] at container
      cases container
      cases view
    refine ⟨.hashed stores.stored ((stores.others apart).trans container) view rep keys read later
      same altered (fun _ => ?_) (blamed told), after.1, after.2.issued⟩
    rw [← same current, keys, List.length_map]
    exact List.getElem?_eq_none_iff.mp at'.symm
  | @cls c iterator container filed keys positioned inside ended told =>
    obtain ⟨size, after, cases'⟩ := ends_returned (ends_next_class hs iterator container filed) ran
    obtain ⟨-, beyond, rfl⟩ | ⟨w, t₁, same, -⟩ := cases'
    · refine ⟨.cls iterator container filed keys positioned inside (fun _ => ?_) (blamed told),
        after.1, after.2.issued⟩
      exact size ▸ List.getElem?_eq_none_iff.mp beyond
    · cases same

/-- A call that failed. -/
theorem Tracks.raised (tracks : s.Tracks it source) (hs : Sound s.heap) (ready : s.Ready it)
    {fault : Fault} {t : Heap} (ran : iteratorNext it s.heap = .error fault t) :
    Tracks ⟨t, s.log ++ [.raised fault], s.reading⟩ it source ∧ Sound t ∧
      (∀ {v}, s.heap.Issued v → t.Issued v) ∧ .exhausted ∉ s.log := by
  have log {P : Prop} (ended : Told.exhausted ∈ s.log → P) :
      Told.exhausted ∈ s.log ++ [.raised fault] → P := fun mem => ended (by simpa using mem)
  have blamed (told : s.Blamed) (changed : s.reading.altered)
      (runtime : ∃ message, fault = runtimeError message) :
      Blamed ⟨t, s.log ++ [.raised fault], s.reading⟩ := by
    intro other mem
    simp only [List.mem_append, List.mem_singleton, Told.raised.injEq] at mem
    rcases mem with old | rfl
    · exact told other old
    · exact ⟨changed, runtime⟩
  cases tracks with
  | @range next stop step own iterator keys ended =>
    obtain ⟨after, more, moved⟩ := ends_failed (ends_next_range hs iterator) ran
    have fresh : .exhausted ∉ s.log := fun mem => more (ended mem)
    exact ⟨.range own moved keys (log fun mem => absurd mem fresh), after.1, after.2.issued, fresh⟩
  | @sequence o length iterator container seq keys ended =>
    obtain ⟨rfl, inside⟩ := ends_failed (ends_next_sequence hs iterator container seq) ran
    have fresh : .exhausted ∉ s.log := by
      intro mem
      rcases ended mem with ⟨values, rfl⟩ | beyond
      · have := ready.list iterator container mem
        cases seq
        omega
      · omega
    exact ⟨.sequence iterator container seq keys (log fun mem => absurd mem fresh), hs, id, fresh⟩
  | @hashed o d wrap version iterator container view rep keys read later same altered ended told =>
    obtain ⟨rfl, differ, rfl⟩ := ends_failed (ends_next_hashed hs iterator container view) ran
    have changed := altered.mpr differ
    have fresh : .exhausted ∉ s.log := fun mem => ready.hashed iterator mem changed
    exact ⟨.hashed iterator container view rep keys read later same altered
      (log fun mem => absurd mem fresh) (blamed told changed ⟨_, rfl⟩), hs, id, fresh⟩
  | @cls c iterator container filed keys positioned inside ended told =>
    obtain ⟨after, cases'⟩ := ends_failed (ends_next_class hs iterator container filed) ran
    obtain ⟨rfl, differ, rfl⟩ | ⟨size, more, full⟩ := cases'
    · have changed : s.reading.altered := by
        by_contra unaltered
        have same := positioned.unaltered unaltered
        rw [keys] at same
        exact differ (congrArg List.length same)
      have fresh : .exhausted ∉ s.log := fun mem =>
        differ ((ready.cls iterator container).1 mem)
      exact ⟨.cls iterator container filed keys positioned inside (log fun mem => absurd mem fresh)
        (blamed told changed ⟨_, rfl⟩), hs, id, fresh⟩
    · have room := ((ready.cls iterator container).2 size (size ▸ more)).2
      omega

/-! ### Runs -/

/-- What a run keeps. -/
structure Kept (s : Iteration) (it source : Value) : Prop where
  sound : Sound s.heap
  permanent : s.log.Pairwise fun a b => a = .exhausted → b = .exhausted
  tracks : s.Tracks it source

theorem permanent_append {log : List Told} {last : Told}
    (permanent : log.Pairwise fun a b => a = .exhausted → b = .exhausted)
    (ok : .exhausted ∈ log → last = .exhausted) :
    (log ++ [last]).Pairwise fun a b => a = .exhausted → b = .exhausted := by
  refine List.pairwise_append.mpr ⟨permanent, List.pairwise_singleton _ _, ?_⟩
  rintro a mem b last' rfl
  rw [List.mem_singleton.mp last']
  exact ok mem

/-- No mutation is of an iterator. -/
theorem turns_iterator {o o' : Object} (turns : o.Turns o') (other : o.hashed = none)
    (noList : ∀ values, o ≠ .list values) (noClass : ∀ c, o ≠ .classObject c) : o' = o := by
  cases turns with
  | same => rfl
  | list values => exact absurd rfl (noList values)
  | hashed view =>
    rw [other] at view
    cases view
  | @cls c => exact absurd rfl (noClass c)

/-- What iterates is an iterator, and what it iterates over is a container. -/
theorem Tracks.objects (tracks : s.Tracks it source) :
    (∃ o, s.heap.tryGet it = some o ∧ (∀ c, o ≠ .classObject c) ∧ (∀ values, o ≠ .list values) ∧
      o.hashed = none) ∧
    ∃ o, s.heap.tryGet source = some o ∧ isIterated o = true ∧ ∀ d, o = .dict d → d.Rep := by
  cases tracks with
  | range own iterator =>
    subst own
    exact ⟨⟨_, iterator, by simp, by simp, rfl⟩, _, iterator, rfl, by simp⟩
  | @sequence o length iterator container seq =>
    refine ⟨⟨_, iterator, by simp, by simp, rfl⟩, _, container, ?_, fun d eq => ?_⟩
    · cases o <;> first | rfl | cases seq
    · rw [eq] at seq
      cases seq
  | @hashed o d wrap version iterator container view rep =>
    refine ⟨⟨_, iterator, by simp, by simp, rfl⟩, _, container, ?_, fun d' eq => ?_⟩
    · cases o <;> first | rfl | cases view
    · rw [eq] at view
      cases view
      exact rep
  | cls iterator container => exact ⟨⟨_, iterator, by simp, by simp, rfl⟩, _, container, rfl, by simp⟩

theorem Kept.step [HostLibrary] {action : IteratorAction} (kept : s.Kept it source)
    (permitted : action.Permitted s it source) (step : IteratorStep it source action s s') :
    s'.Kept it source := by
  obtain ⟨sound, permanent, tracks⟩ := kept
  cases step with
  | item ran =>
    obtain ⟨tracks', sound', -, fresh⟩ := tracks.item sound permitted ran
    exact ⟨sound', permanent_append permanent fun mem => absurd mem fresh, tracks'⟩
  | exhausted ran =>
    obtain ⟨tracks', sound', -⟩ := tracks.exhausted sound ran
    exact ⟨sound', permanent_append permanent fun _ => rfl, tracks'⟩
  | raised ran =>
    obtain ⟨tracks', sound', -, fresh⟩ := tracks.raised sound permitted ran
    exact ⟨sound', permanent_append permanent fun mem => absurd mem fresh, tracks'⟩
  | @mutate s owner op owned issued =>
    obtain ⟨⟨o, iterator, plain, noList, other⟩, o', container, iterated, rep⟩ := tracks.objects
    have after : After s.heap (final (op.run owner) s.heap) := wp_final (op.after sound issued)
    have turned := wp_final (op.turned sound container iterated rep owned permitted)
    refine ⟨after.1, permanent, tracks.turned ?_ turned.turns⟩
    by_cases same : source = it
    · subst same
      obtain ⟨o₁, found, turns⟩ := turned.turns iterator
      rw [found, iterator, turns_iterator turns other noList plain]
    · rw [turned.others (Ne.symm same) iterator plain, iterator]
  | elsewhere apart =>
    refine ⟨apart.sound, permanent, tracks.turned apart.iterator fun {o} ho => ?_⟩
    rcases apart.container ho with same | ⟨c, c', rfl, found, same⟩
    · exact ⟨o, same, .same o⟩
    · refine ⟨_, found, .cls (fun _ => ?_) same.filed⟩
      rw [same.order]
      exact .none _

/-- An iterator that was just made is at the start of its container. -/
theorem Starts.kept (start : s.Starts it source) : s.Kept it source := by
  obtain ⟨h, v, hs, -, ran, new⟩ := start.made
  obtain ⟨⟨sound, later⟩, o, iterates, stores⟩ :=
    (wp_returned (iterator_spec hs) ran).resolve_left new
  obtain ⟨heap, log, reading⟩ := s
  obtain rfl : log = [] := start.log
  have first : reading = .start (heap.keysOf source) := start.reading
  subst first
  have goes := start.goesOver o stores.stored
  have kept {w : Value} {x : Object} (hx : h.tryGet w = some x) : heap.tryGet w = some x :=
    (stores.others fun eq => new (eq ▸ issued_of_tryGet hs hx)).trans hx
  have ended {P : Prop} : Told.exhausted ∈ ([] : List Told) → P := fun mem => by cases mem
  refine ⟨sound, .nil, ?_⟩
  cases iterates with
  | range ho =>
    obtain rfl : source = it := goes
    refine .range rfl stores.stored (fun k present => ?_) ended
    have none : heap.keysOf source = [] := by simp [keysOf, stores.stored]
    simp [Reading.start, none] at present
  | @sequence o length ho seq =>
    obtain rfl : h.nativeValue v = source := goes
    refine .sequence stores.stored (kept ho) seq (fun k present => ?_) ended
    have none : heap.keysOf (h.nativeValue v) = [] := by
      unfold keysOf
      rw [kept ho]
      cases o <;> first | rfl | cases seq
    simp [Reading.start, none] at present
  | @hashed o d wrap ho view =>
    obtain rfl : h.nativeValue v = source := goes
    have rep := start.rep o d wrap (kept ho) view
    exact .hashed stores.stored (kept ho) view rep (keysOf_hashed (kept ho) view) rfl (Nat.le_refl _)
      (fun _ => rfl) (by simp [Reading.start]) ended fun fault mem => by cases mem
  | @cls cls c hc =>
    obtain rfl : cls = source := goes
    have keys : heap.keysOf cls = c.dictionaryOrder := by simp [keysOf, kept hc]
    refine .cls ?_ (kept hc) (start.filed c (kept hc)) keys (.start _) (Nat.zero_le _) ended
      fun fault mem => by cases mem
    show heap.tryGet it = some (.mappingProxyIterator cls 0 (heap.keysOf cls).length)
    rw [keys]
    exact stores.stored

/-- What is kept is what is right. -/
theorem Kept.right (kept : s.Kept it source) : s.Right it where
  permanent := kept.permanent
  order := kept.tracks.faithful.order
  complete := kept.tracks.complete
  raised keyed fault mem := by
    obtain ⟨source', n, m, keyed⟩ := keyed
    have other {o : Object} (object : s.heap.tryGet it = some o)
        (differ : o ≠ .dictIterator source' n m ∧ o ≠ .mappingProxyIterator source' n m) : False := by
      rcases keyed with found | found
      · exact differ.1 (Option.some.inj (object.symm.trans found))
      · exact differ.2 (Option.some.inj (object.symm.trans found))
    cases kept.tracks with
    | range own iterator => exact (other iterator (by simp)).elim
    | sequence iterator => exact (other iterator (by simp)).elim
    | hashed iterator container view rep keys read later same altered ended told =>
      exact told fault mem
    | cls iterator container filed keys positioned inside ended told => exact told fault mem
  list {source' n values} object list := by
    have reads : ends (iteratorNext it) (fun r _ => r = values[s.reading.yielded.length]?)
        (fun _ _ => False) s.heap := by
      have same {o : Object} (found : s.heap.tryGet it = some o) : o = .iterator source' n :=
        Option.some.inj (found.symm.trans object)
      cases kept.tracks with
      | range own iterator => cases same iterator
      | @sequence o length iterator container seq =>
        cases same iterator
        rw [list] at container
        cases container
        have runs := ends_next_sequence kept.sound iterator list rfl
        exact ends_mono runs (fun r t told => told.2.2.1 values rfl) fun _ t failed =>
          failed.2.2 values rfl
      | hashed iterator => cases same iterator
      | cls iterator => cases same iterator
    unfold ends at reads
    split at reads
    · next r t ran => exact ⟨t, by rw [ran, reads]⟩
    · exact reads.elim

end Iteration

section Revived

def emptyList : Heap := final (alloc (.list [])) .empty

def listOwner : Value := .heap 0 1

def iterated : Heap := final (iterator listOwner) emptyList

end Revived

end Tonic
