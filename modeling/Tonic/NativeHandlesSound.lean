import Tonic.Collection
import Tonic.NativeHandles
import Tonic.Stores

/-!
## Native handles are safe

The tables are compared with a registry that records what every handle was made for and whether it
is still open. A slot may be used again, a token never is.
-/

namespace Tonic

open Effect

namespace HandleTable

variable {t u : HandleTable} {h h' : Handle} {v : Value} {kind : HandleKind}

/-- What an open handle stands for. -/
def found (t : HandleTable) (h : Handle) : Option (Value × HandleKind) :=
  match t.entries[h.slot]? with
  | some ⟨token, some v, kind⟩ => if token = h.token then some (v, kind) else none
  | _ => none

theorem found_eq_some : t.found h = some (v, kind) ↔
    t.entries[h.slot]? = some ⟨h.token, some v, kind⟩ := by
  unfold found
  split
  · next token w k eq =>
    rw [eq]
    split
    · next same => simp [same]
    · next other => simp [other]
  · next none =>
    constructor
    · intro h
      cases h
    · intro some
      exact absurd some (none _ _ _)

theorem entry_eq (t : HandleTable) (h : Handle) : t.entry h =
    match t.found h with
    | some (v, kind) => .ok ⟨h.token, some v, kind⟩
    | none => .error invalidHandle := by
  unfold entry found
  cases t.entries[h.slot]? with
  | none => rfl
  | some e =>
    obtain ⟨token, value, kind⟩ := e
    cases value with
    | none => simp
    | some v =>
      by_cases same : token = h.token
      · simp [same]
      · simp [same]

theorem lookup_eq (accepts : HandleKind → Bool) (t : HandleTable) (h : Handle) :
    t.lookup accepts h =
      match t.found h with
      | some (v, kind) => if accepts kind then .ok v else .error invalidHandle
      | none => .error invalidHandle := by
  unfold lookup
  rw [entry_eq]
  cases t.found h with
  | none => rfl
  | some p =>
    obtain ⟨v, kind⟩ := p
    cases accepted : accepts kind <;>
      simp [bind, Except.bind, accepted, throw, throwThe, MonadExceptOf.throw, pure, Except.pure]

theorem lookup_eq_ok {accepts : HandleKind → Bool} : t.lookup accepts h = .ok v ↔
    ∃ kind, t.found h = some (v, kind) ∧ accepts kind = true := by
  rw [lookup_eq]
  constructor
  · intro ok
    split at ok
    · next w kind eq =>
      split at ok
      · next accepted =>
        cases ok
        exact ⟨kind, eq, accepted⟩
      · cases ok
    · cases ok
  · rintro ⟨kind, eq, accepted⟩
    simp [eq, accepted]

/-- The free list holds the empty slots, each of them once. -/
structure Tidy (t : HandleTable) : Prop where
  length : t.entries.length ≤ 2 ^ 32
  tokens : ∀ e ∈ t.entries, e.token < 2 ^ 32
  nodup : t.free.Nodup
  free : ∀ i, i ∈ t.free ↔ ∃ e, t.entries[i]? = some e ∧ e.value = none

theorem empty_tidy : empty.Tidy where
  length := Nat.zero_le _
  tokens e he := by cases he
  nodup := .nil
  free i := by simp [empty]

/-- An occupied slot has one handle. -/
theorem found_unique {w : Value} {other : HandleKind} (a : t.found h = some (v, kind))
    (b : t.found h' = some (w, other)) (same : h.slot = h'.slot) : h = h' := by
  rw [found_eq_some] at a b
  rw [same, b] at a
  exact Handle.eq_of_parts (congrArg (·.token) (Option.some.inj a)).symm same

theorem Tidy.found_pack (tidy : t.Tidy) {i : Nat} {e : HandleEntry Value}
    (he : t.entries[i]? = some e) (hv : e.value = some v) :
    t.found (.pack e.token i) = some (v, e.kind) := by
  have slot : i < 2 ^ 32 := Nat.lt_of_lt_of_le (List.getElem?_eq_some_iff.mp he).1 tidy.length
  have token := tidy.tokens e (List.mem_of_getElem? he)
  rw [found_eq_some, Handle.slot_pack slot, Handle.token_pack token, he, ← hv]

/-! ### Filling and emptying a slot -/

/-- The entry of a vacant slot is written. -/
structure Puts (t u : HandleTable) (i : Nat) (e : HandleEntry Value) : Prop where
  vacant : ∀ old, t.entries[i]? = some old → old.value = none
  entries : ∀ j, u.entries[j]? = if j = i then some e else t.entries[j]?
  length : u.entries.length ≤ 2 ^ 32
  nodup : u.free.Nodup
  free : ∀ j, j ∈ u.free ↔ j ∈ t.free ∧ j ≠ i

variable {i : Nat} {e : HandleEntry Value}

theorem Puts.bound (puts : Puts t u i e) : i < 2 ^ 32 := by
  have own := puts.entries i
  rw [if_pos rfl] at own
  exact Nat.lt_of_lt_of_le (List.getElem?_eq_some_iff.mp own).1 puts.length

theorem Puts.found (puts : Puts t u i e) (token : e.token < 2 ^ 32) (hv : e.value = some v)
    (h : Handle) : u.found h =
      if h = .pack e.token i then some (v, e.kind) else t.found h := by
  obtain ⟨k, w, kind⟩ := e
  cases hv
  by_cases at_i : h.slot = i
  · have own : u.entries[h.slot]? = some ⟨k, some v, kind⟩ := by
      rw [puts.entries, if_pos at_i]
    split
    · next eq =>
      rw [found_eq_some, own, eq, Handle.token_pack token]
    · next other =>
      have before : t.found h = none := by
        cases was : t.found h with
        | none => rfl
        | some p =>
          rw [found_eq_some, at_i] at was
          cases puts.vacant _ was
      rw [before]
      cases now : u.found h with
      | none => rfl
      | some p =>
        rw [found_eq_some, own] at now
        have same : k = h.token := congrArg (·.token) (Option.some.inj now)
        refine absurd (Handle.eq_of_parts ?_ ?_) other
        · rw [Handle.token_pack token, same]
        · rw [Handle.slot_pack puts.bound, at_i]
  · have other : h ≠ .pack k i := by
      rintro rfl
      exact at_i (Handle.slot_pack puts.bound)
    rw [if_neg other]
    unfold HandleTable.found
    rw [puts.entries, if_neg at_i]

theorem Puts.tidy (puts : Puts t u i e) (tidy : t.Tidy) (token : e.token < 2 ^ 32)
    (hv : e.value = some v) : u.Tidy where
  length := puts.length
  tokens e' he' := by
    obtain ⟨j, hj⟩ := List.mem_iff_getElem?.mp he'
    rw [puts.entries] at hj
    split at hj
    · cases hj
      exact token
    · exact tidy.tokens e' (List.mem_of_getElem? hj)
  nodup := puts.nodup
  free j := by
    rw [puts.free, tidy.free, puts.entries]
    by_cases same : j = i
    · simp [same, hv]
    · simp [same]

def blank (t : HandleTable) (h : Handle) : HandleTable where
  entries := t.entries.modify h.slot fun e => { e with value := none }
  free := h.slot :: t.free

theorem found_blank (open_ : t.found h = some (v, kind)) (h' : Handle) :
    (t.blank h).found h' = if h' = h then none else t.found h' := by
  have stored := found_eq_some.mp open_
  by_cases at_slot : h'.slot = h.slot
  · have own : (t.blank h).entries[h'.slot]? = some ⟨h.token, none, kind⟩ := by
      simp [blank, at_slot, stored]
    have gone : (t.blank h).found h' = none := by
      unfold found
      rw [own]
    rw [gone]
    split
    · rfl
    · next other =>
      cases was : t.found h' with
      | none => rfl
      | some p => exact absurd (found_unique was open_ at_slot) other
  · have other : h' ≠ h := fun same => at_slot (same ▸ rfl)
    rw [if_neg other]
    unfold found blank
    simp [Ne.symm at_slot]

theorem Tidy.blank (tidy : t.Tidy) (open_ : t.found h = some (v, kind)) : (t.blank h).Tidy where
  length := by simpa [HandleTable.blank] using tidy.length
  tokens e he := by
    obtain ⟨j, hj⟩ := List.mem_iff_getElem?.mp he
    simp only [HandleTable.blank, List.getElem?_modify, Option.map_eq_map] at hj
    obtain ⟨e', he', rfl⟩ := Option.map_eq_some_iff.mp hj
    have token := tidy.tokens e' (List.mem_of_getElem? he')
    split <;> exact token
  nodup := by
    refine List.nodup_cons.mpr ⟨fun mem => ?_, tidy.nodup⟩
    obtain ⟨e, he, vacant⟩ := (tidy.free _).mp mem
    rw [found_eq_some.mp open_] at he
    cases he
    cases vacant
  free j := by
    have stored := found_eq_some.mp open_
    simp only [HandleTable.blank, List.mem_cons, tidy.free, List.getElem?_modify]
    by_cases same : h.slot = j
    · subst same
      simp [stored]
    · simp [same, Ne.symm same]

theorem found_invalidateAll (t : HandleTable) (h : Handle) : t.invalidateAll.found h = none := by
  unfold found invalidateAll
  rw [List.getElem?_map]
  cases t.entries[h.slot]? <;> rfl

theorem Tidy.invalidateAll (tidy : t.Tidy) : t.invalidateAll.Tidy where
  length := by simpa [HandleTable.invalidateAll] using tidy.length
  tokens e he := by
    obtain ⟨e', he', rfl⟩ := List.mem_map.mp he
    exact tidy.tokens e' he'
  nodup := List.nodup_reverse.mpr (List.nodup_range.filter _)
  free i := by
    have bound : i < t.entries.length → i < 2 ^ 32 := fun h => Nat.lt_of_lt_of_le h tidy.length
    simp only [HandleTable.invalidateAll, List.mem_reverse, List.mem_filter, List.mem_range,
      decide_eq_true_eq, List.getElem?_map, Option.map_eq_some_iff]
    constructor
    · rintro ⟨inside, -⟩
      exact ⟨_, ⟨_, List.getElem?_eq_getElem inside, rfl⟩, rfl⟩
    · rintro ⟨_, ⟨e, he, rfl⟩, -⟩
      have inside := (List.getElem?_eq_some_iff.mp he).1
      exact ⟨inside, bound inside⟩

theorem mem_roots (tidy : t.Tidy) : v ∈ t.roots ↔
    ∃ h kind, t.found h = some (v, kind) ∧ kind ≠ .foreignReference := by
  simp only [roots, List.mem_flatMap, HandleEntry.roots]
  constructor
  · rintro ⟨e, he, hv⟩
    split at hv
    · cases hv
    · next kind =>
      obtain ⟨i, hi⟩ := List.mem_iff_getElem?.mp he
      exact ⟨_, _, tidy.found_pack hi (Option.mem_toList.mp hv), kind⟩
  · rintro ⟨h, kind, open_, counted⟩
    exact ⟨_, List.mem_of_getElem? (found_eq_some.mp open_), by simp [counted]⟩

end HandleTable

/-! ### The tables of all runtimes -/

namespace Runtimes

variable {s t : Runtimes} {r c : Nat} {v : Value} {kind : HandleKind} {h : Handle}

structure Tidy (s : Runtimes) : Prop where
  tables : ∀ r, (s.tables r).Tidy
  tokens : s.nextToken < 2 ^ 32

def found (s : Runtimes) (r : Nat) (h : Handle) : Option (Value × HandleKind) :=
  (s.tables r).found h

theorem Tidy.setTable (tidy : s.Tidy) {table : HandleTable} (ht : table.Tidy) :
    (s.setTable r table).Tidy where
  tables r' := by
    simp only [Runtimes.setTable, Function.update_apply]
    split
    · exact ht
    · exact tidy.tables r'
  tokens := tidy.tokens

theorem found_setTable {table : HandleTable} (r' : Nat) (h : Handle) :
    (s.setTable r table).found r' h = if r' = r then table.found h else s.found r' h := by
  simp only [found, setTable, Function.update_apply]
  split <;> rfl

/-- A new handle, under a token that was never used. -/
structure Inserted (s t : Runtimes) (r : Nat) (v : Value) (kind : HandleKind) (h : Handle) :
    Prop where
  tidy : t.Tidy
  token : h.token = s.nextToken
  next : t.nextToken = s.nextToken + 1
  heaps : t.heaps = s.heaps
  contexts : t.contexts = s.contexts
  found : ∀ r' h', t.found r' h' = if r' = r ∧ h' = h then some (v, kind) else s.found r' h'

/-- Nothing changed, but a token may have been spent. -/
structure Spent (s t : Runtimes) : Prop where
  tidy : t.Tidy
  next : s.nextToken ≤ t.nextToken
  heaps : t.heaps = s.heaps
  contexts : t.contexts = s.contexts
  found : ∀ r' h', t.found r' h' = s.found r' h'

theorem Spent.refl (tidy : s.Tidy) : s.Spent s := ⟨tidy, Nat.le_refl _, rfl, rfl, fun _ _ => rfl⟩

theorem inserted_of_puts (tidy : s.Tidy) {table : HandleTable} {i : Nat}
    (room : s.nextToken + 1 < 2 ^ 32)
    (puts : HandleTable.Puts (s.tables r) table i ⟨s.nextToken, some v, kind⟩) :
    s.Inserted (({ s with nextToken := s.nextToken + 1 } : Runtimes).setTable r table) r v kind
      (.pack s.nextToken i) where
  tidy := by
    have spent : Tidy { s with nextToken := s.nextToken + 1 } := ⟨tidy.tables, room⟩
    exact spent.setTable (puts.tidy (tidy.tables r) tidy.tokens rfl)
  token := Handle.token_pack tidy.tokens
  next := rfl
  heaps := rfl
  contexts := rfl
  found r' h' := by
    rw [found_setTable]
    by_cases same : r' = r
    · subst same
      simp only [if_true, true_and]
      exact puts.found tidy.tokens rfl h'
    · simp only [same, if_false, false_and]
      rfl

theorem setTable_setTable {a b : HandleTable} : (s.setTable r a).setTable r b = s.setTable r b := by
  simp [setTable]

theorem wp_insertHandle (tidy : s.Tidy) :
    wp (insertHandle r v kind) (fun h t => s.Inserted t r v kind h) s.Spent s := by
  have table := tidy.tables r
  simp only [insertHandle, takeToken, takeSlot, wp_bind, wp_get]
  split
  · next room =>
    have spent : s.Spent { s with nextToken := s.nextToken + 1 } :=
      ⟨⟨tidy.tables, room⟩, Nat.le_succ _, rfl, rfl, fun _ _ => rfl⟩
    simp only [wp_bind, wp_set, wp_pure]
    split
    · next slot free eq =>
      have mem : slot ∈ (s.tables r).free := by simp [eq]
      have nodup := table.nodup
      rw [eq, List.nodup_cons] at nodup
      obtain ⟨e, he, vacant⟩ := (table.free slot).mp mem
      have bound := (List.getElem?_eq_some_iff.mp he).1
      have own : ((({ s with nextToken := s.nextToken + 1 } : Runtimes).setTable r
          { s.tables r with free }).tables r) = { s.tables r with free } :=
        Function.update_self ..
      simp only [wp_bind, wp_set, wp_pure, own, bound, if_true, setTable_setTable]
      apply inserted_of_puts tidy room
      constructor
      · intro old hold
        rw [he] at hold
        cases hold
        exact vacant
      · intro j
        simp only [List.getElem?_set]
        by_cases same : slot = j
        · subst same
          simp [bound]
        · simp [same, Ne.symm same]
      · simpa using table.length
      · exact nodup.2
      · intro j
        simp only [eq, List.mem_cons]
        constructor
        · intro hj
          exact ⟨.inr hj, fun same => nodup.1 (same ▸ hj)⟩
        · rintro ⟨same | hj, ne⟩
          · exact absurd same ne
          · exact hj
    · next eq =>
      split
      · next space =>
        have own : ((({ s with nextToken := s.nextToken + 1 } : Runtimes).setTable r
            { s.tables r with entries := (s.tables r).entries ++ [⟨0, none, .locals⟩] }).tables r) =
              { s.tables r with entries := (s.tables r).entries ++ [⟨0, none, .locals⟩] } :=
          Function.update_self ..
        have bound : (s.tables r).entries.length <
            ((s.tables r).entries ++ [(⟨0, none, .locals⟩ : HandleEntry Value)]).length := by
          simp
        simp only [wp_bind, wp_set, wp_pure, own, bound, if_true, setTable_setTable]
        apply inserted_of_puts tidy room
        constructor
        · intro old hold
          simp at hold
        · intro j
          simp only [List.getElem?_set, List.getElem?_append]
          by_cases same : (s.tables r).entries.length = j
          · subst same
            simp
          · have apart : j ≠ (s.tables r).entries.length := Ne.symm same
            simp only [same, apart, if_false]
            split
            · rfl
            · next beyond =>
              rw [List.getElem?_eq_none (by simp; omega), List.getElem?_eq_none (by omega)]
        · simp only [List.length_set, List.length_append, List.length_singleton]
          omega
        · exact table.nodup
        · intro j
          simp [eq]
      · exact spent
  · exact .refl tidy

/-- One handle is closed, and nothing else. -/
structure Closed (s t : Runtimes) (r : Nat) (h : Handle) : Prop where
  tidy : t.Tidy
  next : t.nextToken = s.nextToken
  contexts : t.contexts = s.contexts
  found : ∀ r' h', t.found r' h' = if r' = r ∧ h' = h then none else s.found r' h'

theorem releaseHandle_open (tidy : s.Tidy) (open_ : s.found r h = some (v, kind)) :
    ∃ t, releaseHandle r h kind s = .ok () t ∧ s.Closed t r h ∧ t.heaps = s.heaps := by
  have entry := (s.tables r).entry_eq h
  rw [show (s.tables r).found h = _ from open_] at entry
  refine ⟨s.setTable r ((s.tables r).blank h), ?_, ⟨?_, rfl, rfl, ?_⟩, rfl⟩
  · rw [releaseHandle, get_bind]
    simp only [entry, ne_eq, not_true_eq_false, if_false]
    rfl
  · exact tidy.setTable ((tidy.tables r).blank open_)
  · intro r' h'
    rw [found_setTable]
    by_cases same : r' = r
    · subst same
      simp only [if_true, true_and]
      exact HandleTable.found_blank open_ h'
    · simp [same]

/-- A stale, a forged and a wrong-kind handle are refused. -/
theorem releaseHandle_refused (wrong : ∀ v, s.found r h ≠ some (v, kind)) :
    releaseHandle r h kind s = .error invalidHandle s := by
  have entry := (s.tables r).entry_eq h
  rw [releaseHandle, get_bind]
  cases was : s.found r h with
  | none =>
    rw [show (s.tables r).found h = _ from was] at entry
    simp only [entry]
    rfl
  | some p =>
    obtain ⟨v, other⟩ := p
    have apart : other ≠ kind := fun same => wrong v (same ▸ was)
    rw [show (s.tables r).found h = _ from was] at entry
    simp only [entry, ne_eq, apart, not_false_eq_true, if_true]
    rfl

end Runtimes

/-! ### The registry -/

/-- What a handle was made for, and the scope that closes it. -/
structure HandleRecord where
  value : Value
  kind : HandleKind
  scope : Option Nat

/-- What the tables are for: which handles each runtime made, and which of them are open. -/
structure Registry where
  live : Nat → Handle → Option HandleRecord
  made : Nat → Handle → Prop

namespace Registry

def start : Registry := ⟨fun _ _ => none, fun _ _ => False⟩

def add (g : Registry) (r : Nat) (h : Handle) (x : HandleRecord) : Registry where
  live r' h' := if r' = r ∧ h' = h then some x else g.live r' h'
  made r' h' := g.made r' h' ∨ r' = r ∧ h' = h

def close (g : Registry) (closes : Nat → Handle → HandleRecord → Bool) : Registry where
  live r h := (g.live r h).filter fun x => !closes r h x
  made := g.made

/-- The value an open handle was made for. -/
def value (g : Registry) (r : Nat) (h : Handle) : Value := (g.live r h).elim .none (·.value)

end Registry

/-- What native code and the interpreter do with handles; a handle may be any word. -/
inductive NativeOp where
  | openContext (c r : Nat)
  | localHandle (c : Nat) (value : Value)
  | persistValue (r : Nat) (value : Value)
  | persist (c : Nat) (h : Handle)
  | borrowPersistent (c : Nat) (h : Handle)
  | createForeignReference (c : Nat) (h : Handle)
  | borrowForeignReference (c : Nat) (h : Handle)
  | promoteForeignReference (r : Nat) (h : Handle)
  | exportF64Buffer (c : Nat) (h : Handle) (writable requireCContiguous : Bool)
  | releasePersistent (r : Nat) (h : Handle)
  | releaseForeignReference (r : Nat) (h : Handle)
  | releaseBufferOwner (r : Nat) (h : Handle)
  | drop (c : Nat)
  | invalidateAll (r : Nat)

namespace NativeOp

def run : NativeOp → NativeM (Option Handle)
  | openContext c r => do
    let s ← get
    if (s.contexts c).isSome then throw (.panicked "the scope is open")
    set (s.setContext c (some ⟨r, []⟩))
    return none
  | localHandle c value => some <$> NativeContext.localHandle c value
  | persistValue r value => some <$> Tonic.persistValue r value
  | persist c h => some <$> NativeContext.persist c h
  | borrowPersistent c h => some <$> NativeContext.borrowPersistent c h
  | createForeignReference c h => some <$> NativeContext.createForeignReference c h
  | borrowForeignReference c h => some <$> NativeContext.borrowForeignReference c h
  | promoteForeignReference r h => some <$> Tonic.promoteForeignReference r h
  | exportF64Buffer c h writable requireCContiguous =>
    some <$> NativeContext.exportF64Buffer c h writable requireCContiguous
  | releasePersistent r h => (fun _ => none) <$> Tonic.releasePersistent r h
  | releaseForeignReference r h => (fun _ => none) <$> Tonic.releaseForeignReference r h
  | releaseBufferOwner r h => (fun _ => none) <$> NativeContext.releaseBufferOwner r h
  | drop c => (fun _ => none) <$> NativeContext.drop c
  | invalidateAll r => (fun _ => none) <$> Tonic.invalidateAll r

/-- What a call that succeeds means for the registry. -/
def register (s : Runtimes) (g : Registry) : NativeOp → Option Handle → Registry
  | localHandle c value, some made =>
    g.add (s.runtimeOf c) made ⟨value, .locals, some c⟩
  | persistValue r value, some made => g.add r made ⟨value, .persistent, none⟩
  | persist c h, some made =>
    g.add (s.runtimeOf c) made ⟨g.value (s.runtimeOf c) h, .persistent, none⟩
  | borrowPersistent c h, some made | borrowForeignReference c h, some made =>
    g.add (s.runtimeOf c) made ⟨g.value (s.runtimeOf c) h, .locals, some c⟩
  | createForeignReference c h, some made =>
    g.add (s.runtimeOf c) made ⟨g.value (s.runtimeOf c) h, .foreignReference, none⟩
  | promoteForeignReference r h, some made => g.add r made ⟨g.value r h, .persistent, none⟩
  | exportF64Buffer c h writable _, some made =>
    g.add (s.runtimeOf c) made ⟨g.value (s.runtimeOf c) h, .bufferOwner writable, some c⟩
  | releasePersistent r h, _ | releaseForeignReference r h, _ | releaseBufferOwner r h, _ =>
    g.close fun r' h' _ => r' = r ∧ h' = h
  | drop c, _ => g.close fun _ _ x => x.scope = some c
  | invalidateAll r, _ => g.close fun r' _ _ => r' = r
  | _, _ => g

end NativeOp

namespace Heap

def HoldsBuffer (h : Heap) (v : Value) : Prop := ∃ b, h.tryGet v = some (.buffer b)

end Heap

/-- The runtimes next to the registry. -/
structure Ledger where
  runtimes : Runtimes
  registry : Registry

namespace Ledger

def start : Ledger := ⟨.start, .start⟩

/-- A call that fails leaves the registry as it is. -/
def perform (s : Ledger) (op : NativeOp) : Ledger :=
  match op.run s.runtimes with
  | .ok made t => ⟨t, op.register s.runtimes s.registry made⟩
  | .error _ t => ⟨t, s.registry⟩

end Ledger

/-- A call on handles, or anything that happens to a heap meanwhile: a buffer that a handle roots
stays a buffer. -/
inductive LedgerStep : Ledger → Ledger → Prop where
  | call (s : Ledger) (op : NativeOp) : LedgerStep s (s.perform op)
  | heap (s : Ledger) (r : Nat) (h : Heap)
    (kept : ∀ v ∈ (s.runtimes.tables r).roots,
      (s.runtimes.heaps r).HoldsBuffer v → h.HoldsBuffer v) :
    LedgerStep s { s with runtimes := s.runtimes.setHeap r h }

inductive LedgerRun : Ledger → Ledger → Prop where
  | refl (s : Ledger) : LedgerRun s s
  | next {s t u : Ledger} : LedgerRun s t → LedgerStep t u → LedgerRun s u

/-! ### The tables follow the registry -/

section Mirrors

variable {s t : Runtimes} {g : Registry} {r c : Nat} {h : Handle} {x : HandleRecord}

/-- The tables find what the registry says, and no token was used twice. -/
structure Mirrors (s : Runtimes) (g : Registry) : Prop where
  tidy : s.Tidy
  found : ∀ r h, s.found r h = (g.live r h).map fun x => (x.value, x.kind)
  token : ∀ {r h}, g.made r h → h.token < s.nextToken
  unique : ∀ {r r' h h'}, g.made r h → g.made r' h' → h.token = h'.token → r = r' ∧ h = h'
  made : ∀ {r h x}, g.live r h = some x → g.made r h
  buffer : ∀ {r h x writable}, g.live r h = some x → x.kind = .bufferOwner writable →
    (s.heaps r).HoldsBuffer x.value

/-- Locals and buffer owners belong to an open scope, and every scope knows its own. -/
structure Scoped (s : Runtimes) (g : Registry) : Prop where
  open_ : ∀ {r h x c}, g.live r h = some x → x.scope = some c →
    ∃ context, s.contexts c = some context ∧ context.runtime = r ∧ h ∈ context.locals
  kind : ∀ {r h x}, g.live r h = some x → x.scope.isSome →
    x.kind = .locals ∨ ∃ writable, x.kind = .bufferOwner writable
  locals : ∀ {c context h}, s.contexts c = some context → h ∈ context.locals →
    g.made context.runtime h ∧ ∀ x, g.live context.runtime h = some x → x.scope = some c

theorem Mirrors.value (f : Mirrors s g) {v : Value} {kind : HandleKind}
    (found : s.found r h = some (v, kind)) : g.value r h = v := by
  rw [f.found] at found
  obtain ⟨x, hx, eq⟩ := Option.map_eq_some_iff.mp found
  cases eq
  simp [Registry.value, hx]

theorem Mirrors.fresh (f : Mirrors s g) {r' : Nat} (token : h.token = s.nextToken) :
    ¬ g.made r' h :=
  fun made => Nat.ne_of_lt (f.token made) token

theorem Mirrors.spent (f : Mirrors s g) (spent : s.Spent t) : Mirrors t g where
  tidy := spent.tidy
  found r h := (spent.found r h).trans (f.found r h)
  token made := Nat.lt_of_lt_of_le (f.token made) spent.next
  unique := f.unique
  made := f.made
  buffer hx kind := spent.heaps ▸ f.buffer hx kind

theorem Scoped.same (d : Scoped s g) (contexts : t.contexts = s.contexts) : Scoped t g where
  open_ hx scope := contexts ▸ d.open_ hx scope
  kind := d.kind
  locals hc := d.locals (contexts ▸ hc)

theorem Mirrors.add (f : Mirrors s g) (i : s.Inserted t r x.value x.kind h)
    (buffer : ∀ writable, x.kind = .bufferOwner writable → (s.heaps r).HoldsBuffer x.value) :
    Mirrors t (g.add r h x) where
  tidy := i.tidy
  found r' h' := by
    rw [i.found, f.found]
    simp only [Registry.add]
    split <;> rfl
  token := by
    rintro r' h' (old | ⟨rfl, rfl⟩)
    · rw [i.next]
      exact Nat.lt_succ_of_lt (f.token old)
    · rw [i.next, i.token]
      exact Nat.lt_succ_self _
  unique := by
    rintro a b h₁ h₂ (old₁ | ⟨rfl, rfl⟩) (old₂ | ⟨rfl, rfl⟩) same
    · exact f.unique old₁ old₂ same
    · exact absurd (same.trans i.token) (Nat.ne_of_lt (f.token old₁))
    · exact absurd (same.symm.trans i.token) (Nat.ne_of_lt (f.token old₂))
    · exact ⟨rfl, rfl⟩
  made := by
    intro r' h' y hy
    simp only [Registry.add] at hy
    split at hy
    · next eq => exact .inr eq
    · exact .inl (f.made hy)
  buffer := by
    intro r' h' y writable hy kind
    rw [i.heaps]
    simp only [Registry.add] at hy
    split at hy
    · next eq =>
      cases hy
      exact eq.1 ▸ buffer writable kind
    · exact f.buffer hy kind

/-- A handle without a scope. -/
theorem Scoped.add (d : Scoped s g) (f : Mirrors s g) (i : s.Inserted t r x.value x.kind h)
    (scope : x.scope = none) : Scoped t (g.add r h x) where
  open_ := by
    intro r' h' y c hy own
    rw [i.contexts]
    simp only [Registry.add] at hy
    split at hy
    · cases hy
      rw [scope] at own
      cases own
    · exact d.open_ hy own
  kind := by
    intro r' h' y hy own
    simp only [Registry.add] at hy
    split at hy
    · cases hy
      simp [scope] at own
    · exact d.kind hy own
  locals := by
    intro c context h' hc mem
    rw [i.contexts] at hc
    obtain ⟨made, own⟩ := d.locals hc mem
    refine ⟨.inl made, fun y hy => ?_⟩
    simp only [Registry.add] at hy
    split at hy
    · next eq => exact absurd (eq.2 ▸ made) (f.fresh i.token)
    · exact own y hy

/-- A handle of an open scope, which takes note of it. -/
theorem Scoped.push (d : Scoped s g) (f : Mirrors s g) {context : NativeContext}
    (hc : s.contexts c = some context)
    (i : s.Inserted t context.runtime x.value x.kind h) (scope : x.scope = some c)
    (kind : x.kind = .locals ∨ ∃ writable, x.kind = .bufferOwner writable) :
    Scoped (t.setContext c (some { context with locals := context.locals ++ [h] }))
      (g.add context.runtime h x) where
  open_ := by
    intro r' h' y c' hy own
    simp only [Runtimes.setContext, Function.update_apply, i.contexts]
    simp only [Registry.add] at hy
    split at hy
    · next eq =>
      cases hy
      rw [scope] at own
      cases own
      exact ⟨_, if_pos rfl, eq.1.symm, by simp [eq.2]⟩
    · obtain ⟨other, hc', runtime, mem⟩ := d.open_ hy own
      split
      · next same =>
        subst same
        rw [hc] at hc'
        cases hc'
        exact ⟨_, rfl, runtime, List.mem_append_left _ mem⟩
      · exact ⟨other, hc', runtime, mem⟩
  kind := by
    intro r' h' y hy own
    simp only [Registry.add] at hy
    split at hy
    · cases hy
      exact kind
    · exact d.kind hy own
  locals := by
    intro c' other h' hc' mem
    have old {c' : Nat} {other : NativeContext} (hc' : s.contexts c' = some other)
        (mem : h' ∈ other.locals) : (g.add context.runtime h x).made other.runtime h' ∧
          ∀ y, (g.add context.runtime h x).live other.runtime h' = some y → y.scope = some c' := by
      obtain ⟨made, own⟩ := d.locals hc' mem
      refine ⟨.inl made, fun y hy => ?_⟩
      simp only [Registry.add] at hy
      split at hy
      · next eq => exact absurd (eq.2 ▸ made) (f.fresh i.token)
      · exact own y hy
    simp only [Runtimes.setContext, Function.update_apply, i.contexts] at hc'
    split at hc'
    · next same =>
      subst same
      cases hc'
      rcases List.mem_append.mp mem with before | new
      · have kept := old hc before
        exact kept
      · obtain rfl := List.mem_singleton.mp new
        refine ⟨.inr ⟨rfl, rfl⟩, fun y hy => ?_⟩
        simp only [Registry.add, and_self, if_true] at hy
        cases hy
        exact scope
    · exact old hc' mem

theorem Mirrors.setContext (f : Mirrors s g) {context : Option NativeContext} :
    Mirrors (s.setContext c context) g where
  tidy := ⟨f.tidy.tables, f.tidy.tokens⟩
  found := f.found
  token := f.token
  unique := f.unique
  made := f.made
  buffer := f.buffer

/-- The heap may change as long as the exported buffers stay buffers. -/
theorem Mirrors.setHeap (f : Mirrors s g) {heap : Heap}
    (kept : ∀ v, (s.heaps r).HoldsBuffer v → v ∈ (s.tables r).roots → heap.HoldsBuffer v) :
    Mirrors (s.setHeap r heap) g where
  tidy := ⟨f.tidy.tables, f.tidy.tokens⟩
  found := f.found
  token := f.token
  unique := f.unique
  made := f.made
  buffer := by
    intro r' h' y writable hy kind
    simp only [Runtimes.setHeap, Function.update_apply]
    split
    · next same =>
      subst same
      refine kept _ (f.buffer hy kind) ?_
      rw [HandleTable.mem_roots (f.tidy.tables r')]
      refine ⟨h', y.kind, ?_, by rw [kind]; simp⟩
      have found := f.found r' h'
      rw [hy] at found
      exact found
    · exact f.buffer hy kind

theorem live_close {closes : Nat → Handle → HandleRecord → Bool} {r : Nat} {h : Handle}
    {x : HandleRecord} : (g.close closes).live r h = some x ↔
      g.live r h = some x ∧ closes r h x = false := by
  simp [Registry.close, Option.filter_eq_some_iff]

/-- Handles are closed in the tables and in the registry. -/
theorem Mirrors.close (f : Mirrors s g) {closes : Nat → Handle → HandleRecord → Bool}
    (tidy : t.Tidy) (next : t.nextToken = s.nextToken)
    (found : ∀ r h, t.found r h =
      ((g.close closes).live r h).map fun x => (x.value, x.kind))
    (buffers : ∀ r v, (s.heaps r).HoldsBuffer v → (t.heaps r).HoldsBuffer v) :
    Mirrors t (g.close closes) where
  tidy := tidy
  found := found
  token made := next ▸ f.token made
  unique := f.unique
  made hx := f.made (live_close.mp hx).1
  buffer hx kind := buffers _ _ (f.buffer (live_close.mp hx).1 kind)

theorem Scoped.close (d : Scoped s g) {closes : Nat → Handle → HandleRecord → Bool}
    (contexts : t.contexts = s.contexts) : Scoped t (g.close closes) where
  open_ hx own := contexts ▸ d.open_ (live_close.mp hx).1 own
  kind hx own := d.kind (live_close.mp hx).1 own
  locals hc mem := by
    obtain ⟨made, own⟩ := d.locals (contexts ▸ hc) mem
    exact ⟨made, fun x hx => own x (live_close.mp hx).1⟩

end Mirrors

/-! ### Every call keeps them together -/

/-- The tables, the scopes and the registry agree. -/
structure Agrees (s : Runtimes) (g : Registry) : Prop where
  follows : Mirrors s g
  scopes : Scoped s g

section Calls

variable {s t : Runtimes} {g : Registry} {r c : Nat} {h : Handle} {v : Value} {kind : HandleKind}

theorem Agrees.spent (a : Agrees s g) (spent : s.Spent t) : Agrees t g :=
  ⟨a.follows.spent spent, a.scopes.same spent.contexts⟩

/-- A call made a handle that was never seen before. -/
structure Adds (s t : Runtimes) (g : Registry) (r : Nat) (h : Handle) (x : HandleRecord) :
    Prop where
  token : h.token = s.nextToken
  agrees : Agrees t (g.add r h x)

theorem wp_current {Q : NativeContext → Runtimes → Prop} {E : Runtimes → Prop} (failed : E s)
    (ok : ∀ context, s.contexts c = some context → Q context s) :
    wp (NativeContext.current c) Q E s := by
  refine wp_reading_intro failed fun context eq => ok context ?_
  cases hc : s.contexts c with
  | none =>
    rw [hc] at eq
    cases eq
  | some other =>
    rw [hc] at eq
    cases eq
    rfl

theorem runtimeOf_eq {context : NativeContext} (hc : s.contexts c = some context) :
    s.runtimeOf c = context.runtime := by
  simp [Runtimes.runtimeOf, hc]

theorem wp_lookup {Q : Value → Runtimes → Prop} {E : Runtimes → Prop} (a : Agrees s g)
    {accepts : HandleKind → Bool} (failed : E s) (ok : Q (g.value r h) s) :
    wp (reading fun s : Runtimes => (s.tables r).lookup accepts h) Q E s := by
  refine wp_reading_intro failed fun v found => ?_
  obtain ⟨kind, found, -⟩ := HandleTable.lookup_eq_ok.mp found
  rw [← a.follows.value found]
  exact ok

theorem wp_insert (a : Agrees s g) (kind : HandleKind) (scopeless : ∀ w, kind ≠ .bufferOwner w) :
    wp (insertHandle r v kind) (fun h t => Adds s t g r h ⟨v, kind, none⟩)
      (fun t => Agrees t g) s := by
  refine wp_mono (Runtimes.wp_insertHandle a.follows.tidy) (fun h t i => ?_) fun t => a.spent
  refine ⟨i.token, ?_, ?_⟩
  · exact a.follows.add (x := ⟨v, kind, none⟩) i fun w same => absurd same (scopeless w)
  · exact a.scopes.add (x := ⟨v, kind, none⟩) a.follows i rfl

theorem wp_localHandle (a : Agrees s g) :
    wp (NativeContext.localHandle c v)
      (fun h t => Adds s t g (s.runtimeOf c) h ⟨v, .locals, some c⟩)
      (fun t => Agrees t g) s := by
  simp only [NativeContext.localHandle, wp_bind]
  refine wp_current a fun context hc => ?_
  refine wp_mono (Runtimes.wp_insertHandle a.follows.tidy) (fun h t i => ?_) fun t => a.spent
  simp only [NativeContext.pushLocal, wp_modify, wp_pure, i.contexts, hc, Option.map_some,
    runtimeOf_eq hc]
  refine ⟨i.token, ?_, ?_⟩
  · exact (a.follows.add i fun w same => by cases same).setContext
  · exact a.scopes.push a.follows hc i rfl (.inl rfl)

theorem wp_resolve {Q : Value → Runtimes → Prop} {E : Runtimes → Prop} (a : Agrees s g)
    (failed : E s) (ok : Q (g.value (s.runtimeOf c) h) s) :
    wp (NativeContext.resolve c h) Q E s := by
  simp only [NativeContext.resolve, wp_bind]
  refine wp_current failed fun context hc => ?_
  rw [runtimeOf_eq hc] at ok
  exact wp_lookup a failed ok

theorem wp_persist (a : Agrees s g) : wp (NativeContext.persist c h)
    (fun made t => Adds s t g (s.runtimeOf c) made
      ⟨g.value (s.runtimeOf c) h, .persistent, none⟩)
    (fun t => Agrees t g) s := by
  simp only [NativeContext.persist, wp_bind]
  refine wp_current a fun context hc => wp_resolve a a ?_
  rw [runtimeOf_eq hc]
  exact wp_insert a _ fun w same => by cases same

theorem wp_createForeignReference (a : Agrees s g) : wp (NativeContext.createForeignReference c h)
    (fun made t => Adds s t g (s.runtimeOf c) made
      ⟨g.value (s.runtimeOf c) h, .foreignReference, none⟩)
    (fun t => Agrees t g) s := by
  simp only [NativeContext.createForeignReference, wp_bind]
  refine wp_current a fun context hc => wp_resolve a a ?_
  rw [runtimeOf_eq hc]
  exact wp_insert a _ fun w same => by cases same

theorem wp_borrowPersistent (a : Agrees s g) : wp (NativeContext.borrowPersistent c h)
    (fun made t => Adds s t g (s.runtimeOf c) made
      ⟨g.value (s.runtimeOf c) h, .locals, some c⟩)
    (fun t => Agrees t g) s := by
  simp only [NativeContext.borrowPersistent, wp_bind]
  refine wp_current a fun context hc => ?_
  rw [runtimeOf_eq hc]
  exact wp_lookup a a (runtimeOf_eq hc ▸ wp_localHandle a)

theorem wp_borrowForeignReference (a : Agrees s g) :
    wp (NativeContext.borrowForeignReference c h)
      (fun made t => Adds s t g (s.runtimeOf c) made
        ⟨g.value (s.runtimeOf c) h, .locals, some c⟩)
      (fun t => Agrees t g) s := by
  simp only [NativeContext.borrowForeignReference, wp_bind]
  refine wp_current a fun context hc => ?_
  rw [runtimeOf_eq hc]
  exact wp_lookup a a (runtimeOf_eq hc ▸ wp_localHandle a)

theorem wp_promoteForeignReference (a : Agrees s g) : wp (promoteForeignReference r h)
    (fun made t => Adds s t g r made ⟨g.value r h, .persistent, none⟩)
    (fun t => Agrees t g) s := by
  simp only [promoteForeignReference, wp_bind]
  exact wp_lookup a a (wp_insert a _ fun w same => by cases same)

/-! ### Buffers -/

theorem holdsBuffer_setObject {heap : Heap} {b : Buffer} (held : heap.HoldsBuffer v) (w : Value) :
    (final (setObject w (.buffer b)) heap).HoldsBuffer v := by
  obtain ⟨b', hb⟩ := held
  obtain ⟨e, he, eq⟩ := Heap.tryGet_eq_some.mp hb
  obtain ⟨l, hl, stored⟩ := Heap.entry_eq_some.mp he
  simp only [setObject, final, get_bind]
  cases hw : heap.location w with
  | none => exact ⟨b', hb⟩
  | some k =>
    by_cases same : k = l
    · subst same
      refine ⟨b, Heap.tryGet_eq_some.mpr ⟨{ e with object := .buffer b }, ?_, rfl⟩⟩
      refine Heap.entry_eq_some.mpr ⟨k, hl, ?_⟩
      show (heap.objects.modify k _)[k]? = _
      simp [stored]
    · refine ⟨b', Heap.tryGet_eq_some.mpr ⟨e, Heap.entry_eq_some.mpr ⟨l, hl, ?_⟩, eq⟩⟩
      show (heap.objects.modify k _)[l]? = _
      simp [same, stored]

theorem holdsBuffer_setBuffer {b : Buffer} (w : Value) {r' : Nat}
    (held : (s.heaps r').HoldsBuffer v) :
    ((s.setHeap r (final (setObject w (.buffer b)) (s.heaps r))).heaps r').HoldsBuffer v := by
  simp only [Runtimes.setHeap, Function.update_apply]
  split
  · next same =>
    subst same
    exact holdsBuffer_setObject held w
  · exact held

theorem wp_exportF64Buffer (a : Agrees s g) {writable requireCContiguous : Bool} :
    wp (NativeContext.exportF64Buffer c h writable requireCContiguous)
      (fun made t => Adds s t g (s.runtimeOf c) made
        ⟨g.value (s.runtimeOf c) h, .bufferOwner writable, some c⟩)
      (fun t => Agrees t g) s := by
  simp only [NativeContext.exportF64Buffer, wp_bind]
  refine wp_current a fun context hc => wp_resolve a a ?_
  rw [runtimeOf_eq hc]
  refine wp_reading_intro a fun o found => ?_
  have stored := Heap.get_eq_ok found
  cases o with
  | buffer b =>
    simp only
    split
    · exact a
    split
    · exact a
    simp only [wp_bind]
    refine wp_mono (Runtimes.wp_insertHandle a.follows.tidy) (fun owner t i => ?_) fun t => a.spent
    have owned := a.follows.add (x := ⟨_, _, some c⟩) i fun _ _ => ⟨b, stored⟩
    split
    · next b' _ =>
      simp only [wp_bind, NativeContext.setBuffer, NativeContext.pushLocal, wp_modify, wp_pure]
      have hc' : (t.setHeap context.runtime (final (setObject (g.value context.runtime h)
          (.buffer b')) (t.heaps context.runtime))).contexts c = some context := by
        rw [← hc, ← i.contexts]
        rfl
      simp only [hc', Option.map_some]
      refine ⟨i.token, ?_, ?_⟩
      · refine Mirrors.setContext (owned.setHeap fun w held _ => ?_)
        exact holdsBuffer_setObject held _
      · have pushed := a.scopes.push a.follows hc (x := ⟨_, _, some c⟩) i rfl (.inr ⟨_, rfl⟩)
        exact pushed.same rfl
    · -- the count of exports is exhausted: the new handle is taken back
      have own : t.found context.runtime owner =
          some (g.value context.runtime h, .bufferOwner writable) := by
        rw [i.found, if_pos ⟨rfl, rfl⟩]
      obtain ⟨u, ran, closed, heaps⟩ := Runtimes.releaseHandle_open i.tidy own
      rw [wp_bind]
      simp only [wp_throw]
      unfold wp
      rw [ran]
      refine a.spent ⟨closed.tidy, ?_, heaps.trans i.heaps, closed.contexts.trans i.contexts, ?_⟩
      · rw [closed.next, i.next]
        exact Nat.le_succ _
      · intro r' h'
        rw [closed.found, i.found]
        split
        · next same =>
          rw [same.1, same.2]
          cases was : s.found context.runtime owner with
          | none => rfl
          | some p =>
            rw [a.follows.found] at was
            obtain ⟨x, hx, -⟩ := Option.map_eq_some_iff.mp was
            exact absurd (a.follows.made hx) (a.follows.fresh i.token)
        · rfl
  | _ => exact a

/-! ### Releases -/

theorem closed_registry (f : Mirrors s g) (closed : s.Closed t r h) (r' : Nat) (h' : Handle) :
    t.found r' h' = ((g.close fun r' h' _ => r' = r ∧ h' = h).live r' h').map
      fun x => (x.value, x.kind) := by
  rw [closed.found, f.found]
  by_cases same : r' = r ∧ h' = h
  · simp [Registry.close, same]
  · cases hx : g.live r' h' <;> simp [Registry.close, hx, Option.filter, same]

theorem Agrees.closed (a : Agrees s g) (closed : s.Closed t r h)
    (buffers : ∀ r v, (s.heaps r).HoldsBuffer v → (t.heaps r).HoldsBuffer v) :
    Agrees t (g.close fun r' h' _ => r' = r ∧ h' = h) :=
  ⟨a.follows.close closed.tidy closed.next (closed_registry a.follows closed) buffers,
    a.scopes.close closed.contexts⟩

theorem wp_releaseHandle (a : Agrees s g) : wp (releaseHandle r h kind)
    (fun _ t => Agrees t (g.close fun r' h' _ => r' = r ∧ h' = h)) (fun t => Agrees t g) s := by
  by_cases open_ : ∃ v, s.found r h = some (v, kind)
  · obtain ⟨v, open_⟩ := open_
    obtain ⟨t, ran, closed, heaps⟩ := Runtimes.releaseHandle_open a.follows.tidy open_
    simp only [wp, ran]
    exact a.closed closed fun r v held => heaps ▸ held
  · have refused := Runtimes.releaseHandle_refused fun v was => open_ ⟨v, was⟩
    simp only [wp, refused]
    exact a

/-- A buffer owner that is open is released, with the export it stands for. -/
theorem releaseBufferOwner_open (f : Mirrors s g) {x : HandleRecord} {writable : Bool}
    (hx : g.live r h = some x) (owner : x.kind = .bufferOwner writable) :
    ∃ t, NativeContext.releaseBufferOwner r h s = .ok () t ∧ s.Closed t r h ∧
      ∃ b, (s.heaps r).tryGet x.value = some (.buffer b) ∧
        t.heaps = (s.setHeap r
          (final (setObject x.value (.buffer (b.endExport writable))) (s.heaps r))).heaps := by
  have own : s.found r h = some (x.value, .bufferOwner writable) := by
    rw [f.found, hx, ← owner]
    rfl
  obtain ⟨b, stored⟩ := f.buffer hx owner
  have entry := (s.tables r).entry_eq h
  rw [show (s.tables r).found h = _ from own] at entry
  let u := s.setHeap r (final (setObject x.value (.buffer (b.endExport writable))) (s.heaps r))
  have tidy : u.Tidy := ⟨f.tidy.tables, f.tidy.tokens⟩
  obtain ⟨t, ran, closed, heaps⟩ := Runtimes.releaseHandle_open tidy (show u.found r h = _ from own)
  refine ⟨t, ?_, ⟨closed.tidy, closed.next, closed.contexts, closed.found⟩, b, stored, heaps⟩
  rw [NativeContext.releaseBufferOwner,
    reading_bind_ok (f := fun s : Runtimes => (s.tables r).entry h) entry]
  have got : (s.heaps r).get x.value = .ok (.buffer b) := by
    simp [Heap.get, stored]
  simp only
  rw [reading_bind_ok (f := fun s : Runtimes => (s.heaps r).get x.value) got]
  exact ran

theorem releaseBufferOwner_refused (f : Mirrors s g)
    (wrong : ∀ x writable, g.live r h = some x → x.kind ≠ .bufferOwner writable) :
    NativeContext.releaseBufferOwner r h s = .error invalidHandle s := by
  have entry := (s.tables r).entry_eq h
  rw [show (s.tables r).found h = _ from f.found r h] at entry
  cases hx : g.live r h with
  | none =>
    simp only [hx, Option.map_none] at entry
    rw [NativeContext.releaseBufferOwner,
      reading_bind_error (f := fun s : Runtimes => (s.tables r).entry h) entry]
  | some x =>
    simp only [hx, Option.map_some] at entry
    rw [NativeContext.releaseBufferOwner,
      reading_bind_ok (f := fun s : Runtimes => (s.tables r).entry h) entry]
    cases kind : x.kind with
    | bufferOwner writable => exact absurd kind (wrong x writable hx)
    | _ => rfl

theorem wp_releaseBufferOwner (a : Agrees s g) : wp (NativeContext.releaseBufferOwner r h)
    (fun _ t => Agrees t (g.close fun r' h' _ => r' = r ∧ h' = h)) (fun t => Agrees t g) s := by
  by_cases open_ : ∃ x writable, g.live r h = some x ∧ x.kind = .bufferOwner writable
  · obtain ⟨x, writable, hx, owner⟩ := open_
    obtain ⟨t, ran, closed, b, -, heaps⟩ := releaseBufferOwner_open a.follows hx owner
    simp only [wp, ran]
    exact a.closed closed fun r v held => heaps ▸ holdsBuffer_setBuffer _ held
  · have refused := releaseBufferOwner_refused a.follows fun x writable hx owner =>
      open_ ⟨x, writable, hx, owner⟩
    simp only [wp, refused]
    exact a

end Calls

/-! ### The end of a scope -/

section Drop

variable {s t : Runtimes} {g : Registry} {r c : Nat} {h : Handle}

theorem Registry.close_close (g : Registry) (p q : Nat → Handle → HandleRecord → Bool) :
    (g.close p).close q = g.close fun r h x => p r h x || q r h x := by
  have live : ((g.close p).close q).live = (g.close fun r h x => p r h x || q r h x).live := by
    funext r h
    simp only [close, Option.filter_filter]
    congr 1
    funext x
    cases p r h x <;> cases q r h x <;> rfl
  exact congrArg (Registry.mk · g.made) live

theorem Registry.close_congr (g : Registry) {p q : Nat → Handle → HandleRecord → Bool}
    (same : ∀ r h x, g.live r h = some x → p r h x = q r h x) : g.close p = g.close q := by
  have live : (g.close p).live = (g.close q).live := by
    funext r h
    simp only [close]
    cases hx : g.live r h with
    | none => rfl
    | some x => simp [Option.filter, same r h x hx]
  exact congrArg (Registry.mk · g.made) live

theorem ignoring_ok {m : NativeM Unit} (ran : m s = .ok () t) :
    NativeContext.ignoring m s = .ok () t := by
  show EStateM.Result.ok () (final m s) = _
  rw [final, ran]

/-- An open local handle or buffer owner is closed; what was released before is passed over. -/
theorem releaseLocal_closes (f : Mirrors s g)
    (kind : ∀ x, g.live r h = some x → x.kind = .locals ∨ ∃ w, x.kind = .bufferOwner w) :
    ∃ t, NativeContext.releaseLocal r h s = .ok () t ∧ t.contexts = s.contexts ∧
      Mirrors t (g.close fun r' h' _ => r' = r ∧ h' = h) := by
  have entry := (s.tables r).entry_eq h
  rw [show (s.tables r).found h = _ from f.found r h] at entry
  rw [NativeContext.releaseLocal, get_bind]
  cases hx : g.live r h with
  | none =>
    simp only [hx, Option.map_none] at entry
    rw [entry]
    refine ⟨s, rfl, rfl, f.close f.tidy rfl (fun r' h' => ?_) fun _ _ => id⟩
    rw [f.found]
    by_cases same : r' = r ∧ h' = h
    · obtain ⟨rfl, rfl⟩ := same
      simp [Registry.close, hx]
    · cases hx' : g.live r' h' <;> simp [Registry.close, hx', Option.filter, same]
  | some x =>
    simp only [hx, Option.map_some] at entry
    rw [entry]
    rcases kind x hx with locals | ⟨w, owner⟩
    · have own : s.found r h = some (x.value, .locals) := by
        rw [f.found, hx, ← locals]
        rfl
      obtain ⟨t, ran, closed, heaps⟩ := Runtimes.releaseHandle_open f.tidy own
      simp only [locals]
      refine ⟨t, ignoring_ok ran, closed.contexts, ?_⟩
      exact f.close closed.tidy closed.next (closed_registry f closed) fun r v held => heaps ▸ held
    · obtain ⟨t, ran, closed, b, -, heaps⟩ := releaseBufferOwner_open f hx owner
      simp only [owner]
      refine ⟨t, ignoring_ok ran, closed.contexts, ?_⟩
      exact f.close closed.tidy closed.next (closed_registry f closed) fun r v held =>
        heaps ▸ holdsBuffer_setBuffer _ held

theorem releaseLocals_close (hs : List Handle) (f : Mirrors s g)
    (kind : ∀ h ∈ hs, ∀ x, g.live r h = some x → x.kind = .locals ∨ ∃ w, x.kind = .bufferOwner w) :
    ∃ t, hs.forM (NativeContext.releaseLocal r) s = .ok () t ∧ t.contexts = s.contexts ∧
      Mirrors t (g.close fun r' h' _ => r' = r ∧ h' ∈ hs) := by
  induction hs generalizing s g with
  | nil =>
    refine ⟨s, rfl, rfl, f.close f.tidy rfl (fun r' h' => ?_) fun _ _ => id⟩
    rw [f.found]
    cases hx : g.live r' h' <;> simp [Registry.close, hx, Option.filter]
  | cons h hs ih =>
    obtain ⟨t, ran, contexts, follows⟩ := releaseLocal_closes f (kind h (by simp))
    have rest : ∀ h' ∈ hs, ∀ x, (g.close fun r' h' _ => r' = r ∧ h' = h).live r h' = some x →
        x.kind = .locals ∨ ∃ w, x.kind = .bufferOwner w :=
      fun h' mem x hx => kind h' (by simp [mem]) x (live_close.mp hx).1
    obtain ⟨u, ran', contexts', follows'⟩ := ih follows rest
    refine ⟨u, ?_, contexts'.trans contexts, ?_⟩
    · show (NativeContext.releaseLocal r h >>= fun _ => hs.forM _) s = _
      rw [bind_ok ran]
      exact ran'
    · rw [Registry.close_close] at follows'
      rwa [Registry.close_congr g (q := fun r' h' _ => r' = r ∧ h' ∈ h :: hs)] at follows'
      intro r' h' x _
      by_cases same : r' = r
      · simp [same]
      · simp [same]

/-- Dropping a scope closes what was made through it and is still open. -/
theorem drop_closes (a : Agrees s g) {context : NativeContext} (hc : s.contexts c = some context) :
    ∃ t, NativeContext.drop c s = .ok () t ∧ t.contexts = Function.update s.contexts c none ∧
      Mirrors t (g.close fun _ _ x => x.scope = some c) := by
  have current : NativeContext.current c s = .ok context s := by
    simp [NativeContext.current, reading, hc]
  have own : ∀ r h x, g.live r h = some x →
      (x.scope = some c ↔ r = context.runtime ∧ h ∈ context.locals) := by
    intro r h x hx
    constructor
    · intro scope
      obtain ⟨other, hc', runtime, mem⟩ := a.scopes.open_ hx scope
      rw [hc] at hc'
      cases hc'
      exact ⟨runtime.symm, mem⟩
    · rintro ⟨rfl, mem⟩
      exact (a.scopes.locals hc mem).2 x hx
  have taken : Mirrors (s.setContext c (some { context with locals := [] })) g :=
    a.follows.setContext
  obtain ⟨t, ran, contexts, follows⟩ := releaseLocals_close context.locals taken
    (r := context.runtime) fun h mem x hx => by
      refine a.scopes.kind hx ?_
      rw [(own _ h x hx).mpr ⟨rfl, mem⟩]
      rfl
  refine ⟨t.setContext c none, ?_, ?_, ?_⟩
  · rw [NativeContext.drop, bind_ok current]
    show (context.locals.forM (NativeContext.releaseLocal context.runtime) >>= fun _ => _) _ = _
    rw [bind_ok ran]
    rfl
  · simp only [Runtimes.setContext] at contexts ⊢
    rw [contexts, Function.update_idem]
  · refine Mirrors.setContext ?_
    rwa [Registry.close_congr g (q := fun _ _ x => x.scope = some c)] at follows
    intro r h x hx
    simp [own r h x hx]

theorem wp_drop (a : Agrees s g) : wp (NativeContext.drop c)
    (fun _ t => Agrees t (g.close fun _ _ x => x.scope = some c)) (fun t => Agrees t g) s := by
  cases hc : s.contexts c with
  | none =>
    simp only [NativeContext.drop, wp_bind]
    refine wp_current a fun context found => ?_
    rw [hc] at found
    cases found
  | some context =>
    obtain ⟨t, ran, contexts, follows⟩ := drop_closes a hc
    simp only [wp, ran]
    refine ⟨follows, ?_, ?_, ?_⟩
    · intro r h x c' hx scope
      obtain ⟨hx, other⟩ := live_close.mp hx
      have apart : c' ≠ c := by
        rintro rfl
        simp [scope] at other
      obtain ⟨context', hc', rest⟩ := a.scopes.open_ hx scope
      exact ⟨context', by rw [contexts, Function.update_of_ne apart, hc'], rest⟩
    · exact fun hx => a.scopes.kind (live_close.mp hx).1
    · intro c' context' h hc' mem
      rw [contexts, Function.update_apply] at hc'
      split at hc'
      · cases hc'
      · obtain ⟨made, own⟩ := a.scopes.locals hc' mem
        exact ⟨made, fun x hx => own x (live_close.mp hx).1⟩

theorem wp_invalidateAll (a : Agrees s g) : wp (invalidateAll r)
    (fun _ t => Agrees t (g.close fun r' _ _ => r' = r)) (fun t => Agrees t g) s := by
  simp only [invalidateAll, wp_modify]
  have tidy := a.follows.tidy
  refine ⟨a.follows.close (tidy.setTable (tidy.tables r).invalidateAll) rfl ?_ fun _ _ => id,
    a.scopes.close rfl⟩
  intro r' h'
  rw [Runtimes.found_setTable]
  by_cases same : r' = r
  · simp [Registry.close, same, HandleTable.found_invalidateAll]
  · rw [if_neg same, a.follows.found]
    cases hx : g.live r' h' <;> simp [Registry.close, hx, Option.filter, same]

theorem wp_openContext (a : Agrees s g) : wp (NativeOp.openContext c r).run
    (fun _ t => Agrees t g) (fun t => Agrees t g) s := by
  simp only [NativeOp.run, wp_bind, wp_get]
  cases hc : s.contexts c with
  | some context => exact a
  | none =>
    simp only [Option.isSome_none, Bool.false_eq_true, if_false, wp_bind, wp_pure, wp_set]
    refine ⟨a.follows.setContext, ?_, a.scopes.kind, ?_⟩
    · intro r' h x c' hx scope
      obtain ⟨context, hc', rest⟩ := a.scopes.open_ hx scope
      have apart : c' ≠ c := by
        rintro rfl
        rw [hc] at hc'
        cases hc'
      exact ⟨context, (Function.update_of_ne apart ..).trans hc', rest⟩
    · intro c' context h hc' mem
      simp only [Runtimes.setContext, Function.update_apply] at hc'
      split at hc'
      · cases hc'
        cases mem
      · exact a.scopes.locals hc' mem

theorem wp_openContext_none (c r : Nat) : wp (NativeOp.openContext c r).run
    (fun made _ => made = none) (fun _ => True) s := by
  simp only [NativeOp.run, wp_bind, wp_get]
  cases s.contexts c with
  | none => rfl
  | some context => trivial

end Drop

/-! ### Runs -/

namespace Ledger

variable {s t : Ledger}

def Agrees (s : Ledger) : Prop := Tonic.Agrees s.runtimes s.registry

/-- What a successful call did to the registry, and that what it made is new. -/
def Registers (s t : Runtimes) (g : Registry) (op : NativeOp) (made : Option Handle) : Prop :=
  Tonic.Agrees t (op.register s g made) ∧ ∀ h, made = some h → h.token = s.nextToken

section Run

variable {s : Runtimes} {g : Registry} {op : NativeOp}

theorem wp_adds {m : NativeM Handle} {r : Nat} {x : HandleRecord}
    (register : ∀ h, op.register s g (some h) = g.add r h x)
    (call : wp m (fun h t => Adds s t g r h x) (fun t => Tonic.Agrees t g) s) :
    wp (some <$> m) (fun made t => Registers s t g op made) (fun t => Tonic.Agrees t g) s := by
  rw [wp_map]
  refine wp_mono call (fun h t adds => ⟨register h ▸ adds.agrees, ?_⟩) fun _ => id
  rintro h' ⟨⟩
  exact adds.token

theorem wp_closes {m : NativeM Unit} {closes : Nat → Handle → HandleRecord → Bool}
    (register : op.register s g none = g.close closes)
    (call : wp m (fun _ t => Tonic.Agrees t (g.close closes)) (fun t => Tonic.Agrees t g) s) :
    wp ((fun _ => none) <$> m) (fun made t => Registers s t g op made)
      (fun t => Tonic.Agrees t g) s := by
  rw [wp_map]
  exact wp_mono call (fun _ t a => ⟨register ▸ a, fun h made => by cases made⟩) fun _ => id

theorem wp_run (a : Tonic.Agrees s g) (op : NativeOp) :
    wp op.run (fun made t => Registers s t g op made) (fun t => Tonic.Agrees t g) s := by
  cases op with
  | openContext c r =>
    refine wp_mono (wp_and (wp_openContext a) (wp_openContext_none c r)) ?_ fun _ h => h.1
    rintro made t ⟨agrees, rfl⟩
    exact ⟨agrees, fun h made => by cases made⟩
  | localHandle c v => exact wp_adds (fun _ => rfl) (wp_localHandle a)
  | persistValue r v =>
    exact wp_adds (fun _ => rfl) (wp_insert a _ fun w same => by cases same)
  | persist c h => exact wp_adds (fun _ => rfl) (wp_persist a)
  | borrowPersistent c h => exact wp_adds (fun _ => rfl) (wp_borrowPersistent a)
  | createForeignReference c h => exact wp_adds (fun _ => rfl) (wp_createForeignReference a)
  | borrowForeignReference c h => exact wp_adds (fun _ => rfl) (wp_borrowForeignReference a)
  | promoteForeignReference r h => exact wp_adds (fun _ => rfl) (wp_promoteForeignReference a)
  | exportF64Buffer c h writable contiguous => exact wp_adds (fun _ => rfl) (wp_exportF64Buffer a)
  | releasePersistent r h => exact wp_closes rfl (wp_releaseHandle a)
  | releaseForeignReference r h => exact wp_closes rfl (wp_releaseHandle a)
  | releaseBufferOwner r h => exact wp_closes rfl (wp_releaseBufferOwner a)
  | drop c => exact wp_closes rfl (wp_drop a)
  | invalidateAll r => exact wp_closes rfl (wp_invalidateAll a)

end Run

theorem perform_agrees (a : s.Agrees) (op : NativeOp) : (s.perform op).Agrees := by
  have kept := wp_run a op
  unfold wp at kept
  unfold perform
  cases ran : op.run s.runtimes with
  | ok made t =>
    rw [ran] at kept
    exact kept.1
  | error e t =>
    rw [ran] at kept
    exact kept

theorem start_agrees : start.Agrees where
  follows :=
    { tidy := ⟨fun _ => HandleTable.empty_tidy, by decide⟩
      found := fun _ _ => rfl
      token := fun made => made.elim
      unique := fun made => made.elim
      made := fun hx => by cases hx
      buffer := fun hx => by cases hx }
  scopes :=
    { open_ := fun hx => by cases hx
      kind := fun hx => by cases hx
      locals := fun hc => by cases hc }

theorem step_agrees (step : LedgerStep s t) (a : s.Agrees) : t.Agrees := by
  cases step with
  | call op => exact perform_agrees a op
  | heap r h kept =>
    exact ⟨a.follows.setHeap fun v held root => kept v root held, a.scopes.same rfl⟩

theorem run_agrees (run : LedgerRun s t) (a : s.Agrees) : t.Agrees := by
  induction run with
  | refl => exact a
  | next _ step ih => exact step_agrees step ih

end Ledger

namespace NativeOp

theorem register_cases (op : NativeOp) (s : Runtimes) (g : Registry) (made : Option Handle) :
    (∃ r h x, made = some h ∧ op.register s g made = g.add r h x) ∨
    (∃ closes, op.register s g made = g.close closes) ∨ op.register s g made = g := by
  cases op with
  | releasePersistent | releaseForeignReference | releaseBufferOwner | drop | invalidateAll =>
    cases made <;> exact .inr (.inl ⟨_, rfl⟩)
  | openContext => cases made <;> exact .inr (.inr rfl)
  | _ =>
    cases made with
    | none => exact .inr (.inr rfl)
    | some h => exact .inl ⟨_, h, _, rfl, rfl⟩

end NativeOp

namespace Ledger

variable {s t : Ledger} {r : Nat} {h : Handle}

/-- What was made stays made, and what is closed stays closed. -/
structure Later (s t : Ledger) : Prop where
  made : ∀ {r h}, s.registry.made r h → t.registry.made r h
  closed : ∀ {r h}, s.registry.made r h → s.registry.live r h = none → t.registry.live r h = none

theorem step_later (step : LedgerStep s t) (a : s.Agrees) : s.Later t := by
  cases step with
  | heap r h kept => exact ⟨id, fun _ => id⟩
  | call op =>
    have registers := wp_run a op
    unfold wp at registers
    unfold perform
    cases ran : op.run s.runtimes with
    | error e t => exact ⟨id, fun _ => id⟩
    | ok made t =>
      rw [ran] at registers
      obtain ⟨-, fresh⟩ := registers
      rcases op.register_cases s.runtimes s.registry made with
        ⟨r, h, x, rfl, eq⟩ | ⟨closes, eq⟩ | eq
      · simp only [eq]
        refine ⟨.inl, fun {r' h'} before gone => ?_⟩
        have other : ¬(r' = r ∧ h' = h) := by
          rintro ⟨-, rfl⟩
          exact a.follows.fresh (fresh h' rfl) before
        simp only [Registry.add, if_neg other]
        exact gone
      · simp only [eq]
        refine ⟨id, fun {r' h'} _ gone => ?_⟩
        simp [Registry.close, gone]
      · simp only [eq]
        exact ⟨id, fun _ => id⟩

theorem run_later (run : LedgerRun s t) (a : s.Agrees) : s.Later t := by
  induction run with
  | refl => exact ⟨id, fun _ => id⟩
  | next run step ih =>
    have later := step_later step (run_agrees run a)
    exact ⟨fun made => later.made (ih.made made),
      fun made gone => later.closed (ih.made made) (ih.closed made gone)⟩

theorem entry_live (a : s.Agrees) (r : Nat) (h : Handle) : (s.runtimes.tables r).entry h =
    match s.registry.live r h with
    | some x => .ok ⟨h.token, some x.value, x.kind⟩
    | none => .error invalidHandle := by
  rw [HandleTable.entry_eq, show (s.runtimes.tables r).found h = _ from a.follows.found r h]
  cases s.registry.live r h <;> rfl

/-- Whatever the roots include, a collection that visits the handles is a step of the heap. -/
theorem collect_step {youngOnly : Bool} {roots : List Value} (hs : Heap.Sound (s.runtimes.heaps r))
    (visited : (s.runtimes.tables r).roots ⊆ roots) :
    LedgerStep s ⟨s.runtimes.setHeap r (final (collectWith youngOnly roots) (s.runtimes.heaps r)),
      s.registry⟩ := by
  refine .heap s r _ fun v root => ?_
  have kept : Heap.HoldsBuffer (s.runtimes.heaps r) v →
      Heap.HoldsBuffer (final (collectWith youngOnly roots) (s.runtimes.heaps r)) v := by
    rintro ⟨b, hb⟩
    refine wp_final (P := fun t => t.HoldsBuffer v) (wp_mono (Heap.wp_collectWith hs.valid) ?_ ?_)
    · rintro - t' ⟨marked, t, tr, rfl⟩
      have reach : (s.runtimes.heaps r).Reachable (Heap.starts roots t) v :=
        ⟨v, by simp [Heap.starts, visited root], .refl⟩
      obtain ⟨e, he, eq⟩ := Heap.tryGet_eq_some.mp hb
      have entry := (tr.kept hs.valid hs.complete reach).entry
      refine ⟨b, Heap.tryGet_eq_some.mpr ⟨_, by rw [entry, he]; rfl, ?_⟩⟩
      simp [eq, Heap.pruneDependents]
    · rintro t failed
      exact ⟨b, by rw [Heap.tryGet, failed.queued.entry]; exact hb⟩
  exact kept

theorem alloc_step {o : Object} (hs : Heap.Sound (s.runtimes.heaps r))
    (issued : ∀ v ∈ o.trace, (s.runtimes.heaps r).Issued v) :
    LedgerStep s ⟨s.runtimes.setHeap r (final (alloc o) (s.runtimes.heaps r)), s.registry⟩ := by
  refine .heap s r _ fun v _ => ?_
  rintro ⟨b, hb⟩
  refine wp_final (P := fun t => t.HoldsBuffer v) (wp_mono (Heap.wp_alloc_stores hs issued) ?_ ?_)
  · rintro w t ⟨-, stores, new, -⟩
    have apart : v ≠ w := by
      rintro rfl
      rw [Heap.tryGet_unissued hs.valid new] at hb
      cases hb
    exact ⟨b, by rw [stores, Function.update_of_ne apart]; exact hb⟩
  · rintro t ⟨-, rfl⟩
    exact ⟨b, hb⟩

end Ledger

/-- The ways to read the value of a handle. -/
inductive Accessor where
  | resolve | borrowPersistent | resolvePersistent | resolveForeignReference
deriving DecidableEq

namespace Accessor

/-- `Context::resolve`, `Context::borrow_persistent`, `HandleTable::resolve_persistent` and
`HandleTable::resolve_foreign_reference`. -/
def read (t : HandleTable) (h : Handle) : Accessor → Except Fault Value
  | resolve | borrowPersistent => t.resolve h
  | resolvePersistent => t.resolvePersistent h
  | resolveForeignReference => t.resolveForeignReference h

/-- The kind of handle that an accessor is for. -/
def own : Accessor → HandleKind
  | resolve => .locals
  | borrowPersistent | resolvePersistent => .persistent
  | resolveForeignReference => .foreignReference

/-- The kinds that pass the check of an accessor. -/
def lets : Accessor → HandleKind → Bool
  | resolve, kind | borrowPersistent, kind => kind = .locals ∨ kind = .persistent
  | resolvePersistent, kind => kind = .persistent
  | resolveForeignReference, kind => kind = .foreignReference

theorem read_eq (a : Accessor) (t : HandleTable) (h : Handle) : a.read t h = t.lookup a.lets h := by
  cases a <;> rfl

end Accessor

namespace Ledger

variable {s t : Ledger}

/-- The handle is open, but of the other kind that passes the check. -/
def Confuses (s : Ledger) (a : Accessor) (r : Nat) (h : Handle) : Prop :=
  ∃ x, s.registry.live r h = some x ∧
    (a = .resolve ∧ x.kind = .persistent ∨ a = .borrowPersistent ∧ x.kind = .locals)

/-- Handles are safe, seen from one access with an arbitrary word. -/
structure Safe (s : Ledger) (a : Accessor) (r : Nat) (h : Handle) : Prop where
  answers : ∀ v, a.read (s.runtimes.tables r) h = .ok v ↔
    ∃ x, s.registry.live r h = some x ∧ x.kind = a.own ∧ x.value = v
  made : ∀ x, s.registry.live r h = some x → s.registry.made r h
  creator : ∀ r', s.registry.made r h → s.registry.made r' h → r' = r
  never : s.registry.made r h → s.registry.live r h = none → ∀ t, LedgerRun s t →
    (t.runtimes.tables r).entry h = .error invalidHandle
  apart : ∀ h' x y, s.registry.live r h = some x → s.registry.live r h' = some y →
    h.slot = h'.slot → h = h'
  free : (s.runtimes.tables r).free.Nodup ∧ ∀ i, i ∈ (s.runtimes.tables r).free ↔
    ∃ e, (s.runtimes.tables r).entries[i]? = some e ∧ e.value = none
  release : ∀ kind, (∃ x, s.registry.live r h = some x ∧ x.kind = kind) ∧
      (∃ t, releaseHandle r h kind s.runtimes = .ok () t) ∨
    (∀ x, s.registry.live r h = some x → x.kind ≠ kind) ∧
      releaseHandle r h kind s.runtimes = .error invalidHandle s.runtimes
  releaseOwner : (∃ x writable, s.registry.live r h = some x ∧ x.kind = .bufferOwner writable) ∧
      (∃ t, NativeContext.releaseBufferOwner r h s.runtimes = .ok () t) ∨
    (∀ x writable, s.registry.live r h = some x → x.kind ≠ .bufferOwner writable) ∧
      NativeContext.releaseBufferOwner r h s.runtimes = .error invalidHandle s.runtimes
  drop : ∀ c context, s.runtimes.contexts c = some context →
    ∃ t, NativeContext.drop c s.runtimes = .ok () t ∧
      (t.tables r).entry h = match s.registry.live r h with
        | some x => if x.scope = some c then .error invalidHandle
          else (s.runtimes.tables r).entry h
        | none => (s.runtimes.tables r).entry h
  kinds : ∀ x c, s.registry.live r h = some x → x.scope = some c →
    x.kind = .locals ∨ ∃ writable, x.kind = .bufferOwner writable
  roots : ∀ v, v ∈ (s.runtimes.tables r).roots ↔
    ∃ h x, s.registry.live r h = some x ∧ x.kind ≠ .foreignReference ∧ x.value = v

theorem answers_iff (agrees : s.Agrees) (a : Accessor) (r : Nat) (h : Handle) :
    (∀ v, a.read (s.runtimes.tables r) h = .ok v ↔
      ∃ x, s.registry.live r h = some x ∧ x.kind = a.own ∧ x.value = v) ↔ ¬ s.Confuses a r h := by
  have found := agrees.follows.found r h
  simp only [Accessor.read_eq, HandleTable.lookup_eq_ok,
    show (s.runtimes.tables r).found h = _ from found]
  cases hx : s.registry.live r h with
  | none => simp [Confuses, hx]
  | some x =>
    obtain ⟨v, kind, scope⟩ := x
    simp only [Option.map_some, Option.some.injEq, Prod.mk.injEq, Confuses, hx]
    cases a <;> cases kind <;> simp [Accessor.lets, Accessor.own]

theorem safe_iff (agrees : s.Agrees) (a : Accessor) (r : Nat) (h : Handle) :
    s.Safe a r h ↔ ¬ s.Confuses a r h := by
  rw [← answers_iff agrees]
  constructor
  · exact fun safe => safe.answers
  intro answers
  have f := agrees.follows
  have found := f.found r h
  have tidy := f.tidy.tables r
  constructor
  · exact answers
  · exact fun x hx => f.made hx
  · exact fun r' own other => (f.unique other own rfl).1
  · intro made gone t run
    rw [entry_live (run_agrees run agrees), (run_later run agrees).closed made gone]
  · intro h' x y hx hy same
    have found' := f.found r h'
    rw [hx] at found
    rw [hy] at found'
    exact HandleTable.found_unique found found' same
  · exact ⟨tidy.nodup, tidy.free⟩
  · intro kind
    by_cases open_ : ∃ x, s.registry.live r h = some x ∧ x.kind = kind
    · obtain ⟨x, hx, rfl⟩ := open_
      rw [hx] at found
      obtain ⟨t, ran, -⟩ := Runtimes.releaseHandle_open f.tidy found
      exact .inl ⟨⟨x, hx, rfl⟩, t, ran⟩
    · right
      refine ⟨fun x hx same => open_ ⟨x, hx, same⟩, Runtimes.releaseHandle_refused fun v was => ?_⟩
      rw [found] at was
      obtain ⟨x, hx, eq⟩ := Option.map_eq_some_iff.mp was
      exact open_ ⟨x, hx, congrArg (·.2) eq⟩
  · by_cases open_ : ∃ x writable, s.registry.live r h = some x ∧ x.kind = .bufferOwner writable
    · obtain ⟨x, writable, hx, owner⟩ := open_
      obtain ⟨t, ran, -⟩ := releaseBufferOwner_open f hx owner
      exact .inl ⟨⟨x, writable, hx, owner⟩, t, ran⟩
    · have closed : ∀ x writable, s.registry.live r h = some x → x.kind ≠ .bufferOwner writable :=
        fun x writable hx owner => open_ ⟨x, writable, hx, owner⟩
      exact .inr ⟨closed, releaseBufferOwner_refused f closed⟩
  · intro c context hc
    obtain ⟨t, ran, -, follows⟩ := drop_closes agrees hc
    refine ⟨t, ran, ?_⟩
    rw [HandleTable.entry_eq, show (t.tables r).found h = _ from follows.found r h,
      entry_live agrees]
    cases hx : s.registry.live r h with
    | none => simp [Registry.close, hx]
    | some x =>
      by_cases own : x.scope = some c <;> simp [Registry.close, hx, own, Option.filter]
  · intro x c hx scope
    exact agrees.scopes.kind hx (by rw [scope]; rfl)
  · intro v
    rw [HandleTable.mem_roots tidy]
    constructor
    · rintro ⟨h', kind, found', counted⟩
      rw [show (s.runtimes.tables r).found h' = _ from f.found r h'] at found'
      obtain ⟨x, hx, eq⟩ := Option.map_eq_some_iff.mp found'
      cases eq
      exact ⟨h', x, hx, counted, rfl⟩
    · rintro ⟨h', x, hx, counted, rfl⟩
      have found' := f.found r h'
      rw [hx] at found'
      exact ⟨h', x.kind, found', counted⟩

end Ledger

/-- At every point of every run handles are safe for an access exactly when it is not given the
word of an open handle of the other kind that its check lets through: a persistent handle where a
local one is due, or a local handle where a persistent one is due. -/
theorem native_handles_safe {s : Ledger} (reach : LedgerRun .start s) (a : Accessor) (r : Nat)
    (h : Handle) : s.Safe a r h ↔ ¬ s.Confuses a r h :=
  Ledger.safe_iff (Ledger.run_agrees reach Ledger.start_agrees) a r h

section Persisted

open Ledger

/-- A scope made a local handle of `None` and persisted it. -/
def persisted : Ledger :=
  ((start.perform (.openContext 0 0)).perform (.localHandle 0 .none)).perform
    (.persist 0 (.pack 1 0))

theorem persisted_reached : LedgerRun .start persisted :=
  LedgerRun.refl start |>.next (.call _ _) |>.next (.call _ _) |>.next (.call _ _)

theorem persisted_live : persisted.registry.live 0 (.pack 2 1) =
    some ⟨.none, .persistent, none⟩ := rfl

theorem native_handles_safe_persisted : persisted.Safe .resolvePersistent 0 (.pack 2 1) ∧
    ¬ persisted.Safe .resolve 0 (.pack 2 1) := by
  constructor
  · rw [native_handles_safe persisted_reached]
    rintro ⟨x, -, ⟨other, -⟩ | ⟨other, -⟩⟩ <;> cases other
  · rw [native_handles_safe persisted_reached, not_not]
    exact ⟨_, persisted_live, .inl ⟨rfl, rfl⟩⟩

/-- The word of the persistent handle passes for a local one. -/
theorem persistent_resolves_as_local :
    ¬ ∀ s, LedgerRun .start s → ∀ a r h, s.Safe a r h := by
  intro all
  have safe := all persisted persisted_reached .resolve 0 (.pack 2 1)
  obtain ⟨x, live, kind, -⟩ := (safe.answers .none).mp rfl
  rw [persisted_live] at live
  cases live
  cases kind

end Persisted

end Tonic
