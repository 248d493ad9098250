import Mathlib.Data.Set.Card
import Mathlib.Logic.Relation
import Tonic.NativeHandlesSound

/-!
## Buffer exports

The count in a buffer, the owners in the handle table and the scopes that end their lives are
compared at every point of a run, and the version of a buffer with what it holds.
-/

namespace Tonic

open Effect

namespace Runtimes

/-- The buffer that a value stands for. -/
def bufferAt (s : Runtimes) (r : Nat) (v : Value) : Option Buffer :=
  match (s.heaps r).tryGet v with
  | some (.buffer b) => some b
  | _ => none

/-- The open handles that own a writable export. -/
def owners (s : Runtimes) (r : Nat) (v : Value) : Set Handle :=
  {h | s.found r h = some (v, .bufferOwner true)}

theorem mem_owners {s : Runtimes} {r : Nat} {v : Value} {h : Handle} :
    h ∈ s.owners r v ↔ s.found r h = some (v, .bufferOwner true) := Iff.rfl

def Sound (s : Runtimes) : Prop := ∀ r, Heap.Sound (s.heaps r)

variable {s t u : Runtimes} {r c : Nat} {v : Value} {h : Handle} {b b' : Buffer} {kind : HandleKind}

theorem bufferAt_eq : s.bufferAt r v = some b ↔ (s.heaps r).tryGet v = some (.buffer b) := by
  unfold bufferAt
  split
  · next b' eq => rw [eq, Option.some.injEq, Option.some.injEq, Object.buffer.injEq]
  · next other =>
    constructor
    · intro no
      cases no
    · intro eq
      exact absurd eq (other b)

/-- One buffer and its owners change. -/
structure Edits (s t : Runtimes) (r : Nat) (v : Value) (b : Buffer) (owned : Set Handle) :
    Prop where
  owners : ∀ r' w, t.owners r' w = if r' = r ∧ w = v then owned else s.owners r' w
  buffers : ∀ r' w, t.bufferAt r' w = if r' = r ∧ w = v then some b else s.bufferAt r' w

/-- What the handles and the buffers of all runtimes can go through at once. -/
inductive Change (s t : Runtimes) : Prop where
  | begins (r : Nat) (v : Value) (b b' : Buffer) (h : Handle)
    (stored : s.bufferAt r v = some b) (begun : b.beginExport true = .ok b')
    (new : h ∉ s.owners r v) (edits : Edits s t r v b' (insert h (s.owners r v)))
  | ends (r : Nat) (v : Value) (b : Buffer) (h : Handle)
    (stored : s.bufferAt r v = some b) (own : h ∈ s.owners r v)
    (edits : Edits s t r v (b.endExport true) (s.owners r v \ {h}))
  | stores (r : Nat) (v : Value) (b b' : Buffer) (i : Nat) (x : F64)
    (stored : s.bufferAt r v = some b) (run : b.setF64 i x = .ok b')
    (edits : Edits s t r v b' (s.owners r v))
  | writes (r : Nat) (v : Value) (b : Buffer) (data : List F64)
    (stored : s.bufferAt r v = some b) (own : (s.owners r v).Nonempty)
    (edits : Edits s t r v { b with data } (s.owners r v))
  | moves (owners : ∀ r v, t.owners r v = s.owners r v)
    (buffers : ∀ r v b, t.bufferAt r v = some b → s.bufferAt r v = some b ∨
      ¬ (s.heaps r).Issued v ∧ b.mutation = ⟨0, 0, false⟩)

/-- A change that leaves the heaps sound and the values handed out. -/
structure Passes (s t : Runtimes) : Prop where
  sound : t.Sound
  issued : ∀ r v, (s.heaps r).Issued v → (t.heaps r).Issued v
  change : Change s t

abbrev Path : Runtimes → Runtimes → Prop := Relation.ReflTransGen Passes

theorem Path.sound (path : Path s t) (sound : s.Sound) : t.Sound := by
  induction path with
  | refl => exact sound
  | tail _ step _ => exact step.sound

theorem Path.issued (path : Path s t) (issued : (s.heaps r).Issued v) : (t.heaps r).Issued v := by
  induction path with
  | refl => exact issued
  | tail _ step ih => exact step.issued r v ih

/-! ### Counting -/

/-- Every buffer counts its owners, and only buffers have owners. -/
structure Accounts (s : Runtimes) : Prop where
  count : ∀ r v b, s.bufferAt r v = some b →
    (s.owners r v).encard = b.mutation.writableExports
  issued : ∀ r v, (s.owners r v).Nonempty → (s.heaps r).Issued v

theorem beginExport_eq (begun : b.beginExport true = .ok b') : b' =
    { b with mutation := { b.mutation with
      writableExports := b.mutation.writableExports + 1 } } := by
  unfold Buffer.beginExport at begun
  rw [Bool.not_true, if_neg Bool.false_ne_true] at begun
  split at begun
  · exact (Except.ok.inj begun).symm
  · cases begun

theorem setF64_eq {i : Nat} {x : F64} (run : b.setF64 i x = .ok b') :
    b.writable = true ∧ i < b.data.length ∧ b' = { b with
      data := b.data.set i x
      mutation := { b.mutation with version := b.mutation.version + 1 } } := by
  unfold Buffer.setF64 at run
  split at run
  · cases run
  next writable =>
  split at run
  · cases run
  next inside =>
  split at run
  · exact ⟨by simpa using writable, Nat.lt_of_not_le inside, (Except.ok.inj run).symm⟩
  · cases run

theorem endExport_count (b : Buffer) : (b.endExport true).mutation.writableExports =
    b.mutation.writableExports - 1 := by
  unfold Buffer.endExport
  rw [Bool.not_true, if_neg Bool.false_ne_true]
  dsimp only
  split <;> rfl

/-- The end of an export is a new version, or the end of native access. -/
theorem endExport_version (b : Buffer) :
    (b.endExport true).data = b.data ∧
      ((b.endExport true).mutation.version = b.mutation.version + 1 ∧
          (b.endExport true).mutation.nativeAccessDisabled = b.mutation.nativeAccessDisabled ∨
        (b.endExport true).mutation.version = b.mutation.version ∧
          (b.endExport true).mutation.nativeAccessDisabled = true) := by
  unfold Buffer.endExport
  rw [Bool.not_true, if_neg Bool.false_ne_true]
  dsimp only
  split
  · exact ⟨rfl, .inl ⟨rfl, rfl⟩⟩
  · exact ⟨rfl, .inr ⟨rfl, rfl⟩⟩

theorem issued_of_bufferAt (sound : s.Sound) (stored : s.bufferAt r v = some b) :
    (s.heaps r).Issued v := by
  by_contra new
  rw [bufferAt_eq, Heap.tryGet_unissued (sound r).valid new] at stored
  cases stored

/-- An edit leaves every other account as it was. -/
theorem Edits.accounts {owned : Set Handle} (edits : Edits s t r v b' owned)
    (sound : s.Sound) (accounts : s.Accounts) (stored : s.bufferAt r v = some b)
    (issued : ∀ r v, (s.heaps r).Issued v → (t.heaps r).Issued v)
    (own : owned.encard = b'.mutation.writableExports) : t.Accounts where
  count r' w c hc := by
    rw [edits.buffers] at hc
    rw [edits.owners]
    split at hc
    · next same =>
      cases hc
      rw [if_pos same, own]
    · next other =>
      rw [if_neg other]
      exact accounts.count r' w c hc
  issued r' w some := by
    rw [edits.owners] at some
    split at some
    · next same =>
      rw [same.1, same.2]
      exact issued r v (issued_of_bufferAt sound stored)
    · exact issued r' w (accounts.issued r' w some)

theorem Passes.accounts (step : Passes s t) (sound : s.Sound) (accounts : s.Accounts) :
    t.Accounts := by
  cases step.change with
  | begins r v b b' h stored begun new edits =>
    apply edits.accounts sound accounts stored step.issued
    rw [Set.encard_insert_of_notMem new, accounts.count r v b stored, beginExport_eq begun]
    rfl
  | ends r v b h stored own edits =>
    apply edits.accounts sound accounts stored step.issued
    have total := Set.encard_sdiff_singleton_add_one own
    rw [accounts.count r v b stored] at total
    rw [endExport_count]
    have finite : (s.owners r v \ {h}).encard ≠ ⊤ := by
      intro infinite
      rw [infinite] at total
      exact absurd total.symm (by simp)
    lift (s.owners r v \ {h}).encard to ℕ using finite with n
    norm_cast at total ⊢
    omega
  | stores r v b b' i x stored run edits =>
    apply edits.accounts sound accounts stored step.issued
    obtain ⟨-, -, rfl⟩ := setF64_eq run
    exact accounts.count r v b stored
  | writes r v b data stored own edits =>
    apply edits.accounts sound accounts stored step.issued
    exact accounts.count r v b stored
  | moves owners buffers =>
    constructor
    · intro r v b stored
      rw [owners]
      rcases buffers r v b stored with before | ⟨new, fresh⟩
      · exact accounts.count r v b before
      · have none : s.owners r v = ∅ :=
          Set.not_nonempty_iff_eq_empty.mp fun some => new (accounts.issued r v some)
        rw [none, Set.encard_empty, fresh]
        rfl
    · intro r v some
      rw [owners] at some
      exact step.issued r v (accounts.issued r v some)

theorem Path.accounts (path : Path s t) (sound : s.Sound) (accounts : s.Accounts) :
    t.Accounts := by
  induction path with
  | refl => exact accounts
  | tail path step ih => exact step.accounts (Path.sound path sound) ih

/-! ### Versions -/

/-- What a buffer has become since it was looked at. -/
structure Since (b : Buffer) (quiet : Prop) (t : Runtimes) (r : Nat) (v : Value) : Prop where
  issued : (t.heaps r).Issued v
  version : ∀ c, t.bufferAt r v = some c → b.mutation.version ≤ c.mutation.version
  disabled : ∀ c, t.bufferAt r v = some c → b.mutation.nativeAccessDisabled = true →
    c.mutation.nativeAccessDisabled = true
  data : ∀ c, t.bufferAt r v = some c → quiet → t.owners r v = ∅ →
    c.mutation.version = b.mutation.version → c.mutation.nativeAccessDisabled = false →
    c.data = b.data

theorem Since.edits {quiet : Prop} {r' : Nat} {w : Value} {c c' : Buffer} {owned : Set Handle}
    (since : Since b quiet s r v) (edits : Edits s t r' w c' owned)
    (stored : s.bufferAt r' w = some c)
    (issued : ∀ r v, (s.heaps r).Issued v → (t.heaps r).Issued v)
    (version : c.mutation.version ≤ c'.mutation.version)
    (disabled : c.mutation.nativeAccessDisabled = true → c'.mutation.nativeAccessDisabled = true)
    (data : owned = ∅ → c'.mutation.version = c.mutation.version →
      c'.mutation.nativeAccessDisabled = false → s.owners r' w = ∅ ∧ c'.data = c.data) :
    Since b quiet t r v := by
  refine ⟨issued r v since.issued, ?_, ?_, ?_⟩
  all_goals
    intro e he
    rw [edits.buffers] at he
    split at he
  · next same =>
    obtain ⟨rfl, rfl⟩ := same
    cases he
    exact (since.version c stored).trans version
  · exact since.version e he
  · next same =>
    obtain ⟨rfl, rfl⟩ := same
    cases he
    exact fun was => disabled (since.disabled c stored was)
  · exact since.disabled e he
  · next same =>
    obtain ⟨rfl, rfl⟩ := same
    cases he
    intro calm none equal enabled
    rw [edits.owners, if_pos ⟨rfl, rfl⟩] at none
    have before := since.version c stored
    obtain ⟨free, kept⟩ := data none (by omega) enabled
    have open_ : c.mutation.nativeAccessDisabled = false := by
      by_contra off
      rw [disabled (by simpa using off)] at enabled
      cases enabled
    rw [kept, since.data c stored calm free (by omega) open_]
  · next other =>
    rw [edits.owners, if_neg other]
    exact since.data e he

theorem Since.step {quiet : Prop} (since : Since b quiet s r v) (step : Passes s t) :
    Since b quiet t r v := by
  cases step.change with
  | begins r' w c c' h stored begun new edits =>
    obtain rfl := beginExport_eq begun
    apply since.edits edits stored step.issued (Nat.le_refl _) id
    intro none
    exact absurd none (Set.insert_nonempty h _).ne_empty
  | ends r' w c h stored own edits =>
    obtain ⟨data, ⟨version, disabled⟩ | ⟨version, disabled⟩⟩ := endExport_version c
    · apply since.edits edits stored step.issued (by omega) (fun was => disabled.trans was)
      intro _ equal
      omega
    · apply since.edits edits stored step.issued (by omega) (fun _ => disabled)
      intro _ _ enabled
      rw [disabled] at enabled
      cases enabled
  | stores r' w c c' i x stored run edits =>
    obtain ⟨-, -, rfl⟩ := setF64_eq run
    apply since.edits edits stored step.issued (Nat.le_succ _) id
    intro _ equal
    exact absurd equal (Nat.succ_ne_self _)
  | writes r' w c data stored own edits =>
    apply since.edits edits stored step.issued (Nat.le_refl _) id
    intro none
    exact absurd none own.ne_empty
  | moves owners buffers =>
    have kept : ∀ c, t.bufferAt r v = some c → s.bufferAt r v = some c := by
      intro c hc
      rcases buffers r v c hc with before | ⟨new, -⟩
      · exact before
      · exact absurd since.issued new
    refine ⟨step.issued r v since.issued, fun c hc => since.version c (kept c hc),
      fun c hc => since.disabled c (kept c hc), fun c hc calm none => ?_⟩
    rw [owners] at none
    exact since.data c (kept c hc) calm none

/-- What two looks at one buffer have in common. -/
theorem Path.since (path : Path s t) (sound : s.Sound) (stored : s.bufferAt r v = some b) :
    Since b (s.owners r v = ∅) t r v := by
  induction path with
  | refl =>
    refine ⟨issued_of_bufferAt sound stored, ?_, ?_, ?_⟩
    all_goals
      intro c hc
      rw [stored] at hc
      cases hc
    · exact Nat.le_refl _
    · exact id
    · exact fun _ _ _ _ => rfl
  | tail _ step ih => exact ih.step step

/-! ### The calls -/

theorem Passes.still (sound : s.Sound) (heaps : t.heaps = s.heaps)
    (owners : ∀ r v, t.owners r v = s.owners r v) : Passes s t where
  sound r := by
    rw [heaps]
    exact sound r
  issued r v issued := by rwa [heaps]
  change := by
    refine .moves owners fun r v b stored => .inl ?_
    rwa [bufferAt, ← heaps]

theorem owners_of_found (same : ∀ r h, t.found r h = s.found r h) (r : Nat) (v : Value) :
    t.owners r v = s.owners r v := by
  ext h
  rw [mem_owners, mem_owners, same]

theorem Passes.spent (sound : s.Sound) (spent : s.Spent t) : Passes s t :=
  .still sound spent.heaps (owners_of_found spent.found)

variable {g : Registry}

theorem found_fresh (f : Mirrors s g) (fresh : h.token = s.nextToken) : s.found r h = none := by
  rw [f.found]
  cases live : g.live r h with
  | none => rfl
  | some x => exact absurd (f.made live) (f.fresh fresh)

theorem owners_inserted (f : Mirrors s g) (i : s.Inserted t r v kind h) (r' : Nat) (w : Value) :
    t.owners r' w =
      if (r' = r ∧ w = v) ∧ kind = .bufferOwner true then insert h (s.owners r' w)
      else s.owners r' w := by
  have new : s.found r h = none := found_fresh f i.token
  ext h'
  by_cases same : r' = r ∧ h' = h
  · obtain ⟨rfl, rfl⟩ := same
    have absent : h' ∉ s.owners r' w := by
      intro own
      rw [mem_owners, new] at own
      cases own
    have now : h' ∈ t.owners r' w ↔ v = w ∧ kind = .bufferOwner true := by
      rw [mem_owners, i.found, if_pos ⟨rfl, rfl⟩, Option.some.injEq, Prod.mk.injEq]
    rw [now]
    split
    · next own => simp [own.1.2, own.2]
    · next other =>
      refine iff_of_false (fun both => other ⟨⟨rfl, both.1.symm⟩, both.2⟩) absent
  · have now : h' ∈ t.owners r' w ↔ h' ∈ s.owners r' w := by
      rw [mem_owners, mem_owners, i.found, if_neg same]
    rw [now]
    split
    · next own =>
      have apart : h' ≠ h := fun eq => same ⟨own.1.1, eq⟩
      simp [apart]
    · rfl

theorem Passes.inserted (sound : s.Sound) (f : Mirrors s g) (i : s.Inserted t r v kind h)
    (other : kind ≠ .bufferOwner true) : Passes s t := by
  refine .still sound i.heaps fun r' w => ?_
  rw [owners_inserted f i, if_neg fun own => other own.2]

theorem setBuffer_after (sound : s.Sound) (stored : s.bufferAt r v = some b) (b' : Buffer) :
    (s.setHeap r (final (setObject v (.buffer b')) (s.heaps r))).Sound ∧
      (∀ r' w, (s.heaps r').Issued w →
        ((s.setHeap r (final (setObject v (.buffer b')) (s.heaps r))).heaps r').Issued w) ∧
      ∀ r' w, (s.setHeap r (final (setObject v (.buffer b')) (s.heaps r))).bufferAt r' w =
        if r' = r ∧ w = v then some b' else s.bufferAt r' w := by
  have found := bufferAt_eq.mp stored
  obtain ⟨e, entry, -⟩ := Heap.tryGet_eq_some.mp found
  obtain ⟨l, located, -⟩ := Heap.entry_eq_some.mp entry
  have ran : final (setObject v (.buffer b')) (s.heaps r) = (s.heaps r).store l (.buffer b') := by
    simp only [setObject, final, get_bind, located]
    rfl
  have after : Heap.After (s.heaps r) ((s.heaps r).store l (.buffer b')) := by
    refine (sound r).store located found ⟨?_, ?_⟩
    · intro w mem
      cases mem
    · intro w mem
      cases mem
  have same : ((s.heaps r).store l (.buffer b')).tryGet = Function.update _ v _ :=
    Heap.tryGet_store_eq (sound r).valid.distinct located found
  rw [ran]
  refine ⟨?_, ?_, ?_⟩
  · intro r'
    simp only [setHeap, Function.update_apply]
    split
    · exact after.1
    · exact sound r'
  · intro r' w issued
    simp only [setHeap, Function.update_apply]
    split
    · next eq =>
      subst eq
      exact after.2.issued issued
    · exact issued
  · intro r' w
    simp only [bufferAt, setHeap, Function.update_apply]
    by_cases eq : r' = r
    · subst eq
      rw [if_pos rfl, same, Function.update_apply]
      by_cases own : w = v
      · simp [own]
      · simp [own]
    · simp [eq]

/-- Whether it succeeds or not, the call is a path of changes. -/
def Walks {α : Type} (m : NativeM α) (s : Runtimes) : Prop :=
  wp m (fun _ t => Path s t) (Path s) s

theorem walks_insert (a : Agrees s g) (sound : s.Sound) (other : kind ≠ .bufferOwner true) :
    Walks (insertHandle r v kind) s := by
  refine wp_mono (wp_insertHandle a.follows.tidy) (fun h t i => ?_) fun t spent => ?_
  · exact .single (.inserted sound a.follows i other)
  · exact .single (.spent sound spent)

theorem walks_pushLocal (sound : s.Sound) : Walks (NativeContext.pushLocal c h) s :=
  .single (.still sound rfl fun _ _ => rfl)

theorem walks_bind {α β : Type} {m : NativeM α} {k : α → NativeM β} (first : Walks m s)
    (rest : ∀ a t, Path s t → Walks (k a) t) : Walks (m >>= k) s := by
  unfold Walks
  rw [wp_bind]
  refine wp_mono first (fun a t path => ?_) fun _ => id
  exact wp_mono (rest a t path) (fun _ u later => path.trans later) fun u later => path.trans later

theorem walks_pure {α : Type} (a : α) : Walks (pure a) s := .refl

theorem walks_reading {α : Type} (f : Runtimes → Except Fault α) : Walks (reading f) s :=
  wp_reading_intro .refl fun _ _ => .refl

theorem walks_map {α β : Type} {m : NativeM α} (walks : Walks m s) (f : α → β) :
    Walks (f <$> m) s := by
  unfold Walks
  rw [wp_map]
  exact walks

/-- A call that reads before it goes on. -/
theorem walks_reading_bind {α β : Type} {f : Runtimes → Except Fault α} {k : α → NativeM β}
    (rest : ∀ a, f s = .ok a → Walks (k a) s) : Walks (reading f >>= k) s := by
  unfold Walks
  rw [wp_bind]
  exact wp_reading_intro .refl rest

theorem walks_localHandle (a : Agrees s g) (sound : s.Sound) :
    Walks (NativeContext.localHandle c v) s := by
  refine walks_reading_bind fun context _ => ?_
  refine walks_bind (walks_insert a sound (by decide)) fun h t path => ?_
  exact walks_bind (walks_pushLocal (path.sound sound)) fun _ _ _ => walks_pure h

theorem walks_resolve {β : Type} {k : Value → NativeM β} (rest : ∀ v, Walks (k v) s) :
    Walks (NativeContext.resolve c h >>= k) s := by
  unfold Walks
  rw [wp_bind, NativeContext.resolve, wp_bind]
  exact wp_reading_intro .refl fun _ _ => wp_reading_intro .refl fun v _ => rest v

theorem walks_persist (a : Agrees s g) (sound : s.Sound) : Walks (NativeContext.persist c h) s :=
  walks_reading_bind fun _ _ => walks_resolve fun _ => walks_insert a sound (by decide)

theorem walks_borrowPersistent (a : Agrees s g) (sound : s.Sound) :
    Walks (NativeContext.borrowPersistent c h) s :=
  walks_reading_bind fun _ _ => walks_reading_bind fun _ _ => walks_localHandle a sound

theorem walks_createForeignReference (a : Agrees s g) (sound : s.Sound) :
    Walks (NativeContext.createForeignReference c h) s :=
  walks_reading_bind fun _ _ => walks_resolve fun _ => walks_insert a sound (by decide)

theorem walks_borrowForeignReference (a : Agrees s g) (sound : s.Sound) :
    Walks (NativeContext.borrowForeignReference c h) s :=
  walks_reading_bind fun _ _ => walks_reading_bind fun _ _ => walks_localHandle a sound

theorem walks_promoteForeignReference (a : Agrees s g) (sound : s.Sound) :
    Walks (promoteForeignReference r h) s :=
  walks_reading_bind fun _ _ => walks_insert a sound (by decide)

theorem walks_openContext (sound : s.Sound) : Walks (NativeOp.openContext c r).run s := by
  unfold Walks
  simp only [NativeOp.run, wp_bind, wp_get]
  split
  · exact .refl
  · exact .single (.still sound rfl fun _ _ => rfl)

/-- A new owner and the count that goes with it. -/
theorem Passes.exported (sound : s.Sound) (f : Mirrors s g) {writable : Bool}
    (i : s.Inserted t r v (.bufferOwner writable) h) (stored : s.bufferAt r v = some b)
    (begun : b.beginExport writable = .ok b') :
    Passes s (t.setHeap r (final (setObject v (.buffer b')) (t.heaps r))) := by
  have sound' : t.Sound := fun r => by
    rw [i.heaps]
    exact sound r
  have same : ∀ r' w, t.bufferAt r' w = s.bufferAt r' w := fun r' w => by
    rw [bufferAt, i.heaps, bufferAt]
  have stored' : t.bufferAt r v = some b := (same r v).trans stored
  obtain ⟨sound'', issued, buffers⟩ := setBuffer_after sound' stored' b'
  refine ⟨sound'', fun r' w was => issued r' w (by rwa [i.heaps]), ?_⟩
  cases writable with
  | true =>
    refine .begins r v b b' h stored begun ?_ ⟨fun r' w => ?_, fun r' w => ?_⟩
    · intro own
      rw [mem_owners, found_fresh f i.token] at own
      cases own
    · change t.owners r' w = _
      rw [owners_inserted f i]
      by_cases at_v : r' = r ∧ w = v
      · rw [if_pos ⟨at_v, rfl⟩, if_pos at_v, at_v.1, at_v.2]
      · rw [if_neg fun both => at_v both.1, if_neg at_v]
    · rw [buffers, same]
  | false =>
    cases begun
    refine .moves (fun r' w => ?_) fun r' w c hc => .inl ?_
    · change t.owners r' w = _
      rw [owners_inserted f i, if_neg fun both => by cases both.2]
    · rw [buffers] at hc
      split at hc
      · next at_v =>
        cases hc
        rw [at_v.1, at_v.2]
        exact stored
      · rwa [same] at hc

/-- The handle that was just made is taken back. -/
theorem Passes.retracted (sound : s.Sound) (f : Mirrors s g) (i : s.Inserted t r v kind h)
    (closed : t.Closed u r h) (heaps : u.heaps = t.heaps) : Passes s u := by
  refine .still sound (heaps.trans i.heaps) (owners_of_found fun r' h' => ?_)
  rw [closed.found, i.found]
  split
  · next same => rw [same.1, same.2, found_fresh f i.token]
  · rfl

theorem walks_exportF64Buffer (a : Agrees s g) (sound : s.Sound) {writable contiguous : Bool} :
    Walks (NativeContext.exportF64Buffer c h writable contiguous) s := by
  refine walks_reading_bind fun context _ => walks_resolve fun v => ?_
  refine walks_reading_bind fun o found => ?_
  have stored := Heap.get_eq_ok found
  cases o with
  | buffer b =>
    unfold Walks
    dsimp only
    split
    · exact .refl
    split
    · exact .refl
    rw [wp_bind]
    refine wp_mono (wp_insertHandle a.follows.tidy) (fun owner t i => ?_) fun t spent =>
      .single (.spent sound spent)
    cases begun : b.beginExport writable with
    | ok b' =>
      have exported := Passes.exported sound a.follows i (bufferAt_eq.mpr stored) begun
      have pushed := walks_pushLocal (c := c) (h := owner) exported.sound
      unfold Walks at pushed
      dsimp only
      rw [wp_bind, NativeContext.setBuffer, wp_modify, wp_bind]
      exact wp_mono pushed (fun _ u path => .head exported path) fun u path => .head exported path
    | error e =>
      have own : t.found context.runtime owner = some (v, .bufferOwner writable) := by
        rw [i.found, if_pos ⟨rfl, rfl⟩]
      obtain ⟨u, ran, closed, heaps⟩ := releaseHandle_open i.tidy own
      dsimp only
      rw [wp_bind]
      unfold wp
      rw [ran]
      exact .single (.retracted sound a.follows i closed heaps)
  | _ => exact .refl

/-! ### Releases -/

theorem owners_closed (closed : s.Closed t r h) (r' : Nat) (w : Value) :
    t.owners r' w = if r' = r then s.owners r' w \ {h} else s.owners r' w := by
  ext h'
  rw [mem_owners, closed.found]
  by_cases at_r : r' = r
  · rw [if_pos at_r, Set.mem_sdiff, Set.mem_singleton_iff, mem_owners]
    by_cases same : h' = h
    · simp [at_r, same]
    · simp [same]
  · rw [if_neg at_r, if_neg fun both => at_r both.1, mem_owners]

theorem Passes.closed (sound : s.Sound) (open_ : s.found r h = some (v, kind))
    (other : kind ≠ .bufferOwner true) (closed : s.Closed t r h) (heaps : t.heaps = s.heaps) :
    Passes s t := by
  refine .still sound heaps fun r' w => ?_
  rw [owners_closed closed]
  split
  · next at_r =>
    rw [at_r, Set.sdiff_singleton_eq_self]
    intro own
    rw [mem_owners, open_] at own
    cases own
    exact other rfl
  · rfl

theorem walks_releaseHandle (tidy : s.Tidy) (sound : s.Sound) (other : kind ≠ .bufferOwner true) :
    Walks (releaseHandle r h kind) s := by
  unfold Walks wp
  by_cases open_ : ∃ v, s.found r h = some (v, kind)
  · obtain ⟨v, open_⟩ := open_
    obtain ⟨t, ran, closed, heaps⟩ := releaseHandle_open tidy open_
    rw [ran]
    exact .single (.closed sound open_ other closed heaps)
  · rw [releaseHandle_refused fun v was => open_ ⟨v, was⟩]

/-- An owner goes, and its export ends. -/
theorem Passes.released (sound : s.Sound) {writable : Bool}
    (open_ : s.found r h = some (v, .bufferOwner writable)) (closed : s.Closed t r h)
    (stored : s.bufferAt r v = some b)
    (heaps : t.heaps =
      (s.setHeap r (final (setObject v (.buffer (b.endExport writable))) (s.heaps r))).heaps) :
    Passes s t ∧ t.bufferAt r v = some (b.endExport writable) := by
  obtain ⟨sound', issued, buffers⟩ := setBuffer_after sound stored (b.endExport writable)
  have same : ∀ r' w, t.bufferAt r' w =
      if r' = r ∧ w = v then some (b.endExport writable) else s.bufferAt r' w := by
    intro r' w
    rw [← buffers, bufferAt, heaps, bufferAt]
  refine ⟨⟨fun r' => ?_, fun r' w was => ?_, ?_⟩, ?_⟩
  · rw [heaps]
    exact sound' r'
  · rw [heaps]
    exact issued r' w was
  · have gone : ∀ r' w, ¬(r' = r ∧ w = v) → t.owners r' w = s.owners r' w := by
      intro r' w apart
      rw [owners_closed closed]
      split
      · next at_r =>
        rw [at_r, Set.sdiff_singleton_eq_self]
        intro own
        rw [mem_owners, open_] at own
        cases own
        exact apart ⟨at_r, rfl⟩
      · rfl
    cases writable with
    | true =>
      refine .ends r v b h stored open_ ⟨fun r' w => ?_, same⟩
      split
      · next at_v => rw [at_v.1, at_v.2, owners_closed closed, if_pos rfl]
      · next apart => exact gone r' w apart
    | false =>
      refine .moves (fun r' w => ?_) fun r' w c hc => .inl ?_
      · by_cases at_v : r' = r ∧ w = v
        · rw [at_v.1, at_v.2, owners_closed closed, if_pos rfl, Set.sdiff_singleton_eq_self]
          intro own
          rw [mem_owners, open_] at own
          cases own
        · exact gone r' w at_v
      · rw [same] at hc
        split at hc
        · next at_v =>
          cases hc
          rw [at_v.1, at_v.2]
          exact stored
        · exact hc
  · rw [same, if_pos ⟨rfl, rfl⟩]

theorem walks_releaseBufferOwner (f : Mirrors s g) (sound : s.Sound) :
    Walks (NativeContext.releaseBufferOwner r h) s := by
  unfold Walks wp
  by_cases open_ : ∃ x writable, g.live r h = some x ∧ x.kind = .bufferOwner writable
  · obtain ⟨x, writable, hx, owner⟩ := open_
    obtain ⟨t, ran, closed, b, stored, heaps⟩ := releaseBufferOwner_open f hx owner
    have own : s.found r h = some (x.value, .bufferOwner writable) := by
      rw [f.found, hx, ← owner]
      rfl
    rw [ran]
    exact .single (Passes.released sound own closed (bufferAt_eq.mpr stored) heaps).1
  · rw [releaseBufferOwner_refused f fun x writable hx owner => open_ ⟨x, writable, hx, owner⟩]

theorem walks_ignoring {m : NativeM Unit} (walks : Walks m s) :
    Walks (NativeContext.ignoring m) s := by
  unfold Walks
  rw [NativeContext.ignoring, wp_modify]
  exact wp_final walks

theorem walks_releaseLocal (f : Mirrors s g) (sound : s.Sound) :
    Walks (NativeContext.releaseLocal r h) s := by
  unfold Walks
  rw [NativeContext.releaseLocal, wp_bind, wp_get]
  dsimp only
  split
  · exact walks_ignoring (walks_releaseHandle f.tidy sound (by decide))
  · exact walks_ignoring (walks_releaseBufferOwner f sound)
  · exact .refl

theorem walks_releaseLocals (hs : List Handle) (f : Mirrors s g) (sound : s.Sound)
    (kind : ∀ h ∈ hs, ∀ x, g.live r h = some x → x.kind = .locals ∨ ∃ w, x.kind = .bufferOwner w) :
    Walks (hs.forM (NativeContext.releaseLocal r)) s := by
  induction hs generalizing s g with
  | nil => exact .refl
  | cons h hs ih =>
    obtain ⟨t, ran, -, follows⟩ := releaseLocal_closes f (kind h List.mem_cons_self)
    have first : Path s t := by
      have walks := walks_releaseLocal (h := h) (r := r) f sound
      unfold Walks wp at walks
      rwa [ran] at walks
    have rest := ih follows (first.sound sound) fun h' mem x hx =>
      kind h' (List.mem_cons_of_mem h mem) x (live_close.mp hx).1
    have run : (h :: hs).forM (NativeContext.releaseLocal r) s =
        hs.forM (NativeContext.releaseLocal r) t := bind_ok ran _
    unfold Walks wp at rest ⊢
    rw [run]
    cases rests : hs.forM (NativeContext.releaseLocal r) t with
    | ok _ u =>
      rw [rests] at rest
      exact first.trans rest
    | error _ u =>
      rw [rests] at rest
      exact first.trans rest

theorem walks_drop (a : Agrees s g) (sound : s.Sound) : Walks (NativeContext.drop c) s := by
  unfold Walks
  rw [NativeContext.drop, wp_bind]
  refine wp_current .refl fun context hc => ?_
  have taken : Passes s (s.setContext c (some { context with locals := [] })) :=
    .still sound rfl fun _ _ => rfl
  have released : Walks (context.locals.forM (NativeContext.releaseLocal context.runtime))
      (s.setContext c (some { context with locals := [] })) := by
    apply walks_releaseLocals context.locals (g := g) a.follows.setContext taken.sound
    intro h mem x hx
    apply a.scopes.kind hx
    rw [(a.scopes.locals hc mem).2 x hx]
    rfl
  rw [wp_bind, wp_modify, wp_bind]
  refine wp_mono released (fun _ t path => ?_) fun t path => .head taken path
  rw [wp_modify]
  have closes : Passes t (t.setContext c none) :=
    .still (Path.sound (.head taken path) sound) rfl fun _ _ => rfl
  exact .head taken (path.tail closes)

/-- Every call but the shutdown of a runtime is a path of changes. -/
theorem walks_run (a : Agrees s g) (sound : s.Sound) (op : NativeOp)
    (alive : ∀ r, op ≠ .invalidateAll r) : Walks op.run s := by
  cases op with
  | openContext c r => exact walks_openContext sound
  | localHandle c v => exact walks_map (walks_localHandle a sound) _
  | persistValue r v => exact walks_map (walks_insert a sound (by decide)) _
  | persist c h => exact walks_map (walks_persist a sound) _
  | borrowPersistent c h => exact walks_map (walks_borrowPersistent a sound) _
  | createForeignReference c h => exact walks_map (walks_createForeignReference a sound) _
  | borrowForeignReference c h => exact walks_map (walks_borrowForeignReference a sound) _
  | promoteForeignReference r h => exact walks_map (walks_promoteForeignReference a sound) _
  | exportF64Buffer c h writable contiguous => exact walks_map (walks_exportF64Buffer a sound) _
  | releasePersistent r h =>
    exact walks_map (walks_releaseHandle a.follows.tidy sound (by decide)) _
  | releaseForeignReference r h =>
    exact walks_map (walks_releaseHandle a.follows.tidy sound (by decide)) _
  | releaseBufferOwner r h => exact walks_map (walks_releaseBufferOwner a.follows sound) _
  | drop c => exact walks_map (walks_drop a sound) _
  | invalidateAll r => exact absurd rfl (alive r)

end Runtimes

end Tonic
