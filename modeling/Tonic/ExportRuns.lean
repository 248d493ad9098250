import Tonic.BufferExports
import Tonic.Run

/-!
## Runs with buffer exports

Exports, releases and the ends of scopes come in any order, and stores, collections and other work
on the heaps in between.
-/

namespace Tonic

open Effect

/-- The rest of the interpreter works on a heap: the buffers that handles root stay, and a new
buffer gets a value that was never handed out. -/
structure HeapWork (roots : List Value) (h t : Heap) : Prop where
  sound : Heap.Sound t
  issued : ∀ v, h.Issued v → t.Issued v
  held : ∀ v ∈ roots, h.HoldsBuffer v → t.HoldsBuffer v
  buffers : ∀ v b, t.tryGet v = some (.buffer b) →
    h.tryGet v = some (.buffer b) ∨ ¬ h.Issued v ∧ b.mutation = ⟨0, 0, false⟩

namespace HeapWork

variable {h : Heap} {roots all : List Value} {youngOnly : Bool}

theorem alloc {o : Object} (hs : Heap.Sound h) (issued : ∀ v ∈ o.trace, h.Issued v)
    (fresh : ∀ b, o = .buffer b → b.mutation = ⟨0, 0, false⟩) :
    HeapWork roots h (final (alloc o) h) := by
  refine wp_final (wp_mono (Heap.wp_alloc_stores hs issued) ?_ ?_)
  · rintro w t ⟨after, stores, new, -⟩
    refine ⟨after.1, fun _ => after.2.issued, ?_, ?_⟩
    · rintro v - ⟨b, hb⟩
      have apart : v ≠ w := by
        rintro rfl
        rw [Heap.tryGet_unissued hs.valid new] at hb
        cases hb
      exact ⟨b, by rw [stores, Function.update_of_ne apart]; exact hb⟩
    · intro v b hb
      rw [stores, Function.update_apply] at hb
      split at hb
      · next same =>
        subst same
        exact .inr ⟨new, fresh b (Option.some.inj hb)⟩
      · exact .inl hb
  · rintro t ⟨after, rfl⟩
    exact ⟨hs, fun _ => id, fun _ _ => id, fun _ _ => .inl⟩

theorem pruned_buffer {alive : Value → Bool} {o : Object} {b : Buffer} :
    Heap.pruneDependents alive o = .buffer b ↔ o = .buffer b := by
  cases o <;> simp [Heap.pruneDependents]

/-- A collection that visits the handles. -/
theorem collect (hs : Heap.Sound h) (visited : roots ⊆ all) :
    HeapWork roots h (final (collectWith youngOnly all) h) := by
  refine wp_final (wp_mono (Heap.wp_collectWith hs.valid) ?_ fun t failed => ?_)
  · rintro - t collected
    obtain ⟨sound, issued⟩ := Heap.collected_sound hs.valid collected
    obtain ⟨marked, u, traced, rfl⟩ := collected
    have valid := traced.queued.valid hs.valid
    refine ⟨sound, issued, ?_, ?_⟩
    · rintro v root ⟨b, hb⟩
      have reach : h.Reachable (Heap.starts all u) v :=
        ⟨v, by simp [Heap.starts, visited root], .refl⟩
      obtain ⟨e, he, eq⟩ := Heap.tryGet_eq_some.mp hb
      refine ⟨b, Heap.tryGet_eq_some.mpr
        ⟨_, by rw [(traced.kept hs.valid hs.complete reach).entry, he]; rfl, ?_⟩⟩
      exact pruned_buffer.mpr eq
    · intro v b hb
      obtain ⟨e', found, eq⟩ := Heap.tryGet_eq_some.mp hb
      left
      have live : ∀ l e, u.location v = some l → u.objects[l]? = some e →
          isLive youngOnly marked l e = true := by
        intro l e hl he
        by_contra dead
        have gone := Heap.location_swept_dead valid hl he (by simpa using dead)
        rw [Heap.entry, gone] at found
        cases found
      have kept := (traced.queued.kept (Heap.swept_kept valid live)).entry
      rw [found] at kept
      obtain ⟨e, before, same⟩ := Option.map_eq_some_iff.mp kept.symm
      rw [← same] at eq
      exact Heap.tryGet_eq_some.mpr ⟨e, before, pruned_buffer.mp eq⟩
  · obtain ⟨sound, issued⟩ := failed.queued.sound hs
    have same : ∀ v, t.tryGet v = h.tryGet v := fun v => by
      rw [Heap.tryGet, failed.queued.entry, Heap.tryGet]
    refine ⟨sound, issued, fun v _ => ?_, fun v b => ?_⟩
    · rintro ⟨b, hb⟩
      exact ⟨b, (same v).trans hb⟩
    · rw [same]
      exact .inl

end HeapWork

def Ledger.setBuffer (s : Ledger) (r : Nat) (v : Value) (b : Buffer) : Ledger :=
  { s with runtimes := s.runtimes.setHeap r (final (setObject v (.buffer b)) (s.runtimes.heaps r)) }

/-- A call on handles, a store by the guest, interpreted or compiled, a store by the native code
that owns a writable export, or other work on a heap. -/
inductive ExportStep : Ledger → Ledger → Prop where
  | call (s : Ledger) (op : NativeOp) (alive : ∀ r, op ≠ .invalidateAll r) :
    ExportStep s (s.perform op)
  | store (s : Ledger) (r : Nat) (v : Value) (b b' : Buffer) (i : Nat) (x : F64)
    (stored : s.runtimes.bufferAt r v = some b) (run : b.setF64 i x = .ok b') :
    ExportStep s (s.setBuffer r v b')
  | write (s : Ledger) (r : Nat) (v : Value) (b : Buffer) (h : Handle) (data : List F64)
    (stored : s.runtimes.bufferAt r v = some b)
    (own : s.runtimes.found r h = some (v, .bufferOwner true))
    (length : data.length = b.data.length) :
    ExportStep s (s.setBuffer r v { b with data })
  | work (s : Ledger) (r : Nat) (h : Heap)
    (work : HeapWork (s.runtimes.tables r).roots (s.runtimes.heaps r) h) :
    ExportStep s { s with runtimes := s.runtimes.setHeap r h }

inductive ExportRun : Ledger → Ledger → Prop where
  | refl (s : Ledger) : ExportRun s s
  | next {s t u : Ledger} : ExportRun s t → ExportStep t u → ExportRun s u

namespace Ledger

variable {s t : Ledger}

theorem setBuffer_agrees {r : Nat} {v : Value} (a : s.Agrees) (b : Buffer) :
    (s.setBuffer r v b).Agrees :=
  ⟨a.follows.setHeap fun _ held _ => holdsBuffer_setObject held v, a.scopes.same rfl⟩

theorem exportStep_agrees (step : ExportStep s t) (a : s.Agrees) : t.Agrees := by
  cases step with
  | call op alive => exact perform_agrees a op
  | store r v b b' i x stored run => exact setBuffer_agrees a b'
  | write r v b h data stored own length => exact setBuffer_agrees a _
  | work r h work =>
    exact ⟨a.follows.setHeap fun v held root => work.held v root held, a.scopes.same rfl⟩

theorem setBuffer_edits {r : Nat} {v : Value} {b : Buffer} (sound : s.runtimes.Sound)
    (stored : s.runtimes.bufferAt r v = some b) (b' : Buffer) :
    (s.setBuffer r v b').runtimes.Sound ∧
      (∀ r' w, (s.runtimes.heaps r').Issued w →
        ((s.setBuffer r v b').runtimes.heaps r').Issued w) ∧
      Runtimes.Edits s.runtimes (s.setBuffer r v b').runtimes r v b' (s.runtimes.owners r v) := by
  obtain ⟨sound', issued, buffers⟩ := Runtimes.setBuffer_after sound stored b'
  refine ⟨sound', issued, fun r' w => ?_, buffers⟩
  split
  · next same =>
    rw [same.1, same.2]
    rfl
  · rfl

theorem exportStep_path (step : ExportStep s t) (a : s.Agrees) (sound : s.runtimes.Sound) :
    Runtimes.Path s.runtimes t.runtimes := by
  cases step with
  | call op alive =>
    have walks := Runtimes.walks_run a sound op alive
    unfold Runtimes.Walks wp at walks
    unfold perform
    cases ran : op.run s.runtimes with
    | ok made u =>
      rw [ran] at walks
      exact walks
    | error e u =>
      rw [ran] at walks
      exact walks
  | store r v b b' i x stored run =>
    obtain ⟨sound', issued, edits⟩ := setBuffer_edits sound stored b'
    exact .single ⟨sound', issued, .stores r v b b' i x stored run edits⟩
  | write r v b h data stored own length =>
    obtain ⟨sound', issued, edits⟩ := setBuffer_edits sound stored { b with data }
    exact .single ⟨sound', issued, .writes r v b data stored ⟨h, own⟩ edits⟩
  | work r h work =>
    refine .single ⟨fun r' => ?_, fun r' w => ?_, .moves (fun _ _ => rfl) fun r' w b => ?_⟩
    · simp only [Runtimes.setHeap, Function.update_apply]
      split
      · exact work.sound
      · exact sound r'
    · simp only [Runtimes.setHeap, Function.update_apply]
      split
      · next eq => exact eq ▸ work.issued w
      · exact id
    · rw [Runtimes.bufferAt_eq, Runtimes.bufferAt_eq]
      simp only [Runtimes.setHeap, Function.update_apply]
      split
      · next eq => exact eq ▸ work.buffers w b
      · exact .inl

theorem exportRun_path (run : ExportRun s t) (a : s.Agrees) (sound : s.runtimes.Sound) :
    t.Agrees ∧ Runtimes.Path s.runtimes t.runtimes := by
  induction run with
  | refl => exact ⟨a, .refl⟩
  | next _ step ih =>
    obtain ⟨agrees, path⟩ := ih
    exact ⟨exportStep_agrees step agrees,
      path.trans (exportStep_path step agrees (path.sound sound))⟩

theorem start_sound : start.runtimes.Sound := fun _ => HeapState.start_proper.sound

theorem start_accounts : start.runtimes.Accounts where
  count r v b stored := by
    rw [Runtimes.bufferAt_eq] at stored
    obtain ⟨e, entry, -⟩ := Heap.tryGet_eq_some.mp stored
    obtain ⟨l, -, found⟩ := Heap.entry_eq_some.mp entry
    cases found
  issued r v some := by
    obtain ⟨h, own⟩ := some
    cases own

/-- The count of a buffer is the number of its owners, whoever may have changed it says so in its
version, and a version that was seen before stands for the same numbers. -/
structure Accounted (s : Ledger) : Prop where
  count : ∀ r v b, s.runtimes.bufferAt r v = some b →
    (s.runtimes.owners r v).encard = b.mutation.writableExports
  active : ∀ r v b, s.runtimes.bufferAt r v = some b →
    (b.hasActiveWritableExports = true ↔ (s.runtimes.owners r v).Nonempty)
  release : ∀ r v b h, s.runtimes.bufferAt r v = some b → h ∈ s.runtimes.owners r v →
    ∃ t b', NativeContext.releaseBufferOwner r h s.runtimes = .ok () t ∧
      t.bufferAt r v = some b' ∧ (b'.mutation.version = b.mutation.version + 1 ∨
        b'.mutation.nativeAccessDisabled = true)
  store : ∀ r v b i x b', s.runtimes.bufferAt r v = some b → b.setF64 i x = .ok b' →
    b'.mutation.version = b.mutation.version + 1
  looks : ∀ t, ExportRun s t → ∀ r v b c, s.runtimes.bufferAt r v = some b →
    t.runtimes.bufferAt r v = some c → b.mutation.version ≤ c.mutation.version ∧
      (b.mutation.nativeAccessDisabled = true → c.mutation.nativeAccessDisabled = true) ∧
      (c.mutation.version = b.mutation.version → s.runtimes.owners r v = ∅ →
        t.runtimes.owners r v = ∅ → c.mutation.nativeAccessDisabled = false → c.data = b.data)

theorem accounted (a : s.Agrees) (sound : s.runtimes.Sound) (accounts : s.runtimes.Accounts) :
    s.Accounted where
  count := accounts.count
  active r v b stored := by
    rw [Buffer.hasActiveWritableExports, decide_eq_true_eq, ← Set.encard_ne_zero,
      accounts.count r v b stored, Nat.cast_ne_zero]
  release r v b h stored own := by
    have found := Runtimes.mem_owners.mp own
    rw [a.follows.found] at found
    obtain ⟨x, live, eq⟩ := Option.map_eq_some_iff.mp found
    obtain ⟨rfl, kind⟩ := Prod.mk.inj eq
    obtain ⟨t, ran, closed, b', held, heaps⟩ := releaseBufferOwner_open a.follows live kind
    rw [Runtimes.bufferAt_eq, held] at stored
    cases stored
    have now := (Runtimes.Passes.released sound own closed (Runtimes.bufferAt_eq.mpr held) heaps).2
    refine ⟨t, _, ran, now, ?_⟩
    obtain ⟨-, ⟨version, -⟩ | ⟨-, disabled⟩⟩ := Runtimes.endExport_version b
    · exact .inl version
    · exact .inr disabled
  store r v b i x b' stored run := by
    obtain ⟨-, -, rfl⟩ := Runtimes.setF64_eq run
    rfl
  looks t run r v b c before after := by
    obtain ⟨-, path⟩ := exportRun_path run a sound
    have since := Runtimes.Path.since path sound before
    exact ⟨since.version c after, since.disabled c after,
      fun equal quiet none enabled => since.data c after quiet none equal enabled⟩

end Ledger

theorem buffer_exports_accounted {s : Ledger} (reach : ExportRun .start s) : s.Accounted := by
  obtain ⟨agrees, path⟩ := Ledger.exportRun_path reach Ledger.start_agrees Ledger.start_sound
  exact Ledger.accounted agrees (path.sound Ledger.start_sound)
    (path.accounts Ledger.start_sound Ledger.start_accounts)

section Exported

open Ledger

def oneNumber : Buffer := ⟨[F64.ofBits 0], 0, 1, [1], [8], true, ⟨0, 0, false⟩⟩

/-- A scope made a buffer and exported it for writing. -/
def exported : Ledger :=
  ((({ start with
    runtimes := start.runtimes.setHeap 0 (final (alloc (.buffer oneNumber)) .empty) } : Ledger).perform
      (.openContext 0 0)).perform (.localHandle 0 (.heap 0 1))).perform
        (.exportF64Buffer 0 (.pack 1 0) true true)

theorem exported_reached : ExportRun .start exported := by
  refine ExportRun.refl start |>.next (.work _ 0 _ ?_) |>.next (.call _ _ fun r => ?_)
    |>.next (.call _ _ fun r => ?_) |>.next (.call _ _ fun r => ?_)
  · refine HeapWork.alloc HeapState.start_proper.sound ?_ ?_
    · intro v mem
      cases mem
    · intro b same
      cases same
      rfl
  all_goals exact fun no => by cases no

theorem buffer_exports_accounted_exported : exported.Accounted ∧
    Handle.pack 2 1 ∈ exported.runtimes.owners 0 (.heap 0 1) :=
  ⟨buffer_exports_accounted exported_reached, rfl⟩

end Exported

end Tonic
