import Tonic.SourceModulesSound

/-!
## Runs over modules

What the code of a program does to the globals of its modules, in any order, with everything else
the machine does in between.
-/

namespace Tonic

open Effect

inductive ModuleOp where
  | storeGlobal (index : Nat) (value : Value)
  | clearGlobal (index : Nat)
  | storeAttribute (object : Value) (name : String) (value : Value)
  | deleteAttribute (object : Value) (name : String)
  | importModule (name : String) (enter : Except Fault Unit)
  | importFrom (object : Value) (name : String) (enter : Except Fault Unit)
  | finishImport (m : Nat)
  | reset (m : Nat)

namespace ModuleOp

variable (w : Installed) (s : ModuleVm)

def run : ModuleOp → ModuleM Unit
  | storeGlobal index value => w.storeGlobal index value
  | clearGlobal index => w.clearGlobal index
  | storeAttribute object name value => do let _ ← w.storeModuleAttribute object name value
  | deleteAttribute object name => do let _ ← w.deleteModuleAttribute object name
  | importModule name enter => do let _ ← w.invokeImport name enter
  | importFrom object name enter => do let _ ← w.invokeImportFrom object name enter
  | finishImport m => do let _ ← w.finishImport m
  | reset m => w.resetSourceModule m

/-- What the operands are: values read from registers, the module of an import statement, and a
module whose body was entered. -/
def Operands : ModuleOp → Prop
  | storeGlobal _ value | storeAttribute _ _ value => value ≠ .unbound ∧ s.heap.Issued value
  | importFrom object _ _ => s.heap.IsModule object
  | reset m => (s.object m).isSome
  | _ => True

/-- When the operation keeps the slots and the members together. -/
def Meets : ModuleOp → Prop
  | clearGlobal index => w.fallback (w.symbol index) = .unbound
  | deleteAttribute object name =>
    ∀ m, w.moduleOf s object = some m → (w.slot m name).isSome → w.fallback name = .unbound
  | importModule name _ => w.Importable s name
  | importFrom object name _ => s.heap.member object name = none →
    ∀ base, w.baseName s object = some base → w.Importable s (base ++ "." ++ name)
  | finishImport m => w.Attachable s (w.info m).name 3
  | reset m => w.Resettable s m
  | _ => True

/-- The operation takes away the binding of a slot of the module. -/
def Removes (m i : Nat) : ModuleOp → Prop
  | clearGlobal index => i = index
  | deleteAttribute object name => w.moduleOf s object = some m ∧ w.slot m name = some i
  | reset n => n = m ∧ Installed.isMetadata (w.symbol i) = false ∨
    ∃ parentName childName parent, rsplitOnce (w.info n).name = some (parentName, childName) ∧
      w.named parentName = some m ∧ w.slot m childName = some i ∧ s.object m = some parent ∧
        s.heap.member parent childName = s.object n
  | _ => False

end ModuleOp

/-- What a program is installed over. -/
structure Installed.Starts (w : Installed) (heap : Heap) : Prop where
  sound : Heap.Sound heap
  builtins : ∀ b ∈ w.builtins, heap.Issued b.2
  natives : ∀ b ∈ w.modules, heap.IsModule b.2

/-- The states of a machine whose module operations are all allowed. Elsewhere the heap changes as
it likes, but only these operations write to the objects of modules. -/
inductive ModuleRun (w : Installed) (allowed : ModuleVm → ModuleOp → Prop) (heap : Heap) :
    ModuleVm → Prop where
  | installed {s : ModuleVm} (ran : w.install (w.fresh heap) = .ok () s) : ModuleRun w allowed heap s
  | op {s : ModuleVm} (before : ModuleRun w allowed heap s) (op : ModuleOp)
      (operands : op.Operands s) (allows : allowed s op) :
      ModuleRun w allowed heap (final (op.run w) s)
  | elsewhere {s : ModuleVm} (before : ModuleRun w allowed heap s) (next : Heap)
      (sound : Heap.Sound next) (issued : ∀ v, s.heap.Issued v → next.Issued v)
      (natives : ∀ b ∈ w.modules, next.IsModule b.2)
      (same : ∀ m v, s.object m = some v → next.tryGet v = s.heap.tryGet v) :
      ModuleRun w allowed heap { s with heap := next }

namespace Installed

variable {w : Installed} {s t : ModuleVm} {m i : Nat} {heap : Heap} {op : ModuleOp}

/-! ### What code reads -/

/-- The builtin of the name, or the error of a name that is not defined. -/
def builtinOf (w : Installed) (i : Nat) : Except Fault Value :=
  if w.fallback (w.symbol i) = .unbound then
    .error (.raise "NameError" ("name '" ++ w.symbol i ++ "' is not defined"))
  else .ok (w.fallback (w.symbol i))

/-- The module's own code and the code that has its object read the same value. -/
def Reads (w : Installed) (s : ModuleVm) (m i : Nat) (v : Value) : Prop :=
  w.loadGlobal i s = .ok v s ∧
    ∀ object, s.object m = some object → attr object (w.symbol i) s.heap = .ok v s.heap

/-- The name is that of the builtin, and no attribute. -/
def FallsBack (w : Installed) (s : ModuleVm) (m i : Nat) : Prop :=
  w.loadGlobal i s = reading (fun _ => w.builtinOf i) s ∧
    ∀ object, s.object m = some object →
      attr object (w.symbol i) s.heap = .error (missing (w.symbol i)) s.heap

def Agrees (w : Installed) (s : ModuleVm) (m i : Nat) : Prop :=
  (∃ v, w.Reads s m i v) ∨ w.FallsBack s m i

theorem Aligned.fallsBack (al : w.Aligned s) (mem : i ∈ w.slots m)
    (undefined : s.globalDefined i = false) : w.FallsBack s m i := by
  constructor
  · simp only [loadGlobal, builtinOf, reading, al.free i undefined]
  · intro object own
    rw [Heap.attr_module (al.isModule own), al.member own i mem, ModuleVm.binding, undefined]
    rfl

theorem Aligned.agrees (al : w.Aligned s) (mem : i ∈ w.slots m) : w.Agrees s m i := by
  cases defined : s.globalDefined i with
  | false => exact .inr (al.fallsBack mem defined)
  | true =>
    refine .inl ⟨s.globals i, ?_, ?_⟩
    · simp only [loadGlobal, reading, if_neg (al.bound i defined)]
    · intro object own
      rw [Heap.attr_module (al.isModule own), al.member own i mem, ModuleVm.binding, defined]
      rfl

/-! ### Installation -/

theorem fresh_aligned (start : w.Starts heap) : w.Aligned (w.fresh heap) where
  sound := start.sound
  builtins := start.builtins
  globals i := by
    show heap.Issued (w.fallback (w.symbol i))
    unfold fallback findMember
    cases found : w.builtins.find? (·.1 = w.symbol i) with
    | none => exact trivial
    | some b => exact start.builtins b (List.mem_of_find?_eq_some found)
  natives := start.natives
  isModule := nofun
  member := nofun
  apart := nofun
  foreign _ _ _ := nofun
  bound _ := nofun
  free _ _ := rfl

/-- Installing a program binds metadata of modules that have no objects yet. -/
theorem wp_installSlot (al : w.Aligned s) (layout : w.Layout) (alone : ∀ n, s.object n = none)
    {module : ModuleInfo} (mem : i ∈ w.slots m) :
    wp (w.installSlot module i) (fun _ t => w.Aligned t ∧ ∀ n, t.object n = none) (fun _ => True)
      s := by
  have string (text : String) : wp (inHeap (alloc (.str text)) >>= fun v => setGlobal i v true)
      (fun _ t => w.Aligned t ∧ ∀ n, t.object n = none) (fun _ => True) s := by
    rw [wp_bind, wp_inHeap]
    refine wp_mono (Heap.wp_alloc_stores al.sound (by simp [Object.trace])) ?_ fun _ _ => trivial
    rintro v heap ⟨after, stores, new, issued⟩
    have al' : w.Aligned { s with heap } := by
      refine al.elsewhere rfl rfl rfl after.1 (fun _ => after.2.issued) ?_ ?_
      · intro b hb
        have native := al.natives b hb
        exact native.congr (stores.elsewhere fun eq => new (eq ▸ native.issued al.sound.valid))
      · intro n x found
        rw [alone n] at found
        cases found
    have edited : Edited { s with heap } heap m (w.symbol i) (some v) := by
      refine ⟨fun o found => ?_, fun _ => rfl⟩
      rw [show ({ s with heap } : ModuleVm).object m = none from alone m] at found
      cases found
    refine ⟨al'.rebinds layout (edited.rebinds_at al' layout (slot_symbol layout mem) ?_), alone⟩
    rintro _ ⟨⟩
    refine ⟨?_, issued⟩
    rintro rfl
    exact new trivial
  simp only [installSlot]
  split
  · exact string _
  · split
    · exact string _
    · exact ⟨al, alone⟩

theorem install_aligned (start : w.Starts heap) (layout : w.Layout)
    (ran : w.install (w.fresh heap) = .ok () s) : w.Aligned s := by
  have loop : wp w.install (fun _ t => w.Aligned t ∧ ∀ n, t.object n = none) (fun _ => True)
      (w.fresh heap) := by
    refine wp_forM ?_ ⟨fresh_aligned start, fun _ => rfl⟩
    rintro module mem t ⟨al, alone⟩
    obtain ⟨k, found⟩ := List.mem_iff_getElem?.mp mem
    split
    · exact trivial
    · refine wp_forM ?_ ⟨al, alone⟩
      rintro i own t ⟨al, alone⟩
      exact wp_installSlot al layout alone (mem_slots.mpr ⟨module, found, own⟩)
  exact (wp_returned loop ran).1

/-! ### Runs -/

/-- What one operation keeps, and that it leaves nothing behind where it takes a binding away. -/
theorem wp_run (al : w.Aligned s) (layout : w.Layout) (operands : op.Operands s)
    (meets : op.Meets w s) : wp (op.run w) (fun _ t => w.Aligned t ∧
      ∀ m i, i ∈ w.slots m → op.Removes w s m i → t.globalDefined i = false) w.Aligned s := by
  have plain {α : Type} {p : ModuleM α} (keeps : wp p (fun _ => w.Aligned) w.Aligned s) :
      wp (do let _ ← p) (fun _ t => w.Aligned t ∧ ∀ m i, i ∈ w.slots m → False →
        t.globalDefined i = false) w.Aligned s := by
    rw [wp_bind]
    exact wp_mono keeps (fun _ _ al => ⟨al, fun _ _ _ => False.elim⟩) fun _ => id
  cases op with
  | storeGlobal index value =>
    exact wp_mono (wp_storeGlobal al layout operands.1 operands.2)
      (fun _ _ al => ⟨al, fun _ _ _ => False.elim⟩) fun _ => id
  | clearGlobal index =>
    refine wp_mono (wp_clearGlobal al layout meets) ?_ fun _ => id
    rintro - t ⟨al, cleared⟩
    refine ⟨al, ?_⟩
    rintro m i mem rfl
    exact cleared
  | storeAttribute object name value =>
    exact plain (wp_storeModuleAttribute al layout operands.1 operands.2)
  | deleteAttribute object name =>
    show wp (do let _ ← w.deleteModuleAttribute object name) _ _ s
    rw [wp_bind]
    refine wp_mono (wp_deleteModuleAttribute al layout meets) ?_ fun _ => id
    rintro - t ⟨al, cleared⟩
    exact ⟨al, fun m i _ removes => cleared m i removes.1 removes.2⟩
  | importModule name enter => exact plain (wp_invokeImport al layout meets enter)
  | importFrom object name enter =>
    exact plain (wp_invokeImportFrom al layout operands meets enter)
  | finishImport m => exact plain (wp_finishImport al layout meets)
  | reset n =>
    obtain ⟨o, own, bound, detachable⟩ := meets
    refine wp_mono (wp_resetSourceModule al layout own bound detachable) ?_ fun _ => id
    rintro - t ⟨al', back⟩
    refine ⟨al', ?_⟩
    rintro m i mem (⟨rfl, plain⟩ | ⟨parentName, childName, parent, split, named, slot, owner, was⟩)
    · rw [back.slots i mem, plain]
    · obtain ⟨-, symbol⟩ := (slot_eq_some layout).mp slot
      have attached : w.attachedTo s parentName = some parent := by
        unfold attachedTo
        rw [named]
        exact congrArg (Option.or · _) owner
      have gone := back.parent _ _ _ split attached childName
      rw [if_pos ⟨rfl, was.trans own⟩, ← symbol,
        al'.member (back.object ▸ owner) i mem] at gone
      unfold ModuleVm.binding at gone
      split at gone
      · cases gone
      · next undefined => simpa using undefined

theorem run_aligned (layout : w.Layout) (start : w.Starts heap)
    (run : ModuleRun w (fun s op => op.Meets w s) heap s) : w.Aligned s := by
  induction run with
  | installed ran => exact install_aligned start layout ran
  | op _ op operands meets al =>
    exact wp_final (wp_mono (wp_run al layout operands meets) (fun _ _ => And.left) fun _ => id)
  | elsewhere _ next sound issued natives same al =>
    exact al.elsewhere rfl rfl rfl sound issued natives same

end Installed

/-- In every run whose operations meet their conditions, a module's code and the code that has its
object read the same bindings, and a name that loses its binding is the builtin's again. -/
theorem globals_agree_with_attributes {w : Installed} {heap : Heap} {s : ModuleVm}
    (layout : w.Layout) (start : w.Starts heap)
    (run : ModuleRun w (fun s op => op.Meets w s) heap s) :
    (∀ m, ∀ i ∈ w.slots m, w.Agrees s m i) ∧
      ∀ (op : ModuleOp) (t : ModuleVm), op.Operands s → op.Meets w s → op.run w s = .ok () t →
        ∀ m, ∀ i ∈ w.slots m, op.Removes w s m i → w.FallsBack t m i := by
  have al := Installed.run_aligned layout start run
  refine ⟨fun m i mem => al.agrees mem, fun op t operands meets ran m i mem removes => ?_⟩
  obtain ⟨al', cleared⟩ := wp_returned (Installed.wp_run al layout operands meets) ran
  exact al'.fallsBack mem (cleared m i mem removes)

/-! ### A module that shadows a builtin -/

def shadowing : Installed where
  program := ⟨bytecodeVersion, ["len", "x"], [], [⟨"main", "main.py", 0, 1, [0, 1]⟩]⟩
  builtins := [("len", .heap 0 1)]
  modules := []

def shadowingHeap : Heap := .ofObjects [.builtin .len]

theorem shadowing_layout : shadowing.Layout where
  own hi hj := Installed.own_of_nodup (by decide) hi hj
  names m := by
    by_cases main : m = 0
    · subst main
      decide
    · have slots : shadowing.slots m = [] := by
        simp [Installed.slots, Installed.info, shadowing, List.getD_eq_getElem?_getD, main]
      rw [slots]
      exact .nil
  native module _ := rfl

theorem shadowing_starts : shadowing.Starts shadowingHeap where
  sound := Heap.ofObjects_sound (by decide) (by decide)
  builtins b mem := by
    obtain rfl := List.mem_singleton.mp mem
    exact Heap.ofObjects_issued (by decide)
  natives _ mem := absurd mem List.not_mem_nil

def shadowingStart : ModuleVm := final shadowing.install (shadowing.fresh shadowingHeap)

theorem shadowing_installed (allowed : ModuleVm → ModuleOp → Prop) :
    ModuleRun shadowing allowed shadowingHeap shadowingStart := .installed rfl

theorem shadowing_importable {s : ModuleVm} (room : 6 ≤ s.heap.room) :
    shadowing.Importable s "main" := by
  refine ⟨fun m named _ => ⟨fun i mem metadata => ?_, room⟩, ?_⟩
  · obtain rfl : m = 0 := (Option.some_inj.mp named).symm
    have two : i = 0 ∨ i = 1 := by simpa [Installed.slots, Installed.info, shadowing] using mem
    rcases two with rfl | rfl <;> cases metadata
  · rintro parentName childName m split
    rw [show rsplitOnce "main" = none by decide] at split
    cases split

/-- `x = None`, an import of the module by itself, and `del x`. -/
theorem globals_agree_with_attributes_deleted : shadowing.Agrees
    (final (shadowing.clearGlobal 1) (final (discard (shadowing.invokeImport "main" (.ok ())))
      (final (shadowing.storeGlobal 1 .none) shadowingStart))) 0 1 := by
  have stored := (shadowing_installed fun s op => op.Meets shadowing s).op (.storeGlobal 1 .none)
    ⟨nofun, trivial⟩ trivial
  have imported := stored.op (.importModule "main" (.ok ())) trivial
    (shadowing_importable (by decide))
  have cleared := imported.op (.clearGlobal 1) trivial rfl
  exact (globals_agree_with_attributes shadowing_layout shadowing_starts cleared).1 0 1 (by decide)

/-- `len = None` and `del len`: the name is not defined, though it is a builtin's. -/
theorem deleted_shadow_hides_builtin :
    let s := final (shadowing.clearGlobal 0) (final (shadowing.storeGlobal 0 .none) shadowingStart)
    ModuleRun shadowing (fun _ _ => True) shadowingHeap s ∧ 0 ∈ shadowing.slots 0 ∧
      shadowing.loadGlobal 0 s = .error (.raise "NameError" "name 'len' is not defined") s ∧
      shadowing.builtinOf 0 = .ok (.heap 0 1) ∧ ¬ shadowing.Agrees s 0 0 := by
  refine ⟨?_, by decide, rfl, rfl, ?_⟩
  · have stored := (shadowing_installed fun _ _ => True).op (.storeGlobal 0 .none)
      ⟨nofun, trivial⟩ trivial
    exact stored.op (.clearGlobal 0) trivial trivial
  · rintro (⟨v, reads, -⟩ | ⟨falls, -⟩)
    · cases reads
    · cases falls

end Tonic
