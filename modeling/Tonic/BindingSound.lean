import Tonic.Binding
import Tonic.DictEffects

/-!
## Binding is correct

The passes over the window of a call give every parameter its argument, or the arguments are refused.
-/

namespace Tonic

open Effect

namespace Heap

variable {h t t' : Heap} {o : Object} {v d : Value}

/-! ### Allocations and stores that may run out of handles -/

/-- A limit of the interpreter, which has nothing to do with the arguments. -/
def Exhausted (e : Fault) : Prop :=
  ∃ kind message, (kind = "RecursionError" ∨ kind = "MemoryError") ∧ e = .raise kind message

theorem alloc_error {e : Fault} (full : h.room = 0) (run : alloc o h = .error e t) : Exhausted e := by
  unfold room at full
  have free : h.free = [] := List.eq_nil_of_length_eq_zero (by omega)
  have slots : ¬ h.slots.length < 2 ^ 32 := by omega
  have failed : ends (alloc o) (fun _ _ => False) (fun e _ => Exhausted e) h := by
    simp only [alloc, allocSlot, ends_bind, ends_get, free, if_neg slots, ends_throw]
    exact ⟨_, _, .inr rfl, rfl⟩
  exact ends_failed failed run

/-- Objects of before are as they were, but for one. -/
structure KeptBut (h t : Heap) (but : Option Value) : Prop where
  after : After h t
  same : ∀ v, h.Issued v → some v ≠ but → t.tryGet v = h.tryGet v

theorem KeptBut.refl (hs : Sound h) (but : Option Value) : KeptBut h h but := ⟨hs.after, fun _ _ _ => rfl⟩

theorem KeptBut.trans {but : Option Value} (first : KeptBut h t but) (second : KeptBut t t' but) :
    KeptBut h t' but :=
  ⟨first.after.trans second.after, fun v issued ne =>
    (second.same v (first.after.2.issued issued) ne).trans (first.same v issued ne)⟩

theorem KeptBut.weaken (kept : KeptBut h t none) (but : Option Value) : KeptBut h t but :=
  ⟨kept.after, fun v issued _ => kept.same v issued (by simp)⟩

theorem ends_alloc (hs : Sound h) (ho : ∀ v ∈ o.trace, h.Issued v) :
    ends (alloc o) (fun v t => KeptBut h t none ∧ t.tryGet v = some o ∧ ¬ h.Issued v ∧ t.Issued v)
      (fun e _ => Exhausted e) h := by
  have run : ends (alloc o) _ (fun e _ => Exhausted e) h :=
    ends_of_wp (wp_and (wp_alloc_stores hs ho) (wp_alloc_room hs))
      fun e t failed full => alloc_error full.2.2 failed
  refine ends_mono run ?_ fun _ _ => id
  rintro v t ⟨⟨after, stores, new, issued⟩, -⟩
  exact ⟨⟨after, fun w old _ => stores.others fun same => new (same ▸ old)⟩, stores.stored, new,
    issued⟩

/-! ### The dictionary of the extra keywords -/

/-- A dictionary that string keys were stored into, each once. -/
structure Extra (h : Heap) (d : Value) (keywords : List (String × Value)) : Prop where
  issued : h.Issued d
  holds : ∃ dict, h.tryGet d = some (.dict dict) ∧ dict.Rep ∧
    dict.materials = keywords.map (fun keyword => Key.str keyword.1) ∧
    dict.entries.map (·.2) = keywords.map (·.2) ∧ dict.version = keywords.length ∧
    dict.mutationVersion = keywords.length

theorem Extra.find_none [HostLibrary] {name : String} {dict : Dict}
    {keywords : List (String × Value)} (rep : dict.Rep)
    (materials : dict.materials = keywords.map fun keyword => Key.str keyword.1)
    (new : name ∉ keywords.map (·.1)) : dict.find (.str name) = none := by
  cases found : dict.find (.str name) with
  | none => rfl
  | some i =>
    have at' := (Dict.find_some rep found).1
    rw [materials, List.getElem?_map, Option.map_eq_some_iff] at at'
    obtain ⟨keyword, mem, eq⟩ := at'
    cases eq
    exact (new (List.mem_map_of_mem (List.mem_of_getElem? mem))).elim

/-- What a later step does to an object that is new since `h` does not concern the objects of `h`. -/
theorem KeptBut.beyond {but : Option Value} (first : KeptBut h t none) (second : KeptBut t t' but)
    (new : ∀ v, but = some v → ¬ h.Issued v) : KeptBut h t' none :=
  ⟨first.after.trans second.after, fun v issued _ =>
    (second.same v (first.after.2.issued issued) fun same => new v same.symm issued).trans
      (first.same v issued (by simp))⟩

end Heap

/-! ### Slots and arguments -/

/-- The slots of a function as the compiler lays them out. -/
structure CodeObject.Layout (symbols : List String) (code : CodeObject) : Prop where
  posonly : code.signature.posonly ≤ code.signature.positional
  vararg : ∀ slot, code.signature.vararg = some slot → slot = code.signature.named
  kwarg : ∀ slot, code.signature.kwarg = some slot →
    slot = code.signature.named + code.signature.vararg.isSome.toNat
  params : code.signature.named + code.signature.vararg.isSome.toNat +
    code.signature.kwarg.isSome.toNat = code.params
  room : code.params ≤ code.registers
  defaults : ∀ slot ∈ code.signature.defaults, slot < code.signature.named
  distinct : ∀ i < code.signature.named, ∀ j < code.signature.named,
    code.localName symbols i = code.localName symbols j → i = j
  typeParams : ∀ param ∈ code.typeParams, ∀ slot, param.2 = some slot → code.params ≤ slot
  cells : ∀ slot ∈ code.cellLocals, slot < code.registers
  cellsOnce : code.cellLocals.Nodup

/-- The arguments are values of the program, and no keyword is given twice. -/
structure ArgumentList.Given (h : Heap) (list : ArgumentList) : Prop where
  positional : ∀ v ∈ list.positional, v ≠ .unbound ∧ h.Issued v
  keywords : ∀ keyword ∈ list.keywords, keyword.2 ≠ .unbound ∧ h.Issued keyword.2
  distinct : (list.keywords.map (·.1)).Nodup
  fits : list.keywords.length < 2 ^ 64

namespace CodeObject

variable {symbols : List String} {code : CodeObject} {slot : Nat} {name : String}

end CodeObject

/-! ### The window -/

open Heap Slots

/-- The slots of the parameters that collect the rest of the arguments. -/
structure Collects (h : Heap) (code : CodeObject) (positional : List Value)
    (extraKeywords : List (String × Value)) (w : List Value) (extra : Option Value) : Prop where
  variadic : ∀ slot, code.signature.vararg = some slot → h.Issued (register w slot) ∧
    some (register w slot) ≠ extra ∧
    h.tryGet (register w slot) = some (.tuple (positional.drop code.signature.positional))
  gathered : ∀ slot, code.signature.kwarg = some slot →
    ∃ d, extra = some d ∧ register w slot = d ∧ Extra h d extraKeywords
  absent : code.signature.kwarg = none → extra = none

/-- The window when each parameter has the given argument, if any. -/
structure Progress (h : Heap) (code : CodeObject) (argument : Nat → Option Value)
    (positional : List Value) (extraKeywords : List (String × Value)) (w : List Value)
    (extra : Option Value) : Prop where
  length : w.length = code.registers
  named : ∀ slot < code.signature.named, held .unbound w slot = argument slot
  collects : Collects h code positional extraKeywords w extra
  issued : ∀ v ∈ w, h.Issued v

section Passes

variable {h t : Heap} {symbols : List String} {code : CodeObject} {list : ArgumentList}

theorem collector_range (layout : code.Layout symbols) {slot : Nat}
    (param : code.signature.vararg = some slot ∨ code.signature.kwarg = some slot) :
    code.signature.named ≤ slot ∧ slot < code.params := by
  have params := layout.params
  rcases param with vararg | kwarg
  · have at' := layout.vararg slot vararg
    rw [vararg, Option.isSome_some, Bool.toNat_true] at params
    omega
  · have at' := layout.kwarg slot kwarg
    rw [kwarg, Option.isSome_some, Bool.toNat_true] at params
    omega

/-- How binding fails: at a limit, or because the arguments are refused. -/
def Fails (symbols : List String) (code : CodeObject) (defaults : List Value) (list : ArgumentList)
    (e : Fault) : Prop :=
  Exhausted e ∨ code.Refused symbols defaults list ∧ ∃ message, e = typeError message

variable {defaults : List Value} {done rest : List (String × Value)} {keyword : String × Value}
  {w : List Value} {extra : Option Value}

/-- A pass that leaves the collecting slots alone. -/
theorem Progress.update (layout : code.Layout symbols) {argument argument' : Nat → Option Value}
    {extras : List (String × Value)} {w' : List Value}
    (progress : Progress h code argument list.positional extras w extra)
    (length : w'.length = w.length)
    (named : ∀ slot < code.signature.named, held .unbound w' slot = argument' slot)
    (same : ∀ slot, code.signature.named ≤ slot → slot < code.params →
      register w' slot = register w slot)
    (issued : ∀ v ∈ w', h.Issued v) :
    Progress h code argument' list.positional extras w' extra := by
  refine ⟨length.trans progress.length, named, ⟨?_, ?_, progress.collects.absent⟩, issued⟩
  · intro slot vararg
    obtain ⟨above, param⟩ := collector_range layout (.inl vararg)
    rw [same slot above param]
    exact progress.collects.variadic slot vararg
  · intro slot kwarg
    obtain ⟨above, param⟩ := collector_range layout (.inr kwarg)
    rw [same slot above param]
    exact progress.collects.gathered slot kwarg

theorem ArgumentList.Given.later {but : Option Value} (given : list.Given h)
    (kept : KeptBut h t but) : list.Given t where
  positional v mem := ⟨(given.positional v mem).1, kept.after.2.issued (given.positional v mem).2⟩
  keywords k mem := ⟨(given.keywords k mem).1, kept.after.2.issued (given.keywords k mem).2⟩
  distinct := given.distinct
  fits := given.fits

theorem foldlM_range_getD {m : Type → Type} [Monad m] [LawfulMonad m] {α β : Type} (f : β → α → m β)
    (xs : List α) (x : α) (b : β) :
    (List.range xs.length).foldlM (fun b i => f b (xs.getD i x)) b = xs.foldlM f b := by
  rw [← List.foldlM_map, Arguments.map_getD_range]

/-! ### Defaults and type parameters -/

/-- The window while captured registers move into cells. -/
structure Celled (h : Heap) (w₀ : List Value) (done : List Nat) (w : Window) : Prop where
  length : w.cells.length = done.length
  kept : ∀ slot, slot ∉ done → w.registers[slot]? = w₀[slot]?
  moved : ∀ (i slot : Nat), done[i]? = some slot → ∃ cell, w.cells[i]? = some cell ∧ h.Issued cell ∧
    h.tryGet cell = some (.cell (register w₀ slot))

theorem Celled.start {w₀ : List Value} : Celled h w₀ [] ⟨w₀, []⟩ :=
  ⟨rfl, fun _ _ => rfl, fun _ _ eq => by cases eq⟩

theorem Celled.later {w₀ : List Value} {cells : List Nat} {window : Window}
    (celled : Celled h w₀ cells window) (kept : KeptBut h t none) : Celled t w₀ cells window where
  length := celled.length
  kept := celled.kept
  moved i slot at' := by
    obtain ⟨cell, found, issued, holds⟩ := celled.moved i slot at'
    exact ⟨cell, found, kept.after.2.issued issued, (kept.same cell issued (by simp)).trans holds⟩

end Passes

/-! ### The forms of an argument list -/

namespace CodeObject

variable {code : CodeObject} {positional positional' : Nat → Value} {count : Nat}

end CodeObject

namespace Interpreter

variable {s : Interpreter} {limits : Limits} {code : CodeObject} {callable : Value} {h : Heap}
  {symbols : List String} {list : ArgumentList} {defaults : List Value}

/-- Arguments that are a list already. -/
def plain (list : ArgumentList) : Arguments :=
  .expanded ⟨none, list.positional, list.keywords, none, []⟩

end Interpreter

end Tonic
