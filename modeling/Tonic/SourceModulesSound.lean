import Tonic.ModuleMembers
import Tonic.Linked

/-!
## Globals agree with attributes

A binding of a module is stored once in a slot and once in the module object. Every operation that
keeps the two together moves a module from one assignment of its names to another, so all of them
are instances of one change: a name of a module is bound to a value, or to nothing.
-/

namespace Tonic

open Effect

namespace ModuleVm

/-- What a slot is bound to. -/
def binding (s : ModuleVm) (index : Nat) : Option Value :=
  if s.globalDefined index then some (s.globals index) else none

def object (s : ModuleVm) (m : Nat) : Option Value := (s.sourceModules m).object

end ModuleVm

namespace Installed

variable {w : Installed} {s t : ModuleVm} {m n i index : Nat} {name : String} {value object : Value}
  {r : Option Value}

/-- Slots are not shared, and no module has a name twice or a name of a native module. -/
structure Layout (w : Installed) : Prop where
  own : ∀ {m n i}, i ∈ w.slots m → i ∈ w.slots n → m = n
  names : ∀ m, ((w.slots m).map w.symbol).Nodup
  native : ∀ module ∈ w.program.modules, findMember module.name w.modules = none

theorem mem_slots : i ∈ w.slots m ↔ ∃ module, w.program.modules[m]? = some module ∧
    i ∈ module.globals := by
  unfold slots info
  rw [List.getD_eq_getElem?_getD]
  cases w.program.modules[m]? with
  | none => simp
  | some module => simp

theorem owner_eq_some (layout : w.Layout) : w.owner i = some m ↔ i ∈ w.slots m := by
  constructor
  · intro found
    obtain ⟨below, holds, -⟩ := List.findIdx?_eq_some_iff_getElem.mp found
    exact mem_slots.mpr ⟨_, List.getElem?_eq_getElem below, by simpa using holds⟩
  · intro mem
    obtain ⟨module, found, here⟩ := mem_slots.mp mem
    cases eq : w.owner i with
    | none =>
      have none := List.findIdx?_eq_none_iff.mp eq module (List.mem_of_getElem? found)
      simp [here] at none
    | some n =>
      obtain ⟨below, holds, -⟩ := List.findIdx?_eq_some_iff_getElem.mp eq
      have other := mem_slots.mpr ⟨_, List.getElem?_eq_getElem below, by simpa using holds⟩
      rw [layout.own other mem]

theorem Layout.same (layout : w.Layout) {j : Nat} (hi : i ∈ w.slots m) (hj : j ∈ w.slots m)
    (eq : w.symbol i = w.symbol j) : i = j :=
  List.inj_on_of_nodup_map (layout.names m) hi hj eq

theorem slot_eq_some (layout : w.Layout) :
    w.slot m name = some i ↔ i ∈ w.slots m ∧ w.symbol i = name := by
  constructor
  · intro found
    exact ⟨List.mem_of_find?_eq_some found, by simpa using List.find?_some found⟩
  · rintro ⟨mem, rfl⟩
    cases found : w.slot m (w.symbol i) with
    | none => simpa using List.find?_eq_none.mp found i mem
    | some j =>
      have symbol : w.symbol j = w.symbol i := by simpa using List.find?_some found
      rw [layout.same (List.mem_of_find?_eq_some found) mem symbol]

theorem slot_eq_none : w.slot m name = none ↔ ∀ i ∈ w.slots m, w.symbol i ≠ name := by
  simp [slot]

theorem named_eq_some (found : w.named name = some m) : (w.info m).name = name ∧
    w.info m ∈ w.program.modules := by
  obtain ⟨below, holds, -⟩ := List.findIdx?_eq_some_iff_getElem.mp found
  have info : w.info m = w.program.modules[m] := by
    unfold info
    rw [List.getD_eq_getElem?_getD, List.getElem?_eq_getElem below, Option.getD_some]
  exact ⟨by rw [info]; simpa using holds, info ▸ List.getElem_mem below⟩

theorem own_of_nodup (distinct : (w.program.modules.flatMap (·.globals)).Nodup)
    (hm : i ∈ w.slots m) (hn : i ∈ w.slots n) : m = n := by
  obtain ⟨a, ha, mem⟩ := mem_slots.mp hm
  obtain ⟨b, hb, mem'⟩ := mem_slots.mp hn
  obtain ⟨hm, rfl⟩ := List.getElem?_eq_some_iff.mp ha
  obtain ⟨hn, rfl⟩ := List.getElem?_eq_some_iff.mp hb
  have apart := List.pairwise_iff_getElem.mp (List.nodup_flatMap.mp distinct).2
  rcases Nat.lt_trichotomy m n with lt | eq | lt
  · exact (apart m n hm hn lt mem mem').elim
  · exact eq
  · exact (apart n m hn hm lt mem' mem).elim

theorem map_symbol_nodup {names : List String} (distinct : names.Nodup) {g : Nat → Nat}
    (placed : ∀ k < names.length, w.program.symbols[g k]? = names[k]?) :
    (((List.range names.length).map g).map w.symbol).Nodup := by
  suffices same : ((List.range names.length).map g).map w.symbol = names from same.symm ▸ distinct
  refine List.ext_getElem? fun k => ?_
  by_cases below : k < names.length
  · simp [symbol, below, List.getD_eq_getElem?_getD, placed k below]
  · simp [below]

theorem mem_forall₂ {R : Program → ModuleInfo → Prop} {ps : List Program} {ms : List ModuleInfo}
    (all : List.Forall₂ R ps ms) {module : ModuleInfo} (mem : module ∈ ms) :
    ∃ p ∈ ps, R p module := by
  induction all with
  | nil => cases mem
  | @cons p first ps ms here _ ih =>
    rcases List.mem_cons.mp mem with rfl | mem
    · exact ⟨p, List.mem_cons_self, here⟩
    · obtain ⟨q, hq, hr⟩ := ih mem
      exact ⟨q, List.mem_cons_of_mem _ hq, hr⟩

/-- Linking compiled programs lays their modules out like this, if the native modules have other
names. -/
theorem layout_of_linked {programs : List Program} (compiled : ∀ p ∈ programs, Compiled p)
    (linked : Linked programs w.program)
    (native : ∀ p ∈ programs, findMember p.name w.modules = none) : w.Layout where
  own hi hj := own_of_nodup linked.slots hi hj
  names m := by
    obtain ⟨share, -, all⟩ := linked.modules
    cases found : w.program.modules[m]? with
    | none => simp [slots, info, List.getD_eq_getElem?_getD, found]
    | some module =>
      have slots : w.slots m = module.globals := by
        simp [slots, info, List.getD_eq_getElem?_getD, found]
      obtain ⟨p, mem, as⟩ := mem_forall₂ all (List.mem_of_getElem? found)
      obtain ⟨g, globals, embeds⟩ := as.renumbered
      rw [slots, globals]
      exact map_symbol_nodup (compiled p mem).distinct embeds.slots
  native module mem := by
    obtain ⟨share, -, all⟩ := linked.modules
    obtain ⟨p, mem, as⟩ := mem_forall₂ all mem
    rw [as.name]
    exact native p mem

/-! ### The invariant -/

/-- Every module object has the bindings of its module's slots, and a slot that is not bound holds
the builtin of its name. -/
structure Aligned (w : Installed) (s : ModuleVm) : Prop where
  sound : Heap.Sound s.heap
  builtins : ∀ b ∈ w.builtins, s.heap.Issued b.2
  globals : ∀ i, s.heap.Issued (s.globals i)
  natives : ∀ b ∈ w.modules, s.heap.IsModule b.2
  isModule : ∀ {m object}, s.object m = some object → s.heap.IsModule object
  member : ∀ {m object}, s.object m = some object → ∀ i ∈ w.slots m,
    s.heap.member object (w.symbol i) = s.binding i
  apart : ∀ {m n object}, s.object m = some object → s.object n = some object → m = n
  foreign : ∀ b ∈ w.modules, ∀ m, s.object m ≠ some b.2
  bound : ∀ i, s.globalDefined i = true → s.globals i ≠ .unbound
  free : ∀ i, s.globalDefined i = false → s.globals i = w.fallback (w.symbol i)

theorem Aligned.fallback_issued (al : w.Aligned s) (name : String) :
    s.heap.Issued (w.fallback name) := by
  unfold fallback findMember
  cases found : w.builtins.find? (·.1 = name) with
  | none => exact trivial
  | some b => exact al.builtins b (List.mem_of_find?_eq_some found)

/-- The name of a module is bound to `r`, in its slot and in its object; nothing else changes. -/
structure Rebinds (w : Installed) (s t : ModuleVm) (m : Nat) (name : String) (r : Option Value) :
    Prop where
  object : t.object = s.object
  after : Heap.After s.heap t.heap
  others : ∀ v, s.object m ≠ some v → t.heap.tryGet v = s.heap.tryGet v
  isModule : ∀ v, s.object m = some v → t.heap.IsModule v
  member : ∀ v, s.object m = some v → ∀ n,
    t.heap.member v n = if n = name then r else s.heap.member v n
  slot : ∀ i ∈ w.slots m, w.symbol i = name →
    t.globalDefined i = r.isSome ∧ t.globals i = r.getD (w.fallback name)
  rest : ∀ i, ¬ (i ∈ w.slots m ∧ w.symbol i = name) →
    t.globalDefined i = s.globalDefined i ∧ t.globals i = s.globals i
  value : ∀ v, r = some v → v ≠ .unbound ∧ s.heap.Issued v

theorem Rebinds.binding_slot (re : w.Rebinds s t m name r) (hi : i ∈ w.slots m)
    (eq : w.symbol i = name) : t.binding i = r := by
  obtain ⟨defined, value⟩ := re.slot i hi eq
  unfold ModuleVm.binding
  rw [defined, value]
  cases r <;> rfl

theorem Rebinds.binding_rest (re : w.Rebinds s t m name r)
    (other : ¬ (i ∈ w.slots m ∧ w.symbol i = name)) : t.binding i = s.binding i := by
  obtain ⟨defined, value⟩ := re.rest i other
  unfold ModuleVm.binding
  rw [defined, value]

theorem Aligned.rebinds (al : w.Aligned s) (layout : w.Layout) (re : w.Rebinds s t m name r) :
    w.Aligned t where
  sound := re.after.1
  builtins b mem := re.after.2.issued (al.builtins b mem)
  globals i := by
    by_cases here : i ∈ w.slots m ∧ w.symbol i = name
    · rw [(re.slot i here.1 here.2).2]
      cases eq : r with
      | none => exact re.after.2.issued (al.fallback_issued name)
      | some v => exact re.after.2.issued (re.value v eq).2
    · rw [(re.rest i here).2]
      exact re.after.2.issued (al.globals i)
  natives b mem := (al.natives b mem).congr (re.others _ (al.foreign b mem m))
  isModule {n object} found := by
    rw [re.object] at found
    by_cases own : s.object m = some object
    · exact re.isModule object own
    · exact (al.isModule found).congr (re.others object own)
  member {n object} found i mem := by
    rw [re.object] at found
    by_cases own : s.object m = some object
    · obtain rfl := al.apart own found
      rw [re.member object own]
      by_cases eq : w.symbol i = name
      · rw [if_pos eq, re.binding_slot mem eq]
      · rw [if_neg eq, al.member own i mem, re.binding_rest fun here => eq here.2]
    · rw [Heap.member_congr (re.others object own), al.member found i mem, re.binding_rest]
      rintro ⟨here, -⟩
      obtain rfl := layout.own here mem
      exact own found
  apart hm hn := al.apart (re.object ▸ hm) (re.object ▸ hn)
  foreign b mem m := by
    rw [re.object]
    exact al.foreign b mem m
  bound i defined := by
    by_cases here : i ∈ w.slots m ∧ w.symbol i = name
    · obtain ⟨some, value⟩ := re.slot i here.1 here.2
      rw [defined] at some
      obtain ⟨v, rfl⟩ := Option.isSome_iff_exists.mp some.symm
      rw [value]
      exact (re.value v rfl).1
    · obtain ⟨same, value⟩ := re.rest i here
      rw [value]
      exact al.bound i (same ▸ defined)
  free i defined := by
    by_cases here : i ∈ w.slots m ∧ w.symbol i = name
    · obtain ⟨some, value⟩ := re.slot i here.1 here.2
      rw [defined] at some
      cases r with
      | none => rw [value, here.2]; rfl
      | some v => cases some
    · obtain ⟨same, value⟩ := re.rest i here
      rw [value]
      exact al.free i (same ▸ defined)

/-- What happens elsewhere: handles stay, and so do the payloads of the modules' objects. -/
theorem Aligned.elsewhere (al : w.Aligned s) (object : t.object = s.object)
    (defined : t.globalDefined = s.globalDefined) (globals : t.globals = s.globals)
    (sound : Heap.Sound t.heap) (issued : ∀ v, s.heap.Issued v → t.heap.Issued v)
    (natives : ∀ b ∈ w.modules, t.heap.IsModule b.2)
    (same : ∀ m v, s.object m = some v → t.heap.tryGet v = s.heap.tryGet v) : w.Aligned t where
  sound := sound
  builtins b mem := issued _ (al.builtins b mem)
  globals i := by
    rw [globals]
    exact issued _ (al.globals i)
  natives := natives
  isModule {m v} found := by
    rw [object] at found
    exact (al.isModule found).congr (same m v found)
  member {m v} found i mem := by
    rw [object] at found
    rw [Heap.member_congr (same m v found), al.member found i mem]
    unfold ModuleVm.binding
    rw [defined, globals]
  apart hm hn := al.apart (object ▸ hm) (object ▸ hn)
  foreign b mem m := by
    rw [object]
    exact al.foreign b mem m
  bound i := by
    rw [defined, globals]
    exact al.bound i
  free i := by
    rw [defined, globals]
    exact al.free i

/-! ### Rules -/

@[simp] theorem wp_inHeap {α : Type} (m : HeapM α) {Q : α → ModuleVm → Prop}
    {E : ModuleVm → Prop} : wp (inHeap m) Q E = fun s => wp m (fun a heap => Q a { s with heap })
      (fun heap => E { s with heap }) s.heap := by
  funext s
  unfold wp inHeap
  cases m s.heap <;> rfl

@[simp] theorem wp_setGlobal {Q : Unit → ModuleVm → Prop} {E : ModuleVm → Prop} {defined : Bool} :
    wp (setGlobal index value defined) Q E = fun s => Q () { s with
      globals := Function.update s.globals index value
      globalDefined := Function.update s.globalDefined index defined } := rfl

@[simp] theorem wp_setModule {Q : Unit → ModuleVm → Prop} {E : ModuleVm → Prop}
    {module : SourceModuleRuntime} : wp (setModule m module) Q E = fun s =>
      Q () { s with sourceModules := Function.update s.sourceModules m module } := rfl

/-- The state and the version of a module are no part of its bindings. -/
structure Bookkeeping (s t : ModuleVm) : Prop where
  heap : t.heap = s.heap
  globals : t.globals = s.globals
  globalDefined : t.globalDefined = s.globalDefined
  object : t.object = s.object

theorem bookkeeping_update {module : SourceModuleRuntime}
    (object : module.object = (s.sourceModules m).object) :
    Bookkeeping s { s with sourceModules := Function.update s.sourceModules m module } where
  heap := rfl
  globals := rfl
  globalDefined := rfl
  object := by
    funext n
    show (Function.update s.sourceModules m module n).object = (s.sourceModules n).object
    by_cases eq : n = m
    · subst eq
      rw [Function.update_self, object]
    · rw [Function.update_of_ne eq]

theorem Bookkeeping.aligned (b : Bookkeeping s t) (al : w.Aligned s) : w.Aligned t :=
  al.elsewhere b.object b.globalDefined b.globals (b.heap ▸ al.sound)
    (fun _ => by rw [b.heap]; exact id) (by rw [b.heap]; exact al.natives)
    fun _ _ _ => by rw [b.heap]

theorem wp_setModuleState {Q : Unit → ModuleVm → Prop} {E : ModuleVm → Prop}
    {state : SourceModuleState} (next : ∀ t, Bookkeeping s t →
      (∀ n, (t.sourceModules n).state = if n = m then state else (s.sourceModules n).state) →
      (∀ n, (t.sourceModules n).version = (s.sourceModules n).version) → Q () t) :
    wp (setModuleState m state) Q E s := by
  simp only [setModuleState, wp_bind, wp_get, wp_setModule]
  refine next _ (bookkeeping_update rfl) (fun n => ?_) fun n => ?_
  · show (Function.update s.sourceModules m _ n).state = _
    by_cases eq : n = m
    · subst eq
      rw [Function.update_self, if_pos rfl]
    · rw [Function.update_of_ne eq, if_neg eq]
  · show (Function.update s.sourceModules m _ n).version = _
    by_cases eq : n = m
    · subst eq
      rw [Function.update_self]
    · rw [Function.update_of_ne eq]

theorem wp_bumpModuleVersion {Q : Unit → ModuleVm → Prop} {E : ModuleVm → Prop}
    (next : ∀ t, Bookkeeping s t →
      (∀ n, (t.sourceModules n).state = (s.sourceModules n).state) → Q () t)
    (exhausted : 2 ^ 64 ≤ (s.sourceModules m).version + 1 → E s) :
    wp (bumpModuleVersion m) Q E s := by
  simp only [bumpModuleVersion, wp_bind, wp_get]
  split
  · rw [wp_setModule]
    refine next _ (bookkeeping_update rfl) fun n => ?_
    show (Function.update s.sourceModules m _ n).state = _
    by_cases eq : n = m
    · subst eq
      rw [Function.update_self]
    · rw [Function.update_of_ne eq]
  · next full =>
    exact exhausted (Nat.le_of_not_lt full)

theorem wp_bump_aligned (al : w.Aligned s) :
    wp (bumpModuleVersion m) (fun _ t => w.Aligned t ∧ Bookkeeping s t)
      (fun t => w.Aligned t ∧ t = s) s :=
  wp_bumpModuleVersion (fun _ b _ => ⟨b.aligned al, b⟩) fun _ => ⟨al, rfl⟩

/-! ### One binding -/

/-- The object of the module, if it has one, has been given the binding. -/
structure Edited (s : ModuleVm) (heap : Heap) (m : Nat) (name : String) (r : Option Value) :
    Prop where
  object : ∀ o, s.object m = some o → Heap.MemberEdit s.heap heap o name r
  alone : s.object m = none → heap = s.heap

theorem Edited.after {heap : Heap} (ed : Edited s heap m name r) (sound : Heap.Sound s.heap) :
    Heap.After s.heap heap := by
  cases found : s.object m with
  | none => rw [ed.alone found]; exact sound.after
  | some o => exact (ed.object o found).after

theorem Edited.others {heap : Heap} (ed : Edited s heap m name r) {v : Value}
    (other : s.object m ≠ some v) : heap.tryGet v = s.heap.tryGet v := by
  cases found : s.object m with
  | none => rw [ed.alone found]
  | some o => exact (ed.object o found).others v fun eq => other (eq ▸ found)

/-- The slot of the name is given the binding as well. -/
theorem Edited.rebinds_at {heap : Heap} (ed : Edited s heap m name r) (al : w.Aligned s)
    (layout : w.Layout) (slot : w.slot m name = some index)
    (valid : ∀ v, r = some v → v ≠ .unbound ∧ s.heap.Issued v) :
    w.Rebinds s { s with
      heap
      globals := Function.update s.globals index (r.getD (w.fallback name))
      globalDefined := Function.update s.globalDefined index r.isSome } m name r := by
  obtain ⟨mem, symbol⟩ := (slot_eq_some layout).mp slot
  constructor
  · rfl
  · exact ed.after al.sound
  · exact fun v other => ed.others other
  · exact fun v found => (ed.object v found).isModule
  · exact fun v found => (ed.object v found).member
  · intro i hi eq
    obtain rfl := layout.same hi mem (eq.trans symbol.symm)
    exact ⟨Function.update_self .., Function.update_self ..⟩
  · intro i other
    have ne : i ≠ index := fun eq => other ⟨eq ▸ mem, eq ▸ symbol⟩
    exact ⟨Function.update_of_ne ne .., Function.update_of_ne ne ..⟩
  · exact valid

theorem Edited.rebinds {heap : Heap} (ed : Edited s heap m name r) (al : w.Aligned s)
    (slot : w.slot m name = none) (valid : ∀ v, r = some v → v ≠ .unbound ∧ s.heap.Issued v) :
    w.Rebinds s { s with heap } m name r := by
  constructor
  · rfl
  · exact ed.after al.sound
  · exact fun v other => ed.others other
  · exact fun v found => (ed.object v found).isModule
  · exact fun v found => (ed.object v found).member
  · exact fun i hi eq => (slot_eq_none.mp slot i hi eq).elim
  · exact fun i _ => ⟨rfl, rfl⟩
  · exact valid

theorem wp_withObject (m : Nat) (name : String) (r : Option Value) {own : Option Value} {f : Value → HeapM Unit} {Q : Unit → ModuleVm → Prop}
    {E : ModuleVm → Prop} (same : own = s.object m)
    (run : ∀ o, s.object m = some o →
      wp (f o) (fun _ heap => Heap.MemberEdit s.heap heap o name r) (fun _ => False) s.heap)
    (next : ∀ heap, Edited s heap m name r → Q () { s with heap }) :
    wp (withObject own f) Q E s := by
  subst same
  unfold withObject
  cases found : s.object m with
  | none => exact next s.heap ⟨fun o same => (by rw [found] at same; cases same), fun _ => rfl⟩
  | some o =>
    simp only [wp_inHeap]
    refine wp_mono (run o found) (fun _ heap edit => next heap ⟨?_, ?_⟩) fun _ => False.elim
    · intro o' same
      rw [found] at same
      cases same
      exact edit
    · intro none
      rw [found] at none
      cases none

/-- A slot that no module owns. -/
theorem Aligned.unowned (al : w.Aligned s) (layout : w.Layout) {defined : Bool}
    (owner : w.owner index = none) (issued : s.heap.Issued value)
    (bound : defined = true → value ≠ .unbound)
    (free : defined = false → value = w.fallback (w.symbol index)) :
    w.Aligned { s with
      globals := Function.update s.globals index value
      globalDefined := Function.update s.globalDefined index defined } where
  sound := al.sound
  builtins := al.builtins
  globals i := by
    show s.heap.Issued (Function.update s.globals index value i)
    by_cases eq : i = index
    · rw [eq, Function.update_self]
      exact issued
    · rw [Function.update_of_ne eq]
      exact al.globals i
  natives := al.natives
  isModule := al.isModule
  member {m object} found i mem := by
    have ne : i ≠ index := by
      rintro rfl
      rw [(owner_eq_some layout).mpr mem] at owner
      cases owner
    rw [al.member found i mem]
    simp only [ModuleVm.binding, Function.update_of_ne ne]
  apart := al.apart
  foreign := al.foreign
  bound i here := by
    by_cases eq : i = index
    · subst eq
      simp only [Function.update_self] at here ⊢
      exact bound here
    · simp only [Function.update_of_ne eq] at here ⊢
      exact al.bound i here
  free i here := by
    by_cases eq : i = index
    · subst eq
      simp only [Function.update_self] at here ⊢
      exact free here
    · simp only [Function.update_of_ne eq] at here ⊢
      exact al.free i here

theorem slot_symbol (layout : w.Layout) (mem : i ∈ w.slots m) : w.slot m (w.symbol i) = some i :=
  (slot_eq_some layout).mpr ⟨mem, rfl⟩

theorem wp_storeGlobal (al : w.Aligned s) (layout : w.Layout) (bound : value ≠ .unbound)
    (issued : s.heap.Issued value) :
    wp (w.storeGlobal index value) (fun _ => w.Aligned) w.Aligned s := by
  simp only [storeGlobal, wp_bind, wp_setGlobal]
  cases owner : w.owner index with
  | none => exact al.unowned layout owner issued (fun _ => bound) nofun
  | some m =>
    have slot := slot_symbol layout ((owner_eq_some layout).mp owner)
    simp only [wp_bind, wp_get]
    refine wp_withObject m (w.symbol index) (some value) rfl ?_ fun heap edited => ?_
    · intro o found
      exact Heap.wp_addModuleMember al.sound (al.isModule found) issued
    have edited : Edited s heap m (w.symbol index) (some value) :=
      ⟨edited.object, edited.alone⟩
    have re := edited.rebinds_at al layout slot (by rintro v ⟨⟩; exact ⟨bound, issued⟩)
    exact wp_mono (wp_bump_aligned (al.rebinds layout re)) (fun _ _ ht => ht.1) fun _ ht => ht.1

theorem wp_deleteIfPresent (name : String) {h : Heap} {o : Value} (sound : Heap.Sound h) (m : h.IsModule o) :
    wp (deleteIfPresent name o) (fun _ t => Heap.MemberEdit h t o name none) (fun _ => False)
      h := by
  simp only [deleteIfPresent, wp_bind]
  unfold wp attempt
  rw [Heap.attr_module m]
  cases found : h.member o name with
  | some v =>
    show wp (deleteModuleMember o name) _ _ h
    refine wp_mono (Heap.wp_deleteModuleMember sound m) (fun _ _ => id) ?_
    rintro t ⟨rfl, none⟩
    rw [found] at none
    cases none
  | none =>
    refine ⟨sound.after, rfl, m, fun _ _ => rfl, fun n => ?_⟩
    split
    · next eq => rw [eq, found]
    · rfl

/-- A slot whose name is no builtin may be cleared. -/
theorem wp_clearGlobal (al : w.Aligned s) (layout : w.Layout)
    (plain : w.fallback (w.symbol index) = .unbound) :
    wp (w.clearGlobal index) (fun _ t => w.Aligned t ∧ t.globalDefined index = false)
      w.Aligned s := by
  simp only [clearGlobal, wp_bind, wp_setGlobal]
  cases owner : w.owner index with
  | none =>
    exact ⟨al.unowned layout owner trivial nofun fun _ => plain.symm, Function.update_self ..⟩
  | some m =>
    have slot := slot_symbol layout ((owner_eq_some layout).mp owner)
    simp only [wp_bind, wp_get]
    refine wp_withObject m (w.symbol index) none rfl ?_ fun heap edited => ?_
    · intro o found
      exact wp_deleteIfPresent _ al.sound (al.isModule found)
    have edited : Edited s heap m (w.symbol index) none := ⟨edited.object, edited.alone⟩
    have re := edited.rebinds_at al layout slot (by rintro v ⟨⟩)
    rw [Option.getD_none, plain] at re
    refine wp_mono (wp_bump_aligned (al.rebinds layout re)) ?_ fun _ ht => ht.1
    rintro - t ⟨al, b⟩
    exact ⟨al, by rw [b.globalDefined]; exact Function.update_self ..⟩

/-! ### Attributes of module objects -/

theorem object_of_moduleOf (found : w.moduleOf s object = some m) : s.object m = some object := by
  unfold moduleOf at found
  simpa [ModuleVm.object] using List.find?_some found

/-- A name of the module without a slot is bound in the object alone. -/
theorem Edited.of_object {heap : Heap} (found : s.object m = some object)
    (edit : Heap.MemberEdit s.heap heap object name r) : Edited s heap m name r where
  object o same := by
    rw [found] at same
    cases same
    exact edit
  alone none := by
    rw [found] at none
    cases none

theorem wp_storeModuleAttribute (al : w.Aligned s) (layout : w.Layout) (bound : value ≠ .unbound)
    (issued : s.heap.Issued value) :
    wp (w.storeModuleAttribute object name value) (fun _ => w.Aligned) w.Aligned s := by
  simp only [storeModuleAttribute, wp_bind, wp_get]
  cases found : w.moduleOf s object with
  | none => exact al
  | some m =>
    have own := object_of_moduleOf found
    dsimp only
    cases slot : w.slot m name with
    | some index =>
      simp only [wp_bind, wp_pure]
      exact wp_storeGlobal al layout bound issued
    | none =>
      simp only [wp_bind, wp_inHeap, wp_pure]
      refine wp_mono (Heap.wp_addModuleMember al.sound (al.isModule own) issued) ?_
        fun _ => False.elim
      intro _ heap edit
      have re := (Edited.of_object own edit).rebinds al slot (by rintro v ⟨⟩; exact ⟨bound, issued⟩)
      exact wp_mono (wp_bump_aligned (al.rebinds layout re)) (fun _ _ ht => ht.1) fun _ ht => ht.1

theorem wp_deleteModuleAttribute (al : w.Aligned s) (layout : w.Layout)
    (plain : ∀ m, w.moduleOf s object = some m → (w.slot m name).isSome → w.fallback name = .unbound) :
    wp (w.deleteModuleAttribute object name) (fun _ t => w.Aligned t ∧
      ∀ m index, w.moduleOf s object = some m → w.slot m name = some index →
        t.globalDefined index = false) w.Aligned s := by
  simp only [deleteModuleAttribute, wp_bind, wp_get]
  cases found : w.moduleOf s object with
  | none => exact ⟨al, nofun⟩
  | some m =>
    have own := object_of_moduleOf found
    dsimp only
    cases slot : w.slot m name with
    | some index =>
      obtain ⟨mem, symbol⟩ := (slot_eq_some layout).mp slot
      have plain := plain m found (by rw [slot]; rfl)
      simp only [wp_bind, wp_pure]
      refine wp_mono (wp_clearGlobal al layout (symbol ▸ plain)) ?_ fun _ => id
      rintro - t ⟨al, cleared⟩
      refine ⟨al, ?_⟩
      rintro _ index' ⟨⟩ slot'
      rw [slot] at slot'
      cases slot'
      exact cleared
    | none =>
      simp only [wp_bind, wp_inHeap, wp_pure]
      refine wp_mono (Heap.wp_deleteModuleMember al.sound (al.isModule own)) ?_ ?_
      · intro _ heap edit
        have re := (Edited.of_object own edit).rebinds al slot (by rintro v ⟨⟩)
        refine wp_mono (wp_bump_aligned (al.rebinds layout re)) ?_ fun _ ht => ht.1
        rintro - t ⟨al, -⟩
        refine ⟨al, ?_⟩
        rintro _ index ⟨⟩ slot'
        rw [slot] at slot'
        cases slot'
      · rintro heap ⟨rfl, -⟩
        exact al

/-! ### Making a module object -/

/-- The slots of the metadata are bound, as the installation leaves them. -/
def MetadataBound (w : Installed) (s : ModuleVm) (m : Nat) : Prop :=
  ∀ i ∈ w.slots m, isMetadata (w.symbol i) = true → s.globalDefined i = true

/-- A module has been given a new object, so far with the members `f`. -/
structure Fills (s t : ModuleVm) (m : Nat) (o : Value) (f : String → Option Value) : Prop where
  globals : t.globals = s.globals
  globalDefined : t.globalDefined = s.globalDefined
  object : t.object = Function.update s.object m (some o)
  state : ∀ n, (t.sourceModules n).state = (s.sourceModules n).state
  version : ∀ n, (t.sourceModules n).version = (s.sourceModules n).version
  after : Heap.After s.heap t.heap
  new : ¬ s.heap.Issued o
  isModule : t.heap.IsModule o
  old : ∀ v, s.heap.Issued v → t.heap.tryGet v = s.heap.tryGet v
  member : ∀ n, t.heap.member o n = f n

variable {o : Value} {f : String → Option Value}

theorem Fills.binding (fl : Fills s t m o f) (i : Nat) : t.binding i = s.binding i := by
  unfold ModuleVm.binding
  rw [fl.globals, fl.globalDefined]

theorem Fills.aligned (fl : Fills s t m o f) (al : w.Aligned s)
    (complete : ∀ i ∈ w.slots m, f (w.symbol i) = s.binding i) : w.Aligned t := by
  have other {n : Nat} {v : Value} (found : t.object n = some v) :
      n = m ∧ v = o ∨ n ≠ m ∧ s.object n = some v := by
    rw [fl.object] at found
    by_cases eq : n = m
    · subst eq
      rw [Function.update_self] at found
      exact .inl ⟨rfl, (Option.some_inj.mp found).symm⟩
    · rw [Function.update_of_ne eq] at found
      exact .inr ⟨eq, found⟩
  have issued {n : Nat} {v : Value} (found : s.object n = some v) : s.heap.Issued v :=
    (al.isModule found).issued al.sound.valid
  constructor
  · exact fl.after.1
  · exact fun b mem => fl.after.2.issued (al.builtins b mem)
  · intro i
    rw [fl.globals]
    exact fl.after.2.issued (al.globals i)
  · intro b mem
    have native := al.natives b mem
    exact native.congr (fl.old _ (native.issued al.sound.valid))
  · intro n v found
    rcases other found with ⟨rfl, rfl⟩ | ⟨-, found⟩
    · exact fl.isModule
    · exact (al.isModule found).congr (fl.old _ (issued found))
  · intro n v found i mem
    rw [fl.binding]
    rcases other found with ⟨rfl, rfl⟩ | ⟨-, found⟩
    · rw [fl.member, complete i mem]
    · rw [Heap.member_congr (fl.old _ (issued found)), al.member found i mem]
  · intro n n' v hn hn'
    rcases other hn with ⟨rfl, rfl⟩ | ⟨-, hn⟩
    · rcases other hn' with ⟨rfl, -⟩ | ⟨-, hn'⟩
      · rfl
      · exact absurd (issued hn') fl.new
    · rcases other hn' with ⟨rfl, rfl⟩ | ⟨-, hn'⟩
      · exact absurd (issued hn) fl.new
      · exact al.apart hn hn'
  · intro b mem n found
    rcases other found with ⟨rfl, eq⟩ | ⟨-, found⟩
    · exact fl.new (eq ▸ (al.natives b mem).issued al.sound.valid)
    · exact al.foreign b mem n found
  · intro i
    rw [fl.globals, fl.globalDefined]
    exact al.bound i
  · intro i
    rw [fl.globals, fl.globalDefined]
    exact al.free i

/-- With room left, an allocation does not fail. -/
theorem wp_alloc_ready {h : Heap} {obj : Object} (sound : Heap.Sound h)
    (traced : ∀ v ∈ obj.trace, h.Issued v) (room : 0 < h.room) :
    wp (alloc obj) (fun v t => Heap.After h t ∧ Heap.Stores h t v obj ∧ ¬ h.Issued v ∧
      t.Issued v ∧ t.room + 1 = h.room) (fun _ => False) h := by
  refine wp_mono (wp_and (Heap.wp_alloc_stores sound traced) (Heap.wp_alloc_room sound)) ?_ ?_
  · rintro v t ⟨⟨after, stores, new, issued⟩, room⟩
    exact ⟨after, stores, new, issued, room⟩
  · rintro t ⟨-, -, full⟩
    omega

theorem Fills.add (fl : Fills s t m o f) (issued : t.heap.Issued value) :
    wp (inHeap (addModuleMember o name value))
      (fun _ u => Fills s u m o (Function.update f name (some value)) ∧ u.heap.room = t.heap.room)
      (fun _ => False) t := by
  simp only [wp_inHeap]
  refine wp_mono (Heap.wp_addModuleMember fl.after.1 fl.isModule issued) ?_ fun _ => id
  rintro - heap edit
  refine ⟨?_, edit.room⟩
  constructor
  · exact fl.globals
  · exact fl.globalDefined
  · exact fl.object
  · exact fl.state
  · exact fl.version
  · exact fl.after.trans edit.after
  · exact fl.new
  · exact edit.isModule
  · intro v hv
    have ne : v ≠ o := fun eq => fl.new (eq ▸ hv)
    rw [edit.others v ne, fl.old v hv]
  · intro n
    rw [edit.member, Function.update_apply, fl.member]

theorem Fills.metadataValue (fl : Fills s t m o f) (al : w.Aligned s) (layout : w.Layout)
    (bound : w.MetadataBound s m) (name : String) (metadata : isMetadata name = true)
    (room : 0 < t.heap.room) (text : String) :
    wp (w.metadataValue m name text) (fun v u => Fills s u m o f ∧ u.heap.Issued v ∧
      (∀ i, w.slot m name = some i → s.binding i = some v) ∧ t.heap.room ≤ u.heap.room + 1)
      (fun _ => False) t := by
  simp only [Installed.metadataValue, wp_bind, wp_get]
  cases slot : w.slot m name with
  | some i =>
    obtain ⟨mem, symbol⟩ := (slot_eq_some layout).mp slot
    have defined := bound i mem (by rw [symbol]; exact metadata)
    have kept : t.globals i ≠ .unbound := fl.globals ▸ al.bound i defined
    simp only [Option.map_some, Option.filter_some, kept, ne_eq, not_false_eq_true, decide_true,
      if_true, wp_pure]
    refine ⟨fl, ?_, ?_, by omega⟩
    · rw [fl.globals]
      exact fl.after.2.issued (al.globals i)
    · rintro _ ⟨⟩
      simp only [ModuleVm.binding, defined, if_true, fl.globals]
  | none =>
    simp only [Option.map_none, Option.filter_none, wp_inHeap]
    refine wp_mono (wp_alloc_ready fl.after.1 (by simp [Object.trace]) room) ?_ fun _ => id
    rintro v heap ⟨after, stores, new, issued, left⟩
    have valid := fl.after.1.valid
    have ne : o ≠ v := by
      rintro rfl
      exact new (fl.isModule.issued valid)
    refine ⟨?_, issued, by simp, Nat.le_of_eq left.symm⟩
    constructor
    · exact fl.globals
    · exact fl.globalDefined
    · exact fl.object
    · exact fl.state
    · exact fl.version
    · exact fl.after.trans after
    · exact fl.new
    · exact fl.isModule.congr (stores.elsewhere ne)
    · intro x hx
      have ne : x ≠ v := fun eq => new (eq ▸ fl.after.2.issued hx)
      rw [stores.elsewhere ne, fl.old x hx]
    · intro n
      rw [Heap.member_congr (stores.elsewhere ne), fl.member]

/-- Copying slots gives the object their bindings, except those of the metadata, which it has. -/
theorem Fills.copyMembers (al : w.Aligned s) {xs : List Nat} (names : (xs.map w.symbol).Nodup)
    (fl : Fills s t m o f) (empty : ∀ i ∈ xs, isMetadata (w.symbol i) = false → f (w.symbol i) = none) :
    wp (xs.forM (w.copyMember o)) (fun _ u => u.heap.room = t.heap.room ∧
      ∃ f', Fills s u m o f' ∧
        (∀ n, n ∉ xs.map w.symbol ∨ isMetadata n = true → f' n = f n) ∧
        ∀ i ∈ xs, isMetadata (w.symbol i) = false → f' (w.symbol i) = s.binding i)
      (fun _ => False) t := by
  induction xs generalizing t f with
  | nil => exact ⟨rfl, f, fl, fun _ _ => rfl, by simp⟩
  | cons x xs ih =>
    rw [List.map_cons, List.nodup_cons] at names
    -- one slot more, whether or not it is bound
    have copied : wp (w.copyMember o x) (fun _ u => u.heap.room = t.heap.room ∧
        ∃ f', Fills s u m o f' ∧ (∀ n, n ≠ w.symbol x ∨ isMetadata n = true → f' n = f n) ∧
          (isMetadata (w.symbol x) = false → f' (w.symbol x) = s.binding x))
        (fun _ => False) t := by
      simp only [copyMember, wp_bind, wp_get, fl.globals, fl.globalDefined]
      split
      · next copies =>
        simp only [Bool.and_eq_true, decide_eq_true_eq, Bool.not_eq_true'] at copies
        refine wp_mono (fl.add (fl.after.2.issued (al.globals x))) ?_ fun _ => id
        rintro - u ⟨fl, room⟩
        refine ⟨room, _, fl, ?_, fun _ => ?_⟩
        · rintro n (ne | metadata)
          · exact Function.update_of_ne ne ..
          · refine Function.update_of_ne ?_ ..
            rintro rfl
            rw [copies.2] at metadata
            cases metadata
        · rw [Function.update_self, ModuleVm.binding, if_pos copies.1.1]
      · next skipped =>
        refine ⟨rfl, f, fl, fun _ _ => rfl, fun plain => ?_⟩
        rw [empty x List.mem_cons_self plain]
        cases defined : s.globalDefined x with
        | false => simp [ModuleVm.binding, defined]
        | true => simp [defined, al.bound x defined, plain] at skipped
    show wp (w.copyMember o x >>= fun _ => xs.forM (w.copyMember o)) _ _ t
    rw [wp_bind]
    refine wp_mono copied ?_ fun _ => id
    rintro - u ⟨room, f', fl', same, here⟩
    have empty' : ∀ i ∈ xs, isMetadata (w.symbol i) = false → f' (w.symbol i) = none := by
      intro i mem plain
      have ne : w.symbol i ≠ w.symbol x := fun eq => names.1 (eq ▸ List.mem_map_of_mem mem)
      rw [same _ (.inl ne), empty i (List.mem_cons_of_mem _ mem) plain]
    refine wp_mono (ih names.2 fl' empty') ?_ fun _ => id
    rintro - v ⟨room', f'', fl'', same', rest⟩
    refine ⟨room'.trans room, f'', fl'', ?_, ?_⟩
    · rintro n (outside | metadata)
      · rw [List.map_cons, List.mem_cons, not_or] at outside
        rw [same' n (.inl outside.2), same n (.inl outside.1)]
      · rw [same' n (.inr metadata), same n (.inr metadata)]
    · intro i mem plain
      rcases List.mem_cons.mp mem with rfl | mem
      · rw [same' _ (.inl names.1), here plain]
      · exact rest i mem plain

/-- The module of the object: the one it had, or a new one that nothing referred to. -/
structure Ensured (s t : ModuleVm) (m : Nat) (o : Value) : Prop where
  globals : t.globals = s.globals
  globalDefined : t.globalDefined = s.globalDefined
  object : t.object = Function.update s.object m (some o)
  state : ∀ n, (t.sourceModules n).state = (s.sourceModules n).state
  version : ∀ n, (t.sourceModules n).version = (s.sourceModules n).version
  after : Heap.After s.heap t.heap
  old : ∀ v, s.heap.Issued v → t.heap.tryGet v = s.heap.tryGet v
  had : ∀ v, s.object m = some v → t = s
  room : s.heap.room ≤ t.heap.room + 3

/-- The metadata of a module without an object is bound, and its object and strings still fit. -/
def Makeable (w : Installed) (s : ModuleVm) (m room : Nat) : Prop :=
  s.object m = none → w.MetadataBound s m ∧ room ≤ s.heap.room

theorem wp_ensureSourceModuleObject (al : w.Aligned s) (layout : w.Layout)
    (ready : w.Makeable s m 3) :
    wp (w.ensureSourceModuleObject m) (fun o t => w.Aligned t ∧ Ensured s t m o)
      (fun _ => False) s := by
  simp only [ensureSourceModuleObject, wp_bind, wp_get]
  cases had : (s.sourceModules m).object with
  | some o =>
    have same : s.object = Function.update s.object m (some o) :=
      (Function.update_eq_self_iff.mpr had.symm).symm
    exact ⟨al, rfl, rfl, same, fun _ => rfl, fun _ => rfl, al.sound.after, fun _ _ => rfl,
      fun _ _ => rfl, by omega⟩
  | none =>
    obtain ⟨bound, room⟩ := ready had
    simp only [wp_bind, wp_setModule]
    rw [wp_inHeap]
    refine wp_mono (wp_alloc_ready al.sound (by simp [Object.trace]) (by omega)) ?_ fun _ => id
    rintro o h₁ ⟨after, stores, new, issued, room₁⟩
    have fl : Fills s { s with
        heap := h₁
        sourceModules := Function.update s.sourceModules m
          { s.sourceModules m with object := some o } } m o fun _ => none := by
      constructor
      · rfl
      · rfl
      · funext n
        show (Function.update s.sourceModules m _ n).object = _
        by_cases eq : n = m
        · subst eq
          rw [Function.update_self, Function.update_self]
        · rw [Function.update_of_ne eq, Function.update_of_ne eq]
          rfl
      · intro n
        show (Function.update s.sourceModules m _ n).state = _
        by_cases eq : n = m
        · subst eq
          rw [Function.update_self]
        · rw [Function.update_of_ne eq]
      · intro n
        show (Function.update s.sourceModules m _ n).version = _
        by_cases eq : n = m
        · subst eq
          rw [Function.update_self]
        · rw [Function.update_of_ne eq]
      · exact after
      · exact new
      · exact ⟨[], stores.here, List.nodup_nil⟩
      · exact fun v hv => stores.elsewhere fun eq => new (eq ▸ hv)
      · exact fun n => Heap.member_of stores.here
    refine wp_mono (fl.metadataValue al layout bound "__name__" rfl (show 0 < h₁.room by omega) _) ?_
      fun _ => id
    rintro name s₂ ⟨fl, issued, own, room₂⟩
    change h₁.room ≤ _ at room₂
    refine wp_mono (fl.add issued) ?_ fun _ => id
    rintro - s₃ ⟨fl, room₃⟩
    refine wp_mono (fl.metadataValue al layout bound "__file__" rfl (by omega) _) ?_ fun _ => id
    rintro filename s₄ ⟨fl, issued, own', room₄⟩
    refine wp_mono (fl.add issued) ?_ fun _ => id
    rintro - s₅ ⟨fl, room₅⟩
    refine wp_mono (fl.copyMembers al (layout.names m) ?_) ?_ fun _ => id
    · intro i _ plain
      have metadata {name : String} (here : isMetadata name = true) : w.symbol i ≠ name := by
        rintro rfl
        rw [plain] at here
        cases here
      rw [Function.update_of_ne (metadata rfl), Function.update_of_ne (metadata rfl)]
    rintro - t ⟨room₆, f, fl, kept, copied⟩
    have complete : ∀ i ∈ w.slots m, f (w.symbol i) = s.binding i := by
      intro i mem
      cases metadata : isMetadata (w.symbol i) with
      | false => exact copied i mem metadata
      | true =>
        rw [kept _ (.inr metadata)]
        by_cases file : w.symbol i = "__file__"
        · rw [file, Function.update_self, own' i ((slot_eq_some layout).mpr ⟨mem, file⟩)]
        · have name : w.symbol i = "__name__" := by simpa [isMetadata, file] using metadata
          rw [name, Function.update_of_ne (by decide), Function.update_self,
            own i ((slot_eq_some layout).mpr ⟨mem, name⟩)]
    rw [wp_pure]
    refine ⟨fl.aligned al complete, ?_⟩
    constructor
    · exact fl.globals
    · exact fl.globalDefined
    · exact fl.object
    · exact fl.state
    · exact fl.version
    · exact fl.after
    · exact fl.old
    · intro v has
      rw [ModuleVm.object, had] at has
      cases has
    · omega

/-! ### Imports -/

theorem attempt_module {h : Heap} (m : h.IsModule o) : attempt (attr o name) h =
    .ok ((h.member o name).elim (.error (missing name)) .ok) h := by
  unfold attempt
  rw [Heap.attr_module m]
  cases h.member o name <;> rfl

theorem isAttribute_module {h : Heap} (m : h.IsModule o) :
    isAttribute o name value h = .ok (decide (h.member o name = some value)) h := by
  unfold isAttribute
  rw [bind_ok (attempt_module m)]
  cases h.member o name with
  | none => rfl
  | some v => simp [pure, EStateM.pure]

theorem wp_isAttribute {Q : Bool → ModuleVm → Prop} {E : ModuleVm → Prop} (m : s.heap.IsModule o)
    (next : Q (decide (s.heap.member o name = some value)) s) :
    wp (inHeap (isAttribute o name value)) Q E s := by
  rw [wp_inHeap]
  exact wp_ran (isAttribute_module m) next

theorem bound_of_isModule {h : Heap} (m : h.IsModule o) : o ≠ .unbound := by
  rintro rfl
  obtain ⟨members, found, -⟩ := m
  cases found

theorem mem_of_findMember {members : List (String × Value)} (found : findMember name members = some o) :
    ∃ b ∈ members, b.2 = o := by
  unfold findMember at found
  obtain ⟨b, first, rfl⟩ := Option.map_eq_some_iff.mp found
  exact ⟨b, List.mem_of_find?_eq_some first, rfl⟩

/-- The parent of the name can be given another member: its object can be made, and its version is
not exhausted. -/
def Attachable (w : Installed) (s : ModuleVm) (name : String) (room : Nat) : Prop :=
  ∀ parentName childName m, rsplitOnce name = some (parentName, childName) →
    w.named parentName = some m →
      w.Makeable s m room ∧ (s.sourceModules m).version + 1 < 2 ^ 64

/-- An edit of a native module. -/
theorem Aligned.native (al : w.Aligned s) {heap : Heap} {b : String × Value} (mem : b ∈ w.modules)
    (edit : Heap.MemberEdit s.heap heap b.2 name r) : w.Aligned { s with heap } := by
  refine al.elsewhere rfl rfl rfl edit.after.1 (fun _ => edit.after.2.issued) ?_ ?_
  · intro c hc
    by_cases eq : c.2 = b.2
    · exact eq ▸ edit.isModule
    · exact (al.natives c hc).congr (edit.others _ eq)
  · intro m v found
    exact edit.others v fun eq => al.foreign b mem m (eq ▸ found)

theorem wp_attachImportedModule (al : w.Aligned s) (layout : w.Layout)
    (isModule : s.heap.IsModule object) (ready : w.Attachable s name 3) :
    wp (w.attachImportedModule name object) (fun _ => w.Aligned) w.Aligned s := by
  unfold attachImportedModule
  cases split : rsplitOnce name with
  | none => exact al
  | some parts =>
    obtain ⟨parentName, childName⟩ := parts
    simp only [wp_bind, importParent]
    cases named : w.named parentName with
    | none =>
      simp only [wp_pure]
      cases native : findMember parentName w.modules with
      | none => exact al
      | some parent =>
        obtain ⟨b, mem, rfl⟩ := mem_of_findMember native
        simp only [Option.map_some, wp_bind]
        refine wp_isAttribute (al.natives b mem) ?_
        split
        · exact al
        · simp only [wp_bind, wp_inHeap, wp_pure]
          exact wp_mono (Heap.wp_addModuleMember al.sound (al.natives b mem)
            (isModule.issued al.sound.valid)) (fun _ _ edit => al.native mem edit)
            fun _ => False.elim
    | some m =>
      obtain ⟨makeable, version⟩ := ready _ _ m split named
      simp only [wp_bind, wp_pure]
      refine wp_mono (wp_ensureSourceModuleObject al layout makeable) ?_ fun _ => False.elim
      rintro parent t ⟨al, made⟩
      have own : t.object m = some parent := by rw [made.object, Function.update_self]
      have isModule := isModule.congr (made.old _ (isModule.issued ‹w.Aligned s›.sound.valid))
      refine wp_isAttribute (al.isModule own) ?_
      split
      · exact al
      · simp only [wp_bind, wp_inHeap]
        refine wp_mono (Heap.wp_addModuleMember al.sound (al.isModule own)
          (isModule.issued al.sound.valid)) ?_ fun _ => False.elim
        intro _ heap edit
        have valid : ∀ v, some object = some v → v ≠ .unbound ∧ t.heap.Issued v := by
          rintro v ⟨⟩
          exact ⟨bound_of_isModule isModule, isModule.issued al.sound.valid⟩
        have edited := Edited.of_object own edit
        refine wp_bumpModuleVersion (fun u b _ => ?_) fun exhausted => ?_
        · cases slot : w.slot m childName with
          | none => exact b.aligned (al.rebinds layout (edited.rebinds al slot valid))
          | some index =>
            have re := edited.rebinds_at al layout slot valid
            refine Bookkeeping.aligned ?_ (al.rebinds layout re)
            constructor
            · exact b.heap
            · exact congrArg (Function.update · index object) b.globals
            · exact congrArg (Function.update · index true) b.globalDefined
            · exact b.object
        · have := made.version m
          change 2 ^ 64 ≤ (t.sourceModules m).version + 1 at exhausted
          omega

/-- What an import of the name needs to go through: see `Makeable`. -/
def Importable (w : Installed) (s : ModuleVm) (name : String) : Prop :=
  (∀ m, w.named name = some m → w.Makeable s m 6) ∧ w.Attachable s name 6

theorem Makeable.after {room room' : Nat} (make : w.Makeable s m room) (ensured : Ensured s t n o)
    (fits : room' + 3 ≤ room) : w.Makeable t m room' := by
  intro none
  have ne : m ≠ n := by
    rintro rfl
    rw [ensured.object, Function.update_self] at none
    cases none
  rw [ensured.object, Function.update_of_ne ne] at none
  obtain ⟨bound, left⟩ := make none
  have := ensured.room
  exact ⟨fun i mem named => by rw [ensured.globalDefined]; exact bound i mem named, by omega⟩

theorem Attachable.after {room room' : Nat} (ready : w.Attachable s name room)
    (ensured : Ensured s t n o) (fits : room' + 3 ≤ room) : w.Attachable t name room' := by
  intro parentName childName m split named
  obtain ⟨make, version⟩ := ready _ _ m split named
  exact ⟨make.after ensured fits, by rw [ensured.version]; exact version⟩

theorem Makeable.mono {room room' : Nat} (make : w.Makeable s m room) (fits : room' ≤ room) :
    w.Makeable s m room' := fun none => (make none).imp_right fits.trans

theorem Attachable.mono {room room' : Nat} (ready : w.Attachable s name room)
    (fits : room' ≤ room) : w.Attachable s name room' := fun _ _ _ split named =>
  (ready _ _ _ split named).imp_left (·.mono fits)

theorem wp_invokeImport (al : w.Aligned s) (layout : w.Layout) (ready : w.Importable s name)
    (enter : Except Fault Unit) :
    wp (w.invokeImport name enter) (fun _ => w.Aligned) w.Aligned s := by
  obtain ⟨makeable, attachable⟩ := ready
  unfold invokeImport
  cases named : w.named name with
  | none =>
    cases native : findMember name w.modules with
    | none => exact al
    | some object =>
      obtain ⟨b, mem, rfl⟩ := mem_of_findMember native
      simp only [wp_bind, wp_pure]
      exact wp_attachImportedModule al layout (al.natives b mem) (attachable.mono (by omega))
  | some m =>
    simp only [wp_bind]
    refine wp_mono (wp_ensureSourceModuleObject al layout ((makeable m named).mono (by omega))) ?_
      fun _ => False.elim
    rintro object t ⟨al, made⟩
    have own : t.object m = some object := by rw [made.object, Function.update_self]
    simp only [wp_get]
    have attach : wp (w.attachImportedModule name object) (fun _ => w.Aligned) w.Aligned t :=
      wp_attachImportedModule al layout (al.isModule own) (attachable.after made (by omega))
    cases state : (t.sourceModules m).state with
    | initializing | loaded =>
      simp only [wp_bind, wp_pure]
      exact attach
    | uninitialized =>
      simp only [wp_bind]
      refine wp_setModuleState fun u b _ _ => ?_
      cases enter with
      | ok => exact b.aligned al
      | error e =>
        simp only [wp_bind, wp_throw]
        exact wp_setModuleState fun v b' _ _ => b'.aligned (b.aligned al)

theorem wp_invokeImportFrom (al : w.Aligned s) (layout : w.Layout)
    (isModule : s.heap.IsModule object)
    (ready : s.heap.member object name = none →
      ∀ base, w.baseName s object = some base → w.Importable s (base ++ "." ++ name))
    (enter : Except Fault Unit) :
    wp (w.invokeImportFrom object name enter) (fun _ => w.Aligned) w.Aligned s := by
  simp only [invokeImportFrom, wp_bind, wp_inHeap]
  refine wp_ran (attempt_module isModule) ?_
  cases found : s.heap.member object name with
  | some v => exact al
  | none =>
    have absent : (missing name).isAttributeError = true := rfl
    simp only [Option.elim_none, absent, Bool.not_true, Bool.false_eq_true, if_false, wp_bind, wp_get]
    cases base : w.baseName s object with
    | none => exact al
    | some base =>
      dsimp only
      split
      · exact al
      · exact wp_invokeImport al layout (ready found _ base) enter

theorem wp_finishImport (al : w.Aligned s) (layout : w.Layout)
    (ready : w.Attachable s (w.info m).name 3) :
    wp (w.finishImport m) (fun _ => w.Aligned) w.Aligned s := by
  simp only [finishImport, wp_bind, wp_get]
  cases own : (s.sourceModules m).object with
  | none => exact al
  | some object =>
    simp only [wp_bind, wp_pure]
    refine wp_setModuleState fun t b _ version => ?_
    refine wp_attachImportedModule (b.aligned al) layout ?_ fun parentName childName n split named => ?_
    · rw [b.heap]
      exact al.isModule own
    · obtain ⟨make, left⟩ := ready parentName childName n split named
      refine ⟨fun none => ?_, by rw [version]; exact left⟩
      rw [b.object] at none
      obtain ⟨bound, room⟩ := make none
      exact ⟨fun i mem named => by rw [b.globalDefined]; exact bound i mem named, b.heap ▸ room⟩

/-! ### Failed imports -/

theorem attachedTo_eq_some (layout : w.Layout) {parentName : String}
    (found : w.attachedTo s parentName = some o) :
    (∃ m, w.named parentName = some m ∧ s.object m = some o) ∨
      w.named parentName = none ∧ findMember parentName w.modules = some o := by
  unfold attachedTo at found
  cases named : w.named parentName with
  | none =>
    rw [named] at found
    exact .inr ⟨rfl, found⟩
  | some m =>
    obtain ⟨name, mem⟩ := named_eq_some named
    have native : findMember parentName w.modules = none := name ▸ layout.native _ mem
    rw [named, native, Option.or_none] at found
    exact .inl ⟨m, rfl, found⟩

theorem isModule_attachedTo (al : w.Aligned s) (layout : w.Layout) {parentName : String}
    (found : w.attachedTo s parentName = some o) : s.heap.IsModule o := by
  rcases attachedTo_eq_some layout found with ⟨m, -, own⟩ | ⟨-, native⟩
  · exact al.isModule own
  · obtain ⟨b, mem, rfl⟩ := mem_of_findMember native
    exact al.natives b mem

/-- The object is no attribute of the parent of the name any more; nothing else has changed. -/
structure Detached (w : Installed) (s t : ModuleVm) (name : String) (o : Value) : Prop where
  object : t.object = s.object
  state : ∀ n, (t.sourceModules n).state = (s.sourceModules n).state
  after : Heap.After s.heap t.heap
  others : ∀ v, (∀ parentName childName, rsplitOnce name = some (parentName, childName) →
    w.attachedTo s parentName ≠ some v) → t.heap.tryGet v = s.heap.tryGet v
  parent : ∀ parentName childName v, rsplitOnce name = some (parentName, childName) →
    w.attachedTo s parentName = some v → ∀ n, t.heap.member v n =
      if n = childName ∧ s.heap.member v n = some o then none else s.heap.member v n
  slots : ∀ n, (∀ parentName childName, rsplitOnce name = some (parentName, childName) →
    w.named parentName ≠ some n) → ∀ i ∈ w.slots n,
      t.globals i = s.globals i ∧ t.globalDefined i = s.globalDefined i

/-- The slot of the attribute that a rollback removes has no builtin's name. -/
def Detachable (w : Installed) (s : ModuleVm) (name : String) (o : Value) : Prop :=
  ∀ parentName childName m parent, rsplitOnce name = some (parentName, childName) →
    w.named parentName = some m → s.object m = some parent →
      s.heap.member parent childName = some o → (w.slot m childName).isSome →
        w.fallback childName = .unbound

theorem Detached.refl (sound : Heap.Sound s.heap)
    (absent : ∀ parentName childName v, rsplitOnce name = some (parentName, childName) →
      w.attachedTo s parentName = some v → s.heap.member v childName ≠ some o) :
    Detached w s s name o where
  object := rfl
  state _ := rfl
  after := sound.after
  others _ _ := rfl
  parent parentName childName v split found n := by
    split
    · next here =>
      obtain ⟨rfl, found'⟩ := here
      exact absurd found' (absent _ _ v split found)
    · rfl
  slots _ _ _ _ := ⟨rfl, rfl⟩

theorem Detached.of_edit {heap : Heap} {parentName childName : String} {parent : Value}
    (split : rsplitOnce name = some (parentName, childName))
    (attached : w.attachedTo s parentName = some parent)
    (was : s.heap.member parent childName = some o)
    (edit : Heap.MemberEdit s.heap heap parent childName none) (object : t.object = s.object)
    (state : ∀ n, (t.sourceModules n).state = (s.sourceModules n).state) (same : t.heap = heap)
    (slots : ∀ n, w.named parentName ≠ some n → ∀ i ∈ w.slots n,
      t.globals i = s.globals i ∧ t.globalDefined i = s.globalDefined i) :
    w.Detached s t name o where
  object := object
  state := state
  after := same ▸ edit.after
  others v other := by
    rw [same]
    exact edit.others v fun eq => other _ _ split (eq ▸ attached)
  parent _ _ v split' found n := by
    rw [split] at split'
    cases split'
    rw [attached] at found
    cases found
    rw [same]
    exact edit.removed was n
  slots n other := slots n (other _ _ split)

theorem wp_detachModule (al : w.Aligned s) (layout : w.Layout) (plain : w.Detachable s name o) :
    wp (w.detachModule name o) (fun _ t => w.Aligned t ∧ w.Detached s t name o) w.Aligned s := by
  unfold detachModule
  cases split : rsplitOnce name with
  | none =>
    refine ⟨al, .refl al.sound ?_⟩
    rw [split]
    rintro _ _ _ ⟨⟩
  | some parts =>
    obtain ⟨parentName, childName⟩ := parts
    simp only [wp_bind, wp_get]
    cases attached : w.attachedTo s parentName with
    | none =>
      refine ⟨al, .refl al.sound ?_⟩
      rw [split]
      rintro _ _ v ⟨⟩ found
      rw [attached] at found
      cases found
    | some parent =>
      have isModule := isModule_attachedTo al layout attached
      simp only [wp_bind]
      refine wp_isAttribute isModule ?_
      by_cases was : s.heap.member parent childName = some o
      · simp only [was, decide_true, Bool.not_true, Bool.false_eq_true, if_false, wp_bind, wp_inHeap]
        refine wp_mono (Heap.wp_deleteModuleMember al.sound isModule) ?_ ?_
        · intro _ heap edit
          cases named : w.named parentName with
          | none =>
            obtain ⟨-, native⟩ := (attachedTo_eq_some layout attached).resolve_left (by simp [named])
            obtain ⟨b, mem, rfl⟩ := mem_of_findMember native
            exact ⟨al.native mem edit,
              .of_edit split attached was edit rfl (fun _ => rfl) rfl fun _ _ _ _ => ⟨rfl, rfl⟩⟩
          | some m =>
            obtain ⟨m', named', own⟩ := (attachedTo_eq_some layout attached).resolve_right
              (by simp [named])
            rw [named] at named'
            cases named'
            have edited := Edited.of_object own edit
            dsimp only
            cases slot : w.slot m childName with
            | none =>
              have re := edited.rebinds al slot (by rintro v ⟨⟩)
              refine wp_bumpModuleVersion (fun t b state => ?_) fun _ => al.rebinds layout re
              refine ⟨b.aligned (al.rebinds layout re),
                .of_edit split attached was edit b.object state b.heap fun n _ i _ => ?_⟩
              rw [b.globals, b.globalDefined]
              exact ⟨rfl, rfl⟩
            | some index =>
              have re := edited.rebinds_at al layout slot (by rintro v ⟨⟩)
              rw [Option.getD_none, plain _ _ _ _ split named own was (by rw [slot]; rfl)] at re
              simp only [wp_bind, wp_setGlobal]
              refine wp_bumpModuleVersion (fun t b state => ?_) fun _ => al.rebinds layout re
              refine ⟨b.aligned (al.rebinds layout re),
                .of_edit split attached was edit b.object state b.heap fun n other i mem => ?_⟩
              have ne : i ≠ index := by
                rintro rfl
                obtain ⟨mem', -⟩ := (slot_eq_some layout).mp slot
                rw [named, layout.own mem mem'] at other
                exact other rfl
              rw [b.globals, b.globalDefined]
              exact ⟨Function.update_of_ne ne .., Function.update_of_ne ne ..⟩
        · rintro _ ⟨rfl, none⟩
          rw [was] at none
          cases none
      · simp only [was, decide_false, Bool.not_false, if_true, wp_pure]
        refine ⟨al, .refl al.sound ?_⟩
        rw [split]
        rintro _ _ v ⟨⟩ found
        rw [attached] at found
        cases found
        exact was

/-- What a rollback leaves in a slot, with the metadata that the object still has. -/
def resetValue (w : Installed) (h : Heap) (o : Value) (i : Nat) : Value :=
  if isMetadata (w.symbol i) then (h.member o (w.symbol i)).getD .unbound
  else w.fallback (w.symbol i)

theorem wp_resetSlot {Q : Unit → ModuleVm → Prop} {E : ModuleVm → Prop}
    (isModule : s.heap.IsModule o)
    (kept : isMetadata (w.symbol i) = true → (s.heap.member o (w.symbol i)).isSome)
    (next : Q () { s with
      globals := Function.update s.globals i (w.resetValue s.heap o i)
      globalDefined := Function.update s.globalDefined i (isMetadata (w.symbol i)) }) :
    wp (w.resetSlot m (some o) i) Q E s := by
  have read (metadata : isMetadata (w.symbol i) = true) :
      attr o (w.symbol i) s.heap = .ok (w.resetValue s.heap o i) s.heap := by
    obtain ⟨v, found⟩ := Option.isSome_iff_exists.mp (kept metadata)
    rw [Heap.attr_module isModule, found, resetValue, if_pos metadata, found, Option.getD_some]
  simp only [resetSlot, resetMetadata]
  split
  · next name =>
    rw [wp_bind, wp_inHeap]
    exact wp_ran (read (by rw [name]; rfl)) next
  · next other =>
    split
    · next file =>
      rw [wp_bind, wp_inHeap]
      exact wp_ran (read (by rw [file]; rfl)) next
    · next other' =>
      have plain : isMetadata (w.symbol i) = false := by simp [isMetadata, other, other']
      have value : w.resetValue s.heap o i = w.fallback (w.symbol i) := by
        rw [resetValue, plain]
        rfl
      rw [wp_bind, wp_pure]
      rw [value] at next
      exact next

theorem wp_resetSlots {xs : List Nat} (isModule : s.heap.IsModule o)
    (kept : ∀ i ∈ xs, isMetadata (w.symbol i) = true → (s.heap.member o (w.symbol i)).isSome) :
    wp (xs.forM (w.resetSlot m (some o))) (fun _ t => t.heap = s.heap ∧
      t.sourceModules = s.sourceModules ∧
      (∀ i ∈ xs, t.globals i = w.resetValue s.heap o i ∧
        t.globalDefined i = isMetadata (w.symbol i)) ∧
      ∀ i, i ∉ xs → t.globals i = s.globals i ∧ t.globalDefined i = s.globalDefined i)
      (fun _ => False) s := by
  induction xs generalizing s with
  | nil => exact ⟨rfl, rfl, by simp, fun _ _ => ⟨rfl, rfl⟩⟩
  | cons x xs ih =>
    show wp (w.resetSlot m (some o) x >>= fun _ => xs.forM (w.resetSlot m (some o))) _ _ s
    rw [wp_bind]
    refine wp_resetSlot isModule (kept x List.mem_cons_self) ?_
    refine wp_mono (ih isModule fun i mem => kept i (List.mem_cons_of_mem _ mem)) ?_ fun _ => id
    rintro - t ⟨heap, modules, here, rest⟩
    refine ⟨heap, modules, fun i mem => ?_, fun i out => ?_⟩
    · by_cases later : i ∈ xs
      · exact here i later
      · obtain rfl := (List.mem_cons.mp mem).resolve_right later
        obtain ⟨globals, defined⟩ := rest i later
        rw [globals, defined]
        exact ⟨Function.update_self .., Function.update_self ..⟩
    · rw [List.mem_cons, not_or] at out
      obtain ⟨globals, defined⟩ := rest i out.2
      rw [globals, defined]
      exact ⟨Function.update_of_ne out.1 .., Function.update_of_ne out.1 ..⟩

/-- A module has lost all its bindings but those of its metadata. -/
structure Clears (w : Installed) (s t : ModuleVm) (m : Nat) (o : Value) : Prop where
  object : t.object = s.object
  after : Heap.After s.heap t.heap
  others : ∀ v, v ≠ o → t.heap.tryGet v = s.heap.tryGet v
  isModule : t.heap.IsModule o
  member : ∀ n, t.heap.member o n = if isMetadata n then s.heap.member o n else none
  slots : ∀ i ∈ w.slots m, t.globals i = w.resetValue s.heap o i ∧
    t.globalDefined i = isMetadata (w.symbol i)
  rest : ∀ i, i ∉ w.slots m → t.globals i = s.globals i ∧ t.globalDefined i = s.globalDefined i

theorem Clears.globals (cl : w.Clears s t m o) (al : w.Aligned s) (own : s.object m = some o)
    (bound : w.MetadataBound s m) (mem : i ∈ w.slots m) :
    t.globals i = if isMetadata (w.symbol i) then s.globals i else w.fallback (w.symbol i) := by
  rw [(cl.slots i mem).1, resetValue]
  cases metadata : isMetadata (w.symbol i) with
  | false => rfl
  | true =>
    rw [if_pos rfl, if_pos rfl, al.member own i mem, ModuleVm.binding, if_pos (bound i mem metadata)]
    rfl

theorem Clears.aligned (cl : w.Clears s t m o) (al : w.Aligned s) (layout : w.Layout)
    (own : s.object m = some o) (bound : w.MetadataBound s m) : w.Aligned t := by
  have slots {i : Nat} (mem : i ∈ w.slots m) := cl.globals al own bound mem
  constructor
  · exact cl.after.1
  · exact fun b mem => cl.after.2.issued (al.builtins b mem)
  · intro i
    by_cases mem : i ∈ w.slots m
    · rw [slots mem]
      split
      · exact cl.after.2.issued (al.globals i)
      · exact cl.after.2.issued (al.fallback_issued _)
    · rw [(cl.rest i mem).1]
      exact cl.after.2.issued (al.globals i)
  · intro b mem
    exact (al.natives b mem).congr (cl.others _ fun eq => al.foreign b mem m (eq ▸ own))
  · intro n v found
    rw [cl.object] at found
    by_cases eq : v = o
    · exact eq ▸ cl.isModule
    · exact (al.isModule found).congr (cl.others v eq)
  · intro n v found i mem
    rw [cl.object] at found
    by_cases eq : v = o
    · subst eq
      obtain rfl := al.apart own found
      rw [cl.member, al.member own i mem]
      unfold ModuleVm.binding
      rw [slots mem, (cl.slots i mem).2]
      cases metadata : isMetadata (w.symbol i) with
      | false => rfl
      | true => simp [bound i mem metadata]
    · rw [Heap.member_congr (cl.others v eq), al.member found i mem]
      have out : i ∉ w.slots m := fun here => by
        obtain rfl := layout.own here mem
        exact eq (Option.some_inj.mp (found.symm.trans own))
      unfold ModuleVm.binding
      rw [(cl.rest i out).1, (cl.rest i out).2]
  · exact fun hm hn => al.apart (cl.object ▸ hm) (cl.object ▸ hn)
  · intro b mem n
    rw [cl.object]
    exact al.foreign b mem n
  · intro i defined
    by_cases mem : i ∈ w.slots m
    · rw [(cl.slots i mem).2] at defined
      rw [slots mem, if_pos defined]
      exact al.bound i (bound i mem defined)
    · rw [(cl.rest i mem).2] at defined
      rw [(cl.rest i mem).1]
      exact al.bound i defined
  · intro i defined
    by_cases mem : i ∈ w.slots m
    · rw [(cl.slots i mem).2] at defined
      rw [slots mem, defined]
      rfl
    · rw [(cl.rest i mem).2] at defined
      rw [(cl.rest i mem).1]
      exact al.free i defined

theorem eq_rsplitOnce {parentName childName : String}
    (split : rsplitOnce name = some (parentName, childName)) :
    name = parentName ++ "." ++ childName := by
  unfold rsplitOnce at split
  have whole := List.takeWhile_append_dropWhile (p := (· ≠ '.')) (l := name.toList.reverse)
  dsimp only at split
  split at split
  · cases split
  · next dot front rest =>
    have sep : dot = '.' := by
      have := List.head?_dropWhile_not (· ≠ '.') name.toList.reverse
      rw [rest] at this
      simpa using this
    cases split
    rw [rest, sep] at whole
    have whole := congrArg (fun l => String.ofList l.reverse) whole
    rw [String.append_assoc]
    simpa using whole.symm

theorem named_parent {parentName childName : String}
    (split : rsplitOnce (w.info m).name = some (parentName, childName)) :
    w.named parentName ≠ some m := by
  intro named
  have longer := congrArg String.length (eq_rsplitOnce split)
  rw [(named_eq_some named).1, String.length_append, String.length_append] at longer
  have dot : ".".length = 1 := rfl
  omega

/-- What the rollback of a module needs to go through. -/
def Resettable (w : Installed) (s : ModuleVm) (m : Nat) : Prop :=
  ∃ o, s.object m = some o ∧ w.MetadataBound s m ∧ w.Detachable s (w.info m).name o

/-- The module is as it was before its body ran, and its object is no attribute of its parent. -/
structure RolledBack (w : Installed) (s t : ModuleVm) (m : Nat) (o : Value) : Prop where
  object : t.object = s.object
  state : ∀ n, (t.sourceModules n).state =
    if n = m then .uninitialized else (s.sourceModules n).state
  slots : ∀ i ∈ w.slots m, t.globalDefined i = isMetadata (w.symbol i)
  member : ∀ n, t.heap.member o n = if isMetadata n then s.heap.member o n else none
  parent : ∀ parentName childName v, rsplitOnce (w.info m).name = some (parentName, childName) →
    w.attachedTo s parentName = some v → ∀ n, t.heap.member v n =
      if n = childName ∧ s.heap.member v n = some o then none else s.heap.member v n
  others : ∀ v, v ≠ o → (∀ parentName childName,
    rsplitOnce (w.info m).name = some (parentName, childName) →
      w.attachedTo s parentName ≠ some v) → t.heap.tryGet v = s.heap.tryGet v

theorem attachedTo_ne (al : w.Aligned s) (layout : w.Layout) (own : s.object m = some o)
    {parentName childName : String} (split : rsplitOnce (w.info m).name = some (parentName, childName)) :
    w.attachedTo s parentName ≠ some o := by
  intro attached
  rcases attachedTo_eq_some layout attached with ⟨n, named, own'⟩ | ⟨-, native⟩
  · obtain rfl := al.apart own own'
    exact named_parent split named
  · obtain ⟨b, mem, eq⟩ := mem_of_findMember native
    exact al.foreign b mem m (eq ▸ own)

theorem wp_resetSourceModule (al : w.Aligned s) (layout : w.Layout) (own : s.object m = some o)
    (bound : w.MetadataBound s m) (plain : w.Detachable s (w.info m).name o) :
    wp (w.resetSourceModule m) (fun _ t => w.Aligned t ∧ w.RolledBack s t m o) w.Aligned s := by
  simp only [resetSourceModule, wp_bind, wp_get, withObject]
  rw [show (s.sourceModules m).object = some o from own]
  simp only [wp_bind]
  refine wp_mono (wp_detachModule al layout plain) ?_ fun _ => id
  rintro - s₁ ⟨al₁, det⟩
  have own₁ : s₁.object m = some o := by rw [det.object, own]
  have slots := det.slots m fun _ _ split => named_parent split
  have bound₁ : w.MetadataBound s₁ m := fun i mem named =>
    (slots i mem).2.trans (bound i mem named)
  have member₁ : s₁.heap.member o = s.heap.member o :=
    Heap.member_congr (det.others o fun _ _ split => attachedTo_ne al layout own split)
  rw [wp_inHeap]
  refine wp_mono (Heap.wp_resetModuleMembers al₁.sound (al₁.isModule own₁)) ?_ fun _ => False.elim
  rintro - h₂ ⟨after, isModule, others, member⟩
  refine wp_mono (wp_resetSlots isModule fun i mem named => ?_) ?_ fun _ => False.elim
  · show (h₂.member o (w.symbol i)).isSome
    rw [member, if_pos named, al₁.member own₁ i mem, ModuleVm.binding, if_pos (bound₁ i mem named)]
    rfl
  rintro - s₃ ⟨heap, modules, here, rest⟩
  have value {i : Nat} : w.resetValue h₂ o i = w.resetValue s₁.heap o i := by
    unfold resetValue
    split
    · next named => rw [member, if_pos named]
    · rfl
  have cl : w.Clears s₁ s₃ m o := by
    constructor
    · funext n
      unfold ModuleVm.object
      rw [modules]
    · exact heap ▸ after
    · exact fun v ne => heap ▸ others v ne
    · exact heap ▸ isModule
    · exact fun n => heap ▸ member n
    · exact fun i mem => ⟨(here i mem).1.trans value, (here i mem).2⟩
    · exact fun i out => rest i out
  have al₃ := cl.aligned al₁ layout own₁ bound₁
  refine wp_setModuleState fun s₄ b state _ => ?_
  refine wp_bumpModuleVersion (fun t b' state' => ?_) fun _ => b.aligned al₃
  refine ⟨b'.aligned (b.aligned al₃), ?_⟩
  constructor
  · rw [b'.object, b.object, cl.object, det.object]
  · intro n
    rw [state', state, modules, det.state]
  · intro i mem
    rw [b'.globalDefined, b.globalDefined]
    exact (cl.slots i mem).2
  · intro n
    rw [b'.heap, b.heap, cl.member, member₁]
  · intro parentName childName v split attached n
    have ne : v ≠ o := fun eq => attachedTo_ne al layout own split (eq ▸ attached)
    rw [b'.heap, b.heap, Heap.member_congr (cl.others v ne), det.parent _ _ v split attached]
  · intro v ne other
    rw [b'.heap, b.heap, cl.others v ne, det.others v other]

end Installed

end Tonic
