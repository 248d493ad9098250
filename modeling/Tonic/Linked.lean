import Mathlib.Data.List.Range
import Tonic.Meaning

/-!
## The linked program

Linking compiled modules succeeds as long as their symbols and their code fit 16 bits. Every module
then means in the linked program what it means alone.
-/

namespace Tonic

open Outcome

namespace Program

/-- The name of the one module of a compiled program. -/
def name (p : Program) : String := (p.modules.head?.map (·.name)).getD ""

def filename (p : Program) : String := (p.modules.head?.map (·.filename)).getD ""

end Program

/-- What the compiler makes of one source: a verified program of one module, which owns a slot for
every symbol. The parser enters a spelling once. -/
structure Compiled (p : Program) : Prop where
  verified : p.verify = .ok ()
  distinct : p.symbols.Nodup
  module : p.modules = [⟨p.name, p.filename, 0, p.code.length, List.range p.symbols.length⟩]

/-! ### Where everything is put -/

/-- The ids of a module's symbols in the shared table. -/
def sharedIds (table : List String) (p : Program) (s : Nat) : Nat :=
  table.idxOf (p.symbols.getD s "")

/-- The code of a module, whose slots begin at `slot`, from `offset` on. -/
def placeCode (table : List String) (slot offset : Nat) (p : Program) : List CodeObject :=
  p.code.map (·.renumber (sharedIds table p) (slot + ·) offset)

def placeModule (slot offset : Nat) (p : Program) : ModuleInfo :=
  ⟨p.name, p.filename, offset, p.code.length, List.range' slot p.symbols.length⟩

def placeCodes (table : List String) : Nat → Nat → List Program → List CodeObject
  | _, _, [] => []
  | slot, offset, p :: programs =>
    placeCode table slot offset p ++
      placeCodes table (slot + p.symbols.length) (offset + p.code.length) programs

def placeModules : Nat → Nat → List Program → List ModuleInfo
  | _, _, [] => []
  | slot, offset, p :: programs =>
    placeModule slot offset p ::
      placeModules (slot + p.symbols.length) (offset + p.code.length) programs

/-- The spellings of all programs, each once. -/
def sharedTable (programs : List Program) : List String := addNew [] (allSymbols programs)

def place (programs : List Program) : Program where
  version := bytecodeVersion
  symbols := sharedTable programs ++ allSymbols programs
  code := placeCodes (sharedTable programs) (sharedTable programs).length 0 programs
  modules := placeModules (sharedTable programs).length 0 programs

/-- The 16 bits of an operand suffice for the linked program. -/
def Fits (programs : List Program) : Prop :=
  (sharedTable programs).length + (allSymbols programs).length ≤ maxU16 ∧
    codeSize programs ≤ maxU16

instance (programs : List Program) : Decidable (Fits programs) :=
  inferInstanceAs (Decidable (_ ∧ _))

section Place

variable {programs front back : List Program} {p q : Program} {table : List String}
  {slot offset : Nat}

theorem codeSize_cons : codeSize (p :: programs) = p.code.length + codeSize programs := by
  rw [codeSize, List.map_cons, List.sum_cons]
  rfl

@[simp] theorem placeCode_length : (placeCode table slot offset p).length = p.code.length :=
  List.length_map _

theorem placeCodes_length : (placeCodes table slot offset programs).length = codeSize programs := by
  induction programs generalizing slot offset with
  | nil => rfl
  | cons p programs ih => rw [placeCodes, List.length_append, ih, placeCode_length, codeSize_cons]

theorem placeCodes_append : placeCodes table slot offset (front ++ back) =
    placeCodes table slot offset front ++
      placeCodes table (slot + (allSymbols front).length) (offset + codeSize front) back := by
  induction front generalizing slot offset with
  | nil => rfl
  | cons p front ih =>
    rw [List.cons_append, placeCodes, placeCodes, ih, List.append_assoc, allSymbols_cons,
      List.length_append, codeSize_cons, Nat.add_assoc, Nat.add_assoc]

theorem placeModules_append : placeModules slot offset (front ++ back) =
    placeModules slot offset front ++
      placeModules (slot + (allSymbols front).length) (offset + codeSize front) back := by
  induction front generalizing slot offset with
  | nil => rfl
  | cons p front ih =>
    rw [List.cons_append, placeModules, placeModules, ih, List.cons_append, allSymbols_cons,
      List.length_append, codeSize_cons, Nat.add_assoc, Nat.add_assoc]

/-! ### Symbols -/

theorem sharedIds_eq {s : Nat} (below : s < p.symbols.length) :
    sharedIds table p s = table.idxOf p.symbols[s] := by
  simp [sharedIds, List.getD, below]

theorem sharedIds_map (s : Nat) (below : s < p.symbols.length) :
    (p.symbols.map (table.idxOf ·))[s]? = some (sharedIds table p s) := by
  rw [sharedIds_eq below, List.getElem?_map, List.getElem?_eq_getElem below, Option.map_some]

theorem mem_sharedTable {symbol : String} :
    symbol ∈ sharedTable programs ↔ symbol ∈ allSymbols programs := by
  rw [sharedTable, mem_addNew]
  exact or_iff_right (List.not_mem_nil)

theorem sharedTable_nodup : (sharedTable programs).Nodup := nodup_addNew List.nodup_nil

theorem spelled_sharedIds {s : Nat} (mem : p ∈ programs) (below : s < p.symbols.length) :
    (place programs).symbols[sharedIds (sharedTable programs) p s]? = p.symbols[s]? := by
  have known : p.symbols[s] ∈ sharedTable programs :=
    mem_sharedTable.mpr (List.mem_flatMap.mpr ⟨p, mem, List.getElem_mem below⟩)
  have inside := List.idxOf_lt_length_of_mem known
  rw [sharedIds_eq below, place, List.getElem?_append_left inside,
    List.getElem?_eq_getElem inside, List.getElem_idxOf, List.getElem?_eq_getElem below]

theorem spelled_slotIds {s : Nat} (below : s < p.symbols.length) :
    (place (front ++ p :: back)).symbols[(sharedTable (front ++ p :: back)).length +
      (allSymbols front).length + s]? = p.symbols[s]? := by
  rw [place]
  dsimp only
  rw [List.getElem?_append_right (by omega), allSymbols, List.flatMap_append, List.flatMap_cons,
    List.getElem?_append_right (by unfold allSymbols; omega), List.getElem?_append_left]
  · congr 1
    unfold allSymbols
    omega
  · unfold allSymbols
    omega

/-! ### The module table -/

theorem placeModules_name : (placeModules slot offset programs).map (·.name) =
    programs.map (·.name) := by
  induction programs generalizing slot offset with
  | nil => rfl
  | cons p programs ih => rw [placeModules, List.map_cons, List.map_cons, ih, placeModule]

theorem placeModules_globals : (placeModules slot offset programs).flatMap (·.globals) =
    List.range' slot (allSymbols programs).length := by
  induction programs generalizing slot offset with
  | nil => rfl
  | cons p programs ih =>
    rw [placeModules, List.flatMap_cons, ih, allSymbols_cons, List.length_append,
      ← List.range'_append_1]
    rfl

theorem placeModules_ranges : ((placeModules slot offset programs).map fun module =>
    List.range' module.code module.codeCount).flatten = List.range' offset (codeSize programs) := by
  induction programs generalizing slot offset with
  | nil => rfl
  | cons p programs ih =>
    rw [placeModules, List.map_cons, List.flatten_cons, ih, codeSize_cons, ← List.range'_append_1]
    rfl

/-- The modules stand one after the other. -/
theorem placeModules_code (filled : ∀ p ∈ programs, p.code ≠ []) {module : ModuleInfo}
    (mem : module ∈ placeModules slot offset programs) :
    offset ≤ module.code ∧ module.code < offset + codeSize programs := by
  induction programs generalizing slot offset with
  | nil => cases mem
  | cons p programs ih =>
    have some := List.length_pos_iff.mpr (filled p List.mem_cons_self)
    rw [codeSize_cons]
    rcases List.mem_cons.mp mem with rfl | later
    · exact ⟨Nat.le_refl _, by simp only [placeModule]; omega⟩
    · have bounds := ih (fun p mem => filled p (List.mem_cons_of_mem _ mem)) later
      omega

/-! ### The programs in the linked one -/

theorem Compiled.filled (compiled : Compiled p) : p.code ≠ [] := by
  have header := (seq_ok.mp compiled.verified).1
  simp only [require_ok, Bool.and_eq_true, decide_eq_true_eq] at header
  exact header.1.1.1.2

theorem place_code (k : Nat) (below : k < p.code.length) :
    (place (front ++ p :: back)).code[k + codeSize front]? =
      (p.code[k]?).map (·.renumber (sharedIds (sharedTable (front ++ p :: back)) p)
        ((sharedTable (front ++ p :: back)).length + (allSymbols front).length + ·)
        (codeSize front)) := by
  rw [place]
  dsimp only
  rw [placeCodes_append, List.getElem?_append_right (by rw [placeCodes_length]; omega),
    placeCodes_length, placeCodes, Nat.add_sub_cancel,
    List.getElem?_append_left (by rwa [placeCode_length]), placeCode, List.getElem?_map,
    Nat.zero_add]

theorem place_segment :
    ((place (front ++ p :: back)).code.drop (codeSize front)).take p.code.length =
      placeCode (sharedTable (front ++ p :: back))
        ((sharedTable (front ++ p :: back)).length + (allSymbols front).length) (codeSize front)
        p := by
  rw [place]
  dsimp only
  rw [placeCodes_append, placeCodes, List.drop_left' placeCodes_length,
    List.take_left' placeCode_length, Nat.zero_add]

theorem embeds_place (filled : ∀ q ∈ front ++ p :: back, q.code ≠ []) (distinct : p.symbols.Nodup)
    (module : p.modules.map (·.code) = [0]) :
    Embeds p (place (front ++ p :: back)) (sharedIds (sharedTable (front ++ p :: back)) p)
      ((sharedTable (front ++ p :: back)).length + (allSymbols front).length + ·)
      (codeSize front) where
  names _ below := spelled_sharedIds (List.mem_append_right _ List.mem_cons_self) below
  slots _ below := spelled_slotIds below
  injective s s_lt t t_lt same := by
    have spelled {s : Nat} := @spelled_sharedIds _ _ s
      (List.mem_append_right front (List.mem_cons_self (a := p) (l := back)))
    have eq := (spelled s_lt).symm.trans (same ▸ spelled t_lt)
    exact (List.getElem?_inj s_lt distinct).mp eq
  code := place_code
  inner k below inner := by
    rw [module, List.mem_singleton] at inner
    rw [place]
    dsimp only
    intro mem
    obtain ⟨module, mem, at'⟩ := List.mem_map.mp mem
    rw [placeModules_append, placeModules] at mem
    rcases List.mem_append.mp mem with earlier | mem
    · have bounds := placeModules_code
        (fun p mem => filled p (List.mem_append_left _ mem)) earlier
      omega
    · rcases List.mem_cons.mp mem with rfl | later
      · simp only [placeModule] at at'
        omega
      · have bounds := placeModules_code (fun p mem =>
          filled p (List.mem_append_right _ (List.mem_cons_of_mem _ mem))) later
        omega

/-! ### The checks of the linked program -/

/-- The code that a module starts with. -/
structure Entry (code : CodeObject) : Prop where
  params : code.params = 0
  classBody : code.classBody = false
  generator : code.generator = false
  coroutine : code.coroutine = false
  cellLocals : code.cellLocals = []
  freeVars : code.freeVars = []

/-- What an entry of the module table satisfies after the earlier entries. -/
structure InTable (p : Program) (earlier : List ModuleInfo) (module : ModuleInfo) : Prop where
  name : module.name ≠ ""
  filename : module.filename ≠ ""
  newName : module.name ∉ earlier.map (·.name)
  newCode : module.code ∉ earlier.map (·.code)
  filled : module.codeCount ≠ 0
  inside : module.code + module.codeCount ≤ p.code.length
  slots : ∀ s ∈ module.globals, s < p.symbols.length
  ownSlots : (earlier.flatMap (·.globals) ++ module.globals).Nodup
  first : earlier ≠ [] ∨ module.code = 0
  entry : ∃ entry, p.code[module.code]? = some entry ∧ Entry entry

theorem verifyModule_ok {earlier : List ModuleInfo} {module : ModuleInfo} :
    p.verifyModule earlier module = .ok () ↔ InTable p earlier module := by
  unfold Program.verifyModule
  simp only [seq_ok, require_ok, Bool.and_eq_true, decide_eq_true_eq, List.all_eq_true,
    Bool.or_eq_true]
  constructor
  · rintro ⟨⟨⟨⟨⟨⟨⟨⟨⟨⟨name, filename⟩, newName⟩, newCode⟩, below⟩, filled⟩, inside⟩, slots⟩, own⟩,
      first⟩, entry⟩
    refine ⟨name, filename, newName, newCode, filled, inside, slots, own, first, ?_⟩
    rw [List.getElem?_eq_getElem below] at entry ⊢
    simp only [require_ok, Bool.and_eq_true, decide_eq_true_eq, Bool.not_eq_true'] at entry
    obtain ⟨⟨⟨⟨⟨params, classBody⟩, generator⟩, coroutine⟩, cellLocals⟩, freeVars⟩ := entry
    exact ⟨_, rfl, params, classBody, generator, coroutine, cellLocals, freeVars⟩
  · rintro ⟨name, filename, newName, newCode, filled, inside, slots, own, first, entry, found, plain⟩
    have below := (List.getElem?_eq_some_iff.mp found).1
    refine ⟨⟨⟨⟨⟨⟨⟨⟨⟨⟨name, filename⟩, newName⟩, newCode⟩, below⟩, filled⟩, inside⟩, slots⟩, own⟩,
      first⟩, ?_⟩
    obtain ⟨params, classBody, generator, coroutine, cellLocals, freeVars⟩ := plain
    simp only [found, require_ok, params, classBody, generator, coroutine, cellLocals, freeVars]
    decide

theorem verifyModules_ok {earlier modules : List ModuleInfo}
    (each : ∀ front module back, modules = front ++ module :: back →
      InTable p (earlier ++ front) module) : p.verifyModules earlier modules = .ok () := by
  induction modules generalizing earlier with
  | nil => rfl
  | cons module modules ih =>
    refine seq_ok.mpr ⟨verifyModule_ok.mpr ?_, ih ?_⟩
    · simpa only [List.append_nil] using each [] module modules rfl
    · intro front later back split
      have there := each (module :: front) later back (by rw [split, List.cons_append])
      rwa [List.append_assoc]

theorem Compiled.inTable (compiled : Compiled p) : InTable p []
    ⟨p.name, p.filename, 0, p.code.length, List.range p.symbols.length⟩ := by
  have modules := (seq_ok.mp (seq_ok.mp compiled.verified).2).1
  rw [compiled.module] at modules
  exact verifyModule_ok.mp (seq_ok.mp modules).1

/-- A module of the linked program comes from one of the programs. -/
theorem placeModules_split {earlier later : List ModuleInfo} {module : ModuleInfo}
    (split : placeModules slot offset programs = earlier ++ module :: later) :
    ∃ front p back, programs = front ++ p :: back ∧ earlier = placeModules slot offset front ∧
      module = placeModule (slot + (allSymbols front).length) (offset + codeSize front) p := by
  induction programs generalizing slot offset earlier with
  | nil => cases earlier <;> cases split
  | cons p programs ih =>
    cases earlier with
    | nil =>
      cases split
      exact ⟨[], p, programs, rfl, rfl, rfl⟩
    | cons first earlier =>
      rw [placeModules, List.cons_append, List.cons.injEq] at split
      obtain ⟨front, q, back, rfl, rfl, rfl⟩ := ih split.2
      refine ⟨p :: front, q, back, rfl, by rw [placeModules, split.1], ?_⟩
      rw [allSymbols_cons, List.length_append, codeSize_cons, Nat.add_assoc, Nat.add_assoc]

theorem mem_placeCodes {code : CodeObject} (mem : code ∈ placeCodes table slot offset programs) :
    ∃ front p back source, programs = front ++ p :: back ∧ source ∈ p.code ∧
      code = source.renumber (sharedIds table p) (slot + (allSymbols front).length + ·)
        (offset + codeSize front) := by
  induction programs generalizing slot offset with
  | nil => cases mem
  | cons p programs ih =>
    rcases List.mem_append.mp mem with first | later
    · obtain ⟨source, within, rfl⟩ := List.mem_map.mp first
      exact ⟨[], p, programs, source, rfl, within, rfl⟩
    · obtain ⟨front, q, back, source, rfl, within, rfl⟩ := ih later
      refine ⟨p :: front, q, back, source, rfl, within, ?_⟩
      rw [allSymbols_cons, List.length_append, codeSize_cons, Nat.add_assoc, Nat.add_assoc]

theorem inTable_place (compiled : ∀ q ∈ front ++ p :: back, Compiled q)
    (names : ((front ++ p :: back).map (·.name)).Nodup) :
    InTable (place (front ++ p :: back))
      (placeModules (sharedTable (front ++ p :: back)).length 0 front)
      (placeModule ((sharedTable (front ++ p :: back)).length + (allSymbols front).length)
        (codeSize front) p) := by
  have own := (compiled p (List.mem_append_right _ List.mem_cons_self)).inTable
  have filled (q) (mem : q ∈ front) : q.code ≠ [] := (compiled q (List.mem_append_left _ mem)).filled
  refine ⟨own.name, own.filename, ?_, ?_, own.filled, ?_, ?_, ?_, ?_, ?_⟩
  · rw [placeModules_name]
    rw [List.map_append, List.map_cons] at names
    exact fun mem => List.disjoint_of_nodup_append names mem List.mem_cons_self
  · intro mem
    obtain ⟨module, mem, at'⟩ := List.mem_map.mp mem
    have bounds := placeModules_code filled mem
    simp only [placeModule] at at'
    omega
  · rw [place]
    simp only [placeModule, placeCodes_length]
    unfold codeSize
    simp
  · intro s mem
    have bounds := List.mem_range'_1.mp mem
    rw [place]
    simp only [List.length_append, allSymbols, List.flatMap_append, List.flatMap_cons] at bounds ⊢
    omega
  · rw [placeModules_globals, placeModule, List.range'_append_1]
    exact List.nodup_range'
  · cases front with
    | nil => exact .inr rfl
    | cons q front =>
      left
      rw [placeModules]
      exact List.cons_ne_nil _ _
  · obtain ⟨entry, found, plain⟩ := own.entry
    have at' := @place_code front back p 0 (List.getElem?_eq_some_iff.mp found).1
    rw [Nat.zero_add, found] at at'
    exact ⟨_, at', plain.params, plain.classBody, plain.generator, plain.coroutine,
      plain.cellLocals, List.map_eq_nil_iff.mpr plain.freeVars⟩

theorem place_verified (compiled : ∀ p ∈ programs, Compiled p) (fits : Fits programs)
    (some : programs ≠ []) (names : (programs.map (·.name)).Nodup) :
    (place programs).verify = .ok () := by
  have filled (p) (mem : p ∈ programs) : p.code ≠ [] := (compiled p mem).filled
  unfold Program.verify
  simp only [seq_ok, forM_ok]
  refine ⟨?_, ?_, ?_, ?_, ?_⟩
  · have modules : (place programs).modules ≠ [] := by
      cases programs with
      | nil => exact absurd rfl some
      | cons p programs => exact List.cons_ne_nil _ _
    have code : (place programs).code ≠ [] := by
      cases programs with
      | nil => exact absurd rfl some
      | cons p programs =>
        refine List.append_ne_nil_of_left_ne_nil ?_ _
        exact fun eq => filled p List.mem_cons_self (List.map_eq_nil_iff.mp eq)
    simp only [require_ok, Bool.and_eq_true, decide_eq_true_eq]
    refine ⟨⟨⟨⟨rfl, code⟩, modules⟩, ?_⟩, ?_⟩
    · rw [place, placeCodes_length]
      exact fits.2
    · rw [place, List.length_append]
      exact fits.1
  · refine verifyModules_ok fun earlier module later split => ?_
    obtain ⟨front, p, back, rfl, rfl, rfl⟩ := placeModules_split split
    rw [List.nil_append, Nat.zero_add]
    exact inTable_place compiled names
  · simp only [Program.verifyCoverage, seq_ok, require_ok, decide_eq_true_eq, List.all_eq_true]
    have ranges := @placeModules_ranges programs (sharedTable programs).length 0
    refine ⟨ranges ▸ List.nodup_range', fun k mem => ?_⟩
    rw [place, placeCodes_length, List.mem_range] at mem
    exact ranges ▸ List.mem_range'_1.mpr ⟨Nat.zero_le _, by omega⟩
  · intro code mem
    obtain ⟨front, p, back, source, rfl, within, rfl⟩ := mem_placeCodes mem
    have own := compiled p (List.mem_append_right _ List.mem_cons_self)
    have embeds := @embeds_place front back p filled own.distinct (by rw [own.module]; rfl)
    have checks := own.verified
    simp only [Program.verify, seq_ok, forM_ok] at checks
    rw [Nat.zero_add]
    exact CodeObject.verify_renumber embeds (checks.2.2.2.1 source within)
  · intro code mem
    obtain ⟨front, p, back, source, rfl, within, rfl⟩ := mem_placeCodes mem
    have checks := (compiled p (List.mem_append_right _ List.mem_cons_self)).verified
    simp only [Program.verify, seq_ok, forM_ok] at checks
    rw [CodeObject.verifyArgumentStack_renumber]
    exact checks.2.2.2.2 source within

/-! ### Linking -/

theorem Compiled.below (compiled : Compiled p) {code : CodeObject} (mem : code ∈ p.code) :
    code.Below p.symbols.length p.code.length := by
  have checks := compiled.verified
  simp only [Program.verify, seq_ok, forM_ok] at checks
  exact CodeObject.below_of_verify (checks.2.2.2.1 code mem)

theorem linkModule_place (compiled : Compiled p) (fits : p.code.length + offset ≤ maxU16) :
    linkModule p (p.symbols.map (table.idxOf ·)) (List.range' slot p.symbols.length) offset =
      .ok (placeModule slot offset p, placeCode table slot offset p) := by
  have code : p.code.mapM (linkCode (p.symbols.map (table.idxOf ·))
      (List.range' slot p.symbols.length) offset) = .ok (placeCode table slot offset p) :=
    mapM_eq_ok fun code mem => linkCode_below sharedIds_map
      (fun s below => by rw [List.getElem?_range' below, Nat.one_mul]) (compiled.below mem) (by omega)
  unfold linkModule
  rw [compiled.module]
  simp only [List.head?_cons, toU16_ok.mpr ⟨rfl, show p.code.length ≤ maxU16 by omega⟩, code,
    ok_bind]
  rfl

theorem linkModules_place (compiled : ∀ p ∈ programs, Compiled p)
    (fits : offset + codeSize programs ≤ maxU16) :
    ∃ parts, linkModules programs (programs.map fun p => p.symbols.map (table.idxOf ·))
        (slotsFrom slot programs) (offsetsFrom offset programs) = .ok parts ∧
      parts.flatMap (·.2) = placeCodes table slot offset programs ∧
      parts.map (·.1) = placeModules slot offset programs := by
  induction programs generalizing slot offset with
  | nil => exact ⟨[], rfl, rfl, rfl⟩
  | cons p programs ih =>
    rw [codeSize_cons] at fits
    obtain ⟨parts, run, codes, modules⟩ := @ih (slot + p.symbols.length) (offset + p.code.length)
      (fun p mem => compiled p (List.mem_cons_of_mem _ mem)) (by omega)
    have first := @linkModule_place p table slot offset (compiled p List.mem_cons_self) (by omega)
    refine ⟨(placeModule slot offset p, placeCode table slot offset p) :: parts, ?_, ?_, ?_⟩
    · rw [List.map_cons, slotsFrom, offsetsFrom, linkModules, first, ok_bind, run]
      rfl
    · rw [List.flatMap_cons, codes, placeCodes]
    · rw [List.map_cons, modules, placeModules]

theorem link_place (compiled : ∀ p ∈ programs, Compiled p) (fits : Fits programs) :
    link programs = do
      (place programs).verify
      return place programs := by
  obtain ⟨symbols, code⟩ := fits
  obtain ⟨⟨maps, table⟩, share⟩ := @enterAll_share_runs [] programs
    (by unfold sharedTable at symbols; omega)
  obtain ⟨rfl, rfl⟩ := enterAll_share_ok share
  obtain ⟨⟨slots, all⟩, own⟩ := @enterAll_own_runs (sharedTable programs) programs symbols
  obtain ⟨rfl, rfl⟩ := enterAll_own_ok own
  obtain ⟨offsets, counted⟩ : ∃ offsets, codeOffsets 0 programs = .ok offsets :=
    codeOffsets_runs (by omega)
  obtain rfl := codeOffsets_ok counted
  obtain ⟨parts, run, codes, modules⟩ := @linkModules_place programs (sharedTable programs)
    (sharedTable programs).length 0 compiled (by omega)
  unfold sharedTable at own run
  unfold link
  simp only [share, own, counted, run, ok_bind, codes, modules]
  rfl

theorem fits_of_link (run : link programs = .ok q) : Fits programs := by
  obtain ⟨⟨maps, table⟩, share, run⟩ := bind_ok run
  obtain ⟨⟨slots, symbols⟩, own, run⟩ := bind_ok run
  obtain ⟨offsets, counted, run⟩ := bind_ok run
  obtain ⟨parts, -, run⟩ := bind_ok run
  obtain ⟨rfl, -⟩ := enterAll_share_ok share
  obtain ⟨rfl, -⟩ := enterAll_own_ok own
  have header := (seq_ok.mp (seq_ok.mp run).1).1
  simp only [require_ok, Bool.and_eq_true, decide_eq_true_eq, List.length_append] at header
  exact ⟨header.2, by simpa using codeOffsets_fits counted (Nat.zero_le _)⟩

/-! ### What linking keeps -/

/-- A module of a linked program: the original under other numbers, of which those of the names
depend on the spelling alone. -/
structure LinkedAs (share : String → Nat) (q p : Program) (module : ModuleInfo) : Prop where
  name : module.name = p.name
  filename : module.filename = p.filename
  size : module.codeCount = p.code.length
  renumbered : ∃ g : Nat → Nat, module.globals = (List.range p.symbols.length).map g ∧
    Embeds p q (fun s => share (p.symbols.getD s "")) g module.code
  meaning : ∀ own ∈ p.modules, q.meaning module = p.meaning own

/-- The symbols of the modules keep one table of names, but every slot belongs to one module. -/
structure Linked (programs : List Program) (q : Program) : Prop where
  verified : q.verify = .ok ()
  slots : (q.modules.flatMap (·.globals)).Nodup
  modules : ∃ share : String → Nat,
    (∀ symbol ∈ allSymbols programs, share symbol ∉ q.modules.flatMap (·.globals)) ∧
    List.Forall₂ (LinkedAs share q) programs q.modules

theorem idxOf?_range' {s n start : Nat} (below : s < n) :
    (List.range' start n).idxOf? (start + s) = some s := by
  refine List.idxOf?_eq_some_iff.mpr ⟨by rwa [List.length_range'], by simp, fun k before => ?_⟩
  rw [List.getElem_range']
  omega

theorem linkedAs_place (compiled : ∀ q ∈ front ++ p :: back, Compiled q) :
    LinkedAs ((sharedTable (front ++ p :: back)).idxOf ·) (place (front ++ p :: back)) p
      (placeModule ((sharedTable (front ++ p :: back)).length + (allSymbols front).length)
        (codeSize front) p) := by
  have own := compiled p (List.mem_append_right _ List.mem_cons_self)
  have embeds := @embeds_place front back p (fun q mem => (compiled q mem).filled) own.distinct
    (by rw [own.module]; rfl)
  refine ⟨rfl, rfl, rfl, ⟨_, ?_, embeds⟩, ?_⟩
  · rw [placeModule, List.range'_eq_map_range]
  · intro module mem
    rw [own.module, List.mem_singleton] at mem
    subst mem
    rw [Program.meaning, Program.meaning, placeModule, place_segment, List.drop_zero,
      List.take_length, placeCode, List.map_map]
    refine List.map_congr_left fun source mem => ?_
    refine codeMeaning_renumber embeds (fun s below => ?_) (own.below mem) rfl rfl
    rw [idxOf?_range' below, List.range_eq_range']
    simpa only [Nat.zero_add] using (@idxOf?_range' s p.symbols.length 0 below).symm

theorem forall₂_place (compiled : ∀ q ∈ programs, Compiled q) (front back : List Program)
    (split : front ++ back = programs) :
    List.Forall₂ (LinkedAs ((sharedTable programs).idxOf ·) (place programs)) back
      (placeModules ((sharedTable programs).length + (allSymbols front).length) (codeSize front)
        back) := by
  induction back generalizing front with
  | nil => exact .nil
  | cons p back ih =>
    subst split
    refine .cons (linkedAs_place compiled) ?_
    have rest := ih (front ++ [p]) (by rw [List.append_assoc, List.singleton_append])
    have symbols : (allSymbols (front ++ [p])).length =
        (allSymbols front).length + p.symbols.length := by
      simp [allSymbols]
    have size : codeSize (front ++ [p]) = codeSize front + p.code.length := by simp [codeSize]
    rwa [symbols, size, ← Nat.add_assoc] at rest

theorem linked_place (compiled : ∀ q ∈ programs, Compiled q) (fits : Fits programs)
    (some : programs ≠ []) (names : (programs.map (·.name)).Nodup) :
    Linked programs (place programs) := by
  have globals : (place programs).modules.flatMap (·.globals) =
      List.range' (sharedTable programs).length (allSymbols programs).length :=
    placeModules_globals
  refine ⟨place_verified compiled fits some names, globals ▸ List.nodup_range', _, ?_,
    forall₂_place compiled [] programs rfl⟩
  intro symbol mem
  rw [globals, List.mem_range'_1]
  have := List.idxOf_lt_length_of_mem (mem_sharedTable.mpr mem)
  omega

/-! ### Modules of names -/

/-- The body of a module that does nothing. -/
def emptyBody : CodeObject where
  classBody := false
  generator := false
  coroutine := false
  name := "<module>"
  params := 0
  signature := ⟨0, 0, 0, none, none, []⟩
  locals := []
  typeParams := []
  registers := 1
  instructions := [⟨1, 0, 0, 0⟩, ⟨41, 0, 0, 0⟩]
  spans := [⟨0, 0⟩, ⟨0, 0⟩]
  constants := [.none]
  calls := []
  cellLocals := []
  freeVars := []
  functions := []
  advisoryResults := []
  exceptionRegions := []

/-- A module of one `global` statement, which declares `x0`, `x1` and so on. -/
def namesOnly (name : String) (count : Nat) : Program where
  version := bytecodeVersion
  symbols := (List.range count).map fun k => "x" ++ k.repr
  code := [emptyBody]
  modules := [⟨name, name ++ ".py", 0, 1, List.range count⟩]

theorem names_injective : Function.Injective fun k : Nat => "x" ++ k.repr := by
  intro k l same
  have digits := congrArg String.toList same
  simp only [String.toList_append, Nat.toList_repr, List.append_cancel_left_eq] at digits
  rw [← Nat.ofDigitChars_toDigits (b := 10) (n := k) (by decide) (by decide), digits,
    Nat.ofDigitChars_toDigits (by decide) (by decide)]

theorem namesOnly_symbols {name : String} {count : Nat} :
    (namesOnly name count).symbols.length = count := by
  simp [namesOnly]

theorem emptyBody_verified : emptyBody.verify p = .ok () := by
  rfl

theorem emptyBody_balanced : emptyBody.verifyArgumentStack = .ok () := by
  show emptyBody.argumentStack [none, none] [(0, 0)] = .ok ()
  rw [CodeObject.argumentStack_new rfl]
  show emptyBody.argumentStack [some 0, none] [(1, 0)] = .ok ()
  rw [CodeObject.argumentStack_new rfl]
  show emptyBody.argumentStack [some 0, some 0] [] = .ok ()
  rw [CodeObject.argumentStack]

theorem namesOnly_compiled {name : String} {count : Nat} (named : name ≠ "")
    (few : count ≤ maxU16) : Compiled (namesOnly name count) where
  verified := by
    unfold Program.verify
    simp only [seq_ok, forM_ok]
    refine ⟨?_, ?_, ?_, ?_, ?_⟩
    · simp only [require_ok, Bool.and_eq_true, decide_eq_true_eq]
      refine ⟨⟨⟨⟨rfl, List.cons_ne_nil _ _⟩, List.cons_ne_nil _ _⟩, (by decide : 1 ≤ maxU16)⟩, ?_⟩
      rwa [namesOnly_symbols]
    · refine seq_ok.mpr ⟨verifyModule_ok.mpr ?_, rfl⟩
      refine ⟨named, ?_, List.not_mem_nil, List.not_mem_nil, one_ne_zero, Nat.le_refl _, ?_,
        List.nodup_range, .inr rfl, emptyBody, rfl, ⟨rfl, rfl, rfl, rfl, rfl, rfl⟩⟩
      · simp
      · intro s mem
        rw [namesOnly_symbols]
        exact List.mem_range.mp mem
    · rfl
    · exact List.forall_mem_singleton.mpr emptyBody_verified
    · exact List.forall_mem_singleton.mpr emptyBody_balanced
  distinct := List.nodup_range.map names_injective
  module := by rw [namesOnly_symbols]; rfl

theorem names_do_not_fit {name : String} {count : Nat} (many : maxU16 < 2 * count) :
    ¬ Fits [namesOnly name count] := by
  rintro ⟨symbols, -⟩
  have all : allSymbols [namesOnly name count] = (namesOnly name count).symbols :=
    List.append_nil _
  have distinct : (namesOnly name count).symbols.Nodup := List.nodup_range.map names_injective
  have table := (List.subperm_of_subset distinct fun symbol mem =>
    mem_sharedTable.mpr (all ▸ mem)).length_le
  rw [all] at symbols
  rw [namesOnly_symbols] at symbols table
  omega

/-- Modules with names of their own are linked as long as 16 bits suffice, and no further. -/
theorem linking_preserves_meaning (compiled : ∀ q ∈ programs, Compiled q) (some : programs ≠ [])
    (names : (programs.map (·.name)).Nodup) :
    (Fits programs → ∃ linked, link programs = .ok linked ∧ Linked programs linked) ∧
      (¬ Fits programs → ∃ fault, link programs = .error fault) := by
  constructor
  · intro fits
    refine ⟨place programs, ?_, linked_place compiled fits some names⟩
    rw [link_place compiled fits, place_verified compiled fits some names]
    rfl
  · intro large
    cases run : link programs with
    | error fault => exact ⟨fault, rfl⟩
    | ok linked => exact absurd (fits_of_link run) large

theorem two_modules_linked : ∃ linked,
    link [namesOnly "__main__" 2, namesOnly "helper" 3] = .ok linked ∧
      Linked [namesOnly "__main__" 2, namesOnly "helper" 3] linked := by
  refine (linking_preserves_meaning ?_ (List.cons_ne_nil _ _) (by decide)).1 (by decide)
  intro q mem
  rcases List.mem_pair.mp mem with rfl | rfl
  · exact namesOnly_compiled (by decide) (by decide)
  · exact namesOnly_compiled (by decide) (by decide)

theorem many_names_not_linked : Compiled (namesOnly "__main__" 33000) ∧
    ¬ ∃ linked, link [namesOnly "__main__" 33000] = .ok linked ∧
      Linked [namesOnly "__main__" 33000] linked := by
  refine ⟨namesOnly_compiled (by decide) (by decide), ?_⟩
  rintro ⟨linked, run, -⟩
  exact names_do_not_fit (by decide) (fits_of_link run)

end Place

end Tonic
