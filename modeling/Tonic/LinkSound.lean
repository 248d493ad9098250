import Mathlib.Data.List.Basic
import Tonic.Library.Outcome
import Tonic.Link

/-!
## What linking makes

The linked program is laid out from the programs it is made of: one table of spellings, then the
slots of each module, and the code objects one module after the other.
-/

namespace Tonic

open Outcome

theorem toU16_ok {n m : Nat} : toU16 n = .ok m ↔ m = n ∧ n ≤ maxU16 := by
  unfold toU16
  split
  · next fits =>
    exact ⟨fun run => ⟨(Except.ok.inj run).symm, fits⟩, fun same => congrArg _ same.1.symm⟩
  · next large => exact ⟨(fun run => by cases run), fun same => absurd same.2 large⟩

/-! ### The shared table -/

/-- A table with the spellings that it lacked. -/
def addNew (table : List String) : List String → List String
  | [] => table
  | symbol :: symbols =>
    if symbol ∈ table then addNew table symbols else addNew (table ++ [symbol]) symbols

section AddNew

variable {table symbols : List String} {symbol : String} {map : List Nat} {table' : List String}

theorem prefix_addNew (table symbols : List String) : table <+: addNew table symbols := by
  induction symbols generalizing table with
  | nil => exact List.prefix_rfl
  | cons symbol symbols ih =>
    unfold addNew
    split
    · exact ih table
    · exact (List.prefix_append _ _).trans (ih _)

theorem mem_addNew : symbol ∈ addNew table symbols ↔ symbol ∈ table ∨ symbol ∈ symbols := by
  induction symbols generalizing table with
  | nil => simp [addNew]
  | cons s symbols ih =>
    unfold addNew
    split
    · next known =>
      rw [ih, List.mem_cons]
      constructor
      · tauto
      · rintro (old | rfl | new)
        · exact .inl old
        · exact .inl known
        · exact .inr new
    · rw [ih, List.mem_append, List.mem_singleton, List.mem_cons]
      tauto

theorem nodup_addNew (nodup : table.Nodup) : (addNew table symbols).Nodup := by
  induction symbols generalizing table with
  | nil => exact nodup
  | cons symbol symbols ih =>
    unfold addNew
    split
    · exact ih nodup
    · next new =>
      exact ih (nodup.append (List.nodup_singleton _) (by simpa [List.disjoint_singleton] using new))

theorem addNew_append (more : List String) :
    addNew table (symbols ++ more) = addNew (addNew table symbols) more := by
  induction symbols generalizing table with
  | nil => rfl
  | cons symbol symbols ih =>
    rw [List.cons_append, addNew, addNew]
    split <;> exact ih

/-- A spelling that is in the table stays where it is. -/
theorem idxOf_addNew (known : symbol ∈ table) :
    (addNew table symbols).idxOf symbol = table.idxOf symbol := by
  obtain ⟨rest, eq⟩ := prefix_addNew table symbols
  rw [← eq, List.idxOf_append_of_mem known]

theorem idxOf_of_idxOf? {id : Nat} (found : table.idxOf? symbol = some id) :
    symbol ∈ table ∧ table.idxOf symbol = id := by
  obtain ⟨bound, eq, -⟩ := List.idxOf?_eq_some_iff.mp found
  refine ⟨eq ▸ List.getElem_mem bound, ?_⟩
  rw [List.idxOf_eq_getD_idxOf?, found, Option.getD_some]

theorem shareSymbols_ok (run : shareSymbols table symbols = .ok (map, table')) :
    table' = addNew table symbols ∧ map = symbols.map (table'.idxOf ·) := by
  induction symbols generalizing table map with
  | nil =>
    cases run
    exact ⟨rfl, rfl⟩
  | cons symbol symbols ih =>
    unfold shareSymbols at run
    unfold addNew
    split at run
    · next id found =>
      obtain ⟨⟨map', table''⟩, rest, run⟩ := bind_ok run
      cases run
      obtain ⟨known, position⟩ := idxOf_of_idxOf? found
      obtain ⟨rfl, rfl⟩ := ih rest
      rw [if_pos known]
      refine ⟨rfl, ?_⟩
      rw [List.map_cons, idxOf_addNew known, position]
    · next absent =>
      obtain ⟨id, fits, run⟩ := bind_ok run
      obtain ⟨⟨map', table''⟩, rest, run⟩ := bind_ok run
      cases run
      have new : symbol ∉ table := List.idxOf?_eq_none_iff.mp absent
      obtain ⟨rfl, rfl⟩ := ih rest
      rw [if_neg new]
      refine ⟨rfl, ?_⟩
      rw [List.map_cons, idxOf_addNew (List.mem_append_right _ (List.mem_singleton_self _)),
        List.idxOf_append_of_notMem new, (toU16_ok.mp fits).1]
      simp

theorem shareSymbols_runs (fits : (addNew table symbols).length ≤ maxU16) :
    ∃ result, shareSymbols table symbols = .ok result := by
  induction symbols generalizing table with
  | nil => exact ⟨_, rfl⟩
  | cons symbol symbols ih =>
    unfold addNew at fits
    unfold shareSymbols
    cases found : table.idxOf? symbol with
    | some id =>
      rw [if_pos (idxOf_of_idxOf? found).1] at fits
      obtain ⟨result, run⟩ := ih fits
      simp only [run, ok_bind]
      exact ⟨_, rfl⟩
    | none =>
      rw [if_neg (List.idxOf?_eq_none_iff.mp found)] at fits
      obtain ⟨result, run⟩ := ih fits
      have room := (prefix_addNew (table ++ [symbol]) symbols).length_le
      rw [List.length_append, List.length_singleton] at room
      simp only [toU16_ok.mpr ⟨rfl, show table.length ≤ maxU16 by omega⟩, run, ok_bind]
      exact ⟨_, rfl⟩

theorem ownSymbols_ok (run : ownSymbols table symbols = .ok (map, table')) :
    table' = table ++ symbols ∧ map = List.range' table.length symbols.length := by
  induction symbols generalizing table map with
  | nil =>
    cases run
    simp
  | cons symbol symbols ih =>
    obtain ⟨id, fits, run⟩ := bind_ok run
    obtain ⟨⟨map', table''⟩, rest, run⟩ := bind_ok run
    cases run
    obtain ⟨rfl, rfl⟩ := ih rest
    refine ⟨by simp, ?_⟩
    rw [List.length_cons, List.range'_succ, (toU16_ok.mp fits).1]
    simp

theorem ownSymbols_runs (fits : table.length + symbols.length ≤ maxU16) :
    ∃ result, ownSymbols table symbols = .ok result := by
  induction symbols generalizing table with
  | nil => exact ⟨_, rfl⟩
  | cons symbol symbols ih =>
    rw [List.length_cons] at fits
    obtain ⟨result, run⟩ := @ih (table ++ [symbol]) (by
      rw [List.length_append, List.length_singleton]
      omega)
    unfold ownSymbols
    simp only [toU16_ok.mpr ⟨rfl, show table.length ≤ maxU16 by omega⟩, run, ok_bind]
    exact ⟨_, rfl⟩

end AddNew

/-! ### All programs -/

section Programs

variable {table table' : List String} {programs : List Program} {maps : List (List Nat)}
  {count : Nat} {offsets : List Nat}

/-- Every symbol of the programs, one program after the other. -/
def allSymbols (programs : List Program) : List String := programs.flatMap (·.symbols)

theorem allSymbols_cons (p : Program) (programs : List Program) :
    allSymbols (p :: programs) = p.symbols ++ allSymbols programs := List.flatMap_cons

/-- The slots of each program, from the first free one on. -/
def slotsFrom (start : Nat) : List Program → List (List Nat)
  | [] => []
  | p :: programs =>
    List.range' start p.symbols.length :: slotsFrom (start + p.symbols.length) programs

def offsetsFrom (count : Nat) : List Program → List Nat
  | [] => []
  | p :: programs => count :: offsetsFrom (count + p.code.length) programs

def codeSize (programs : List Program) : Nat := (programs.map (·.code.length)).sum

theorem enterAll_share_ok (run : enterAll shareSymbols table programs = .ok (maps, table')) :
    table' = addNew table (allSymbols programs) ∧
      maps = programs.map fun p => p.symbols.map (table'.idxOf ·) := by
  induction programs generalizing table maps with
  | nil =>
    cases run
    exact ⟨rfl, rfl⟩
  | cons p programs ih =>
    obtain ⟨⟨map, next⟩, first, run⟩ := bind_ok run
    obtain ⟨⟨maps', last⟩, rest, run⟩ := bind_ok run
    cases run
    obtain ⟨rfl, rfl⟩ := shareSymbols_ok first
    obtain ⟨rfl, rfl⟩ := ih rest
    refine ⟨by rw [allSymbols_cons, addNew_append], ?_⟩
    rw [List.map_cons]
    congr 1
    exact List.map_congr_left fun symbol mem => (idxOf_addNew (mem_addNew.mpr (.inr mem))).symm

theorem enterAll_share_runs (fits : (addNew table (allSymbols programs)).length ≤ maxU16) :
    ∃ result, enterAll shareSymbols table programs = .ok result := by
  induction programs generalizing table with
  | nil => exact ⟨_, rfl⟩
  | cons p programs ih =>
    rw [allSymbols_cons, addNew_append] at fits
    have room := (prefix_addNew (addNew table p.symbols) (allSymbols programs)).length_le
    obtain ⟨⟨map, next⟩, first⟩ := shareSymbols_runs (room.trans fits)
    obtain ⟨rfl, -⟩ := shareSymbols_ok first
    obtain ⟨result, rest⟩ := ih fits
    unfold enterAll
    simp only [first, rest, ok_bind]
    exact ⟨_, rfl⟩

theorem enterAll_own_ok (run : enterAll ownSymbols table programs = .ok (maps, table')) :
    table' = table ++ allSymbols programs ∧ maps = slotsFrom table.length programs := by
  induction programs generalizing table maps with
  | nil =>
    cases run
    exact ⟨by simp [allSymbols], rfl⟩
  | cons p programs ih =>
    obtain ⟨⟨map, next⟩, first, run⟩ := bind_ok run
    obtain ⟨⟨maps', last⟩, rest, run⟩ := bind_ok run
    cases run
    obtain ⟨rfl, rfl⟩ := ownSymbols_ok first
    obtain ⟨rfl, rfl⟩ := ih rest
    exact ⟨by rw [allSymbols_cons, List.append_assoc], by simp [slotsFrom]⟩

theorem enterAll_own_runs (fits : table.length + (allSymbols programs).length ≤ maxU16) :
    ∃ result, enterAll ownSymbols table programs = .ok result := by
  induction programs generalizing table with
  | nil => exact ⟨_, rfl⟩
  | cons p programs ih =>
    rw [allSymbols_cons, List.length_append] at fits
    obtain ⟨⟨map, next⟩, first⟩ := @ownSymbols_runs table p.symbols (by omega)
    obtain ⟨rfl, -⟩ := ownSymbols_ok first
    obtain ⟨result, rest⟩ := @ih (table ++ p.symbols) (by
      rw [List.length_append]
      omega)
    unfold enterAll
    simp only [first, rest, ok_bind]
    exact ⟨_, rfl⟩

theorem codeOffsets_ok (run : codeOffsets count programs = .ok offsets) :
    offsets = offsetsFrom count programs := by
  induction programs generalizing count offsets with
  | nil =>
    cases run
    rfl
  | cons p programs ih =>
    obtain ⟨offset, fits, run⟩ := bind_ok run
    split at run
    · cases run
    · obtain ⟨offsets', rest, run⟩ := bind_ok run
      cases run
      rw [offsetsFrom, ih rest, (toU16_ok.mp fits).1]

theorem codeOffsets_fits (run : codeOffsets count programs = .ok offsets) (start : count ≤ maxU16) :
    count + codeSize programs ≤ maxU16 := by
  induction programs generalizing count offsets with
  | nil => exact start
  | cons p programs ih =>
    obtain ⟨offset, -, run⟩ := bind_ok run
    split at run
    · cases run
    · next fits =>
      obtain ⟨offsets', rest, -⟩ := bind_ok run
      have later := ih rest (Nat.le_of_not_lt fits)
      unfold codeSize at later ⊢
      rw [List.map_cons, List.sum_cons]
      omega

theorem codeOffsets_runs (fits : count + codeSize programs ≤ maxU16) :
    ∃ offsets, codeOffsets count programs = .ok offsets := by
  induction programs generalizing count with
  | nil => exact ⟨_, rfl⟩
  | cons p programs ih =>
    rw [codeSize, List.map_cons, List.sum_cons] at fits
    obtain ⟨offsets, rest⟩ := @ih (count + p.code.length) (by
      unfold codeSize
      omega)
    unfold codeOffsets
    rw [toU16_ok.mpr ⟨rfl, show count ≤ maxU16 by omega⟩, ok_bind, if_neg (by omega), rest]
    exact ⟨_, rfl⟩

end Programs

/-! ### How operands are read -/

/-- What the interpreter takes an operand for: a spelling, or a global slot with its spelling. -/
inductive Reads where
  | plain
  | name
  | slot

def Op.readsB (op : Op) (a : Nat) : Reads :=
  match op with
  | .loadGlobal | .storeGlobal | .loadName => .slot
  | .importName | .delAttr | .storeName | .classDeref | .argNamed | .typeParam | .typeAlias => .name
  | .clearBinding => if a = 1 then .slot else if a = 3 then .name else .plain
  | _ => .plain

def Op.readsC : Op → Reads
  | .importFrom | .attr | .setAttr => .name
  | _ => .plain

/-- Another number for an operand that is read as a symbol. -/
def Reads.apply (f g : Nat → Nat) : Reads → Nat → Nat
  | .plain, n => n
  | .name, n => f n
  | .slot, n => g n

/-- An operand that is a symbol is one of the first. -/
def Reads.Below (n : Nat) : Reads → Nat → Prop
  | .plain, _ => True
  | _, operand => operand < n

namespace Instr

def renumber (f g : Nat → Nat) (i : Instr) : Instr :=
  match Op.ofNat? i.opcode with
  | some op => { i with b := (op.readsB i.a).apply f g i.b, c := op.readsC.apply f g i.c }
  | none => i

def Below (n : Nat) (i : Instr) : Prop :=
  ∃ op, Op.ofNat? i.opcode = some op ∧ (op.readsB i.a).Below n i.b ∧ op.readsC.Below n i.c

end Instr

namespace CodeObject

/-- A code object with other numbers for symbols (`f`), slots (`g`) and code objects. -/
def renumber (f g : Nat → Nat) (offset : Nat) (code : CodeObject) : CodeObject :=
  { code with
    locals := code.locals.map f
    freeVars := code.freeVars.map f
    typeParams := code.typeParams.map fun param => (f param.1, param.2)
    calls := code.calls.map fun call => { call with keywords := call.keywords.map f }
    functions := code.functions.map fun site =>
      { site with
        code := site.code + offset
        annotations := site.annotations.map fun annotation => (f annotation.1, annotation.2) }
    instructions := code.instructions.map (·.renumber f g) }

/-- The symbols of a code object are among the first, and so are the code objects it makes functions
of. -/
structure Below (n size : Nat) (code : CodeObject) : Prop where
  locals : ∀ s ∈ code.locals, s < n
  freeVars : ∀ s ∈ code.freeVars, s < n
  typeParams : ∀ param ∈ code.typeParams, param.1 < n
  keywords : ∀ call ∈ code.calls, ∀ s ∈ call.keywords, s < n
  sites : ∀ site ∈ code.functions, site.code < size
  annotations : ∀ site ∈ code.functions, ∀ annotation ∈ site.annotations, annotation.1 < n
  instructions : ∀ i ∈ code.instructions, i.Below n

end CodeObject

section Renumber

variable {map globalMap : List Nat} {f g : Nat → Nat} {n size offset s : Nat}

theorem remap_ok {id : Nat} (at' : map[s]? = some id) : remap map s = .ok id := by
  unfold remap
  rw [at']
  rfl

variable (names : ∀ s < n, map[s]? = some (f s)) (slots : ∀ s < n, globalMap[s]? = some (g s))
include names

theorem mapM_remap {symbols : List Nat} (below : ∀ s ∈ symbols, s < n) :
    symbols.mapM (remap map) = .ok (symbols.map f) :=
  mapM_eq_ok fun s mem => remap_ok (names s (below s mem))

theorem mapM_remap_fst {α : Type} {pairs : List (Nat × α)} (below : ∀ p ∈ pairs, p.1 < n) :
    (pairs.mapM fun (name, slot) => do
      let name ← remap map name
      return (name, slot)) = .ok (pairs.map fun p => (f p.1, p.2)) :=
  mapM_eq_ok fun p mem => by
    simp only [remap_ok (names _ (below p mem))]
    rfl

theorem linkCall_below {call : CallSite} (below : ∀ s ∈ call.keywords, s < n) :
    linkCall map call = .ok { call with keywords := call.keywords.map f } := by
  unfold linkCall
  rw [mapM_remap names below]
  rfl

theorem linkFunction_below {site : FunctionSite} (inside : site.code < size)
    (below : ∀ annotation ∈ site.annotations, annotation.1 < n) (fits : size + offset ≤ maxU16 + 1) :
    linkFunction map offset site = .ok { site with
      code := site.code + offset
      annotations := site.annotations.map fun annotation => (f annotation.1, annotation.2) } := by
  unfold linkFunction
  rw [toU16_ok.mpr ⟨rfl, show site.code + offset ≤ maxU16 by omega⟩, ok_bind,
    mapM_remap_fst names below]
  rfl

include slots

theorem linkInstr_below {i : Instr} (below : i.Below n) :
    linkInstr map globalMap i = .ok (i.renumber f g) := by
  obtain ⟨op, decoded, b, c⟩ := below
  obtain ⟨opcode, a, _, _⟩ := i
  unfold linkInstr Instr.renumber decodeOp
  simp only at decoded b c ⊢
  simp only [decoded]
  have name (s : Nat) (below : s < n) : remap map s = .ok (f s) := remap_ok (names s below)
  have slot (s : Nat) (below : s < n) : remap globalMap s = .ok (g s) := remap_ok (slots s below)
  cases op
  case clearBinding =>
    simp only [Op.readsB] at b ⊢
    by_cases global : a = 1
    · rw [if_pos global] at b
      simp only [if_pos global, slot _ b, pure_bind]
      rfl
    · by_cases namespaced : a = 3
      · rw [if_neg global, if_pos namespaced] at b
        simp only [if_neg global, if_pos namespaced, name _ b, pure_bind]
        rfl
      · simp only [if_neg global, if_neg namespaced, pure_bind]
        rfl
  case loadGlobal | storeGlobal | loadName =>
    simp only [slot _ b]
    rfl
  case importName | delAttr | storeName | classDeref | argNamed | typeParam | typeAlias =>
    simp only [name _ b]
    rfl
  case importFrom | attr | setAttr =>
    simp only [name _ c]
    rfl
  all_goals rfl

theorem linkCode_below {code : CodeObject} (below : code.Below n size)
    (fits : size + offset ≤ maxU16 + 1) :
    linkCode map globalMap offset code = .ok (code.renumber f g offset) := by
  unfold linkCode
  rw [mapM_remap names below.locals, ok_bind, mapM_remap names below.freeVars, ok_bind,
    mapM_remap_fst names below.typeParams, ok_bind, mapM_eq_ok fun call mem => linkCall_below names (below.keywords call mem), ok_bind,
    mapM_eq_ok fun site mem => linkFunction_below names (below.sites site mem)
      (below.annotations site mem) fits, ok_bind,
    mapM_eq_ok fun i mem => linkInstr_below names slots (below.instructions i mem)]
  rfl

end Renumber

end Tonic
