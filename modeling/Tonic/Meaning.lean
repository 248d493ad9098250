import Tonic.LinkVerified

/-!
## What code means

Two programs may number their symbols and code objects in different ways. The meaning of a code
object has spellings in place of symbols, positions among the slots of its module in place of global
slots, and code objects counted from the first one of the module.
-/

namespace Tonic

/-- An operand as the interpreter takes it. -/
inductive Operand where
  | plain (operand : Nat)
  | name (spelling : Option String)
  | slot (position : Option Nat) (spelling : Option String)

structure InstrMeaning where
  opcode : Nat
  a : Nat
  b : Operand
  c : Operand

structure CallMeaning where
  first : Nat
  count : Nat
  keywords : List (Option String)

structure SiteMeaning where
  code : Nat
  captures : List Nat
  defaults : List Nat
  annotations : List (Option String × Nat)
  typeParams : List Nat

/-- A code object. What has no symbols and no code ids in it is in `fixed`, whose other tables are
empty. -/
structure CodeMeaning where
  fixed : CodeObject
  locals : List (Option String)
  typeParams : List (Option String × Option Nat)
  calls : List CallMeaning
  freeVars : List (Option String)
  functions : List SiteMeaning
  instructions : List InstrMeaning

namespace Program

variable (p : Program) (module : ModuleInfo)

def spelling (s : Nat) : Option String := p.symbols[s]?

def operand (operand : Nat) : Reads → Operand
  | .plain => .plain operand
  | .name => .name (p.spelling operand)
  | .slot => .slot (module.globals.idxOf? operand) (p.spelling operand)

def instrMeaning (i : Instr) : InstrMeaning :=
  match Op.ofNat? i.opcode with
  | some op =>
    ⟨i.opcode, i.a, p.operand module i.b (op.readsB i.a), p.operand module i.c op.readsC⟩
  | none => ⟨i.opcode, i.a, .plain i.b, .plain i.c⟩

def callMeaning (call : CallSite) : CallMeaning :=
  ⟨call.first, call.count, call.keywords.map p.spelling⟩

def siteMeaning (site : FunctionSite) : SiteMeaning :=
  ⟨site.code - module.code, site.captures, site.defaults,
    site.annotations.map fun annotation => (p.spelling annotation.1, annotation.2), site.typeParams⟩

def codeMeaning (code : CodeObject) : CodeMeaning where
  fixed := { code with
    locals := [], typeParams := [], calls := [], freeVars := [], functions := [], instructions := [] }
  locals := code.locals.map p.spelling
  typeParams := code.typeParams.map fun param => (p.spelling param.1, param.2)
  calls := code.calls.map p.callMeaning
  freeVars := code.freeVars.map p.spelling
  functions := code.functions.map (p.siteMeaning module)
  instructions := code.instructions.map (p.instrMeaning module)

/-- The code objects of a module. -/
def meaning : List CodeMeaning :=
  ((p.code.drop module.code).take module.codeCount).map (p.codeMeaning module)

end Program

/-! ### Under other numbers -/

section Renumber

variable {p q : Program} {f g : Nat → Nat} {offset s : Nat} {module placed : ModuleInfo}
  {code : CodeObject}

variable (embeds : Embeds p q f g offset)
include embeds

variable (slots : ∀ s < p.symbols.length, placed.globals.idxOf? (g s) = module.globals.idxOf? s)
include slots

theorem operand_renumber {reads : Reads} {operand : Nat}
    (below : reads.Below p.symbols.length operand) :
    q.operand placed (reads.apply f g operand) reads = p.operand module operand reads := by
  cases reads with
  | plain => rfl
  | name => exact congrArg Operand.name (embeds.names operand below)
  | slot => exact congrArg₂ Operand.slot (slots operand below) (embeds.slots operand below)

theorem instrMeaning_renumber {i : Instr} (below : i.Below p.symbols.length) :
    q.instrMeaning placed (i.renumber f g) = p.instrMeaning module i := by
  obtain ⟨op, decoded, b, c⟩ := below
  unfold Program.instrMeaning Instr.renumber
  simp only [decoded]
  rw [operand_renumber embeds slots b, operand_renumber embeds slots c]

theorem codeMeaning_renumber (below : code.Below p.symbols.length p.code.length)
    (first : module.code = 0) (placedFirst : placed.code = offset) :
    q.codeMeaning placed (code.renumber f g offset) = p.codeMeaning module code := by
  have name {s : Nat} (below : s < p.symbols.length) : q.spelling (f s) = p.spelling s :=
    embeds.names s below
  have names {symbols : List Nat} (below : ∀ s ∈ symbols, s < p.symbols.length) :
      (symbols.map f).map q.spelling = symbols.map p.spelling := by
    rw [List.map_map]
    exact List.map_congr_left fun s mem => name (below s mem)
  unfold Program.codeMeaning CodeObject.renumber
  simp only [CodeMeaning.mk.injEq]
  refine ⟨trivial, names below.locals, ?_, ?_, names below.freeVars, ?_, ?_⟩
  · rw [List.map_map]
    exact List.map_congr_left fun param mem =>
      congrArg (·, param.2) (name (below.typeParams param mem))
  · rw [List.map_map]
    refine List.map_congr_left fun call mem => ?_
    exact congrArg (CallMeaning.mk call.first call.count) (names (below.keywords call mem))
  · rw [List.map_map]
    refine List.map_congr_left fun site mem => ?_
    simp only [Function.comp, Program.siteMeaning, SiteMeaning.mk.injEq, List.map_map]
    refine ⟨by omega, trivial, trivial, ?_, trivial⟩
    exact List.map_congr_left fun annotation mem' =>
      congrArg (·, annotation.2) (name (below.annotations site mem annotation mem'))
  · rw [List.map_map]
    exact List.map_congr_left fun i mem =>
      instrMeaning_renumber embeds slots (below.instructions i mem)

end Renumber

end Tonic
