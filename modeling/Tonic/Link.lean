import Mathlib.Data.Finset.Card
import Mathlib.Data.Finset.Dedup
import Tonic.Verify

/-!
## Linking

The programs of several modules become one. Symbols are shared by their spelling, but every module
has global slots of its own.
-/

namespace Tonic

def moduleLimit : Fault :=
  .raise "ResourceError" "linked module graph exceeds the 16-bit bytecode limit"

/-- `u16::try_from`. -/
def toU16 (n : Nat) : Except Fault Nat := if n ≤ maxU16 then pure n else throw moduleLimit

/-- The ids of a module's symbols in the shared table, which grows by the spellings that are new.
The source finds an id in a map from the spellings; here it is the position in the table. -/
def shareSymbols (table : List String) : List String → Except Fault (List Nat × List String)
  | [] => return ([], table)
  | symbol :: symbols =>
    match table.idxOf? symbol with
    | some id => do
      let (map, table) ← shareSymbols table symbols
      return (id :: map, table)
    | none => do
      let id ← toU16 table.length
      let (map, table) ← shareSymbols (table ++ [symbol]) symbols
      return (id :: map, table)

/-- The ids of a module's global slots: every symbol is entered once more. -/
def ownSymbols (table : List String) : List String → Except Fault (List Nat × List String)
  | [] => return ([], table)
  | symbol :: symbols => do
    let id ← toU16 table.length
    let (map, table) ← ownSymbols (table ++ [symbol]) symbols
    return (id :: map, table)

/-- One program after the other, with one table for all. -/
def enterAll (enter : List String → List String → Except Fault (List Nat × List String))
    (table : List String) : List Program → Except Fault (List (List Nat) × List String)
  | [] => return ([], table)
  | p :: programs => do
    let (map, table) ← enter table p.symbols
    let (maps, table) ← enterAll enter table programs
    return (map :: maps, table)

/-- Where the code objects of each program begin. -/
def codeOffsets (count : Nat) : List Program → Except Fault (List Nat)
  | [] => return []
  | p :: programs => do
    let offset ← toU16 count
    if maxU16 < count + p.code.length then throw moduleLimit
    let offsets ← codeOffsets (count + p.code.length) programs
    return offset :: offsets

def remap (map : List Nat) (symbol : Nat) : Except Fault Nat :=
  match map[symbol]? with
  | some id => pure id
  | none => throw (.panicked "index out of bounds")

def linkInstr (map globalMap : List Nat) (i : Instr) : Except Fault Instr := do
  let op ← decodeOp i.opcode
  match op with
  | .loadGlobal | .storeGlobal | .loadName =>
    let b ← remap globalMap i.b
    return { i with b }
  | .importName | .delAttr | .storeName | .classDeref | .argNamed | .typeParam | .typeAlias =>
    let b ← remap map i.b
    return { i with b }
  | .importFrom | .attr | .setAttr =>
    let c ← remap map i.c
    return { i with c }
  | .clearBinding =>
    if i.a = 1 then
      let b ← remap globalMap i.b
      return { i with b }
    else if i.a = 3 then
      let b ← remap map i.b
      return { i with b }
    else return i
  | _ => return i

def linkCall (map : List Nat) (call : CallSite) : Except Fault CallSite := do
  let keywords ← call.keywords.mapM (remap map)
  return { call with keywords }

def linkFunction (map : List Nat) (offset : Nat) (site : FunctionSite) :
    Except Fault FunctionSite := do
  let code ← toU16 (site.code + offset)
  let annotations ← site.annotations.mapM fun (name, register) => do
    let name ← remap map name
    return (name, register)
  return { site with code, annotations }

def linkCode (map globalMap : List Nat) (offset : Nat) (code : CodeObject) :
    Except Fault CodeObject := do
  let locals ← code.locals.mapM (remap map)
  let freeVars ← code.freeVars.mapM (remap map)
  let typeParams ← code.typeParams.mapM fun (name, slot) => do
    let name ← remap map name
    return (name, slot)
  let calls ← code.calls.mapM (linkCall map)
  let functions ← code.functions.mapM (linkFunction map offset)
  let instructions ← code.instructions.mapM (linkInstr map globalMap)
  return { code with locals, freeVars, typeParams, calls, functions, instructions }

def linkModule (p : Program) (map globalMap : List Nat) (offset : Nat) :
    Except Fault (ModuleInfo × List CodeObject) := do
  let some source := p.modules.head? | throw (bytecodeError "linked program has no module")
  let codeCount ← toU16 p.code.length
  let code ← p.code.mapM (linkCode map globalMap offset)
  return (⟨source.name, source.filename, offset, codeCount, globalMap⟩, code)

/-- Each program with its maps and its offset. -/
def linkModules : List Program → List (List Nat) → List (List Nat) → List Nat →
    Except Fault (List (ModuleInfo × List CodeObject))
  | p :: programs, map :: maps, globalMap :: globalMaps, offset :: offsets => do
    let linked ← linkModule p map globalMap offset
    let rest ← linkModules programs maps globalMaps offsets
    return linked :: rest
  | _, _, _, _ => return []

def link (programs : List Program) : Except Fault Program := do
  let (maps, table) ← enterAll shareSymbols [] programs
  let (globalMaps, symbols) ← enterAll ownSymbols table programs
  let offsets ← codeOffsets 0 programs
  let parts ← linkModules programs maps globalMaps offsets
  let linked : Program :=
    { version := bytecodeVersion, symbols, code := parts.flatMap (·.2), modules := parts.map (·.1) }
  linked.verify
  return linked

end Tonic
