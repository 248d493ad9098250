import Mathlib.Data.List.Nodup
import Tonic.Program

/-!
## Verification

The checks that a program passes before it runs, each with the message it fails with.
-/

namespace Tonic

def require (ok : Bool) (message : String) : Except Fault Unit :=
  if ok then pure () else throw (bytecodeError message)

def decodeOp (opcode : Nat) : Except Fault Op :=
  match Op.ofNat? opcode with
  | some op => pure op
  | none => throw (bytecodeError ("unknown opcode " ++ toString opcode))

/-- The opcodes whose result a type annotation may describe. -/
def Op.advisable : Op → Bool
  | .loadGlobal | .loadCell | .move | .call | .callExpanded | .attr | .item => true
  | _ => false

/-- The opcodes after which control does not fall through. -/
def Op.ends : Op → Bool
  | .jump | .ret | .raise | .endAsyncFor => true
  | _ => false

namespace Program

/-- One entry of the module table, after the earlier ones. -/
def verifyModule (p : Program) (earlier : List ModuleInfo) (module : ModuleInfo) :
    Except Fault Unit := do
  require (module.name ≠ "" && module.filename ≠ "" && module.name ∉ earlier.map (·.name) &&
    module.code ∉ earlier.map (·.code) && module.code < p.code.length && module.codeCount ≠ 0 &&
    module.code + module.codeCount ≤ p.code.length &&
    module.globals.all (· < p.symbols.length) &&
    (earlier.flatMap (·.globals) ++ module.globals).Nodup && (earlier ≠ [] || module.code = 0))
    "invalid module table"
  let some entry := p.code[module.code]? | throw (.panicked "index out of bounds")
  require (entry.params = 0 && !entry.classBody && !entry.generator && !entry.coroutine &&
    entry.cellLocals = [] && entry.freeVars = []) "module cannot have parameters"

def verifyModules (p : Program) : List ModuleInfo → List ModuleInfo → Except Fault Unit
  | _, [] => return
  | earlier, module :: modules => do
    p.verifyModule earlier module
    p.verifyModules (earlier ++ [module]) modules

/-- Every code object belongs to one module. -/
def verifyCoverage (p : Program) : Except Fault Unit := do
  let ranges := p.modules.map fun module => List.range' module.code module.codeCount
  require (ranges.flatten.Nodup) "overlapping module code ranges"
  require ((List.range p.code.length).all (· ∈ ranges.flatten))
    "module code ranges do not cover the program"

end Program

/-! ### Code objects -/

namespace CodeObject

variable (p : Program) (code : CodeObject)

def verifyMetadata : Except Fault Unit := do
  require (!(code.classBody && (code.params ≠ 0 || code.generator || code.coroutine)))
    "class body cannot be a function"
  require (code.instructions ≠ [] && code.instructions.length ≤ maxU16 &&
    code.spans.length = code.instructions.length && code.registers ≠ 0 &&
    code.params ≤ code.locals.length && code.locals.length ≤ code.registers)
    "invalid code metadata"

def verifySignature : Except Fault Unit := do
  let sig := code.signature
  let named := sig.positional + sig.keywordOnly
  let total := named + sig.vararg.isSome.toNat + sig.kwarg.isSome.toNat
  require (sig.posonly ≤ sig.positional && total = code.params && sig.vararg.all (· = named) &&
    sig.kwarg.all (· = named + sig.vararg.isSome.toNat)) "invalid function signature"
  require (sig.defaults.all (· < named) && sig.defaults.Nodup) "invalid default parameter slot"

def verifyLocals : Except Fault Unit := do
  require ((code.locals.take code.params).Nodup) "duplicate parameter symbol"
  require (code.locals.all (· < p.symbols.length)) "invalid local symbol"

def verifyTypeParams : List Nat → List (Nat × Option Nat) → Except Fault Unit
  | _, [] => return
  | earlier, (name, slot) :: rest => do
    require (name < p.symbols.length && name ∉ earlier) "invalid type parameter symbol"
    require (slot.all fun slot => code.locals[slot]? = some name) "invalid type parameter slot"
    verifyTypeParams (earlier ++ [name]) rest

def verifyCells : Except Fault Unit := do
  require (code.cellCount ≤ maxU16) "too many cells"
  require (code.cellLocals.all (· < code.locals.length) && code.cellLocals.Nodup)
    "invalid or duplicate cell local"
  if code.classBody then
    code.cellLocals.forM fun slot => do
      let some symbol := code.locals[slot]? | throw (.panicked "index out of bounds")
      let some spelling := p.symbols[symbol]? | throw (.panicked "index out of bounds")
      require (spelling = "__class__" ||
        code.typeParams.any fun param => param.1 = symbol && param.2 = some slot)
        "invalid class cell"
  require (code.freeVars.all (· < p.symbols.length)) "invalid free variable symbol"

def verifyFunctionSite (site : FunctionSite) : Except Fault Unit := do
  require (site.code ∉ p.modules.map (·.code) && site.code < p.code.length)
    "function code out of bounds"
  let some child := p.code[site.code]? | throw (.panicked "index out of bounds")
  require (site.captures.length = child.freeVars.length) "closure capture count mismatch"
  require (site.defaults.length = child.signature.defaults.length &&
    site.defaults.all (· < code.registers)) "invalid function defaults"
  require (site.typeParams.length = child.typeParams.length &&
    site.typeParams.all (· < code.registers)) "invalid function type parameters"
  require (site.annotations.all (fun a => a.1 < p.symbols.length && a.2 < code.registers) &&
    (site.annotations.map (·.1)).Nodup) "invalid function annotations"
  require (site.captures.all (· < code.cellCount)) "closure capture out of bounds"

def verifyAdvisories : Except Fault Unit :=
  require ((code.advisoryResults.map (·.pc)).Nodup && code.advisoryResults.all fun hint =>
    (code.instructions[hint.pc]?).any fun i => (Op.ofNat? i.opcode).any Op.advisable)
    "invalid advisory result"

def verifyRegion (region : ExceptionRegion) : Except Fault Unit :=
  require (region.start < region.stop && region.stop ≤ code.instructions.length &&
    region.target < code.instructions.length && region.exception < code.registers)
    "invalid exception region"

/-- Two regions lie apart, or one lies in the other. -/
def regionsAgree (left right : ExceptionRegion) : Bool :=
  !(left.start < right.stop && right.start < left.stop) ||
    (left.start ≤ right.start && right.stop ≤ left.stop) ||
    (right.start ≤ left.start && left.stop ≤ right.stop)

def verifyRegions : Except Fault Unit := do
  code.exceptionRegions.forM code.verifyRegion
  require (code.exceptionRegions.Pairwise fun left right => regionsAgree left right)
    "partially overlapping exception regions"

/-! ### Operands -/

def reg (r : Nat) : Except Fault Unit := require (r < code.registers) "register out of bounds"

def sym (s : Nat) : Except Fault Unit := require (s < p.symbols.length) "symbol out of bounds"

def jumpTo (j : Nat) : Except Fault Unit :=
  require (j < code.instructions.length) "jump out of bounds"

def range (start count : Nat) : Except Fault Unit :=
  require (start + count ≤ code.registers) "register window out of bounds"

def reserved (operand : Nat) : Except Fault Unit :=
  require (operand = 0) "nonzero reserved operand"

def verifyCall (call : CallSite) : Except Fault Unit := do
  require (call.count + call.keywords.length ≤ maxU16) "call window too large"
  code.range call.first (call.count + call.keywords.length)
  call.keywords.forM (sym p)
  require call.keywords.Nodup "duplicate keyword argument"

def verifyRaise (a b c : Nat) : Except Fault Unit := do
  require (b ≤ 2 && (b = 2 || c = 0)) "invalid raise operand"
  if b = 0 then code.reg a
  else if b = 1 then require (a = 0) "nonzero bare raise operand"
  else do
    code.reg a
    code.reg c

def verifyClearBinding (a b c : Nat) : Except Fault Unit := do
  require (a ≤ 3 && c = 0) "invalid clear-binding operand"
  if a = 0 then code.reg b
  else if a = 1 then sym p b
  else if a = 2 then require (b < code.cellCount) "clear cell out of bounds"
  else do
    require code.classBody "namespace clear outside class body"
    sym p b

def verifyClassKeywords (c : Nat) : Except Fault Unit := do
  let some call := code.calls[c]? | throw (.panicked "index out of bounds")
  require (call.keywords.length ≤ 1 &&
    call.keywords.all fun name => p.symbols[name]? = some "metaclass")
    "invalid class keyword window"

def verifyOperands (op : Op) (a b c : Nat) : Except Fault Unit :=
  match op with
  | .loadName | .storeName => do
    require code.classBody "namespace opcode outside class body"
    code.reg a
    sym p b
    reserved c
  | .classDeref => do
    require code.classBody "namespace opcode outside class body"
    code.reg a
    sym p b
    require (c < code.freeVars.length) "class closure operand out of bounds"
  | .beginArgs | .clearException => require (a = 0 && b = 0 && c = 0) "nonzero reserved operand"
  | .argStar => do
    code.reg a
    require (b = 0 && c ≤ 1) "invalid star argument flags"
  | .argPos | .argMapping | .dict | .set | .ret | .pushException => do
    code.reg a
    require (b = 0 && c = 0) "nonzero reserved operand"
  | .argNamed | .loadGlobal | .storeGlobal | .importName | .delAttr => do
    code.reg a
    sym p b
    reserved c
  | .callExpanded | .dictMerge | .move | .neg | .pos | .invert | .not | .iter | .listAppend
  | .setAdd | .delItem => do
    code.reg a
    code.reg b
    reserved c
  | .loadCell | .storeCell => do
    code.reg a
    require (b < code.cellCount && c = 0) "invalid cell operand"
  | .const => do
    code.reg a
    require (b < code.constants.length) "constant out of bounds"
    reserved c
  | .matchUnique => do
    code.reg a
    code.reg b
    require (c ≤ 1) "invalid match uniqueness mode"
  | .convert => do
    code.reg a
    code.reg b
    require (1 ≤ c && c ≤ 3) "invalid format conversion"
  | .typeParam => do
    code.reg a
    sym p b
    require (c ≤ 3) "invalid type parameter kind"
  | .typeParamDefault => do
    code.reg a
    code.reg b
    require (c ≤ 1) "invalid type parameter default mode"
  | .typeAlias => do
    code.reg a
    sym p b
    code.reg c
  | .matchMapping | .matchSequence => do
    code.reg a
    code.reg b
  | .importFrom | .attr | .setAttr => do
    code.reg a
    code.reg b
    sym p c
  | .formatValue | .add | .inplaceAdd | .sub | .mul | .floorDiv | .mod | .div | .eq | .ne | .lt
  | .le | .gt | .ge | .is | .isNot | .contains | .notContains | .pow | .bitOr | .bitXor | .bitAnd
  | .leftShift | .rightShift | .inplaceSub | .inplaceMul | .inplaceDiv | .inplaceFloorDiv
  | .inplaceMod | .inplacePow | .inplaceBitOr | .inplaceBitXor | .inplaceBitAnd
  | .inplaceLeftShift | .inplaceRightShift | .matMul | .inplaceMatMul | .item | .setItem
  | .matchKey | .matchClass | .matchAttr | .matchArgs | .matchClassItem | .exceptionMatch
  | .contextEnter | .contextExit => do
    code.reg a
    code.reg b
    code.reg c
  | .slice => do
    code.reg a
    code.range b 3
    reserved c
  | .jump => do
    code.jumpTo a
    require (b = 0 && c = 0) "nonzero reserved operand"
  | .jumpFalse | .jumpTrue => do
    code.reg a
    code.jumpTo b
    reserved c
  | .yield => do
    require (code.generator || code.coroutine) "yield outside resumable code"
    code.reg a
    code.reg b
    reserved c
  | .asyncYield => do
    require (code.generator && code.coroutine) "async yield outside async generator code"
    code.reg a
    code.reg b
    reserved c
  | .yieldFrom => do
    require (code.generator || code.coroutine) "yield from outside resumable code"
    code.reg a
    code.reg b
    code.jumpTo c
  | .getAwaitable => do
    require code.coroutine "await outside coroutine code"
    code.reg a
    code.reg b
    reserved c
  | .getAIter => do
    code.reg a
    code.reg b
    reserved c
  | .getANext => do
    require code.coroutine "async iteration outside coroutine code"
    code.reg a
    code.reg b
    reserved c
  | .endAsyncFor => do
    require code.coroutine "async iteration outside coroutine code"
    code.reg a
    code.jumpTo b
    reserved c
  | .raise => code.verifyRaise a b c
  | .asyncContextEnter | .asyncContextExit => do
    require code.coroutine "async context management outside coroutine code"
    code.reg a
    code.reg b
    code.reg c
  | .clearBinding => code.verifyClearBinding p a b c
  | .function => do
    code.reg a
    require (b < code.functions.length) "function site out of bounds"
    reserved c
  | .call => do
    code.reg a
    code.reg b
    require (c < code.calls.length) "call site out of bounds"
  | .cls => do
    code.reg a
    code.reg b
    require (c < code.calls.length) "call site out of bounds"
    code.verifyClassKeywords p c
  | .tuple | .list => do
    code.reg a
    code.range b c
  | .unpack => do
    code.reg b
    code.range a c
  | .next => do
    code.reg a
    code.reg b
    code.jumpTo c

def verifyInstr (pc : Nat) (i : Instr) : Except Fault Unit := do
  let op ← decodeOp i.opcode
  code.verifyOperands p op i.a i.b i.c
  require (pc + 1 ≠ code.instructions.length || op.ends) "code can fall off end"

def verify : Except Fault Unit := do
  code.verifyMetadata
  code.verifySignature
  code.verifyLocals p
  code.verifyTypeParams p [] code.typeParams
  code.verifyCells p
  code.functions.forM (code.verifyFunctionSite p)
  code.verifyAdvisories
  code.verifyRegions
  code.calls.forM (code.verifyCall p)
  code.instructions.zipIdx.forM fun (i, pc) => code.verifyInstr p pc i

/-! ### The stack of expanded arguments -/

def unbalanced : Fault := bytecodeError "unbalanced expanded argument stack"

/-- What one instruction does to the depth of the argument stack, and where control goes from it;
the last successor pushed comes first. -/
def argumentStep (pc depth : Nat) (i : Instr) : Except Fault (List (Nat × Nat)) := do
  let op ← decodeOp i.opcode
  let depth ← match op with
    | .beginArgs => pure (depth + 1)
    | .callExpanded => if depth = 0 then throw unbalanced else pure (depth - 1)
    | .argPos | .argStar | .argNamed | .argMapping =>
      if depth = 0 then throw unbalanced else pure depth
    | _ => pure depth
  match op with
  | .ret | .raise | .yield => if depth ≠ 0 then throw unbalanced else return []
  | .jump => return [(i.a, depth)]
  | .jumpFalse | .jumpTrue => return [(pc + 1, depth), (i.b, depth)]
  | .next | .yieldFrom => return [(pc + 1, depth), (i.c, depth)]
  | .endAsyncFor => return [(i.b, depth)]
  | _ => return [(pc + 1, depth)]

theorem count_none_set_lt {depths : List (Option Nat)} {pc depth : Nat}
    (new : depths[pc]? = some none) :
    (depths.set pc (some depth)).count none < depths.count none := by
  obtain ⟨bound, at'⟩ := List.getElem?_eq_some_iff.mp new
  have some : 0 < depths.count none := List.count_pos_iff.mpr (at' ▸ List.getElem_mem bound)
  rw [List.count_set bound, at']
  simp only [BEq.rfl, if_true, reduceCtorEq, beq_iff_eq, if_false]
  omega

/-- The work list holds program counters with the depth they are reached at. -/
def argumentStack (depths : List (Option Nat)) (work : List (Nat × Nat)) : Except Fault Unit :=
  match work with
  | [] => .ok ()
  | (pc, depth) :: work =>
    match _found : depths[pc]? with
    | none => .error (.panicked "index out of bounds")
    | some (some previous) =>
      if previous ≠ depth then .error unbalanced else argumentStack depths work
    | some none =>
      match code.instructions[pc]? with
      | none => .error (.panicked "index out of bounds")
      | some i =>
        match argumentStep pc depth i with
        | .error fault => .error fault
        | .ok next => argumentStack (depths.set pc (some depth)) (next ++ work)
termination_by (depths.count none, work.length)
decreasing_by
  · exact .right _ (Nat.lt_succ_self _)
  · exact .left _ _ (count_none_set_lt _found)

section Work

variable {code} {depths : List (Option Nat)} {work : List (Nat × Nat)} {pc depth previous : Nat}

theorem argumentStack_outside (found : depths[pc]? = none) :
    code.argumentStack depths ((pc, depth) :: work) = .error (.panicked "index out of bounds") := by
  rw [argumentStack]
  split <;> simp_all only [reduceCtorEq]

theorem argumentStack_seen (found : depths[pc]? = some (some previous)) :
    code.argumentStack depths ((pc, depth) :: work) =
      if previous ≠ depth then .error unbalanced else code.argumentStack depths work := by
  rw [argumentStack]
  split <;> simp_all only [reduceCtorEq, Option.some.injEq]

theorem argumentStack_new (found : depths[pc]? = some none) :
    code.argumentStack depths ((pc, depth) :: work) =
      match code.instructions[pc]? with
      | none => .error (.panicked "index out of bounds")
      | some i =>
        match argumentStep pc depth i with
        | .error fault => .error fault
        | .ok next => code.argumentStack (depths.set pc (some depth)) (next ++ work) := by
  rw [argumentStack]
  split <;> simp_all only [reduceCtorEq, Option.some.injEq]

end Work

def verifyArgumentStack : Except Fault Unit :=
  code.argumentStack (List.replicate code.instructions.length none)
    ((code.exceptionRegions.map fun region => (region.target, 0)).reverse ++ [(0, 0)])

end CodeObject

/-- A program may run once it is verified. -/
def Program.verify (p : Program) : Except Fault Unit := do
  require (p.version = bytecodeVersion && p.code ≠ [] && p.modules ≠ [] &&
    p.code.length ≤ maxU16 && p.symbols.length ≤ maxU16) "invalid program header"
  p.verifyModules [] p.modules
  p.verifyCoverage
  p.code.forM (CodeObject.verify p)
  p.code.forM CodeObject.verifyArgumentStack

end Tonic
