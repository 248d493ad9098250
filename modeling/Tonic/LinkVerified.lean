import Tonic.LinkSound

/-!
## Linked code is verified

The checks look at symbols by their spelling, their order and their number; other numbers for the
same spellings pass them as well.
-/

namespace Tonic

open Outcome

theorem require_ok {ok : Bool} {message : String} :
    require ok message = .ok () ↔ ok = true := by
  cases ok with
  | true => exact ⟨fun _ => rfl, fun _ => rfl⟩
  | false => exact ⟨(fun run => by cases run), fun eq => by cases eq⟩

/-- The code of a program stands in another one, from `offset` on, under other numbers for its
symbols (`f`) and its slots (`g`). -/
structure Embeds (p q : Program) (f g : Nat → Nat) (offset : Nat) : Prop where
  names : ∀ s < p.symbols.length, q.symbols[f s]? = p.symbols[s]?
  slots : ∀ s < p.symbols.length, q.symbols[g s]? = p.symbols[s]?
  injective : ∀ s < p.symbols.length, ∀ t < p.symbols.length, f s = f t → s = t
  code : ∀ k < p.code.length, q.code[k + offset]? = (p.code[k]?).map (·.renumber f g offset)
  inner : ∀ k < p.code.length, k ∉ p.modules.map (·.code) → k + offset ∉ q.modules.map (·.code)

namespace CodeObject

variable {p q : Program} {code : CodeObject} {f g : Nat → Nat} {offset a b c n s : Nat} {op : Op}
  {i : Instr}

theorem verify_ok : code.verify p = .ok () ↔ code.verifyMetadata = .ok () ∧
    code.verifySignature = .ok () ∧ code.verifyLocals p = .ok () ∧
    verifyTypeParams p code [] code.typeParams = .ok () ∧ code.verifyCells p = .ok () ∧
    (∀ site ∈ code.functions, code.verifyFunctionSite p site = .ok ()) ∧
    code.verifyAdvisories = .ok () ∧ code.verifyRegions = .ok () ∧
    (∀ call ∈ code.calls, code.verifyCall p call = .ok ()) ∧
    ∀ x ∈ code.instructions.zipIdx, code.verifyInstr p x.2 x.1 = .ok () := by
  unfold verify
  simp only [seq_ok, forM_ok]

theorem sym_ok : sym p s = .ok () ↔ s < p.symbols.length := by
  rw [sym, require_ok, decide_eq_true_eq]

/-! ### Symbols are in range -/

theorem verifyClearBinding_below (run : code.verifyClearBinding p a b c = .ok ())
    (symbol : a = 1 ∨ a = 3) : b < p.symbols.length := by
  unfold verifyClearBinding at run
  rcases symbol with rfl | rfl
  · exact sym_ok.mp (seq_ok.mp run).2
  · exact sym_ok.mp (seq_ok.mp (seq_ok.mp run).2).2

theorem verifyOperands_below (run : code.verifyOperands p op a b c = .ok ()) :
    (op.readsB a).Below p.symbols.length b ∧ op.readsC.Below p.symbols.length c := by
  cases op
  case loadName | storeName | classDeref | argNamed | loadGlobal | storeGlobal | importName | delAttr
      | typeParam | typeAlias =>
    simp only [verifyOperands, seq_ok, sym_ok] at run
    exact ⟨by simpa only [Op.readsB, Reads.Below] using by tauto, trivial⟩
  case importFrom | attr | setAttr =>
    simp only [verifyOperands, seq_ok, sym_ok] at run
    exact ⟨trivial, by simpa only [Op.readsC, Reads.Below] using by tauto⟩
  case clearBinding =>
    refine ⟨?_, trivial⟩
    have inside := verifyClearBinding_below run
    unfold Op.readsB
    dsimp only
    split
    · next global => exact inside (.inl global)
    · split
      · next namespaced => exact inside (.inr namespaced)
      · trivial
  all_goals exact ⟨trivial, trivial⟩

theorem verifyInstr_ok {pc : Nat} : code.verifyInstr p pc i = .ok () ↔
    ∃ op, Op.ofNat? i.opcode = some op ∧ code.verifyOperands p op i.a i.b i.c = .ok () ∧
      (pc + 1 ≠ code.instructions.length || op.ends) = true := by
  unfold verifyInstr decodeOp
  cases Op.ofNat? i.opcode with
  | none => exact ⟨(fun run => by cases run), fun ⟨_, decoded, _⟩ => by cases decoded⟩
  | some op =>
    simp only [pure_bind, seq_ok, require_ok, Option.some.injEq, exists_eq_left']

theorem verifyTypeParams_below {earlier : List Nat} {params : List (Nat × Option Nat)}
    (run : verifyTypeParams p code earlier params = .ok ()) :
    ∀ param ∈ params, param.1 < p.symbols.length := by
  induction params generalizing earlier with
  | nil => exact List.forall_mem_nil _
  | cons param params ih =>
    obtain ⟨name, slot⟩ := param
    simp only [verifyTypeParams, seq_ok, require_ok, Bool.and_eq_true, decide_eq_true_eq] at run
    exact List.forall_mem_cons.mpr ⟨run.1.1, ih run.2.2⟩

/-- Every class cell is `__class__` or holds a type parameter. -/
def ClassCells (p : Program) (code : CodeObject) : Prop :=
  ∀ slot ∈ code.cellLocals, ∃ symbol spelling, code.locals[slot]? = some symbol ∧
    p.symbols[symbol]? = some spelling ∧ (spelling = "__class__" ∨
      ∃ param ∈ code.typeParams, param.1 = symbol ∧ param.2 = some slot)

theorem verifyCells_ok : code.verifyCells p = .ok () ↔ code.cellCount ≤ maxU16 ∧
    ((∀ slot ∈ code.cellLocals, slot < code.locals.length) ∧ code.cellLocals.Nodup) ∧
    (code.classBody = true → ClassCells p code) ∧ ∀ s ∈ code.freeVars, s < p.symbols.length := by
  unfold verifyCells
  simp only [seq_ok, require_ok, decide_eq_true_eq, Bool.and_eq_true, List.all_eq_true]
  refine and_congr_right' (and_congr_right' ?_)
  split
  · next body =>
    simp only [body, true_imp_iff, seq_ok, require_ok, forM_ok, List.all_eq_true, decide_eq_true_eq]
    refine and_congr_left' (forall₂_congr fun slot _ => ?_)
    cases code.locals[slot]? with
    | none => exact ⟨(fun run => by cases run), fun ⟨_, _, eq, _⟩ => by cases eq⟩
    | some symbol =>
      cases spelled : p.symbols[symbol]? with
      | none =>
        refine ⟨(fun run => by simp only [spelled] at run; cases run), fun ⟨_, _, eq, eq', _⟩ => ?_⟩
        cases eq
        rw [spelled] at eq'
        cases eq'
      | some spelling =>
        simp only [spelled, require_ok, Bool.or_eq_true, List.any_eq_true, Bool.and_eq_true,
          decide_eq_true_eq, Option.some.injEq, exists_and_left, exists_eq_left']
  · next body =>
    simp only [body, require_ok, List.all_eq_true, decide_eq_true_eq, Bool.false_eq_true,
      false_imp_iff, true_and]

/-- What a function site and the code that it makes a function of agree on. -/
structure SiteFits (p : Program) (code : CodeObject) (site : FunctionSite) (child : CodeObject) :
    Prop where
  captures : site.captures.length = child.freeVars.length
  defaults : site.defaults.length = child.signature.defaults.length ∧
    ∀ r ∈ site.defaults, r < code.registers
  typeParams : site.typeParams.length = child.typeParams.length ∧
    ∀ r ∈ site.typeParams, r < code.registers
  annotations : (∀ annotation ∈ site.annotations,
    annotation.1 < p.symbols.length ∧ annotation.2 < code.registers) ∧
    (site.annotations.map (·.1)).Nodup
  cells : ∀ cell ∈ site.captures, cell < code.cellCount

theorem verifyFunctionSite_ok {site : FunctionSite} : code.verifyFunctionSite p site = .ok () ↔
    site.code ∉ p.modules.map (·.code) ∧
      ∃ child, p.code[site.code]? = some child ∧ SiteFits p code site child := by
  unfold verifyFunctionSite
  simp only [seq_ok, require_ok, Bool.and_eq_true, decide_eq_true_eq]
  cases found : p.code[site.code]? with
  | none =>
    have outside := List.getElem?_eq_none_iff.mp found
    exact ⟨fun run => absurd run.1.2 (by omega), fun ⟨_, _, eq, _⟩ => by cases eq⟩
  | some child =>
    have inside := (List.getElem?_eq_some_iff.mp found).1
    simp only [seq_ok, require_ok, Bool.and_eq_true, decide_eq_true_eq, List.all_eq_true,
      Option.some.injEq, exists_eq_left', inside, and_true]
    refine and_congr_right' ⟨?_, ?_⟩
    · rintro ⟨captures, defaults, typeParams, annotations, cells⟩
      exact ⟨captures, defaults, typeParams, annotations, cells⟩
    · rintro ⟨captures, defaults, typeParams, annotations, cells⟩
      exact ⟨captures, defaults, typeParams, annotations, cells⟩

theorem below_of_verify (run : code.verify p = .ok ()) :
    code.Below p.symbols.length p.code.length := by
  obtain ⟨-, -, locals, typeParams, cells, sites, -, -, calls, instructions⟩ := verify_ok.mp run
  simp only [verifyLocals, seq_ok, require_ok, decide_eq_true_eq, List.all_eq_true] at locals
  have freeVars := (verifyCells_ok.mp cells).2.2.2
  refine ⟨locals.2, freeVars, verifyTypeParams_below typeParams, ?_, ?_, ?_, ?_⟩
  · intro call mem
    have checked := calls call mem
    simp only [verifyCall, seq_ok, forM_ok, sym_ok] at checked
    exact checked.2.2.1
  · intro site mem
    obtain ⟨-, child, found, -⟩ := verifyFunctionSite_ok.mp (sites site mem)
    exact (List.getElem?_eq_some_iff.mp found).1
  · intro site mem annotation mem'
    obtain ⟨-, child, -, fits⟩ := verifyFunctionSite_ok.mp (sites site mem)
    exact (fits.annotations.1 annotation mem').1
  · intro i mem
    obtain ⟨pc, bound, rfl⟩ := List.mem_iff_getElem.mp mem
    have checked := instructions (code.instructions[pc], pc) (by
      rw [List.mk_mem_zipIdx_iff_getElem?]
      exact List.getElem?_eq_getElem bound)
    obtain ⟨op, decoded, operands, -⟩ := verifyInstr_ok.mp checked
    exact ⟨op, decoded, verifyOperands_below operands⟩

/-! ### Under other numbers -/

section Renumber

@[simp] theorem cellCount_renumber : (code.renumber f g offset).cellCount = code.cellCount := by
  simp [cellCount, renumber]

@[simp] theorem functions_length_renumber :
    (code.renumber f g offset).functions.length = code.functions.length := by simp [renumber]

@[simp] theorem calls_length_renumber :
    (code.renumber f g offset).calls.length = code.calls.length := by simp [renumber]

@[simp] theorem reg_renumber : (code.renumber f g offset).reg = code.reg := rfl

@[simp] theorem range_renumber : (code.renumber f g offset).range = code.range := rfl

@[simp] theorem verifyRaise_renumber :
    (code.renumber f g offset).verifyRaise = code.verifyRaise := rfl

@[simp] theorem jumpTo_renumber : (code.renumber f g offset).jumpTo = code.jumpTo := by
  funext j
  simp [jumpTo, renumber]

theorem opcode_renumber : (i.renumber f g).opcode = i.opcode := by
  unfold Instr.renumber
  split <;> rfl

theorem a_renumber : (i.renumber f g).a = i.a := by
  unfold Instr.renumber
  split <;> rfl

theorem verifyAdvisories_renumber (run : code.verifyAdvisories = .ok ()) :
    (code.renumber f g offset).verifyAdvisories = .ok () := by
  simp only [verifyAdvisories, require_ok, Bool.and_eq_true, decide_eq_true_eq, List.all_eq_true]
    at run ⊢
  refine ⟨run.1, fun hint mem => ?_⟩
  have checked := run.2 hint mem
  simp only [renumber, List.getElem?_map]
  cases found : code.instructions[hint.pc]? with
  | none =>
    rw [found] at checked
    cases checked
  | some i =>
    rw [found] at checked
    simpa only [Option.map_some, Option.any_some, opcode_renumber] using checked

theorem verifyMetadata_renumber (run : code.verifyMetadata = .ok ()) :
    (code.renumber f g offset).verifyMetadata = .ok () := by
  simp only [verifyMetadata, seq_ok, require_ok, Bool.and_eq_true, decide_eq_true_eq] at run ⊢
  simp only [renumber, List.length_map, List.map_eq_nil_iff, ne_eq] at run ⊢
  exact run

theorem verifyRegions_renumber : (code.renumber f g offset).verifyRegions = code.verifyRegions := by
  have region : (code.renumber f g offset).verifyRegion = code.verifyRegion := by
    funext region
    simp only [verifyRegion, renumber, List.length_map]
    rfl
  unfold verifyRegions
  rw [region]
  rfl

theorem argumentStep_renumber {pc depth : Nat} :
    argumentStep pc depth (i.renumber f g) = argumentStep pc depth i := by
  unfold argumentStep decodeOp
  rw [opcode_renumber, a_renumber]
  cases decoded : Op.ofNat? i.opcode with
  | none => rfl
  | some op =>
    unfold Instr.renumber
    rw [decoded]
    cases op <;> rfl

theorem argumentStack_renumber {depths : List (Option Nat)} {work : List (Nat × Nat)} :
    (code.renumber f g offset).argumentStack depths work = code.argumentStack depths work := by
  induction depths, work using argumentStack.induct code with
  | case1 => rw [argumentStack, argumentStack]
  | case2 depths pc depth work found => rw [argumentStack_outside found, argumentStack_outside found]
  | case3 depths pc depth work previous found differs =>
    rw [argumentStack_seen found, argumentStack_seen found, if_pos differs, if_pos differs]
  | case4 depths pc depth work previous found same ih =>
    rw [argumentStack_seen found, argumentStack_seen found, ih]
  | case5 depths pc depth work new outside =>
    rw [argumentStack_new new, argumentStack_new new, renumber, List.getElem?_map, outside]
    rfl
  | case6 depths pc depth work new i found fault stuck =>
    rw [argumentStack_new new, argumentStack_new new, renumber, List.getElem?_map, found]
    simp only [Option.map_some, argumentStep_renumber, stuck]
  | case7 depths pc depth work new i found next step ih =>
    rw [argumentStack_new new, argumentStack_new new, renumber, List.getElem?_map, found]
    simp only [Option.map_some, argumentStep_renumber, step]
    exact ih

theorem verifyArgumentStack_renumber :
    (code.renumber f g offset).verifyArgumentStack = code.verifyArgumentStack := by
  unfold verifyArgumentStack
  rw [argumentStack_renumber]
  simp only [renumber, List.length_map]

variable (embeds : Embeds p q f g offset)
include embeds

theorem name_lt (below : s < p.symbols.length) : f s < q.symbols.length := by
  have spelled := embeds.names s below
  rw [List.getElem?_eq_getElem below] at spelled
  exact (List.getElem?_eq_some_iff.mp spelled).1

theorem slot_lt (below : s < p.symbols.length) : g s < q.symbols.length := by
  have spelled := embeds.slots s below
  rw [List.getElem?_eq_getElem below] at spelled
  exact (List.getElem?_eq_some_iff.mp spelled).1

theorem nodup_names {symbols : List Nat} (nodup : symbols.Nodup)
    (below : ∀ s ∈ symbols, s < p.symbols.length) : (symbols.map f).Nodup :=
  nodup.map_on fun s mem t mem' => embeds.injective s (below s mem) t (below t mem')

theorem verifyClearBinding_renumber (run : code.verifyClearBinding p a b c = .ok ()) :
    (code.renumber f g offset).verifyClearBinding q a ((Op.clearBinding.readsB a).apply f g b) c =
      .ok () := by
  have inside := verifyClearBinding_below run
  unfold verifyClearBinding at run ⊢
  simp only [seq_ok] at run ⊢
  obtain ⟨flags, run⟩ := run
  refine ⟨flags, ?_⟩
  have mode : a = 0 ∨ a = 1 ∨ a = 2 ∨ a = 3 := by
    simp only [require_ok, Bool.and_eq_true, decide_eq_true_eq] at flags
    omega
  rcases mode with rfl | rfl | rfl | rfl
  · exact run
  · exact sym_ok.mpr (slot_lt embeds (inside (.inl rfl)))
  · show require (b < (code.renumber f g offset).cellCount) _ = _
    rw [cellCount_renumber]
    exact run
  · exact seq_ok.mpr ⟨(seq_ok.mp run).1, sym_ok.mpr (name_lt embeds (inside (.inr rfl)))⟩

theorem verifyClassKeywords_renumber (run : code.verifyClassKeywords p c = .ok ())
    (below : code.Below p.symbols.length p.code.length) :
    (code.renumber f g offset).verifyClassKeywords q c = .ok () := by
  unfold verifyClassKeywords at run ⊢
  simp only [renumber, List.getElem?_map]
  cases found : code.calls[c]? with
  | none =>
    rw [found] at run
    cases run
  | some call =>
    rw [found] at run
    simp only [require_ok, Bool.and_eq_true, decide_eq_true_eq, List.all_eq_true, Option.map_some,
      List.length_map, List.forall_mem_map] at run ⊢
    refine ⟨run.1, fun s mem => ?_⟩
    rw [embeds.names s (below.keywords call (List.mem_of_getElem? found) s mem), run.2 s mem]

theorem verifyOperands_renumber (run : code.verifyOperands p op a b c = .ok ())
    (below : code.Below p.symbols.length p.code.length) :
    (code.renumber f g offset).verifyOperands q op a ((op.readsB a).apply f g b)
      (op.readsC.apply f g c) = .ok () := by
  have inside := verifyOperands_below run
  have name {s : Nat} (below : s < p.symbols.length) : sym q (f s) = .ok () :=
    sym_ok.mpr (name_lt embeds below)
  have slot {s : Nat} (below : s < p.symbols.length) : sym q (g s) = .ok () :=
    sym_ok.mpr (slot_lt embeds below)
  cases op
  case clearBinding => exact verifyClearBinding_renumber embeds run
  case cls =>
    simp only [verifyOperands, seq_ok] at run ⊢
    refine ⟨run.1, run.2.1, ?_, verifyClassKeywords_renumber embeds run.2.2.2 below⟩
    rw [calls_length_renumber]
    exact run.2.2.1
  case loadGlobal | storeGlobal | loadName =>
    simp only [verifyOperands, seq_ok] at run ⊢
    simp only [Op.readsB, Op.readsC, Reads.apply, slot inside.1, true_and]
    tauto
  case importName | delAttr | storeName | argNamed | typeParam | typeAlias =>
    simp only [verifyOperands, seq_ok] at run ⊢
    simp only [Op.readsB, Op.readsC, Reads.apply, name inside.1, true_and]
    tauto
  case importFrom | attr | setAttr =>
    simp only [verifyOperands, seq_ok] at run ⊢
    simp only [Op.readsB, Op.readsC, Reads.apply, name inside.2, and_true]
    tauto
  case classDeref =>
    simp only [verifyOperands, seq_ok] at run ⊢
    simp only [Op.readsB, Op.readsC, Reads.apply, name inside.1, true_and]
    simpa [renumber] using ⟨run.1, run.2.1, run.2.2.2⟩
  case loadCell | storeCell =>
    simp only [verifyOperands, seq_ok, require_ok, Bool.and_eq_true, decide_eq_true_eq] at run ⊢
    rwa [reg_renumber, cellCount_renumber]
  case function =>
    simp only [verifyOperands, seq_ok, require_ok, decide_eq_true_eq] at run ⊢
    rwa [reg_renumber, functions_length_renumber]
  case call =>
    simp only [verifyOperands, seq_ok, require_ok, decide_eq_true_eq] at run ⊢
    rwa [reg_renumber, calls_length_renumber]
  case jump | jumpFalse | jumpTrue | yieldFrom | endAsyncFor | next =>
    simp only [verifyOperands, seq_ok] at run ⊢
    rwa [jumpTo_renumber]
  all_goals exact run

theorem verifyInstr_renumber {pc : Nat} (run : code.verifyInstr p pc i = .ok ())
    (below : code.Below p.symbols.length p.code.length) :
    (code.renumber f g offset).verifyInstr q pc (i.renumber f g) = .ok () := by
  obtain ⟨op, decoded, operands, falls⟩ := verifyInstr_ok.mp run
  refine verifyInstr_ok.mpr ⟨op, by rw [opcode_renumber, decoded], ?_, ?_⟩
  · simpa only [Instr.renumber, decoded] using verifyOperands_renumber embeds operands below
  · simpa only [renumber, List.length_map] using falls

theorem verifyTypeParams_renumber {earlier : List Nat} {params : List (Nat × Option Nat)}
    (run : verifyTypeParams p code earlier params = .ok ())
    (before : ∀ s ∈ earlier, s < p.symbols.length) :
    verifyTypeParams q (code.renumber f g offset) (earlier.map f)
      (params.map fun param => (f param.1, param.2)) = .ok () := by
  induction params generalizing earlier with
  | nil => rfl
  | cons param params ih =>
    obtain ⟨name, slot⟩ := param
    simp only [List.map_cons, verifyTypeParams, seq_ok, require_ok, Bool.and_eq_true,
      decide_eq_true_eq] at run ⊢
    obtain ⟨⟨below, new⟩, at', rest⟩ := run
    refine ⟨⟨name_lt embeds below, ?_⟩, ?_, ?_⟩
    · intro mem
      obtain ⟨s, mem, same⟩ := List.mem_map.mp mem
      exact new (embeds.injective s (before s mem) name below same ▸ mem)
    · cases slot with
      | none => rfl
      | some slot =>
        simp only [Option.all_some, decide_eq_true_eq] at at' ⊢
        simp only [renumber, List.getElem?_map, at', Option.map_some]
    · have inside : ∀ s ∈ earlier ++ [name], s < p.symbols.length := by
        intro s mem
        rcases List.mem_append.mp mem with old | new
        · exact before s old
        · exact List.mem_singleton.mp new ▸ below
      simpa only [List.map_append, List.map_singleton] using ih rest inside

theorem classCells_renumber (cells : ClassCells p code) :
    ClassCells q (code.renumber f g offset) := by
  intro slot mem
  obtain ⟨symbol, spelling, at', spelled, holds⟩ := cells slot mem
  refine ⟨f symbol, spelling, ?_, ?_, ?_⟩
  · simp only [renumber, List.getElem?_map, at', Option.map_some]
  · rw [embeds.names symbol (List.getElem?_eq_some_iff.mp spelled).1, spelled]
  · refine holds.imp_right fun ⟨param, mem, same, there⟩ => ?_
    exact ⟨(f param.1, param.2), List.mem_map_of_mem mem, congrArg f same, there⟩

theorem verifyCells_renumber (run : code.verifyCells p = .ok ())
    (below : code.Below p.symbols.length p.code.length) :
    (code.renumber f g offset).verifyCells q = .ok () := by
  obtain ⟨few, slots, cells, -⟩ := verifyCells_ok.mp run
  refine verifyCells_ok.mpr ⟨by rwa [cellCount_renumber], ⟨?_, slots.2⟩, ?_, ?_⟩
  · simpa only [renumber, List.length_map] using slots.1
  · exact fun body => classCells_renumber embeds (cells body)
  · exact List.forall_mem_map.mpr fun s mem => name_lt embeds (below.freeVars s mem)

theorem siteFits_renumber {site : FunctionSite} {child : CodeObject}
    (fits : SiteFits p code site child) :
    SiteFits q (code.renumber f g offset)
      { site with
        code := site.code + offset
        annotations := site.annotations.map fun annotation => (f annotation.1, annotation.2) }
      (child.renumber f g offset) where
  captures := by simpa only [renumber, List.length_map] using fits.captures
  defaults := fits.defaults
  typeParams := by simpa only [renumber, List.length_map] using fits.typeParams
  annotations := by
    obtain ⟨inside, nodup⟩ := fits.annotations
    refine ⟨List.forall_mem_map.mpr fun annotation mem => ?_, ?_⟩
    · exact ⟨name_lt embeds (inside annotation mem).1, (inside annotation mem).2⟩
    · have names := nodup_names embeds nodup
        (List.forall_mem_map.mpr fun annotation mem => (inside annotation mem).1)
      rw [List.map_map] at names ⊢
      exact names
  cells := by simpa only [cellCount_renumber] using fits.cells

theorem verifyFunctionSite_renumber {site : FunctionSite}
    (run : code.verifyFunctionSite p site = .ok ()) :
    (code.renumber f g offset).verifyFunctionSite q
      { site with
        code := site.code + offset
        annotations := site.annotations.map fun annotation => (f annotation.1, annotation.2) } =
      .ok () := by
  obtain ⟨inner, child, found, fits⟩ := verifyFunctionSite_ok.mp run
  have below := (List.getElem?_eq_some_iff.mp found).1
  refine verifyFunctionSite_ok.mpr ⟨embeds.inner _ below inner, child.renumber f g offset, ?_,
    siteFits_renumber embeds fits⟩
  rw [embeds.code _ below, found, Option.map_some]

theorem verifyCall_renumber {call : CallSite} (run : code.verifyCall p call = .ok ()) :
    (code.renumber f g offset).verifyCall q { call with keywords := call.keywords.map f } =
      .ok () := by
  simp only [verifyCall, seq_ok, forM_ok, sym_ok, require_ok, decide_eq_true_eq, range_renumber,
    List.length_map, List.forall_mem_map] at run ⊢
  obtain ⟨few, window, inside, nodup⟩ := run
  exact ⟨few, window, fun s mem => name_lt embeds (inside s mem), nodup_names embeds nodup inside⟩

theorem verify_renumber (run : code.verify p = .ok ()) :
    (code.renumber f g offset).verify q = .ok () := by
  have below := below_of_verify run
  obtain ⟨metadata, signature, locals, typeParams, cells, sites, advisories, regions, calls,
    instructions⟩ := verify_ok.mp run
  refine verify_ok.mpr ⟨verifyMetadata_renumber metadata, signature, ?_, ?_, verifyCells_renumber embeds cells below, ?_,
    verifyAdvisories_renumber advisories, verifyRegions_renumber.trans regions, ?_, ?_⟩
  · simp only [verifyLocals, seq_ok, require_ok, decide_eq_true_eq, List.all_eq_true] at locals ⊢
    refine ⟨?_, List.forall_mem_map.mpr fun s mem => name_lt embeds (locals.2 s mem)⟩
    rw [renumber, ← List.map_take]
    exact nodup_names embeds locals.1 fun s mem => locals.2 s (List.mem_of_mem_take mem)
  · exact verifyTypeParams_renumber embeds typeParams (List.forall_mem_nil _)
  · exact List.forall_mem_map.mpr fun site mem => verifyFunctionSite_renumber embeds (sites site mem)
  · exact List.forall_mem_map.mpr fun call mem => verifyCall_renumber embeds (calls call mem)
  · intro x mem
    obtain ⟨i, pc⟩ := x
    rw [List.mk_mem_zipIdx_iff_getElem?, renumber, List.getElem?_map] at mem
    obtain ⟨i, found, rfl⟩ := Option.map_eq_some_iff.mp mem
    exact verifyInstr_renumber embeds
      (instructions (i, pc) (List.mk_mem_zipIdx_iff_getElem?.mpr found)) below

end Renumber

end CodeObject

end Tonic
