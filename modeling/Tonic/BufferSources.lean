import Tonic.JitFlow
import Tonic.Library.Dataflow

/-!
## Where buffers come from

Compiled code reads a buffer directly if it knows which parameter the buffer came in by. The
analysis follows the parameters through moves, from the entry along all jumps, and forgets one where
two ways disagree.
-/

namespace Tonic

open Outcome

/-- The opcodes of compiled code that leave every register as it is. -/
def Op.keepsRegisters : Op → Bool
  | .jump | .jumpFalse | .jumpTrue | .ret | .setItem | .beginArgs | .argPos | .argStar | .argNamed
  | .argMapping => true
  | _ => false

/-- The opcodes that `validate_supported` admits. -/
def Op.compiled : Op → Bool
  | .const | .move | .loadGlobal | .loadCell | .storeCell | .add | .inplaceAdd | .sub | .mul | .div
  | .floorDiv | .mod | .neg | .pos | .not | .eq | .ne | .lt | .le | .gt | .ge | .is | .isNot | .jump
  | .jumpFalse | .jumpTrue | .call | .attr | .beginArgs | .argPos | .argStar | .argNamed
  | .argMapping | .callExpanded | .tuple | .item | .setItem | .ret => true
  | _ => false

section Facts

variable {φ : Type} {n : Nat}

def readFact (facts : Vector φ n) (register : Nat) : Except JitError φ :=
  if inside : register < n then .ok facts[register] else .error .outOfBounds

def writeFact (facts : Vector φ n) (register : Nat) (fact : φ) : Except JitError (Vector φ n) :=
  if inside : register < n then .ok (facts.set register fact) else .error .outOfBounds

theorem readFact_ok {facts : Vector φ n} {register : Nat} {fact : φ}
    (read : readFact facts register = .ok fact) :
    ∃ inside : register < n, facts[register] = fact := by
  unfold readFact at read
  split at read
  · next inside => exact ⟨inside, Except.ok.inj read⟩
  · cases read

theorem writeFact_ok {facts after : Vector φ n} {register : Nat} {fact : φ}
    (written : writeFact facts register fact = .ok after) :
    ∃ inside : register < n, after = facts.set register fact := by
  unfold writeFact at written
  split at written
  · next inside => exact ⟨inside, (Except.ok.inj written).symm⟩
  · cases written

end Facts

namespace CodeObject

variable (code : CodeObject)

/-- What the analysis knows of a register: the parameter whose value it holds. -/
def sourceDomain : Dataflow.Domain (Option Nat) where
  merge known incoming := if known = incoming then known else none
  weight fact := if fact.isSome then 1 else 0
  lighter known incoming differs := by
    by_cases same : known = incoming
    · exact absurd (if_pos same) differs
    · rw [if_neg same] at differs ⊢
      cases known with
      | none => exact absurd rfl differs
      | some parameter => exact Nat.zero_lt_one

abbrev Sources := Vector (Option Nat) code.registers

variable {code} in
def sourceTransfer (op : Op) (i : Instr) (before : code.Sources) : Except JitError code.Sources :=
  match op with
  | .move => do
    let source ← readFact before i.b
    writeFact before i.a source
  | _ => if op.keepsRegisters then .ok before else writeFact before i.a none

def sourceSystem : Dataflow.System code.Sources JitError where
  toDomain := sourceDomain.vector code.registers
  flow pc before :=
    match code.instructions[pc]? with
    | none => .error .outOfBounds
    | some i =>
      match Op.ofNat? i.opcode with
      | none => .error (.backend "verified opcode could not be decoded")
      | some op => do
        let after ← sourceTransfer op i before
        return (code.targets op pc i).map (·, after)
  outside := .outOfBounds

def initialSources (parameters : List Nat) : Except JitError code.Sources :=
  parameters.foldlM (fun sources parameter => writeFact sources parameter (some parameter))
    (Vector.replicate code.registers none)

def analyzeBufferSources (parameters : List Nat) : Except JitError (List (Option code.Sources)) :=
  if code.instructions = [] then .ok []
  else do
    let initial ← code.initialSources parameters
    code.sourceSystem.solve ((List.replicate code.instructions.length none).set 0 (some initial)) [0]

/-! ### Executions -/

variable {α : Type}

/-- One instruction of compiled code, as far as the registers are concerned. What it computes is
left open, and so is where a jump goes. -/
inductive Moves (pc : Nat) (registers : Vector α code.registers) (next : Nat) :
    Vector α code.registers → Prop where
  | moves {i : Instr} (found : code.instructions[pc]? = some i)
    (decoded : Op.ofNat? i.opcode = some .move) (target : i.a < code.registers)
    (source : i.b < code.registers) (goes : next ∈ code.targets .move pc i) :
    Moves pc registers next (registers.set i.a registers[i.b])
  | writes {i : Instr} {op : Op} (found : code.instructions[pc]? = some i)
    (decoded : Op.ofNat? i.opcode = some op) (compiled : op.compiled) (other : op ≠ .move)
    (writes : ¬ op.keepsRegisters) (target : i.a < code.registers) (value : α)
    (goes : next ∈ code.targets op pc i) : Moves pc registers next (registers.set i.a value)
  | keeps {i : Instr} {op : Op} (found : code.instructions[pc]? = some i)
    (decoded : Op.ofNat? i.opcode = some op) (compiled : op.compiled)
    (keeps : op.keepsRegisters ∨ op = .storeCell) (goes : next ∈ code.targets op pc i) :
    Moves pc registers next registers

/-- Every register that a parameter is known for holds the value the parameter came in with. -/
def Holds (entry : Vector α code.registers) (sources : code.Sources)
    (registers : Vector α code.registers) : Prop :=
  ∀ r (inside : r < code.registers) parameter, sources[r] = some parameter →
    ∃ known : parameter < code.registers, registers[r] = entry[parameter]

section Sound

variable {code} {entry registers : Vector α code.registers} {before after : code.Sources}

theorem sourceDomain_order : sourceDomain.Order fun a b => ∀ parameter, b = some parameter →
    a = some parameter where
  refl _ _ := id
  trans first second parameter same := first parameter (second parameter same)
  left known incoming parameter same := by
    change (if known = incoming then known else none) = some parameter at same
    split at same
    · exact same
    · cases same
  right known incoming parameter same := by
    change (if known = incoming then known else none) = some parameter at same
    split at same
    · next eq => exact eq ▸ same
    · cases same

theorem Holds.set_none (holds : code.Holds entry before registers) {r : Nat}
    (target : r < code.registers) (value : α) :
    code.Holds entry (before.set r none) (registers.set r value) := by
  intro r' inside parameter known
  by_cases same : r = r'
  · subst same
    rw [Vector.getElem_set_self] at known
    cases known
  · rw [Vector.getElem_set_ne _ _ same] at known ⊢
    exact holds r' inside parameter known

theorem Holds.forget (holds : code.Holds entry before registers) {r : Nat}
    (target : r < code.registers) : code.Holds entry (before.set r none) registers := by
  have kept := holds.set_none target registers[r]
  rwa [Vector.set_getElem_self] at kept

theorem Holds.move (holds : code.Holds entry before registers) {a b : Nat}
    (target : a < code.registers) (source : b < code.registers) :
    code.Holds entry (before.set a before[b]) (registers.set a registers[b]) := by
  intro r inside parameter known
  by_cases same : a = r
  · subst same
    rw [Vector.getElem_set_self] at known ⊢
    exact holds b source parameter known
  · rw [Vector.getElem_set_ne _ _ same] at known ⊢
    exact holds r inside parameter known

/-- One instruction. -/
theorem Holds.step (holds : code.Holds entry before registers) {pc next : Nat}
    {registers' : Vector α code.registers} {edges : List (Nat × code.Sources)}
    (flow : code.sourceSystem.flow pc before = .ok edges)
    (moves : code.Moves pc registers next registers') :
    ∃ out, (next, out) ∈ edges ∧ code.Holds entry out registers' := by
  have flows {i : Instr} {op : Op} (found : code.instructions[pc]? = some i)
      (decoded : Op.ofNat? i.opcode = some op) : ∃ out, sourceTransfer op i before = .ok out ∧
        edges = (code.targets op pc i).map (·, out) := by
    simp only [sourceSystem, found, decoded] at flow
    obtain ⟨out, transfer, rest⟩ := bind_ok flow
    exact ⟨out, transfer, (Except.ok.inj rest).symm⟩
  cases moves with
  | moves found decoded target source goes =>
    obtain ⟨out, transfer, rfl⟩ := flows found decoded
    obtain ⟨fact, read, written⟩ := bind_ok transfer
    obtain ⟨_, rfl⟩ := readFact_ok read
    obtain ⟨_, rfl⟩ := writeFact_ok written
    exact ⟨_, List.mem_map.mpr ⟨next, goes, rfl⟩, holds.move target source⟩
  | @writes i op found decoded compiled other writes target value goes =>
    obtain ⟨out, transfer, rfl⟩ := flows found decoded
    have written : writeFact before i.a none = .ok out := by
      unfold sourceTransfer at transfer
      split at transfer
      · exact absurd rfl other
      · rwa [if_neg writes] at transfer
    obtain ⟨_, rfl⟩ := writeFact_ok written
    exact ⟨_, List.mem_map.mpr ⟨next, goes, rfl⟩, holds.set_none target value⟩
  | @keeps i op found decoded compiled keeps goes =>
    obtain ⟨out, transfer, rfl⟩ := flows found decoded
    refine ⟨out, List.mem_map.mpr ⟨next, goes, rfl⟩, ?_⟩
    unfold sourceTransfer at transfer
    split at transfer
    · obtain no | no := keeps <;> cases no
    · split at transfer
      · cases transfer
        exact holds
      · obtain ⟨inside, rfl⟩ := writeFact_ok transfer
        exact holds.forget inside

theorem initialSources_holds {parameters : List Nat} {initial : code.Sources}
    (run : code.initialSources parameters = .ok initial) : code.Holds entry initial entry := by
  unfold initialSources at run
  have fresh : code.Holds entry (Vector.replicate code.registers none) entry := by
    intro r inside parameter known
    rw [Vector.getElem_replicate] at known
    cases known
  revert run
  generalize Vector.replicate code.registers (none : Option Nat) = sources at fresh
  intro run
  induction parameters generalizing sources with
  | nil =>
    cases run
    exact fresh
  | cons parameter parameters ih =>
    obtain ⟨sources', written, rest⟩ := bind_ok run
    obtain ⟨inside, rfl⟩ := writeFact_ok written
    refine ih _ (fun r inside' known eq => ?_) rest
    by_cases same : parameter = r
    · subst same
      rw [Vector.getElem_set_self] at eq
      cases eq
      exact ⟨inside, rfl⟩
    · rw [Vector.getElem_set_ne _ _ same] at eq
      exact fresh r inside' known eq

end Sound

/-! ### The analysis as a whole -/

variable {code} in
/-- Code of compiled opcodes reads and writes registers that it has. -/
theorem operands_inside {p : Program} {op : Op} {a b c : Nat} (compiled : op.compiled)
    (valid : code.verifyOperands p op a b c = .ok ()) :
    (¬ op.keepsRegisters → a < code.registers) ∧ (op = .move → b < code.registers) := by
  have reg {r : Nat} (ok : code.reg r = .ok ()) : r < code.registers :=
    of_decide_eq_true (require_ok.mp ok)
  cases op <;> first
    | exact absurd compiled Bool.false_ne_true
    | exact ⟨fun writes => absurd rfl writes, fun no => by cases no⟩
    | exact ⟨fun _ => reg (seq_ok.mp valid).1, fun no => by contradiction⟩
    | exact ⟨fun _ => reg (seq_ok.mp valid).1, fun _ => reg (seq_ok.mp (seq_ok.mp valid).2).1⟩

theorem sourceTransfer_ok {code : CodeObject} {op : Op} {i : Instr}
    (target : ¬ op.keepsRegisters → i.a < code.registers)
    (source : op = .move → i.b < code.registers) (before : code.Sources) :
    ∃ after, sourceTransfer op i before = .ok after := by
  unfold sourceTransfer
  split
  · have low := source rfl
    have into := target Bool.false_ne_true
    refine ⟨before.set i.a before[i.b], ?_⟩
    rw [readFact, dif_pos low]
    exact dif_pos into
  · by_cases keeps : op.keepsRegisters
    · exact ⟨before, if_pos keeps⟩
    · refine ⟨before.set i.a none (target keeps), ?_⟩
      rw [if_neg keeps, writeFact, dif_pos (target keeps)]

theorem initialSources_ok {parameters : List Nat} (inside : ∀ p ∈ parameters, p < code.registers) :
    ∃ initial, code.initialSources parameters = .ok initial := by
  unfold initialSources
  generalize Vector.replicate code.registers (none : Option Nat) = sources
  induction parameters generalizing sources with
  | nil => exact ⟨sources, rfl⟩
  | cons parameter parameters ih =>
    have here := inside parameter (List.mem_cons_self ..)
    obtain ⟨initial, rest⟩ := ih (fun p member => inside p (List.mem_cons_of_mem _ member))
      (sources.set parameter (some parameter))
    refine ⟨initial, ?_⟩
    rw [List.foldlM_cons, writeFact, dif_pos here]
    exact rest

/-- The analysis of verified code comes to an end, and what it says of a register holds whenever the
instruction is reached. -/
theorem analyzeBufferSources_sound {p : Program} (verified : code.verify p = .ok ())
    (compiled : ∀ i ∈ code.instructions, ∀ op, Op.ofNat? i.opcode = some op → op.compiled)
    {parameters : List Nat} (profile : ∀ parameter ∈ parameters, parameter < code.params) :
    ∃ before, code.analyzeBufferSources parameters = .ok before ∧
      ∀ (entry : Vector α code.registers) (pc : Nat) (registers : Vector α code.registers),
        Dataflow.System.Reaches code.Moves (0, entry) pc registers →
        ∃ sources, before[pc]? = some (some sources) ∧ code.Holds entry sources registers := by
  have flows := flows_of_verified verified
  obtain ⟨metadata, -, -, -, -, -, -, -, -, checked⟩ := verify_ok.mp verified
  simp only [verifyMetadata, seq_ok, require_ok, Bool.and_eq_true, decide_eq_true_eq] at metadata
  obtain ⟨-, ⟨⟨⟨⟨⟨nonempty, -⟩, -⟩, -⟩, params⟩, locals⟩⟩ := metadata
  have start : 0 < code.instructions.length := List.length_pos_of_ne_nil nonempty
  obtain ⟨initial, entered⟩ := code.initialSources_ok fun q member =>
    Nat.lt_of_lt_of_le (profile q member) (Nat.le_trans params locals)
  have length : ((List.replicate code.instructions.length none).set 0 (some initial)).length =
      code.instructions.length := by
    rw [List.length_set, List.length_replicate]
  have first : ((List.replicate code.instructions.length none).set 0 (some initial))[0]? =
      some (some initial) := by
    apply List.getElem?_set_self
    rwa [List.length_replicate]
  have flow (pc : Nat) (inside : pc < code.instructions.length) (state : code.Sources) :
      ∃ edges, code.sourceSystem.flow pc state = .ok edges ∧
        ∀ target incoming, (target, incoming) ∈ edges → target < code.instructions.length := by
    have found := List.getElem?_eq_getElem inside
    obtain ⟨op, decoded, operands, -⟩ :=
      verifyInstr_ok.mp (checked (_, pc) (List.mk_mem_zipIdx_iff_getElem?.mpr found))
    have operands := operands_inside (compiled _ (List.getElem_mem inside) op decoded) operands
    obtain ⟨after, transfer⟩ := sourceTransfer_ok operands.1 operands.2 state
    refine ⟨(code.targets op pc code.instructions[pc]).map (·, after), ?_, ?_⟩
    · simp only [sourceSystem, found, decoded, transfer]
      rfl
    · intro target incoming member
      obtain ⟨next, goes, same⟩ := List.mem_map.mp member
      cases same
      exact targets_inside flows found decoded _ goes
  have queued (point : Nat) (member : point ∈ [0]) :
      Dataflow.Seen ((List.replicate code.instructions.length none).set 0 (some initial)) point := by
    rw [List.mem_singleton.mp member]
    exact ⟨initial, first⟩
  obtain ⟨before, run⟩ := Dataflow.System.solve_ok (g := code.sourceSystem) flow length queued
  refine ⟨before, ?_, fun entry pc registers reached => ?_⟩
  · rw [analyzeBufferSources, if_neg nonempty, entered]
    exact run
  · have only (point : Nat) (state : code.Sources)
        (seen : ((List.replicate code.instructions.length none).set 0 (some initial))[point]? =
          some (some state)) : point ∈ [0] := by
      by_contra other
      have elsewhere : 0 ≠ point := fun same => other (same ▸ List.mem_singleton_self 0)
      rw [List.getElem?_set_ne elsewhere, List.getElem?_replicate] at seen
      split at seen <;> cases seen
    obtain ⟨grows, solved⟩ := Dataflow.System.solve_solved (g := code.sourceSystem)
      (sourceDomain_order.vector code.registers) (fun point state seen =>
        .inl (only point state seen)) run
    obtain ⟨known, found, covers⟩ := grows 0 initial first
    have weaken (s t : code.Sources) (c : Vector α code.registers)
        (le : Dataflow.Pointwise (fun a b => ∀ parameter, b = some parameter →
          a = some parameter) s t) (holds : code.Holds entry s c) : code.Holds entry t c :=
      fun r inside parameter same => holds r inside parameter (le r inside parameter same)
    refine solved.describes weaken ?_ ?_ reached
    · intro point state edges c after d edges_eq holds moves
      exact holds.step edges_eq moves
    · exact ⟨known, found, weaken _ _ _ covers (initialSources_holds entered)⟩

section Move

/-- The parameter is moved, and on one of two ways it is overwritten. -/
def moving : CodeObject where
  classBody := false
  generator := false
  coroutine := false
  name := "moving"
  params := 1
  signature := ⟨1, 0, 0, none, none, []⟩
  locals := [0]
  typeParams := []
  registers := 2
  instructions := [⟨2, 1, 0, 0⟩, ⟨31, 0, 3, 0⟩, ⟨1, 0, 0, 0⟩, ⟨41, 1, 0, 0⟩]
  spans := List.replicate 4 ⟨0, 0⟩
  constants := [.none]
  calls := []
  cellLocals := []
  freeVars := []
  functions := []
  advisoryResults := []
  exceptionRegions := []

theorem moving_verified : moving.verify ⟨bytecodeVersion, ["x"], [moving], []⟩ = .ok () := by
  rfl

theorem moving_compiled : ∀ i ∈ moving.instructions, ∀ op, Op.ofNat? i.opcode = some op →
    op.compiled := by
  intro i member op decoded
  simp only [moving, List.mem_cons, List.not_mem_nil, or_false] at member
  obtain rfl | rfl | rfl | rfl := member <;> cases decoded <;> rfl

theorem analyzeBufferSources_moving : ∃ before, moving.analyzeBufferSources [0] = .ok before ∧
    ∀ (entry : Vector Nat moving.registers) (pc : Nat) (registers : Vector Nat moving.registers),
      Dataflow.System.Reaches moving.Moves (0, entry) pc registers →
      ∃ sources, before[pc]? = some (some sources) ∧ moving.Holds entry sources registers :=
  moving.analyzeBufferSources_sound moving_verified moving_compiled (by decide)

end Move

end CodeObject

end Tonic
