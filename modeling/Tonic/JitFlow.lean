import Mathlib.Data.List.Chain
import Tonic.Library.Search
import Tonic.LinkVerified

/-!
## Control flow of compiled code

The compiler follows the jumps of a code object itself. Whether an instruction dominates another one
is found out by a search that may not go through it.
-/

namespace Tonic

open Outcome

/-- `Error`, as far as the analyses of the compiler return it, and a panic. -/
inductive JitError where
  | unsupported (pc : Nat) (opcode : Option Op) (reason : String)
  | invalidBytecode (pc : Option Nat) (message : String)
  | backend (message : String)
  | panicked (message : String)
deriving DecidableEq

def JitError.outOfBounds : JitError := .panicked "index out of bounds"

namespace CodeObject

variable (code : CodeObject)

def fallthrough (pc : Nat) : List Nat :=
  if pc + 1 < code.instructions.length then [pc + 1] else []

/-- Where control goes from an instruction of compiled code. -/
def targets (op : Op) (pc : Nat) (i : Instr) : List Nat :=
  match op with
  | .ret => []
  | .jump => [i.a]
  | .jumpFalse | .jumpTrue => i.b :: code.fallthrough pc
  | _ => code.fallthrough pc

/-- Where the search for a dominator goes from an instruction; a `Raise` ends it. -/
def dominanceTargets (op : Op) (pc : Nat) (i : Instr) : List Nat :=
  match op with
  | .raise => []
  | _ => code.targets op pc i

/-- Every opcode is known, and no jump leaves the code. -/
def Flows : Prop :=
  ∀ pc i, code.instructions[pc]? = some i → ∃ op, Op.ofNat? i.opcode = some op ∧
    ∀ target ∈ code.targets op pc i, target < code.instructions.length

def Edge (pc next : Nat) : Prop :=
  ∃ i op, code.instructions[pc]? = some i ∧ Op.ofNat? i.opcode = some op ∧
    next ∈ code.dominanceTargets op pc i

section Dominance

variable {code}

theorem fallthrough_inside {pc target : Nat} (member : target ∈ code.fallthrough pc) :
    target < code.instructions.length := by
  unfold fallthrough at member
  split at member
  · next inside => exact List.mem_singleton.mp member ▸ inside
  · cases member

/-- Code that was verified keeps to itself. -/
theorem flows_of_verified {p : Program} (verified : code.verify p = .ok ()) : code.Flows := by
  intro pc i found
  have checked : code.verifyInstr p pc i = .ok () :=
    (verify_ok.mp verified).2.2.2.2.2.2.2.2.2 (i, pc) (List.mk_mem_zipIdx_iff_getElem?.mpr found)
  unfold verifyInstr decodeOp at checked
  cases decoded : Op.ofNat? i.opcode with
  | none =>
    rw [decoded] at checked
    cases checked
  | some op =>
    rw [decoded] at checked
    obtain ⟨operands, -⟩ := seq_ok.mp checked
    refine ⟨op, rfl, fun target member => ?_⟩
    have jump {j : Nat} (valid : code.jumpTo j = .ok ()) : j < code.instructions.length :=
      of_decide_eq_true (require_ok.mp valid)
    unfold targets at member
    split at member
    · cases member
    · obtain ⟨valid, -⟩ := seq_ok.mp operands
      exact List.mem_singleton.mp member ▸ jump valid
    · obtain ⟨-, rest⟩ := seq_ok.mp operands
      obtain ⟨valid, -⟩ := seq_ok.mp rest
      cases List.mem_cons.mp member with
      | inl here => exact here ▸ jump valid
      | inr later => exact fallthrough_inside later
    · obtain ⟨-, rest⟩ := seq_ok.mp operands
      obtain ⟨valid, -⟩ := seq_ok.mp rest
      cases List.mem_cons.mp member with
      | inl here => exact here ▸ jump valid
      | inr later => exact fallthrough_inside later
    · exact fallthrough_inside member

theorem targets_inside {pc : Nat} {i : Instr} {op : Op} (flows : code.Flows)
    (found : code.instructions[pc]? = some i) (decoded : Op.ofNat? i.opcode = some op) :
    ∀ target ∈ code.targets op pc i, target < code.instructions.length := by
  obtain ⟨op', decoded', inside⟩ := flows pc i found
  rw [decoded] at decoded'
  cases decoded'
  exact inside

end Dominance

section Branch

end Branch

end CodeObject

end Tonic
