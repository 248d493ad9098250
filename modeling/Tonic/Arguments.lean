import Mathlib.Data.List.Range
import Tonic.Program
import Tonic.Roots

/-!
## Arguments

An argument list is read where the call found it: out of the registers of the caller, out of a few
values of a protocol, or out of a list that star arguments were expanded into. In front of it stands
the receiver of a bound method.
-/

namespace Tonic

inductive Arguments where
  | direct (receiver : Option Value) (first count : Nat) (keywords : List Nat)
  | inline (receiver : Option Value) (positional : Vector Value 3) (count : Nat)
  | expanded (args : ExpandedArgs Value)

/-- What a callable sees of its arguments. -/
@[ext] structure ArgumentList where
  positional : List Value
  keywords : List (String × Value)

namespace Arguments

def receiver : Arguments → Option Value
  | .direct receiver _ _ _ => receiver
  | .inline receiver _ _ => receiver
  | .expanded args => args.receiver

def invalidKeywords : Arguments → List (Value × Value)
  | .expanded args => args.invalidKeywords
  | _ => []

def deferredStar : Arguments → Option Value
  | .expanded args => args.deferredStar
  | _ => none

/-- The arguments after the receiver. -/
def given : Arguments → Nat
  | .direct _ _ count _ => count
  | .inline _ _ count => count
  | .expanded args => args.positional.length

def count (args : Arguments) : Nat := args.receiver.toList.length + args.given

def withReceiver (r : Option Value) : Arguments → Arguments
  | .direct _ first count keywords => .direct r first count keywords
  | .inline _ positional count => .inline r positional count
  | .expanded args => .expanded { args with receiver := r }

/-- There is one slot for a receiver. -/
def bind (r : Value) (args : Arguments) : Except Fault Arguments :=
  if args.receiver.isSome then throw (bytecodeError "duplicate bound receiver")
  else return args.withReceiver (some r)

section Reading

variable (symbols : List String) (registers : List Value)

/-- A register or symbol outside of its table does not occur in verified code. -/
def valueAt (i : Nat) : Arguments → Value
  | .direct _ first _ _ => registers.getD (first + i) .unbound
  | .inline _ positional _ => positional.toList.getD i .unbound
  | .expanded args => args.positional.getD i .unbound

def positional (i : Nat) (args : Arguments) : Value :=
  match args.receiver, i with
  | some r, 0 => r
  | some _, i + 1 => args.valueAt registers i
  | none, i => args.valueAt registers i

def keywordCount : Arguments → Nat
  | .direct _ _ _ keywords => keywords.length
  | .inline _ _ _ => 0
  | .expanded args => args.keywords.length

def keyword (i : Nat) : Arguments → String × Value
  | .direct _ first count keywords =>
    (symbols.getD (keywords.getD i 0) "", registers.getD (first + count + i) .unbound)
  | .inline _ _ _ => ("", .unbound)
  | .expanded args => args.keywords.getD i ("", .unbound)

def owned (args : Arguments) : ExpandedArgs Value where
  receiver := args.receiver
  positional := (List.range' args.receiver.toList.length args.given).map
    (args.positional registers)
  keywords := (List.range args.keywordCount).map (args.keyword symbols registers)
  deferredStar := args.deferredStar
  invalidKeywords := args.invalidKeywords

def list (args : Arguments) : ArgumentList where
  positional := (List.range args.count).map (args.positional registers)
  keywords := (List.range args.keywordCount).map (args.keyword symbols registers)

/-- The arguments as a list of their own, with more in front and without a receiver slot. -/
def prepend (front : List Value) (args : Arguments) : Arguments :=
  .expanded { args.owned symbols registers with
    receiver := none
    positional := front ++ (args.list symbols registers).positional }

end Reading

/-! ### The list of a form -/

section Forms

variable {symbols : List String} {registers : List Value} {args : Arguments}

@[simp] theorem receiver_withReceiver (r : Option Value) : (args.withReceiver r).receiver = r := by
  cases args <;> rfl

@[simp] theorem given_withReceiver (r : Option Value) : (args.withReceiver r).given = args.given := by
  cases args <;> rfl

@[simp] theorem keywordCount_withReceiver (r : Option Value) :
    (args.withReceiver r).keywordCount = args.keywordCount := by
  cases args <;> rfl

@[simp] theorem invalidKeywords_withReceiver (r : Option Value) :
    (args.withReceiver r).invalidKeywords = args.invalidKeywords := by
  cases args <;> rfl

theorem valueAt_withReceiver (r : Option Value) (i : Nat) :
    (args.withReceiver r).valueAt registers i = args.valueAt registers i := by
  cases args <;> rfl

theorem keyword_withReceiver (r : Option Value) (i : Nat) :
    (args.withReceiver r).keyword symbols registers i = args.keyword symbols registers i := by
  cases args <;> rfl

/-- The receiver stands in front of the other arguments. -/
theorem list_positional : (args.list symbols registers).positional =
    args.receiver.toList ++ (List.range args.given).map fun i => args.valueAt registers i := by
  unfold list count
  cases bound : args.receiver with
  | none => simp [positional, bound]
  | some r =>
    simp only [Option.toList, List.length_singleton, Nat.add_comm 1, List.range_succ_eq_map]
    simp [positional, bound, Function.comp_def]

theorem list_withReceiver (r : Value) (free : args.receiver = none) :
    (args.withReceiver (some r)).list symbols registers =
      { args.list symbols registers with
        positional := r :: (args.list symbols registers).positional } := by
  have positional := @list_positional symbols registers (args.withReceiver (some r))
  simp only [receiver_withReceiver, given_withReceiver, valueAt_withReceiver] at positional
  have keywords : ((args.withReceiver (some r)).list symbols registers).keywords =
      (args.list symbols registers).keywords := by
    simp [list, keyword_withReceiver]
  rw [ArgumentList.mk.injEq]
  refine ⟨?_, keywords⟩
  rw [positional, list_positional, free]
  rfl

theorem map_getD_range {α : Type} (xs : List α) (x : α) :
    (List.range xs.length).map (fun i => xs.getD i x) = xs := by
  apply List.ext_getElem
  · simp
  · intro i h _
    simp_all

theorem list_expanded (args : ExpandedArgs Value) : (expanded args).list symbols registers =
    ⟨args.receiver.toList ++ args.positional, args.keywords⟩ := by
  rw [ArgumentList.mk.injEq]
  refine ⟨?_, ?_⟩
  · rw [list_positional]
    exact congrArg _ (map_getD_range args.positional .unbound)
  · exact map_getD_range args.keywords ("", .unbound)

/-- Taking the arguments over into a list of their own keeps what the callable sees. -/
theorem list_owned : (expanded (args.owned symbols registers)).list symbols registers =
    args.list symbols registers := by
  rw [list_expanded, ArgumentList.mk.injEq]
  refine ⟨?_, rfl⟩
  rw [list_positional, owned, List.range'_eq_map_range, List.map_map]
  refine congrArg _ (List.map_congr_left fun i _ => ?_)
  cases bound : args.receiver with
  | none => simp [positional, bound]
  | some r => simp [positional, bound, Nat.add_comm 1]

@[simp] theorem receiver_prepend (front : List Value) :
    (args.prepend symbols registers front).receiver = none := rfl

@[simp] theorem invalidKeywords_prepend (front : List Value) :
    (args.prepend symbols registers front).invalidKeywords = args.invalidKeywords := rfl

theorem list_prepend (front : List Value) : (args.prepend symbols registers front).list symbols
    registers = { args.list symbols registers with
      positional := front ++ (args.list symbols registers).positional } :=
  list_expanded _

end Forms

end Arguments

end Tonic
