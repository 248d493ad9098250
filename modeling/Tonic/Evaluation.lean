import Tonic.Execution
import Tonic.Library.Computation

/-!
## The meaning of expressions

Expressions are evaluated from left to right, over the names that are bound where they stand. The
operations are those of the runtime.
-/

namespace Tonic

open Computations

variable {ν ω ε ρ : Type}

namespace Evaluation

variable (host : Host ν ω ε ρ) (scope : Scope) (locals : Nat → Option ν)

def operate (op : Op) (values : List ν) (numbers : List Nat) : Comp ω ε ν :=
  Comp.lift (host.operate op values numbers)

def truth (v : ν) : Comp ω ε Bool := Comp.lift (host.truth v)

/-- What a place holds. -/
def load : Place → Comp ω ε ν
  | .register slot =>
    match locals slot with
    | some v => pure v
    | none => Comp.fail (host.unbound slot)
  | .cell cell => operate host .loadCell [] [cell]
  | .global symbol => operate host .loadGlobal [] [symbol]
  | .name symbol => operate host .loadName [] [symbol]
  | .deref symbol cell => operate host .classDeref [] [symbol, cell]

/-- An iterator is asked until it is exhausted. What it gives is yielded, and what comes back is sent
to it. -/
def delegate (iterator : ν) : Comp ω ε ν :=
  Comp.Repeats (fun sent => do
    let (v, more) ← Comp.lift (host.advance .yieldFrom [sent, iterator])
    if more then
      let sent ← operate host .yield [v] []
      return .inl sent
    else return .inr v) (host.constant .none)

def convert (conversion : FormatConversion) (v : ν) : Comp ω ε ν :=
  match conversion with
  | .none => return v
  | .str => operate host .convert [v] [1]
  | .repr => operate host .convert [v] [2]
  | .ascii => operate host .convert [v] [3]

/-- Arguments are added to a record under their names. -/
def nameArguments (record : ρ) : List (Nat × ν) → Comp ω ε ρ
  | [] => return record
  | (name, v) :: rest => do
    let record ← Comp.lift (host.append .argNamed record v [name, 0])
    nameArguments record rest

def setItems (d : ν) : List (ν × ν) → Comp ω ε Unit
  | [] => return
  | (key, v) :: rest => do
    let _ ← operate host .setItem [d, key, v] []
    setItems d rest

mutual

def eval : Expr → Comp ω ε ν
  | .constant c => return host.constant c
  | .name n =>
    match scope.loadPlace n with
    | .ok place => load host locals place
    | .error _ => Comp.never
  | .yield value => do
    let v ← optional .none value
    operate host (if scope.generator && scope.coroutine then .asyncYield else .yield) [v] []
  | .yieldFrom value => do
    let v ← eval value
    let iterator ← operate host .iter [v] []
    delegate host iterator
  | .await value => do
    let v ← eval value
    let awaitable ← operate host .getAwaitable [v] []
    delegate host awaitable
  | .joinedString [] => return host.constant (.str "")
  | .joinedString (first :: rest) => do
    let v ← eval first
    joins v rest
  | .formattedValue value conversion formatSpec => do
    let v ← eval value
    let v ← convert host conversion v
    let spec ← optional (.str "") formatSpec
    operate host .formatValue [v, spec] []
  | .binary a op b => do
    let x ← eval a
    let y ← eval b
    operate host op.op [x, y] []
  | .unary op e => do
    let v ← eval e
    operate host op.op [v] []
  | .bool conjunction values => boolValues conjunction values
  | .compare left pairs => do
    let v ← eval left
    comparisons v pairs
  | .call callee positional keywords => do
    let f ← eval callee
    if positional.any (·.1) || keywords.any (·.1.isNone) then
      let record ← arguments (positional.length == 1) host.record positional
      let record ← keywordArguments record [] keywords
      Comp.lift (host.callExpanded f record)
    else
      let values ← positionalValues positional
      let named ← keywordValues keywords
      Comp.lift (host.call f values ((keywords.filterMap (·.1)).zip named))
  | .dict items => do
    let d ← operate host .dict [] []
    dictItems d [] items
    return d
  | .set values => do
    let s ← operate host .set [] []
    setValues s values
    return s
  | .tuple values => do
    let vs ← evalAll values
    operate host .tuple vs []
  | .list values => do
    let vs ← evalAll values
    operate host .list vs []
  | .attr value name => do
    let v ← eval value
    operate host .attr [v] [name]
  | .subscript value item => do
    let v ← eval value
    let key ← eval item
    operate host .item [v, key] []
  | .slice start stop step => do
    let start ← optional .none start
    let stop ← optional .none stop
    let step ← optional .none step
    operate host .slice [start, stop, step] []
  | .conditional test yes no => do
    let v ← eval test
    let holds ← truth host v
    if holds then eval yes else eval no

def optional (default : Constant) : Option Expr → Comp ω ε ν
  | none => return host.constant default
  | some e => eval e

def evalAll : List Expr → Comp ω ε (List ν)
  | [] => return []
  | e :: rest => do
    let v ← eval e
    let vs ← evalAll rest
    return v :: vs

def positionalValues : List (Bool × Expr) → Comp ω ε (List ν)
  | [] => return []
  | (_, e) :: rest => do
    let v ← eval e
    let vs ← positionalValues rest
    return v :: vs

def keywordValues : List (Option Nat × Expr) → Comp ω ε (List ν)
  | [] => return []
  | (_, e) :: rest => do
    let v ← eval e
    let vs ← keywordValues rest
    return v :: vs

def arguments (alone : Bool) (record : ρ) : List (Bool × Expr) → Comp ω ε ρ
  | [] => return record
  | (star, e) :: rest => do
    let v ← eval e
    let record ← Comp.lift
      (host.append (if star then .argStar else .argPos) record v [0, (star && alone).toNat])
    arguments alone record rest

def keywordArguments (record : ρ) (named : List (Nat × ν)) :
    List (Option Nat × Expr) → Comp ω ε ρ
  | [] => nameArguments host record named
  | (some name, e) :: rest => do
    let v ← eval e
    keywordArguments record (named ++ [(name, v)]) rest
  | (none, e) :: rest => do
    let record ← nameArguments host record named
    let v ← eval e
    let record ← Comp.lift (host.append .argMapping record v [0, 0])
    keywordArguments record [] rest

def dictItems (d : ν) (pairs : List (ν × ν)) : List (Option Expr × Expr) → Comp ω ε Unit
  | [] => setItems host d pairs
  | (some key, value) :: rest => do
    let k ← eval key
    let v ← eval value
    dictItems d (pairs ++ [(k, v)]) rest
  | (none, value) :: rest => do
    setItems host d pairs
    let v ← eval value
    let _ ← operate host .dictMerge [d, v] []
    dictItems d [] rest

def setValues (s : ν) : List Expr → Comp ω ε Unit
  | [] => return
  | e :: rest => do
    let v ← eval e
    let _ ← operate host .setAdd [s, v] []
    setValues s rest

/-- The first value that decides the matter, or the last one. -/
def boolValues (conjunction : Bool) : List Expr → Comp ω ε ν
  | [] => Comp.never
  | e :: rest => do
    let v ← eval e
    match rest with
    | [] => return v
    | _ :: _ =>
      let holds ← truth host v
      if holds = conjunction then boolValues conjunction rest else return v

/-- Each value is compared with the next one, as long as the comparisons hold. -/
def comparisons (left : ν) : List (CompareOp × Expr) → Comp ω ε ν
  | [] => Comp.never
  | (op, e) :: rest => do
    let right ← eval e
    let v ← operate host op.op [left, right] []
    match rest with
    | [] => return v
    | _ :: _ =>
      let holds ← truth host v
      if holds then comparisons right rest else return v

def joins (text : ν) : List Expr → Comp ω ε ν
  | [] => return text
  | e :: rest => do
    let v ← eval e
    let joined ← operate host .add [text, v] []
    joins joined rest

end

section

-- The equations of the recursion are derived here, before many proofs ask for them at once.
attribute [local simp] eval

end

end Evaluation

end Tonic
