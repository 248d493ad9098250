import Tonic.Program

/-!
## Syntax trees

Expressions as the parser hands them to the lowering. Where a node stands in the text is left out,
and so are the nodes that come with code objects of their own.
-/

namespace Tonic

inductive BinaryOp where
  | add | subtract | multiply | matrixMultiply | power | bitOr | bitXor | bitAnd | leftShift
  | rightShift | floorDivide | modulo | divide
deriving DecidableEq

inductive UnaryOp where
  | negative | positive | invert | not
deriving DecidableEq

inductive CompareOp where
  | equal | notEqual | less | lessEqual | greater | greaterEqual | is | isNot | mem | notMem
deriving DecidableEq

inductive FormatConversion where
  | none | str | repr | ascii
deriving DecidableEq

inductive Expr where
  | constant (value : Constant)
  | name (symbol : Nat)
  | tuple (values : List Expr)
  | list (values : List Expr)
  | set (values : List Expr)
  | binary (left : Expr) (op : BinaryOp) (right : Expr)
  | unary (op : UnaryOp) (value : Expr)
  | bool (conjunction : Bool) (values : List Expr)
  | compare (left : Expr) (pairs : List (CompareOp × Expr))
  /-- A positional argument may be starred; a keyword without a name is a mapping. -/
  | call (callee : Expr) (positional : List (Bool × Expr)) (keywords : List (Option Nat × Expr))
  /-- An item without a key is merged. -/
  | dict (items : List (Option Expr × Expr))
  | attr (value : Expr) (name : Nat)
  | subscript (value item : Expr)
  | slice (start stop step : Option Expr)
  | conditional (test yes no : Expr)
  | yield (value : Option Expr)
  | yieldFrom (value : Expr)
  | await (value : Expr)
  | joinedString (values : List Expr)
  | formattedValue (value : Expr) (conversion : FormatConversion) (formatSpec : Option Expr)

namespace Expr

def children : Expr → List Expr
  | constant _ | name _ => []
  | tuple values | list values | set values | bool _ values | joinedString values => values
  | binary left _ right => [left, right]
  | unary _ value | attr value _ | yieldFrom value | await value => [value]
  | compare left pairs => left :: pairs.map (·.2)
  | call callee positional keywords => callee :: positional.map (·.2) ++ keywords.map (·.2)
  | dict items => items.filterMap (·.1) ++ items.map (·.2)
  | subscript value item => [value, item]
  | slice start stop step => [start, stop, step].filterMap id
  | conditional test yes no => [test, yes, no]
  | yield value => value.toList
  | formattedValue value _ formatSpec => value :: formatSpec.toList

theorem sizeOf_snd_lt {α : Type} [SizeOf α] {pairs : List (α × Expr)} {e : Expr}
    (member : e ∈ pairs.map (·.2)) : sizeOf e < sizeOf pairs := by
  obtain ⟨pair, inside, rfl⟩ := List.mem_map.mp member
  have bound := List.sizeOf_lt_of_mem inside
  have : sizeOf pair = 1 + sizeOf pair.1 + sizeOf pair.2 := rfl
  omega

theorem sizeOf_fst_lt {items : List (Option Expr × Expr)} {e : Expr}
    (member : e ∈ items.filterMap (·.1)) : sizeOf e < sizeOf items := by
  obtain ⟨⟨key, value⟩, inside, rfl⟩ := List.mem_filterMap.mp member
  have bound := List.sizeOf_lt_of_mem inside
  simp only [Prod.mk.sizeOf_spec, Option.some.sizeOf_spec] at bound
  omega

theorem sizeOf_toList_lt {value : Option Expr} {e : Expr} (member : e ∈ value.toList) :
    sizeOf e < sizeOf value := by
  rw [Option.mem_toList] at member
  subst member
  simp only [Option.some.sizeOf_spec]
  omega

theorem sizeOf_children {e child : Expr} (member : child ∈ e.children) :
    sizeOf child < sizeOf e := by
  cases e with
  | constant | name => cases member
  | tuple values | list values | set values | bool _ values | joinedString values =>
    have : sizeOf child < sizeOf values := List.sizeOf_lt_of_mem member
    simp only [tuple.sizeOf_spec, list.sizeOf_spec, set.sizeOf_spec, bool.sizeOf_spec,
      joinedString.sizeOf_spec]
    omega
  | binary left op right =>
    simp only [children, List.mem_cons, List.not_mem_nil, or_false] at member
    simp only [binary.sizeOf_spec]
    obtain rfl | rfl := member <;> omega
  | unary _ value | attr value _ | yieldFrom value | await value =>
    simp only [children, List.mem_cons, List.not_mem_nil, or_false] at member
    subst member
    simp only [unary.sizeOf_spec, attr.sizeOf_spec, yieldFrom.sizeOf_spec, await.sizeOf_spec]
    omega
  | compare left pairs =>
    simp only [compare.sizeOf_spec]
    cases List.mem_cons.mp member with
    | inl here =>
      subst here
      omega
    | inr later =>
      have := sizeOf_snd_lt later
      omega
  | call callee positional keywords =>
    simp only [children, List.cons_append, List.mem_cons, List.mem_append] at member
    simp only [call.sizeOf_spec]
    obtain rfl | inside | inside := member
    · omega
    · have := sizeOf_snd_lt inside
      omega
    · have := sizeOf_snd_lt inside
      omega
  | dict items =>
    simp only [dict.sizeOf_spec]
    cases List.mem_append.mp member with
    | inl key =>
      have := sizeOf_fst_lt key
      omega
    | inr value =>
      have := sizeOf_snd_lt value
      omega
  | subscript value item =>
    simp only [children, List.mem_cons, List.not_mem_nil, or_false] at member
    simp only [subscript.sizeOf_spec]
    obtain rfl | rfl := member <;> omega
  | slice start stop step =>
    simp only [children, List.mem_filterMap, List.mem_cons, List.not_mem_nil, or_false, id,
      exists_eq_right] at member
    simp only [slice.sizeOf_spec]
    obtain rfl | rfl | rfl := member <;> simp only [Option.some.sizeOf_spec] <;> omega
  | conditional test yes no =>
    simp only [children, List.mem_cons, List.not_mem_nil, or_false] at member
    simp only [conditional.sizeOf_spec]
    obtain rfl | rfl | rfl := member <;> omega
  | yield value =>
    have := sizeOf_toList_lt member
    simp only [yield.sizeOf_spec]
    omega
  | formattedValue value conversion formatSpec =>
    simp only [formattedValue.sizeOf_spec]
    cases List.mem_cons.mp member with
    | inl here =>
      subst here
      omega
    | inr later =>
      have := sizeOf_toList_lt later
      omega

/-- What holds of an expression as soon as it holds of its children holds of every expression. -/
theorem induct {P : Expr → Prop} (step : ∀ e, (∀ child ∈ e.children, P child) → P e) (e : Expr) :
    P e :=
  step e fun child _ => induct step child
termination_by sizeOf e
decreasing_by exact sizeOf_children ‹_›

end Expr

end Tonic
