import Mathlib.Data.List.DropRight
import Tonic.Value
import Tonic.Library.Numeral

/-!
## Integer literals

What `int` makes of a text. The signs, prefixes and underscores are taken off here, and the rest is
given to the parser of the big integers, which is a parameter.
-/

namespace Tonic

open Numeral

/-! ### The source -/

/-- `char::is_whitespace` -/
def isWhitespace (c : Char) : Bool :=
  let n := c.toNat
  (9 ≤ n && n ≤ 13) || n = 0x20 || n = 0x85 || n = 0xa0 || n = 0x1680 ||
    (0x2000 ≤ n && n ≤ 0x200a) || n = 0x2028 || n = 0x2029 || n = 0x202f || n = 0x205f || n = 0x3000

/-- `str::trim` -/
def trim (text : List Char) : List Char := (text.dropWhile isWhitespace).rdropWhile isWhitespace

def invalidIntBase : Fault := .raise "ValueError" "int base must be 0 or between 2 and 36"

def validateIntBase (base : Int) : Except Fault Nat :=
  if base = 0 ∨ 2 ≤ base ∧ base ≤ 36 then .ok base.toNat else .error invalidIntBase

/-- Whether the text starts with a minus, and what follows its sign. -/
def splitSign : List Char → Bool × List Char
  | '-' :: text => (true, text)
  | '+' :: text => (false, text)
  | text => (false, text)

def prefixBase : List Char → Nat
  | '0' :: c :: _ =>
    if c = 'x' ∨ c = 'X' then 16 else if c = 'o' ∨ c = 'O' then 8
    else if c = 'b' ∨ c = 'B' then 2 else 0
  | _ => 0

/-- The base of the digits, and what follows their prefix. -/
def stripBase (requestedBase : Nat) (digits : List Char) : Nat × List Char :=
  let found := prefixBase digits
  if found ≠ 0 ∧ (requestedBase = 0 ∨ requestedBase = found) then
    match digits.drop 2 with
    | '_' :: rest => (found, rest)
    | rest => (found, rest)
  else (if requestedBase = 0 then 10 else requestedBase, digits)

def parseIntLiteral (parseBytes : List Char → Nat → Option Int) (text : List Char)
    (requestedBase : Nat) : Option Int :=
  let (negative, digits) := splitSign (trim text)
  if digits = [] then none
  else
    let found := prefixBase digits
    let (base, digits) := stripBase requestedBase digits
    if digits = [] ∨ digits.head? = some '_' ∨ digits.getLast? = some '_' ∨
        ['_', '_'] <:+: digits then none
    else
      let normalized := unmarked '_' digits
      if requestedBase = 0 ∧ found = 0 ∧ 1 < normalized.length ∧ normalized.head? = some '0' ∧
          normalized.any (· ≠ '0') then none
      else (parseBytes normalized base).map fun value => if negative then -value else value

/-- The parser of the big integers takes one sign itself. -/
def ParsesSigned (parseBytes : List Char → Nat → Option Int) : Prop :=
  ∀ text radix, 2 ≤ radix → radix ≤ 36 → '_' ∉ text → parseBytes text radix = signed radix text

/-! ### The grammar of the language -/

def Blank (c : Char) : Prop := c.toNat = 32 ∨ 9 ≤ c.toNat ∧ c.toNat ≤ 13

inductive Sign : List Char → Bool → Prop where
  | none : Sign [] false
  | plus : Sign ['+'] false
  | minus : Sign ['-'] true

/-- The letter of a prefix, and its base. -/
inductive Marks : Char → Nat → Prop where
  | hex : Marks 'x' 16
  | hexUpper : Marks 'X' 16
  | octal : Marks 'o' 8
  | octalUpper : Marks 'O' 8
  | binary : Marks 'b' 2
  | binaryUpper : Marks 'B' 2

/-- A prefix that goes with the requested base, and the base of the digits after it. -/
inductive Opening (base : Nat) : List Char → Nat → Prop where
  | plain : Opening base [] (if base = 0 then 10 else base)
  | marked {c : Char} {radix : Nat} (marks : Marks c radix) (goes : base = 0 ∨ base = radix) :
    Opening base ['0', c] radix
  | spaced {c : Char} {radix : Nat} (marks : Marks c radix) (goes : base = 0 ∨ base = radix) :
    Opening base ['0', c, '_'] radix

/-- The digits behind a sign, with their prefix. -/
inductive Unsigned (base : Nat) : List Char → Nat → Prop where
  | intro {opening body : List Char} {radix : Nat} {ds : List Nat}
    (opens : Opening base opening radix) (spaced : Spaced '_' radix body ds)
    (zeros : base = 0 → opening = [] → ds.head? = some 0 → ∀ d ∈ ds, d = 0) :
    Unsigned base (opening ++ body) (value radix ds)

/-- A text that `int` accepts for a base, and its number. -/
inductive Literal (base : Nat) : List Char → Int → Prop where
  | intro {before sign body after : List Char} {negative : Bool} {n : Nat}
    (blank : ∀ c ∈ before ++ after, Blank c) (signs : Sign sign negative)
    (unsigned : Unsigned base body n) :
    Literal base (before ++ (sign ++ body) ++ after) (if negative then -n else n)

end Tonic
