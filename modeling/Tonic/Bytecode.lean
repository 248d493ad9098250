import Tonic.Value

/-!
## Bytecode

Code objects of the register machine, and the verifier that a program passes before it runs.
-/

namespace Tonic

/-- The opcodes; `ret`, `importName` and `cls` are `Return`, `Import` and `Class`. -/
inductive Op where
  | const | move | loadGlobal | storeGlobal | loadCell | storeCell | add | sub | mul | floorDiv
  | mod | div | neg | pos | not | inplaceAdd | eq | ne | lt | le | gt | ge | pow | bitOr | bitXor
  | bitAnd | leftShift | rightShift | invert | inplaceSub | inplaceMul | inplaceDiv
  | inplaceFloorDiv | inplaceMod | inplacePow | inplaceBitOr | inplaceBitXor | inplaceBitAnd
  | inplaceLeftShift | inplaceRightShift | jump | jumpFalse | jumpTrue | call | ret | function
  | beginArgs | argPos | argStar | argNamed | argMapping | callExpanded | tuple | list | item
  | unpack | iter | next | dict | setItem | dictMerge | importFrom | importName | attr | setAttr
  | cls | loadName | storeName | classDeref | slice | delAttr | delItem | raise | exceptionMatch
  | clearException | clearBinding | pushException | contextEnter | contextExit | yield | yieldFrom
  | getAwaitable | getAIter | getANext | endAsyncFor | asyncContextEnter | asyncContextExit
  | asyncYield | is | isNot | contains | notContains | listAppend | set | setAdd | matchSequence
  | matchMapping | matchKey | matchClass | matchAttr | matchArgs | matchClassItem | matchUnique
  | convert | formatValue | typeParam | typeAlias | matMul | inplaceMatMul | typeParamDefault
deriving DecidableEq, Repr

namespace Op

/-- `Op::try_from`: the wire numbers. -/
def ofNat? : Nat → Option Op
  | 1 => some .const | 2 => some .move | 3 => some .loadGlobal | 4 => some .storeGlobal
  | 5 => some .loadCell | 6 => some .storeCell | 10 => some .add | 11 => some .sub
  | 12 => some .mul | 13 => some .floorDiv | 14 => some .mod | 15 => some .div | 16 => some .neg
  | 17 => some .pos | 18 => some .not | 19 => some .inplaceAdd | 20 => some .eq | 21 => some .ne
  | 22 => some .lt | 23 => some .le | 24 => some .gt | 25 => some .ge | 30 => some .jump
  | 31 => some .jumpFalse | 32 => some .jumpTrue | 40 => some .call | 41 => some .ret
  | 42 => some .function | 43 => some .beginArgs | 44 => some .argPos | 45 => some .argStar
  | 46 => some .argNamed | 47 => some .argMapping | 48 => some .callExpanded | 50 => some .tuple
  | 51 => some .list | 52 => some .item | 53 => some .unpack | 54 => some .iter | 55 => some .next
  | 56 => some .dict | 57 => some .setItem | 58 => some .dictMerge | 59 => some .importFrom
  | 60 => some .importName | 61 => some .attr | 62 => some .setAttr | 63 => some .cls
  | 64 => some .loadName | 65 => some .storeName | 66 => some .classDeref | 67 => some .slice
  | 68 => some .delAttr | 69 => some .delItem | 70 => some .raise | 71 => some .exceptionMatch
  | 72 => some .clearException | 73 => some .clearBinding | 74 => some .pushException
  | 75 => some .contextEnter | 76 => some .contextExit | 77 => some .yield | 78 => some .yieldFrom
  | 79 => some .getAwaitable | 80 => some .pow | 81 => some .bitOr | 82 => some .bitXor
  | 83 => some .bitAnd | 84 => some .leftShift | 85 => some .rightShift | 86 => some .invert
  | 87 => some .inplaceSub | 88 => some .inplaceMul | 89 => some .inplaceDiv
  | 90 => some .inplaceFloorDiv | 91 => some .inplaceMod | 92 => some .inplacePow
  | 93 => some .inplaceBitOr | 94 => some .inplaceBitXor | 95 => some .inplaceBitAnd
  | 96 => some .inplaceLeftShift | 97 => some .inplaceRightShift | 98 => some .getAIter
  | 99 => some .getANext | 100 => some .endAsyncFor | 101 => some .asyncContextEnter
  | 102 => some .asyncContextExit | 103 => some .asyncYield | 104 => some .is | 105 => some .isNot
  | 106 => some .contains | 107 => some .notContains | 108 => some .listAppend | 109 => some .set
  | 110 => some .setAdd | 111 => some .matchSequence | 112 => some .matchMapping
  | 113 => some .matchKey | 114 => some .matchClass | 115 => some .matchAttr
  | 116 => some .matchArgs | 117 => some .matchClassItem | 118 => some .matchUnique
  | 119 => some .convert | 120 => some .formatValue | 121 => some .typeParam
  | 122 => some .typeAlias | 123 => some .matMul | 124 => some .inplaceMatMul
  | 125 => some .typeParamDefault
  | _ => none

end Op

structure Instr where
  opcode : Nat
  a : Nat
  b : Nat
  c : Nat
deriving DecidableEq, Repr

structure ExceptionRegion where
  start : Nat
  stop : Nat
  target : Nat
  exception : Nat
deriving DecidableEq, Repr

end Tonic
