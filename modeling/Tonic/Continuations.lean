import Mathlib.Tactic.Common
import Tonic.Bytecode
import Tonic.Object

/-!
## Continuations

What a frame does with the value it returns. A continuation can suspend an operation in the middle
of a loop over values, inside another operation; all of it is traced by hand. The values are a
parameter of the types: `map` has to rewrite every one of them.
-/

namespace Tonic

variable {μ ν : Type}

def mapPairs (f : μ → ν) (l : List (μ × μ)) : List (ν × ν) := l.map fun e => (f e.1, f e.2)

/-! ### The suspended operations -/

structure ExpandedArgs (ν : Type) where
  receiver : Option ν
  positional : List ν
  keywords : List (String × ν)
  deferredStar : Option ν
  /-- Keys that are no strings are only diagnosed after all arguments were evaluated. -/
  invalidKeywords : List (ν × ν)

structure NativeSubclassFinish (ν : Type) where
  cls : ν
  arguments : Option (ExpandedArgs ν)

structure DictConstructionStart (ν : Type) where
  result : ν
  keywords : List (ν × ν)
  native : Option (NativeSubclassFinish ν)
  returnValue : Option ν

structure DictConstruction (ν : Type) where
  start : DictConstructionStart ν
  iterator : ν
  index : Nat

structure DictPairConstruction (ν : Type) where
  outer : DictConstruction ν
  iterator : ν
  items : List ν

inductive DictMergeFinish (ν : Type) where
  | preserve
  | construction (state : DictConstructionStart ν)

structure DictMergeState (ν : Type) where
  target : ν
  entries : List (ν × ν)
  next : Nat
  finish : DictMergeFinish ν

structure Membership (ν : Type) where
  needle : ν
  iterator : ν
  negate : Bool

structure SequenceOrder (ν : Type) where
  left : List ν
  right : List ν
  index : Nat
  op : Op
  depth : Nat

mutual

inductive DictOperationKind (ν : Type) where
  | get
  | matchKey
  | matchUnique (cls : Bool)
  | set (value : ν)
  | setAdd
  | contains (negate : Bool)
  | setAndContinue (value : ν) (state : DictConstruction ν)
  | setAndMerge (value : ν) (state : DictMergeState ν)
  | delete
  | compareValue (expected : ν) (action : EqualityAction ν)

inductive DictOperationStart (ν : Type) where
  | mk (owner key : ν) (kind : DictOperationKind ν)

inductive DictOperation (ν : Type) where
  | mk (start : DictOperationStart ν) (hash : Int) (version : Nat) (candidates : List Nat)
    (next comparisonDepth : Nat)

inductive EqualityAction (ν : Type) where
  | ret (negate : Bool)
  | sequence (left right : List ν) (next depth : Nat) (outer : EqualityAction ν)
  | dictCandidate (state : DictOperation ν) (index : Nat)
  | dictEntries (left right : ν) (entries : List (ν × ν))
    (next leftVersion rightVersion depth : Nat) (outer : EqualityAction ν)
  | sequenceOrder (state : SequenceOrder ν)
  | membership (state : Membership ν)

end

inductive HashAction (ν : Type) where
  | ret
  | dict (state : DictOperationStart ν)
  | sequence (values : List ν) (next : Nat) (accumulator : Int) (depth : Nat)
    (outer : HashAction ν)

structure ExtremumConfig (ν : Type) where
  key : Option ν
  default : ν
  isMax : Bool

inductive ExtremumSource (ν : Type) where
  | iterator (value : ν)
  | values (items : List ν) (next : Nat)

structure ExtremumState (ν : Type) where
  source : ExtremumSource ν
  config : ExtremumConfig ν
  /-- The best item and its key, once `has_best` is set. -/
  best : Option (ν × ν)

structure ExtremumCandidate (ν : Type) where
  state : ExtremumState ν
  item : ν
  key : ν

structure BoundCall (ν : Type) where
  callable : ν
  receiver : Option ν

structure BinaryCandidate (ν : Type) where
  call : BoundCall ν
  /-- The `count` arguments that are passed. -/
  arguments : List ν
  negate : Bool

inductive BinaryProtocolKind (ν : Type) where
  | opcode (op : Op)
  | divMod
  | powMod (modulus : ν)

inductive BinaryCompletion (ν : Type) where
  | value
  | equality (action : EqualityAction ν)
  | sum (iterator : ν)
  | extremum (candidate : ExtremumCandidate ν)

structure BinaryProtocol (ν : Type) where
  kind : BinaryProtocolKind ν
  left : ν
  right : ν
  candidates : List (BinaryCandidate ν)
  next : Nat
  negateResult : Bool
  completion : BinaryCompletion ν

/-- The next candidate is called; its result decides whether to go on. -/
def BinaryProtocol.attempt (s : BinaryProtocol ν) :
    Option (BinaryCandidate ν × BinaryProtocol ν) :=
  (s.candidates[s.next]?).map fun c => (c, { s with next := s.next + 1, negateResult := c.negate })

inductive UnaryProtocolKind where
  | neg | pos | abs | invert
deriving DecidableEq, Repr

inductive NumericConversionKind where
  | int | float | indexToInt | indexToFloat
deriving DecidableEq, Repr

structure BoolReduceState (ν : Type) where
  iterator : ν
  any : Bool

inductive TruthAction (ν : Type) where
  | not
  | ret
  | jump (cond : Bool) (target pc : Nat) (original : ν)
  | equality (action : EqualityAction ν)
  | boolReduce (state : BoolReduceState ν)
  | extremum (candidate : ExtremumCandidate ν)

/-- The `count` values of a `range` call, converted up to `next`. -/
structure RangeConstruction (ν : Type) where
  values : List ν
  next : Nat

inductive IndexContinuation (ν : Type) where
  | length
  | truth (action : TruthAction ν)
  | round (value : ν)
  | range (state : RangeConstruction ν)
  | intBase (argument : ν) (finish : Option (NativeSubclassFinish ν))
  | getItem (owner : ν)
  | setItem (owner value : ν)
  | delItem (owner : ν)
  | slice (owner : ν) (components : List ν) (next : Nat)

inductive AttributeMissing (ν : Type) where
  | raise
  | default (value : ν)
  | hasAttr

inductive AttributePhase where
  | primary | fallback
deriving DecidableEq, Repr

structure AttributeGet (ν : Type) where
  owner : ν
  name : String
  missing : AttributeMissing ν
  phase : AttributePhase

inductive IterableCollectionKind (ν : Type) where
  | list
  | tuple
  | bytes
  | nativeList (state : NativeSubclassFinish ν)
  | nativeTuple (state : NativeSubclassFinish ν)
  | nativeBytes (state : NativeSubclassFinish ν)
  | listInit (owner result : ν)
  | unpack (first count : Nat)

structure IterableCollection (ν : Type) where
  kind : IterableCollectionKind ν
  iterator : ν
  items : List ν

inductive SumTotal (ν : Type) where
  | int (value : Int)
  | float (high low : Nat)
  | generic (value : ν)

structure SumState (ν : Type) where
  iterator : ν
  total : SumTotal ν

structure ArgumentExpansion (ν : Type) where
  iterator : ν
  resumePc : Option Nat

inductive TruthProtocol where
  | bool | length
deriving DecidableEq, Repr

structure SetNameCall (ν : Type) where
  call : BoundCall ν
  name : ν

structure ClassBuild (ν : Type) where
  function : ν
  bases : List ν
  declaredBases : List ν
  metaclass : ν
  qualname : String

structure ClassBody (ν : Type) where
  ns : ν
  declaredBases : List ν
  metaclass : ν
  qualname : String

structure ClassHookState (ν : Type) where
  ns : ν
  mapping : ν
  metaclass : ν
  name : ν
  bases : ν
  classCell : Option ν

inductive AsyncGeneratorCompletion (ν : Type) where
  | direct
  | closeMethod
  | yieldFrom (target pc : Nat) (iterator : ν)
  | yieldFromClose (exception : ν)

inductive ReturnAction (ν : Type) where
  | value
  | iterator
  | asyncIterator
  | awaitable
  | next (default : Option ν)
  | close
  | iteratorNext (target pc : Nat)
  | yieldFrom (target pc : Nat) (iterator : ν)
  | yieldFromClose (exception : ν)
  | generatorThrowInit (generator : ν) (traceback : Option ν) (value : ν)
  | asyncGeneratorDrive (awaitable : ν) (closing : Bool) (completion : AsyncGeneratorCompletion ν)
  | asyncGeneratorThrowInit (generator : ν) (traceback : Option ν) (value : ν)
  | asyncGeneratorAwaitThrowInit (awaitable : ν) (traceback : Option ν) (value : ν)
  | collectIterableStart (kind : IterableCollectionKind ν)
  | collectIterableNext (state : IterableCollection ν)
  | sumIterStart (total : ν)
  | sumNext (state : SumState ν)
  | boolReduceIterStart (any : Bool)
  | boolReduceNext (state : BoolReduceState ν)
  | extremumIterStart (config : ExtremumConfig ν)
  | extremumNext (state : ExtremumState ν)
  | extremumKey (state : ExtremumState ν) (item : ν)
  | expandIterableStart (resumePc : Option Nat)
  | expandIterableNext (state : ArgumentExpansion ν)
  | dictIterableStart (state : DictConstructionStart ν)
  | dictIterableNext (state : DictConstruction ν)
  | dictPairStart (state : DictConstruction ν)
  | dictPairIteratorStart (state : DictConstruction ν)
  | dictPairNext (state : DictPairConstruction ν)
  | membershipContains (negate : Bool)
  | membershipIterStart (needle : ν) (negate : Bool)
  | membershipNext (state : Membership ν)
  | length
  | truth (protocol : TruthProtocol) (action : TruthAction ν)
  | initializer (value : ν)
  | new (cls : ν) (arguments : ExpandedArgs ν)
  | classPrepare (build : ClassBuild ν)
  | classBody (body : ClassBody ν)
  | metaclassNew (state : ClassHookState ν)
  | metaclassInit (value : ν)
  | setNames (cls : ν) (pending : List (SetNameCall ν)) (after : Option (ClassHookState ν))
  | namespaceLookup (target symbol : Nat) (cell : Option ν)
  | attributeGet (state : AttributeGet ν)
  | binaryProtocol (state : BinaryProtocol ν)
  | unaryProtocol (kind : UnaryProtocolKind) (value : ν)
  | numericConversion (kind : NumericConversionKind) (finish : Option (NativeSubclassFinish ν))
  | indexConversion (continuation : IndexContinuation ν)
  | hash (action : HashAction ν)
  | stringConversion (ascii repr : Bool)
  | formatResult
  | importModule (index : Nat)
  | setter

/-! ### Rewriting every value -/

section Map

variable (f : μ → ν)

def ExpandedArgs.map (a : ExpandedArgs μ) : ExpandedArgs ν where
  receiver := a.receiver.map f
  positional := a.positional.map f
  keywords := a.keywords.map fun k => (k.1, f k.2)
  deferredStar := a.deferredStar.map f
  invalidKeywords := mapPairs f a.invalidKeywords

def NativeSubclassFinish.map (s : NativeSubclassFinish μ) : NativeSubclassFinish ν :=
  ⟨f s.cls, s.arguments.map (·.map f)⟩

def DictConstructionStart.map (s : DictConstructionStart μ) : DictConstructionStart ν :=
  ⟨f s.result, mapPairs f s.keywords, s.native.map (·.map f), s.returnValue.map f⟩

def DictConstruction.map (s : DictConstruction μ) : DictConstruction ν :=
  ⟨s.start.map f, f s.iterator, s.index⟩

def DictPairConstruction.map (s : DictPairConstruction μ) : DictPairConstruction ν :=
  ⟨s.outer.map f, f s.iterator, s.items.map f⟩

def DictMergeFinish.map : DictMergeFinish μ → DictMergeFinish ν
  | .preserve => .preserve
  | .construction state => .construction (state.map f)

def DictMergeState.map (s : DictMergeState μ) : DictMergeState ν :=
  ⟨f s.target, mapPairs f s.entries, s.next, s.finish.map f⟩

def Membership.map (s : Membership μ) : Membership ν := ⟨f s.needle, f s.iterator, s.negate⟩

def SequenceOrder.map (s : SequenceOrder μ) : SequenceOrder ν :=
  { s with left := s.left.map f, right := s.right.map f }

mutual

def DictOperationKind.map : DictOperationKind μ → DictOperationKind ν
  | .get => .get
  | .matchKey => .matchKey
  | .matchUnique cls => .matchUnique cls
  | .set value => .set (f value)
  | .setAdd => .setAdd
  | .contains negate => .contains negate
  | .setAndContinue value state => .setAndContinue (f value) (state.map f)
  | .setAndMerge value state => .setAndMerge (f value) (state.map f)
  | .delete => .delete
  | .compareValue expected action => .compareValue (f expected) (action.map)

def DictOperationStart.map : DictOperationStart μ → DictOperationStart ν
  | .mk owner key kind => .mk (f owner) (f key) kind.map

def DictOperation.map : DictOperation μ → DictOperation ν
  | .mk start hash version candidates next depth =>
    .mk start.map hash version candidates next depth

def EqualityAction.map : EqualityAction μ → EqualityAction ν
  | .ret negate => .ret negate
  | .sequence left right next depth outer =>
    .sequence (left.map f) (right.map f) next depth outer.map
  | .dictCandidate state index => .dictCandidate state.map index
  | .dictEntries left right entries next leftVersion rightVersion depth outer =>
    .dictEntries (f left) (f right) (mapPairs f entries) next leftVersion rightVersion depth
      outer.map
  | .sequenceOrder state => .sequenceOrder (state.map f)
  | .membership state => .membership (state.map f)

end

def HashAction.map : HashAction μ → HashAction ν
  | .ret => .ret
  | .dict state => .dict (state.map f)
  | .sequence values next accumulator depth outer =>
    .sequence (values.map f) next accumulator depth outer.map

def ExtremumConfig.map (s : ExtremumConfig μ) : ExtremumConfig ν :=
  ⟨s.key.map f, f s.default, s.isMax⟩

def ExtremumSource.map : ExtremumSource μ → ExtremumSource ν
  | .iterator value => .iterator (f value)
  | .values items next => .values (items.map f) next

def ExtremumState.map (s : ExtremumState μ) : ExtremumState ν :=
  ⟨s.source.map f, s.config.map f, s.best.map fun b => (f b.1, f b.2)⟩

def ExtremumCandidate.map (s : ExtremumCandidate μ) : ExtremumCandidate ν :=
  ⟨s.state.map f, f s.item, f s.key⟩

def BoundCall.map (s : BoundCall μ) : BoundCall ν := ⟨f s.callable, s.receiver.map f⟩

def BinaryCandidate.map (s : BinaryCandidate μ) : BinaryCandidate ν :=
  ⟨s.call.map f, s.arguments.map f, s.negate⟩

def BinaryProtocolKind.map : BinaryProtocolKind μ → BinaryProtocolKind ν
  | .opcode op => .opcode op
  | .divMod => .divMod
  | .powMod modulus => .powMod (f modulus)

def BinaryCompletion.map : BinaryCompletion μ → BinaryCompletion ν
  | .value => .value
  | .equality action => .equality (action.map f)
  | .sum iterator => .sum (f iterator)
  | .extremum candidate => .extremum (candidate.map f)

def BinaryProtocol.map (s : BinaryProtocol μ) : BinaryProtocol ν where
  kind := s.kind.map f
  left := f s.left
  right := f s.right
  candidates := s.candidates.map (·.map f)
  next := s.next
  negateResult := s.negateResult
  completion := s.completion.map f

def BoolReduceState.map (s : BoolReduceState μ) : BoolReduceState ν := ⟨f s.iterator, s.any⟩

def TruthAction.map : TruthAction μ → TruthAction ν
  | .not => .not
  | .ret => .ret
  | .jump cond target pc original => .jump cond target pc (f original)
  | .equality action => .equality (action.map f)
  | .boolReduce state => .boolReduce (state.map f)
  | .extremum candidate => .extremum (candidate.map f)

def RangeConstruction.map (s : RangeConstruction μ) : RangeConstruction ν :=
  ⟨s.values.map f, s.next⟩

def IndexContinuation.map : IndexContinuation μ → IndexContinuation ν
  | .length => .length
  | .truth action => .truth (action.map f)
  | .round value => .round (f value)
  | .range state => .range (state.map f)
  | .intBase argument finish => .intBase (f argument) (finish.map (·.map f))
  | .getItem owner => .getItem (f owner)
  | .setItem owner value => .setItem (f owner) (f value)
  | .delItem owner => .delItem (f owner)
  | .slice owner components next => .slice (f owner) (components.map f) next

def AttributeMissing.map : AttributeMissing μ → AttributeMissing ν
  | .raise => .raise
  | .default value => .default (f value)
  | .hasAttr => .hasAttr

def AttributeGet.map (s : AttributeGet μ) : AttributeGet ν :=
  ⟨f s.owner, s.name, s.missing.map f, s.phase⟩

def IterableCollectionKind.map : IterableCollectionKind μ → IterableCollectionKind ν
  | .list => .list
  | .tuple => .tuple
  | .bytes => .bytes
  | .nativeList state => .nativeList (state.map f)
  | .nativeTuple state => .nativeTuple (state.map f)
  | .nativeBytes state => .nativeBytes (state.map f)
  | .listInit owner result => .listInit (f owner) (f result)
  | .unpack first count => .unpack first count

def IterableCollection.map (s : IterableCollection μ) : IterableCollection ν :=
  ⟨s.kind.map f, f s.iterator, s.items.map f⟩

def SumTotal.map : SumTotal μ → SumTotal ν
  | .int value => .int value
  | .float high low => .float high low
  | .generic value => .generic (f value)

def SumState.map (s : SumState μ) : SumState ν := ⟨f s.iterator, s.total.map f⟩

def ArgumentExpansion.map (s : ArgumentExpansion μ) : ArgumentExpansion ν :=
  ⟨f s.iterator, s.resumePc⟩

def SetNameCall.map (s : SetNameCall μ) : SetNameCall ν := ⟨s.call.map f, f s.name⟩

def ClassBuild.map (s : ClassBuild μ) : ClassBuild ν where
  function := f s.function
  bases := s.bases.map f
  declaredBases := s.declaredBases.map f
  metaclass := f s.metaclass
  qualname := s.qualname

def ClassBody.map (s : ClassBody μ) : ClassBody ν :=
  ⟨f s.ns, s.declaredBases.map f, f s.metaclass, s.qualname⟩

def ClassHookState.map (s : ClassHookState μ) : ClassHookState ν where
  ns := f s.ns
  mapping := f s.mapping
  metaclass := f s.metaclass
  name := f s.name
  bases := f s.bases
  classCell := s.classCell.map f

def AsyncGeneratorCompletion.map : AsyncGeneratorCompletion μ → AsyncGeneratorCompletion ν
  | .direct => .direct
  | .closeMethod => .closeMethod
  | .yieldFrom target pc iterator => .yieldFrom target pc (f iterator)
  | .yieldFromClose exception => .yieldFromClose (f exception)

def ReturnAction.map : ReturnAction μ → ReturnAction ν
  | .value => .value
  | .iterator => .iterator
  | .asyncIterator => .asyncIterator
  | .awaitable => .awaitable
  | .next default => .next (default.map f)
  | .close => .close
  | .iteratorNext target pc => .iteratorNext target pc
  | .yieldFrom target pc source => .yieldFrom target pc (f source)
  | .yieldFromClose exception => .yieldFromClose (f exception)
  | .generatorThrowInit generator traceback thrown =>
    .generatorThrowInit (f generator) (traceback.map f) (f thrown)
  | .asyncGeneratorDrive source closing completion =>
    .asyncGeneratorDrive (f source) closing (completion.map f)
  | .asyncGeneratorThrowInit generator traceback thrown =>
    .asyncGeneratorThrowInit (f generator) (traceback.map f) (f thrown)
  | .asyncGeneratorAwaitThrowInit source traceback thrown =>
    .asyncGeneratorAwaitThrowInit (f source) (traceback.map f) (f thrown)
  | .collectIterableStart kind => .collectIterableStart (kind.map f)
  | .collectIterableNext state => .collectIterableNext (state.map f)
  | .sumIterStart total => .sumIterStart (f total)
  | .sumNext state => .sumNext (state.map f)
  | .boolReduceIterStart any => .boolReduceIterStart any
  | .boolReduceNext state => .boolReduceNext (state.map f)
  | .extremumIterStart config => .extremumIterStart (config.map f)
  | .extremumNext state => .extremumNext (state.map f)
  | .extremumKey state item => .extremumKey (state.map f) (f item)
  | .expandIterableStart resumePc => .expandIterableStart resumePc
  | .expandIterableNext state => .expandIterableNext (state.map f)
  | .dictIterableStart state => .dictIterableStart (state.map f)
  | .dictIterableNext state => .dictIterableNext (state.map f)
  | .dictPairStart state => .dictPairStart (state.map f)
  | .dictPairIteratorStart state => .dictPairIteratorStart (state.map f)
  | .dictPairNext state => .dictPairNext (state.map f)
  | .membershipContains negate => .membershipContains negate
  | .membershipIterStart needle negate => .membershipIterStart (f needle) negate
  | .membershipNext state => .membershipNext (state.map f)
  | .length => .length
  | .truth protocol action => .truth protocol (action.map f)
  | .initializer v => .initializer (f v)
  | .new cls arguments => .new (f cls) (arguments.map f)
  | .classPrepare build => .classPrepare (build.map f)
  | .classBody body => .classBody (body.map f)
  | .metaclassNew state => .metaclassNew (state.map f)
  | .metaclassInit v => .metaclassInit (f v)
  | .setNames cls pending after =>
    .setNames (f cls) (pending.map (·.map f)) (after.map (·.map f))
  | .namespaceLookup target symbol cell => .namespaceLookup target symbol (cell.map f)
  | .attributeGet state => .attributeGet (state.map f)
  | .binaryProtocol state => .binaryProtocol (state.map f)
  | .unaryProtocol kind v => .unaryProtocol kind (f v)
  | .numericConversion kind finish => .numericConversion kind (finish.map (·.map f))
  | .indexConversion continuation => .indexConversion (continuation.map f)
  | .hash action => .hash (action.map f)
  | .stringConversion ascii repr => .stringConversion ascii repr
  | .formatResult => .formatResult
  | .importModule index => .importModule index
  | .setter => .setter

end Map

/-! ### Tracing -/

def ExpandedArgs.trace (a : ExpandedArgs Value) : List Value :=
  a.receiver.toList ++ a.positional ++ a.keywords.map (·.2) ++ a.deferredStar.toList ++
    pairs a.invalidKeywords

def NativeSubclassFinish.trace (s : NativeSubclassFinish Value) : List Value :=
  s.cls :: s.arguments.elim [] (·.trace)

def DictConstructionStart.trace (s : DictConstructionStart Value) : List Value :=
  s.result :: (pairs s.keywords ++ s.native.elim [] (·.trace) ++ s.returnValue.toList)

def DictConstruction.trace (s : DictConstruction Value) : List Value := s.start.trace ++ [s.iterator]

def DictPairConstruction.trace (s : DictPairConstruction Value) : List Value :=
  s.outer.trace ++ s.iterator :: s.items

def DictMergeState.trace (s : DictMergeState Value) : List Value :=
  s.target :: (pairs s.entries ++
    match s.finish with
    | .construction state => state.trace
    | .preserve => [])

def Membership.trace (s : Membership Value) : List Value := [s.needle, s.iterator]

mutual

def DictOperationKind.trace : DictOperationKind Value → List Value
  | .get | .matchKey | .matchUnique _ | .setAdd | .contains _ | .delete => []
  | .set value => [value]
  | .setAndContinue value state => value :: state.trace
  | .setAndMerge value state => value :: state.trace
  | .compareValue expected action => expected :: action.trace

def DictOperationStart.trace : DictOperationStart Value → List Value
  | .mk owner key kind => owner :: key :: kind.trace

def DictOperation.trace : DictOperation Value → List Value
  | .mk start _ _ _ _ _ => start.trace

def EqualityAction.trace : EqualityAction Value → List Value
  | .ret _ => []
  | .sequence left right _ _ outer => left ++ right ++ outer.trace
  | .dictCandidate state _ => state.trace
  | .dictEntries left right entries _ _ _ _ outer =>
    left :: right :: (pairs entries ++ outer.trace)
  | .sequenceOrder state => state.left ++ state.right
  | .membership state => state.trace

end

def HashAction.trace : HashAction Value → List Value
  | .ret => []
  | .dict state => state.trace
  | .sequence values _ _ _ outer => values ++ outer.trace

def ExtremumConfig.trace (s : ExtremumConfig Value) : List Value :=
  s.key.toList ++ if s.default = .unbound then [] else [s.default]

def ExtremumState.trace (s : ExtremumState Value) : List Value :=
  (match s.source with
    | .iterator value => [value]
    | .values items _ => items) ++ s.config.trace ++ s.best.elim [] fun b => [b.1, b.2]

def ExtremumCandidate.trace (s : ExtremumCandidate Value) : List Value :=
  s.state.trace ++ [s.item, s.key]

def BinaryCandidate.trace (s : BinaryCandidate Value) : List Value :=
  s.call.callable :: (s.call.receiver.toList ++ s.arguments)

def BinaryCompletion.trace : BinaryCompletion Value → List Value
  | .value => []
  | .equality action => action.trace
  | .sum iterator => [iterator]
  | .extremum candidate => candidate.trace

/-- Candidates that were tried are not tried again. -/
def BinaryProtocol.trace (s : BinaryProtocol Value) : List Value :=
  s.left :: s.right ::
    ((match s.kind with
      | .powMod modulus => [modulus]
      | _ => []) ++ (s.candidates.drop s.next).flatMap (·.trace) ++ s.completion.trace)

def TruthAction.trace : TruthAction Value → List Value
  | .not | .ret => []
  | .jump _ _ _ original => [original]
  | .equality action => action.trace
  | .boolReduce state => [state.iterator]
  | .extremum candidate => candidate.trace

def IndexContinuation.trace : IndexContinuation Value → List Value
  | .length => []
  | .truth action => action.trace
  | .round value => [value]
  | .range state => state.values
  | .intBase argument finish => argument :: finish.elim [] (·.trace)
  | .getItem owner | .delItem owner => [owner]
  | .setItem owner value => [owner, value]
  | .slice owner components _ => owner :: components

def IterableCollectionKind.trace : IterableCollectionKind Value → List Value
  | .nativeList state | .nativeTuple state | .nativeBytes state => state.trace
  | .listInit owner result => [owner, result]
  | .list | .tuple | .bytes | .unpack _ _ => []

def SetNameCall.trace (s : SetNameCall Value) : List Value :=
  s.call.callable :: (s.call.receiver.toList ++ [s.name])

def ClassHookState.trace (s : ClassHookState Value) : List Value :=
  [s.ns, s.mapping, s.metaclass, s.name, s.bases] ++ s.classCell.toList

def ReturnAction.trace : ReturnAction Value → List Value
  | .value | .iterator | .asyncIterator | .awaitable | .iteratorNext _ _ | .close
  | .expandIterableStart _ | .length | .stringConversion _ _ | .formatResult
  | .membershipContains _ | .importModule _ | .setter | .boolReduceIterStart _ => []
  | .yieldFrom _ _ source => [source]
  | .yieldFromClose exception => [exception]
  | .asyncGeneratorDrive target _ completion =>
    target :: match completion with
      | .yieldFrom _ _ source => [source]
      | .yieldFromClose exception => [exception]
      | .direct | .closeMethod => []
  | .asyncGeneratorThrowInit source traceback thrown
  | .asyncGeneratorAwaitThrowInit source traceback thrown
  | .generatorThrowInit source traceback thrown => source :: (traceback.toList ++ [thrown])
  | .next default => default.toList
  | .collectIterableStart kind => kind.trace
  | .sumIterStart total => [total]
  | .extremumIterStart config => config.trace
  | .attributeGet state =>
    state.owner :: match state.missing with
      | .default v => [v]
      | .raise | .hasAttr => []
  | .binaryProtocol state => state.trace
  | .unaryProtocol _ v => [v]
  | .numericConversion _ finish => finish.elim [] (·.trace)
  | .indexConversion continuation => continuation.trace
  | .hash action => action.trace
  | .namespaceLookup _ _ cell => cell.toList
  | .collectIterableNext state => state.kind.trace ++ state.iterator :: state.items
  | .sumNext state =>
    state.iterator :: match state.total with
      | .generic total => [total]
      | .int _ | .float _ _ => []
  | .boolReduceNext state => [state.iterator]
  | .extremumNext state => state.trace
  | .extremumKey state item => state.trace ++ [item]
  | .expandIterableNext state => [state.iterator]
  | .dictIterableStart state => state.trace
  | .dictIterableNext state | .dictPairStart state | .dictPairIteratorStart state => state.trace
  | .dictPairNext state => state.trace
  | .membershipIterStart needle _ => [needle]
  | .membershipNext state => state.trace
  | .truth _ action => action.trace
  | .initializer v | .metaclassInit v => [v]
  | .new cls arguments => cls :: arguments.trace
  | .classPrepare build =>
    build.function :: (build.bases ++ build.declaredBases ++ [build.metaclass])
  | .classBody body => body.ns :: (body.declaredBases ++ [body.metaclass])
  | .metaclassNew state => state.trace
  | .setNames cls pending after =>
    cls :: (pending.flatMap (·.trace) ++ after.elim [] (·.trace))

end Tonic
