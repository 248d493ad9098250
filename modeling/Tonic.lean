import Tonic.Library.Effect
import Tonic.Library.Marking
import Tonic.Library.Occurrence
import Tonic.Value
import Tonic.Float
import Tonic.Object
import Tonic.Shapes
import Tonic.Heap
import Tonic.Format
import Tonic.Hashing
import Tonic.Buffer
import Tonic.Dict
import Tonic.Mutators
import Tonic.Classes
import Tonic.Collect
import Tonic.Remembered
import Tonic.Storage
import Tonic.DictSound
import Tonic.MutatorsSound
import Tonic.ClassesSound
import Tonic.Sweep
import Tonic.Collection
import Tonic.Run
import Tonic.Bytecode
import Tonic.Continuations
import Tonic.Roots
import Tonic.RootsComplete
import Tonic.Library.Wakeup
import Tonic.Library.WakeupSettled
import Tonic.EventLoop
import Tonic.AsyncSources
import Tonic.EventLoopSound
import Tonic.AsyncRun
import Tonic.Library.FixedWidth
import Tonic.Integer
import Tonic.IntegerSound
import Tonic.KeyOrder
import Tonic.Equality
import Tonic.FloatKeys
import Tonic.KeySound
import Tonic.EqualitySound
import Tonic.Library.Ordered
import Tonic.ProtocolSound
import Tonic.DictRep
import Tonic.QuietKeys
import Tonic.KeyFrame
import Tonic.Stores
import Tonic.DictEffects
import Tonic.DictKeys
import Tonic.DictOps
import Tonic.DictRun
import Tonic.Program
import Tonic.Verify
import Tonic.Link
import Tonic.Library.Outcome
import Tonic.LinkSound
import Tonic.LinkVerified
import Tonic.Linked
import Tonic.Meaning
import Tonic.Operators
import Tonic.OperatorsSound
import Tonic.Arguments
import Tonic.Calls
import Tonic.CallsSound
import Tonic.Frames
import Tonic.Binding
import Tonic.Library.Slots
import Tonic.QuickCalls
import Tonic.BindingSound
import Tonic.QuickCallsSound
import Tonic.SimpleFrame
import Tonic.AttributeGet
import Tonic.Faces
import Tonic.Lineage
import Tonic.ClassEdits
import Tonic.ClassMaking
import Tonic.ClassRuns
import Tonic.ClassVersions
import Tonic.InstanceShapes
import Tonic.AttributeSites
import Tonic.HandleIdentity
import Tonic.NativeHandles
import Tonic.NativeHandlesSound
import Tonic.SourceModules
import Tonic.ModuleMembers
import Tonic.SourceModulesSound
import Tonic.ModuleRuns
import Tonic.Library.Precedence
import Tonic.MethodOrder
import Tonic.Linearization
import Tonic.Lasting
import Tonic.AttributeLayout
import Tonic.AttributeSet
import Tonic.AttributeSetSound
import Tonic.DefaultStores
import Tonic.CanonicalPlans
import Tonic.IteratorRuns
import Tonic.Library.Progression
import Tonic.Sequences
import Tonic.SequencesSound
import Tonic.Membership
import Tonic.RangeViews
import Tonic.Library.Numeral
import Tonic.Literals
import Tonic.LiteralsSound
import Tonic.FormatSpec
import Tonic.FormatSpecSound
import Tonic.AttributeMaps
import Tonic.FloatOrder
import Tonic.Library.Rounding
import Tonic.Rounded
import Tonic.RoundedSound
import Tonic.DecimalRounding
import Tonic.BufferCells
import Tonic.BufferExports
import Tonic.ExportRuns
import Tonic.BufferLayout
import Tonic.BufferLayoutSound
import Tonic.Iterators
import Tonic.IteratorsSound
import Tonic.Library.Alarm
import Tonic.Library.Canonical
import Tonic.Library.Coding
import Tonic.Library.Cursor
import Tonic.Library.Strided
import Tonic.PlanForms
import Tonic.PlanOrder
import Tonic.PlanRewriting
import Tonic.PlanShapes
import Tonic.PlanStream
import Tonic.ResolvedPlans
import Tonic.TimerRuns
import Tonic.Timers
import Tonic.TypePlans
import Tonic.Consumers
import Tonic.Summing
import Tonic.SummingSound
import Tonic.ExceptionContexts
import Tonic.Library.Chains
import Tonic.ArgumentStack
import Tonic.Library.Exploration
import Tonic.BufferSources
import Tonic.JitFlow
import Tonic.Library.Dataflow
import Tonic.Library.Search
import Tonic.Ast
import Tonic.CodeRuns
import Tonic.Evaluation
import Tonic.EvaluationSound
import Tonic.Execution
import Tonic.Layout
import Tonic.Library.Choice
import Tonic.Library.Computation
import Tonic.Lower
import Tonic.LowerLays
import Tonic.LoweringSound
