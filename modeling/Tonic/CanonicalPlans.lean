import Tonic.PlanRewriting

/-!
## Type plans are canonical

Rewritten annotations have one plan, the byte stream of a function's plans tells which plans there
are and nothing of their order, and a plan is out of date as soon as one of its classes is.
-/

namespace Tonic

open Effect FunctionTypePlan

section Spellings

end Spellings

end Tonic
