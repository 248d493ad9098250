import Tonic.Calls

/-!
## Frames

The frame of a function call: a window of registers, in which every parameter has a slot, and the
cells of the captured variables. The arguments are bound to the slots in passes over the window; a
register that is unbound has no argument yet.
-/

namespace Tonic

open Effect

/-- What a call sets up for a frame before it is pushed. -/
structure Window where
  registers : List Value
  cells : List Value

def register (w : List Value) (i : Nat) : Value := w.getD i .unbound

namespace Signature

def named (sig : Signature) : Nat := sig.positional + sig.keywordOnly

end Signature

namespace CodeObject

variable (code : CodeObject)

def localName (symbols : List String) (slot : Nat) : String :=
  symbols.getD (code.locals.getD slot 0) ""

/-- The slots a keyword may name: those of positional-only parameters it may not. -/
def keywordSlots : List Nat :=
  List.range' code.signature.posonly (code.signature.named - code.signature.posonly)

/-! ### Passes over the window -/

section

variable [HostLibrary] (symbols : List String)

end

def bindDefaults (defaults : List Value) (w : List Value) : List Value :=
  (code.signature.defaults.zip defaults).foldl
    (fun w default => if register w default.1 = .unbound then w.set default.1 default.2 else w) w

end CodeObject

/-! ### Entering a frame -/

namespace Interpreter

variable (s : Interpreter) (limits : Limits) (code : CodeObject)

def surplus (count : Nat) : Fault :=
  typeError (code.name ++ "() accepts at most " ++ toString code.signature.positional ++
    " positional arguments, got " ++ toString count)

/-- The frame that is pushed for a window. -/
def push (index : Nat) (destination : Option Nat) (callable : Value) (jitAttempted : Bool)
    (w : Window) : Interpreter :=
  { s with vm := { s.vm with
      registers := s.vm.registers ++ w.registers
      cells := s.vm.cells ++ w.cells
      frames := s.vm.frames ++ [{
        ns := none, action := .value, code := index, ip := 0, base := s.vm.registers.length
        destination, cellBase := s.vm.cells.length, argumentBase := s.vm.arguments.length
        pendingClassBase := s.vm.pendingClasses.length, callable := some callable
        generator := none, yieldFrom := none, injectedException := none, exceptionStack := []
        jitAttempted, jitResume := false, jitExpandedResumeDepth := none }] } }

end Interpreter

end Tonic
