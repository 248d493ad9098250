import Tonic.Heap

/-!
## Printable forms

`Heap::format`, which several error messages quote. Two texts come from the standard library of
the implementation language: the digits of a float and the hash of a string.
-/

namespace Tonic

/-- What the runtime takes from its language's standard library. -/
class HostLibrary where
  /-- `DefaultHasher` over a string or over bytes. -/
  hashString : String → Nat
  hashBytes : List UInt8 → Nat
  /-- The `Debug` text of a double. -/
  floatDebug : F64 → String

def hexDigits (width n : Nat) : String :=
  let digits := String.ofList (Nat.toDigits 16 n)
  String.ofList (List.replicate (width - digits.length) '0') ++ digits

def quote (s : String) : String :=
  let escaped (c : Char) : String :=
    if c = '\'' then "\\'" else if c = '\\' then "\\\\" else if c = '\n' then "\\n"
    else if c = '\r' then "\\r" else if c = '\t' then "\\t"
    else if c.toNat < 0x20 ∨ (0x7f ≤ c.toNat ∧ c.toNat < 0xa0) then "\\x" ++ hexDigits 2 c.toNat
    else c.toString
  "'" ++ String.join (s.toList.map escaped) ++ "'"

def quoteBytes (bytes : List UInt8) : String :=
  let escaped (b : UInt8) : String :=
    let n := b.toNat
    if n = 0x5c then "\\\\" else if n = 0x27 then "\\'" else if n = 9 then "\\t"
    else if n = 10 then "\\n" else if n = 13 then "\\r"
    else if 0x20 ≤ n ∧ n ≤ 0x7e then (Char.ofNat n).toString
    else "\\x" ++ hexDigits 2 n
  "b'" ++ String.join (bytes.map escaped) ++ "'"

/-- The decimal exponent is printed with a sign and at least two digits. -/
def formatFloat [HostLibrary] (x : F64) : String :=
  if x.isNaN then "nan"
  else
    let text := HostLibrary.floatDebug x
    match text.splitOn "e" with
    | mantissa :: exponent :: rest =>
      let exponent := "e".intercalate (exponent :: rest)
      let (sign, digits) :=
        if exponent.startsWith "-" then ("-", (exponent.drop 1).toString) else ("+", exponent)
      let padding := if digits.length < 2 then "0" else ""
      mantissa ++ "e" ++ sign ++ padding ++ digits
    | _ => text

namespace Heap

variable [HostLibrary]

def commaSeparated (parts : List String) : String := ", ".intercalate parts

def generatorText : GeneratorKind → String
  | .generator => "<generator object>"
  | .coroutine => "<coroutine object>"
  | .asyncGenerator => "<async_generator object>"

def asyncText (name : String) : AsyncState → String
  | .pending => "<" ++ name ++ " pending>"
  | .finished _ => "<" ++ name ++ " finished>"
  | .failed _ => "<" ++ name ++ " finished exception>"
  | .cancelled _ => "<" ++ name ++ " cancelled>"

/-- `format_depth`. `path` holds the containers being printed; `stack` stands for the native
stack, which payloads that do not enter the path could exhaust. -/
def formatDepth (h : Heap) : Nat → Value → Bool → List Value → Except Fault String
  | 0, _, _, _ => throw (.panicked "stack overflow")
  | stack + 1, v, repr, path => do
    if 100 < path.length then throw (.raise "RecursionError" "representation nesting limit")
    let nested (v : Value) : Except Fault String := h.formatDepth stack v true path
    let named (v : Value) : Except Fault String :=
      match h.get v with
      | .ok (.classObject c) => pure c.name
      | _ => nested v
    match v with
    | .small n => return toString n.val
    | .bool b => return if b then "True" else "False"
    | .none => return "None"
    | .notImplemented => return "NotImplemented"
    | .ellipsis => return "Ellipsis"
    | _ =>
    match ← h.get v with
    | .classObject c => return "<class '" ++ c.name ++ "'>"
    | .exception e =>
      if repr then
        let name := (← h.classOf e.cls).name
        return name ++ "(" ++ commaSeparated (← e.arguments.mapM nested) ++ ")"
      else return e.message
    | .mappingProxy cls =>
      if v ∈ path then return "mappingproxy(\x7b...\x7d)"
      let c ← h.classOf cls
      let entries := (List.range c.dictionaryLen).filterMap c.dictionaryEntry
      let parts ← entries.mapM fun (key, value) => do
        let key ← match key with
          | .string name => pure (quote name)
          | .other key => h.formatDepth stack key true (v :: path)
        return key ++ ": " ++ (← h.formatDepth stack value true (v :: path))
      return "mappingproxy(\x7b" ++ commaSeparated parts ++ "\x7d)"
    | .instanceObject _ _ (some backing) => h.formatDepth stack backing repr path
    | .instanceObject cls _ none => return "<" ++ (← h.classOf cls).name ++ " instance>"
    | .traceback _ => return "<traceback object>"
    | .boundMethod _ _ => return "<bound method>"
    | .staticMethod _ => return "<staticmethod>"
    | .classMethod _ => return "<classmethod>"
    | .property _ _ _ => return "<property>"
    | .propertySetter _ => return "<property setter>"
    | .propertyDeleter _ => return "<property deleter>"
    | .super _ _ => return "<super>"
    | .buffer b => return "<buffer dtype=f64 shape=" ++ toString b.shape ++ ">"
    | .foreign f => return "<foreign adapter=" ++ toString f.adapterId ++ ">"
    | .namespaceObject _ => throw (bytecodeError "class namespace escaped")
    | .int n => return toString n
    | .float x => return formatFloat x
    | .str s => return if repr then quote s else s
    | .bytes bytes => return quoteBytes bytes
    | .tuple values =>
      if v ∈ path then return "(...)"
      let parts ← values.mapM fun w => h.formatDepth stack w true (v :: path)
      return "(" ++ commaSeparated parts ++ (if values.length = 1 then "," else "") ++ ")"
    | .list values =>
      if v ∈ path then return "[...]"
      let parts ← values.mapM fun w => h.formatDepth stack w true (v :: path)
      return "[" ++ commaSeparated parts ++ "]"
    | .slice start stop step =>
      return "slice(" ++ commaSeparated (← [start, stop, step].mapM nested) ++ ")"
    | .function _ => return "<function>"
    | .typeParam name _ _ _ => return name
    | .typeAlias name _ _ _ => return name
    | .typeNoDefault => return "typing.NoDefault"
    | .typingForm _ .literal => return "typing.Literal"
    | .typingForm _ .callable => return "typing.Callable"
    | .typeUnpack value => return "*" ++ (← nested value)
    | .genericAlias _ origin args =>
      let form := match h.get origin with
        | .ok (.typingForm _ kind) => some kind
        | _ => none
      let head ← match ← h.get origin with
        | .classObject c => pure c.name
        | .typeAlias name moduleName _ _ => pure (moduleName ++ "." ++ name)
        | _ => nested origin
      match ← h.get args, form with
      | .tuple [parameters, result], some .callable =>
        let first ←
          if parameters = .ellipsis then pure "..."
          else match h.get parameters with
            | .ok (.list ps) | .ok (.tuple ps) =>
              pure ("[" ++ commaSeparated (← ps.mapM named) ++ "]")
            | _ => nested parameters
        return head ++ "[" ++ first ++ ", " ++ (← named result) ++ "]"
      | .tuple arguments, _ =>
        let parts ← arguments.mapM fun argument =>
          if form = some .literal ∧ argument = .ellipsis then pure "..." else named argument
        return head ++ "[" ++ commaSeparated parts ++ "]"
      | _, _ => throw (bytecodeError "invalid generic alias args")
    | .unionType _ members =>
      let parts ← members.mapM fun member =>
        if member = .none then pure "None" else named member
      return " | ".intercalate parts
    | .generator frame => return generatorText frame.kind
    | .coroutineIterator _ _ => return "<coroutine_wrapper object>"
    | .asyncGeneratorAwaitable _ _ _ _ => return "<async_generator_awaitable object>"
    | .asyncFuture future => return asyncText "Future" future.state
    | .asyncTask task => return asyncText "Task" task.state
    | .asyncFutureIterator _ _ => return "<_asyncio_future_iter object>"
    | .asyncEventLoop _ generation =>
      return "<EventLoop running generation=" ++ toString generation ++ ">"
    | .dict d =>
      if v ∈ path then return "\x7b...\x7d"
      let parts ← d.entries.mapM fun (key, value) => do
        return (← h.formatDepth stack key true (v :: path)) ++ ": " ++
          (← h.formatDepth stack value true (v :: path))
      return "\x7b" ++ commaSeparated parts ++ "\x7d"
    | .set d =>
      if d.entries = [] then return "set()"
      return "\x7b" ++ commaSeparated (← d.entries.mapM fun entry => nested entry.1) ++ "\x7d"
    | .cell _ => throw (bytecodeError "internal closure cell escaped")
    | .builtin _ | .native _ => return "<native function>"
    | .moduleObject _ => return "<module>"
    | .range start stop step =>
      let bounds := if step = 1 then [start, stop] else [start, stop, step]
      return "range(" ++ commaSeparated (bounds.map toString) ++ ")"
    | .iterator _ _ | .callIterator _ _ _ _ | .sequenceIterator _ _ _ _ | .rangeIterator _ _ _
    | .dictIterator _ _ _ | .mappingProxyIterator _ _ _ => return "<iterator>"

/-- Frames of native stack a formatting call may use. -/
def nativeStack : Nat := 10000

def format (h : Heap) (v : Value) (repr : Bool) : Except Fault String :=
  h.formatDepth nativeStack v repr []

end Heap

end Tonic
