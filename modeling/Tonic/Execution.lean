import Tonic.Lower

/-!
## The execution of a frame

What the instructions of a code object do with the registers of one frame. What the runtime computes
in between is left open: it works on a world of its own and may fail.
-/

namespace Tonic

variable {ν ω ε ρ : Type}

/-- What the runtime does for the instructions, over values `ν`, worlds `ω`, failures `ε` and argument
records `ρ`. -/
structure Host (ν ω ε ρ : Type) where
  constant : Constant → ν
  /-- A register is read that holds nothing. -/
  unbound : Nat → ε
  /-- An instruction that writes its first register. -/
  operate : Op → List ν → List Nat → ω → Except ε ν × ω
  /-- An instruction that writes no register. -/
  perform : Op → List ν → List Nat → ω → Except ε Unit × ω
  truth : ν → ω → Except ε Bool × ω
  /-- An iterator is asked; whether there was something left. -/
  advance : Op → List ν → ω → Except ε (ν × Bool) × ω
  unpack : ν → (count : Nat) → ω → Except ε (Vector ν count) × ω
  call : ν → List ν → List (Nat × ν) → ω → Except ε ν × ω
  record : ρ
  append : Op → ρ → ν → List Nat → ω → Except ε ρ × ω
  callExpanded : ν → ρ → ω → Except ε ν × ω
  /-- What a context manager is entered with, and what leaves it. -/
  enter : Op → ν → ω → Except ε (ν × ν) × ω
  raise : ν → Option ν → ω → ε × ω
  reraise : ω → ε × ω
  /-- The exception that a handler sees. Some failures are not handled. -/
  caught : ε → ω → Option (ν × ω)

namespace Op

/-- The registers and the numbers that an instruction computes the value of its first register from;
those that change an object may leave another value in the register of their owner. -/
def computes (op : Op) (i : Instr) : Option (List Nat × List Nat) :=
  match op with
  | .loadGlobal | .loadCell | .loadName | .importName => some ([], [i.b])
  | .classDeref => some ([], [i.b, i.c])
  | .add | .inplaceAdd | .sub | .mul | .floorDiv | .mod | .div | .pow | .bitOr | .bitXor | .bitAnd
  | .leftShift | .rightShift | .matMul | .inplaceSub | .inplaceMul | .inplaceDiv | .inplaceFloorDiv
  | .inplaceMod | .inplacePow | .inplaceBitOr | .inplaceBitXor | .inplaceBitAnd | .inplaceLeftShift
  | .inplaceRightShift | .inplaceMatMul | .eq | .ne | .lt | .le | .gt | .ge | .is | .isNot
  | .contains | .notContains | .item | .formatValue | .exceptionMatch | .contextExit
  | .asyncContextExit => some ([i.b, i.c], [])
  | .neg | .pos | .invert | .not | .iter | .getAwaitable | .yield | .asyncYield => some ([i.b], [])
  | .convert | .attr | .importFrom => some ([i.b], [i.c])
  | .tuple | .list => some (List.range' i.b i.c, [])
  | .slice => some ([i.b, i.b + 1, i.b + 2], [])
  | .dict | .set => some ([], [])
  | .setItem => some ([i.a, i.b, i.c], [])
  | .setAttr => some ([i.a, i.b], [i.c])
  | .delAttr | .storeName => some ([i.a], [i.b])
  | .delItem | .setAdd | .dictMerge => some ([i.a, i.b], [])
  | _ => none

/-- The same of an instruction that writes no register. -/
def performs (op : Op) (i : Instr) : Option (List Nat × List Nat) :=
  match op with
  | .storeGlobal | .storeCell => some ([i.a], [i.b])
  | .listAppend => some ([i.a, i.b], [])
  | .pushException => some ([i.a], [])
  | .clearException => some ([], [])
  | _ => none

end Op

/-- The smallest region that protects an instruction, the first of several. -/
def CodeObject.handlerAt (code : CodeObject) (pc : Nat) : Option ExceptionRegion :=
  (code.exceptionRegions.filter fun region => region.start ≤ pc && pc < region.stop).foldl
    (fun best region =>
      match best with
      | none => some region
      | some old => if region.stop - region.start < old.stop - old.start then some region else best)
    none

/-- A frame in execution: its registers, its argument records, the newest first, and the world. -/
structure Execution (ν ω ρ : Type) where
  pc : Nat
  registers : Nat → Option ν
  records : List ρ
  world : ω

/-- What comes of an instruction. -/
inductive Event (ν ω ε ρ : Type) where
  | goes (after : Execution ν ω ρ)
  | raised (failure : ε) (after : Execution ν ω ρ)
  | returned (value : ν) (world : ω)
  | stuck

namespace Execution

variable (host : Host ν ω ε ρ)

def read (x : Execution ν ω ρ) (r : Nat) : Except ε ν :=
  match x.registers r with
  | some v => .ok v
  | none => .error (host.unbound r)

def put (registers : Nat → Option ν) (r : Nat) (v : ν) : Nat → Option ν :=
  fun x => if x = r then some v else registers x

/-- The values of a window are written one behind the other. -/
def putAll (registers : Nat → Option ν) (r : Nat) : List ν → Nat → Option ν
  | [] => registers
  | v :: rest => putAll (put registers r v) (r + 1) rest

/-- Operands are read, the runtime works on them, and its result is put where it belongs. -/
def settle {α β : Type} (x : Execution ν ω ρ) (operands : Except ε α)
    (work : α → ω → Except ε β × ω) (finish : β → Execution ν ω ρ → Execution ν ω ρ) :
    Event ν ω ε ρ :=
  match operands with
  | .error e => .raised e x
  | .ok a =>
    match work a x.world with
    | (.error e, world) => .raised e { x with world }
    | (.ok b, world) => .goes (finish b { x with world })

/-- On to the next instruction. -/
def fall (x : Execution ν ω ρ) : Execution ν ω ρ := { x with pc := x.pc + 1 }

def write (r : Nat) (v : ν) (x : Execution ν ω ρ) : Execution ν ω ρ :=
  { x.fall with registers := put x.registers r v }

/-- An argument goes into the newest record. -/
def extend (record : ρ) (x : Execution ν ω ρ) : Execution ν ω ρ :=
  { x.fall with records := record :: x.records.tail }

/-- The instructions that decide where to go on, or that work on the records. -/
def control (code : CodeObject) (op : Op) (i : Instr) (x : Execution ν ω ρ) : Event ν ω ε ρ :=
  match op with
  | .const =>
    match code.constants[i.b]? with
    | none => .stuck
    | some c => .goes (x.write i.a (host.constant c))
  | .move => x.settle (x.read host i.b) (fun v world => (.ok v, world)) (write i.a)
  | .jump => .goes { x with pc := i.a }
  | .jumpFalse =>
    x.settle (x.read host i.a) host.truth fun holds x =>
      if holds then x.fall else { x with pc := i.b }
  | .jumpTrue =>
    x.settle (x.read host i.a) host.truth fun holds x =>
      if holds then { x with pc := i.b } else x.fall
  | .next =>
    x.settle (x.read host i.b) (fun iterator => host.advance .next [iterator])
      fun (v, more) x => if more then x.write i.a v else { x.write i.a v with pc := i.c }
  | .yieldFrom =>
    x.settle ([i.a, i.b].mapM (x.read host)) (host.advance .yieldFrom)
      fun (v, more) x => if more then x.write i.a v else { x.write i.a v with pc := i.c }
  | .unpack =>
    x.settle (x.read host i.b) (fun v => host.unpack v i.c)
      fun values x => { x.fall with registers := putAll x.registers i.a values.toList }
  | .call =>
    match code.calls[i.c]? with
    | none => .stuck
    | some site =>
      x.settle ((i.b :: List.range' site.first (site.count + site.keywords.length)).mapM
          (x.read host))
        (fun values =>
          match values with
          | [] => fun world => (.error (host.unbound i.b), world)
          | callee :: values =>
            host.call callee (values.take site.count)
              (site.keywords.zip (values.drop site.count)))
        (write i.a)
  | .beginArgs => .goes { x.fall with records := host.record :: x.records }
  | .argPos | .argStar | .argNamed | .argMapping =>
    match x.records with
    | [] => .stuck
    | record :: _ =>
      x.settle (x.read host i.a) (fun v => host.append op record v [i.b, i.c]) extend
  | .callExpanded =>
    match x.records with
    | [] => .stuck
    | record :: records =>
      x.settle (x.read host i.b) (fun callee => host.callExpanded callee record)
        fun v x => { x.write i.a v with records }
  | .contextEnter | .asyncContextEnter =>
    x.settle (x.read host i.c) (host.enter op)
      fun (v, token) x => { x.fall with registers := put (put x.registers i.b token) i.a v }
  | .clearBinding =>
    if i.a = 0 then
      .goes { x.fall with registers := fun r => if r = i.b then none else x.registers r }
    else x.settle (.ok []) (fun values => host.perform op values [i.a, i.b]) fun _ => fall
  | .ret =>
    match x.read host i.a with
    | .error e => .raised e x
    | .ok v => .returned v x.world
  | .raise =>
    if i.b = 1 then
      let (e, world) := host.reraise x.world
      .raised e { x with world }
    else
      match [i.a].mapM (x.read host), (if i.b = 2 then [i.c] else []).mapM (x.read host) with
      | .ok [v], .ok cause =>
        let (e, world) := host.raise v cause.head? x.world
        .raised e { x with world }
      | .error e, _ | _, .error e => .raised e x
      | _, _ => .stuck
  | _ => .stuck

def step (code : CodeObject) (x : Execution ν ω ρ) : Event ν ω ε ρ :=
  match code.instructions[x.pc]? with
  | none => .stuck
  | some i =>
    match Op.ofNat? i.opcode with
    | none => .stuck
    | some op =>
      match op.computes i, op.performs i with
      | some (registers, numbers), _ =>
        x.settle (registers.mapM (x.read host))
          (fun values => host.operate op values numbers) (write i.a)
      | none, some (registers, numbers) =>
        x.settle (registers.mapM (x.read host))
          (fun values => host.perform op values numbers) fun _ => fall
      | none, none => x.control host code op i

/-- An instruction is executed, or the exception it raises is handled. -/
inductive Moves (code : CodeObject) : Execution ν ω ρ → Execution ν ω ρ → Prop where
  | goes {x y : Execution ν ω ρ} (executed : step host code x = .goes y) : Moves code x y
  | handles {x y : Execution ν ω ρ} {e : ε} {region : ExceptionRegion} {v : ν} {world : ω}
    (executed : step host code x = .raised e y) (found : code.handlerAt x.pc = some region)
    (caught : host.caught e y.world = some (v, world)) :
    Moves code x ⟨region.target, put y.registers region.exception v, [], world⟩

end Execution

end Tonic
