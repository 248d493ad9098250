import Mathlib.Logic.Relation
import Tonic.Evaluation
import Tonic.Layout
import Tonic.Library.Outcome

/-!
## Pieces of code and computations

What it means that a piece of code does what a computation does, and how such pieces are put
together. The registers below those of the piece are kept.
-/

namespace Tonic

open Computations

variable {ν ω ε ρ α β : Type}

/-- The instruction leaves its owner where it was. -/
def Host.Keeps (host : Host ν ω ε ρ) (op : Op) (owner : ν) : Prop :=
  ∀ rest numbers w v u, host.operate op (owner :: rest) numbers w = (.ok v, u) → v = owner

namespace Execution

variable (host : Host ν ω ε ρ) (code : CodeObject)

def Runs : Execution ν ω ρ → Execution ν ω ρ → Prop := Relation.ReflTransGen (Moves host code)

/-- The registers below a bound are as they were. -/
def Below (low : Nat) (old new : Nat → Option ν) : Prop := ∀ r < low, new r = old r

/-- An instruction of a piece of code fails. -/
def Fails (start stop low : Nat) (x : Execution ν ω ρ) (e : ε) (world : ω) : Prop :=
  ∃ y z, Runs host code x y ∧ start ≤ y.pc ∧ y.pc < stop ∧ step host code y = .raised e z ∧
    z.world = world ∧ Below low x.registers y.registers

/-- From a state, a piece of code does what a computation does. -/
def Does (start stop low : Nat) (m : Comp ω ε α) (x : Execution ν ω ρ)
    (post : α → Execution ν ω ρ → Prop) : Prop :=
  ∀ out world, m x.world out world →
    match out with
    | .ok a => ∃ y, Runs host code x y ∧ y.world = world ∧ Below low x.registers y.registers ∧
        post a y
    | .error e => Fails host code start stop low x e world

variable {host code} {start stop low : Nat} {x y : Execution ν ω ρ}

theorem Below.refl {regs : Nat → Option ν} : Below low regs regs := fun _ _ => rfl

theorem Below.trans {a b c : Nat → Option ν} (first : Below low a b) (second : Below low b c) :
    Below low a c := fun r inside => (second r inside).trans (first r inside)

theorem Below.mono {low' : Nat} {a b : Nat → Option ν} (below : Below low' a b)
    (bound : low ≤ low') : Below low a b :=
  fun r inside => below r (Nat.lt_of_lt_of_le inside bound)

theorem put_self {regs : Nat → Option ν} {r : Nat} {v : ν} : put regs r v r = some v := if_pos rfl

theorem put_ne {regs : Nat → Option ν} {r r' : Nat} {v : ν} (other : r' ≠ r) :
    put regs r v r' = regs r' := if_neg other

theorem Below.put {regs : Nat → Option ν} {r : Nat} {v : ν} (above : low ≤ r) :
    Below low regs (put regs r v) := fun r' inside => put_ne (by omega)

theorem Fails.mono {start' stop' low' : Nat} {e : ε} {world : ω}
    (fails : Fails host code start' stop' low' x e world) (first : start ≤ start')
    (last : stop' ≤ stop) (bound : low ≤ low') : Fails host code start stop low x e world := by
  obtain ⟨y, z, runs, from', before, executed, same, below⟩ := fails
  exact ⟨y, z, runs, by omega, by omega, executed, same, below.mono bound⟩

theorem Fails.after {e : ε} {world : ω} (runs : Runs host code x y)
    (below : Below low x.registers y.registers)
    (fails : Fails host code start stop low y e world) :
    Fails host code start stop low x e world := by
  obtain ⟨y', z, runs', from', before, executed, same, below'⟩ := fails
  exact ⟨y', z, runs.trans runs', from', before, executed, same, below.trans below'⟩

namespace Does

variable {m : Comp ω ε α} {P : α → Execution ν ω ρ → Prop} {Q : β → Execution ν ω ρ → Prop}

theorem pure {a : α} (post : P a x) : Does host code start stop low (pure a : Comp ω ε α) x P := by
  intro out world run
  obtain ⟨rfl, rfl⟩ := Comp.pure_iff.mp run
  exact ⟨x, .refl, rfl, Below.refl, post⟩

theorem bind {f : α → Comp ω ε β} (first : Does host code start stop low m x P)
    (rest : ∀ a y, Below low x.registers y.registers → P a y →
      Does host code start stop low (f a) y Q) :
    Does host code start stop low (m >>= f) x Q := by
  intro out world run
  cases Comp.bind_iff.mp run with
  | inl failed =>
    obtain ⟨e, failed, rfl⟩ := failed
    exact first _ _ failed
  | inr went =>
    obtain ⟨a, middle, went, onward⟩ := went
    obtain ⟨y, runs, rfl, below, post⟩ := first _ _ went
    have later := rest a y below post _ _ onward
    cases out with
    | error e => exact later.after runs below
    | ok b =>
      obtain ⟨z, runs', same, below', post'⟩ := later
      exact ⟨z, runs.trans runs', same, below.trans below', post'⟩

theorem mono {start' stop' low' : Nat} (does : Does host code start' stop' low' m x P)
    (first : start ≤ start') (last : stop' ≤ stop) (bound : low ≤ low') :
    Does host code start stop low m x P := by
  intro out world run
  have done := does out world run
  cases out with
  | error e => exact Fails.mono done first last bound
  | ok a =>
    obtain ⟨y, runs, same, below, post⟩ := done
    exact ⟨y, runs, same, below.mono bound, post⟩

/-- Two pieces of code, one behind the other. -/
theorem seq {mid : Nat} (start' low' : Nat) {f : α → Comp ω ε β}
    (first : Does host code start mid low m x P) (last : mid ≤ stop) (from' : start ≤ start')
    (bound : low ≤ low')
    (rest : ∀ a y, Below low x.registers y.registers → P a y →
      Does host code start' stop low' (f a) y Q) :
    Does host code start stop low (m >>= f) x Q :=
  (first.mono (Nat.le_refl _) last (Nat.le_refl _)).bind fun a y below post =>
    (rest a y below post).mono from' (Nat.le_refl _) bound

theorem imp {P' : α → Execution ν ω ρ → Prop} (does : Does host code start stop low m x P)
    (post : ∀ a y, Below low x.registers y.registers → P a y → P' a y) :
    Does host code start stop low m x P' := by
  intro out world run
  have done := does out world run
  cases out with
  | error e => exact done
  | ok a =>
    obtain ⟨y, runs, same, below, held⟩ := done
    exact ⟨y, runs, same, below, post a y below held⟩

/-- Some steps that change no world come first. -/
theorem after (runs : Runs host code x y) (same : y.world = x.world)
    (below : Below low x.registers y.registers) (does : Does host code start stop low m y P) :
    Does host code start stop low m x P := by
  intro out world run
  have done := does out world (same ▸ run)
  cases out with
  | error e => exact done.after runs below
  | ok a =>
    obtain ⟨z, runs', same', below', post⟩ := done
    exact ⟨z, runs.trans runs', same', below.trans below', post⟩

theorem of_pure_bind {a : α} {f : α → Comp ω ε β}
    (does : Does host code start stop low (Pure.pure a >>= f) x Q) :
    Does host code start stop low (f a) x Q :=
  fun out world run => does out world (.inr ⟨a, x.world, ⟨rfl, rfl⟩, run⟩)

theorem of_bind_pure (does : Does host code start stop low (m >>= Pure.pure) x P) :
    Does host code start stop low m x P := by
  rwa [bind_pure] at does

theorem fail {e : ε} (executed : step host code x = .raised e x)
    (inside : start ≤ x.pc ∧ x.pc < stop) :
    Does host code start stop low (Comp.fail e : Comp ω ε α) x P := by
  rintro out world ⟨rfl, rfl⟩
  exact ⟨x, x, .refl, inside.1, inside.2, executed, rfl, Below.refl⟩

theorem never : Does host code start stop low (Comp.never : Comp ω ε α) x P :=
  fun _ _ run => run.elim

/-- What each round keeps as long as it goes on holds when the rounds are through. -/
theorem repeats {body : α → Comp ω ε (α ⊕ β)} (inv : α → Execution ν ω ρ → Prop)
    (round : ∀ a y, inv a y → Does host code start stop low (body a) y fun result z =>
      match result with
      | .inl next => inv next z
      | .inr b => Q b z)
    {a : α} (entry : inv a x) : Does host code start stop low (Comp.Repeats body a) x Q := by
  intro out world run
  generalize starts : x.world = w at run
  induction run generalizing x with
  | fails run => exact round _ x entry _ _ (starts ▸ run)
  | ends run => exact round _ x entry _ _ (starts ▸ run)
  | @again a next s u t out run rest ih =>
    obtain ⟨y, runs, rfl, below, kept⟩ := round _ x entry _ _ (starts ▸ run)
    have later := ih kept rfl
    cases out with
    | error e => exact Fails.after runs below later
    | ok b =>
      obtain ⟨z, runs', same, below', post⟩ := later
      exact ⟨z, runs.trans runs', same, below.trans below', post⟩

/-- An instruction that reads its operands and leaves the rest to the runtime. -/
theorem settle {operands : Except ε α} {a : α} {work : α → ω → Except ε β × ω}
    {finish : β → Execution ν ω ρ → Execution ν ω ρ}
    (executed : step host code x = x.settle operands work finish) (read : operands = .ok a)
    (inside : start ≤ x.pc ∧ x.pc < stop)
    (kept : ∀ b world, Below low x.registers (finish b { x with world }).registers)
    (same : ∀ b world, (finish b { x with world }).world = world) :
    Does host code start stop low (Comp.lift (work a)) x fun b y =>
      y = finish b { x with world := y.world } ∧ work a x.world = (.ok b, y.world) := by
  intro out world run
  rw [Comp.lift_iff] at run
  rw [read, Execution.settle] at executed
  simp only [run] at executed
  cases out with
  | error e =>
    exact ⟨x, _, .refl, inside.1, inside.2, executed, rfl, Below.refl⟩
  | ok b =>
    refine ⟨_, .single (.goes executed), same b world, kept b world, ?_, ?_⟩
    · rw [same]
    · rw [same, run]

end Does

/-! ### Single instructions -/

section Instructions

variable {i : Instr} {op : Op} {a b c : Nat} {registers numbers : List Nat} {values : List ν}

theorem step_computes (found : code.instructions[x.pc]? = some i)
    (decoded : Op.ofNat? i.opcode = some op) (form : op.computes i = some (registers, numbers)) :
    step host code x = x.settle (registers.mapM (x.read host))
      (fun values => host.operate op values numbers) (write i.a) := by
  simp only [step, found, decoded, form]

theorem step_performs (found : code.instructions[x.pc]? = some i)
    (decoded : Op.ofNat? i.opcode = some op) (other : op.computes i = none)
    (form : op.performs i = some (registers, numbers)) :
    step host code x = x.settle (registers.mapM (x.read host))
      (fun values => host.perform op values numbers) fun _ => fall := by
  simp only [step, found, decoded, other, form]

theorem step_control (at' : Layout.At code x.pc op a b c)
    (other : op.computes ⟨op.toNat, a, b, c⟩ = none)
    (other' : op.performs ⟨op.toNat, a, b, c⟩ = none) :
    step host code x = x.control host code op ⟨op.toNat, a, b, c⟩ := by
  rw [Layout.At] at at'
  simp only [step, at', Op.ofNat?_toNat, other, other']

/-- What an instruction leaves that writes its first register. -/
structure Writes (x : Execution ν ω ρ) (a : Nat) (v : ν) (y : Execution ν ω ρ) : Prop where
  pc : y.pc = x.pc + 1
  records : y.records = x.records
  registers : y.registers = put x.registers a v

theorem Does.compute (at' : Layout.At code x.pc op a b c)
    (form : op.computes ⟨op.toNat, a, b, c⟩ = some (registers, numbers))
    (read : registers.mapM (x.read host) = .ok values) (inside : start ≤ x.pc ∧ x.pc < stop)
    (above : low ≤ a) :
    Does host code start stop low (Evaluation.operate host op values numbers) x fun v y =>
      Writes x a v y ∧ host.operate op values numbers x.world = (.ok v, y.world) := by
  refine (Does.settle (step_computes at' (Op.ofNat?_toNat op) form) read inside
    (fun v world => Below.put above) fun v world => rfl).imp fun v y below post => ?_
  obtain ⟨same, result⟩ := post
  refine ⟨?_, result⟩
  rw [same]
  exact ⟨rfl, rfl, rfl⟩

theorem read_eq {v : ν} {r : Nat} (held : x.registers r = some v) : x.read host r = .ok v := by
  rw [read, held]

theorem Does.move (at' : Layout.At code x.pc .move a b c) {v : ν} (held : x.registers b = some v)
    (above : low ≤ a) {m : Comp ω ε α} {P : α → Execution ν ω ρ → Prop}
    (does : Does host code start stop low m (x.write a v) P) :
    Does host code start stop low m x P := by
  have executed : step host code x = .goes (x.write a v) := by
    rw [step_control at' rfl rfl, control]
    dsimp only
    rw [read_eq held, Execution.settle]
  exact Does.after (.single (.goes executed)) rfl (Below.put above) does

/-- The registers hold the values. -/
def Held (registers : Nat → Option ν) : List Nat → List ν → Prop :=
  List.Forall₂ fun r v => registers r = some v

theorem mapM_read {rs : List Nat} (held : Held x.registers rs values) :
    rs.mapM (x.read host) = .ok values := by
  induction held with
  | nil => rfl
  | cons here rest ih =>
    rw [List.mapM_cons, read_eq here, Outcome.ok_bind, ih]
    rfl

theorem Held.below {old new : Nat → Option ν} {rs : List Nat} (held : Held old rs values)
    (below : Below low old new) (bound : ∀ r ∈ rs, r < low) : Held new rs values := by
  induction held with
  | nil => exact .nil
  | cons here rest ih =>
    refine .cons ?_ (ih fun r member => bound r (List.mem_cons_of_mem _ member))
    rw [below _ (bound _ (List.mem_cons_self ..)), here]

theorem put_held {registers : Nat → Option ν} {r : Nat} {v : ν} (held : registers r = some v) :
    put registers r v = registers := by
  funext r'
  by_cases same : r' = r
  · rw [same, put_self, held]
  · exact put_ne same

/-- An instruction that changes the object in its first register, which stays there. -/
theorem Does.update {rs : List Nat} {d : ν} (at' : Layout.At code x.pc op a b c)
    (form : op.computes ⟨op.toNat, a, b, c⟩ = some (a :: rs, numbers))
    (held : Held x.registers (a :: rs) (d :: values)) (keeps : host.Keeps op d)
    (inside : start ≤ x.pc ∧ x.pc < stop) (above : low ≤ a) :
    Does host code start stop low (Evaluation.operate host op (d :: values) numbers) x fun _ y =>
      y.pc = x.pc + 1 ∧ y.records = x.records ∧ y.registers = x.registers := by
  refine (Does.compute at' form (mapM_read held) inside above).imp fun v y _ post => ?_
  obtain ⟨writes, result⟩ := post
  rw [keeps _ _ _ _ _ result] at writes
  cases held with
  | cons here _ => exact ⟨writes.pc, writes.records, writes.registers.trans (put_held here)⟩

theorem Does.constant (at' : Layout.At code x.pc .const a b c) {k : Constant}
    (listed : code.constants[b]? = some k) (above : low ≤ a) {m : Comp ω ε α}
    {P : α → Execution ν ω ρ → Prop}
    (does : Does host code start stop low m (x.write a (host.constant k)) P) :
    Does host code start stop low m x P := by
  have executed : step host code x = .goes (x.write a (host.constant k)) := by
    rw [step_control at' rfl rfl, control]
    dsimp only
    rw [listed]
  exact Does.after (.single (.goes executed)) rfl (Below.put above) does

theorem Does.jump (at' : Layout.At code x.pc .jump a b c) {m : Comp ω ε α}
    {P : α → Execution ν ω ρ → Prop}
    (does : Does host code start stop low m { x with pc := a } P) :
    Does host code start stop low m x P := by
  have executed : step host code x = .goes { x with pc := a } := step_control at' rfl rfl
  exact Does.after (.single (.goes executed)) rfl Below.refl does

/-- A conditional jump: where it goes to when the value has a certain truth. -/
theorem Does.branch {conjunction : Bool}
    (at' : Layout.At code x.pc (if conjunction then .jumpFalse else .jumpTrue) a b c) {v : ν}
    (held : x.registers a = some v) (inside : start ≤ x.pc ∧ x.pc < stop) :
    Does host code start stop low (Evaluation.truth host v : Comp ω ε Bool) x fun holds y =>
      y.pc = (if holds = conjunction then x.pc + 1 else b) ∧ y.records = x.records ∧
        y.registers = x.registers := by
  cases conjunction with
  | true =>
    have executed : step host code x = x.settle (x.read host a) host.truth fun holds x =>
        if holds then x.fall else { x with pc := b } := step_control at' rfl rfl
    refine (Does.settle executed (read_eq held) inside ?_ ?_).imp ?_
    · intro holds world
      cases holds <;> exact Below.refl
    · intro holds world
      cases holds <;> rfl
    · intro holds y below post
      rw [post.1]
      cases holds <;> exact ⟨rfl, rfl, rfl⟩
  | false =>
    have executed : step host code x = x.settle (x.read host a) host.truth fun holds x =>
        if holds then { x with pc := b } else x.fall := step_control at' rfl rfl
    refine (Does.settle executed (read_eq held) inside ?_ ?_).imp ?_
    · intro holds world
      cases holds <;> exact Below.refl
    · intro holds world
      cases holds <;> rfl
    · intro holds y below post
      rw [post.1]
      cases holds <;> exact ⟨rfl, rfl, rfl⟩

/-- What an iterator gives goes into the register, whether there was something or not. -/
theorem Does.yieldFrom (at' : Layout.At code x.pc .yieldFrom a b c) {sent iterator : ν}
    (held : Held x.registers [a, b] [sent, iterator]) (inside : start ≤ x.pc ∧ x.pc < stop)
    (above : low ≤ a) :
    Does host code start stop low
      (Comp.lift (host.advance .yieldFrom [sent, iterator]) : Comp ω ε (ν × Bool)) x fun got y =>
      y.pc = (if got.2 then x.pc + 1 else c) ∧ y.records = x.records ∧
        y.registers = put x.registers a got.1 := by
  have executed : step host code x = x.settle ([a, b].mapM (x.read host))
      (host.advance .yieldFrom) fun got x =>
        if got.2 then x.write a got.1 else { x.write a got.1 with pc := c } :=
    step_control at' rfl rfl
  refine (Does.settle executed (mapM_read held) inside ?_ ?_).imp ?_
  · rintro ⟨v, more⟩ world
    cases more <;> exact Below.put above
  · rintro ⟨v, more⟩ world
    cases more <;> rfl
  · rintro ⟨v, more⟩ y below post
    rw [post.1]
    cases more <;> exact ⟨rfl, rfl, rfl⟩

theorem Does.call (at' : Layout.At code x.pc .call a b c) {site : CallSite}
    (listed : code.calls[c]? = some site) {f : ν}
    (held : Held x.registers
      (b :: List.range' site.first (site.count + site.keywords.length)) (f :: values))
    (inside : start ≤ x.pc ∧ x.pc < stop) (above : low ≤ a) :
    Does host code start stop low (Comp.lift (host.call f (values.take site.count)
      (site.keywords.zip (values.drop site.count))) : Comp ω ε ν) x fun v y => Writes x a v y := by
  have executed : step host code x = _ := step_control at' rfl rfl
  rw [control] at executed
  dsimp only at executed
  rw [listed] at executed
  refine (Does.settle executed (mapM_read held) inside (fun v world => Below.put above)
    fun v world => rfl).imp fun v y below post => ?_
  rw [post.1]
  exact ⟨rfl, rfl, rfl⟩

theorem Does.beginArgs (at' : Layout.At code x.pc .beginArgs a b c) {m : Comp ω ε α}
    {P : α → Execution ν ω ρ → Prop}
    (does : Does host code start stop low m
      { x with pc := x.pc + 1, records := host.record :: x.records } P) :
    Does host code start stop low m x P := by
  have executed : step host code x = .goes { x.fall with records := host.record :: x.records } :=
    step_control at' rfl rfl
  exact Does.after (.single (.goes executed)) rfl Below.refl does

/-- An argument goes into the newest record. -/
theorem Does.append (adds : op ∈ [Op.argPos, .argStar, .argNamed, .argMapping])
    (at' : Layout.At code x.pc op a b c) {v : ν} (held : x.registers a = some v) {record : ρ}
    {records : List ρ} (newest : x.records = record :: records)
    (inside : start ≤ x.pc ∧ x.pc < stop) :
    Does host code start stop low (Comp.lift (host.append op record v [b, c]) : Comp ω ε ρ) x
      fun record y => y.pc = x.pc + 1 ∧ y.records = record :: records ∧
        y.registers = x.registers := by
  have executed : step host code x = x.settle (x.read host a)
      (fun v => host.append op record v [b, c]) extend := by
    simp only [List.mem_cons, List.not_mem_nil, or_false] at adds
    obtain rfl | rfl | rfl | rfl := adds <;>
      (rw [step_control at' rfl rfl, control]
       dsimp only
       rw [newest])
  refine (Does.settle executed (read_eq held) inside (fun _ _ => Below.refl)
    fun _ _ => rfl).imp fun r y below post => ?_
  rw [post.1]
  refine ⟨rfl, ?_, rfl⟩
  change r :: x.records.tail = r :: records
  rw [newest]
  rfl

theorem Does.callExpanded (at' : Layout.At code x.pc .callExpanded a b c) {f : ν}
    (held : x.registers b = some f) {record : ρ} {records : List ρ}
    (newest : x.records = record :: records) (inside : start ≤ x.pc ∧ x.pc < stop)
    (above : low ≤ a) :
    Does host code start stop low (Comp.lift (host.callExpanded f record) : Comp ω ε ν) x
      fun v y => y.pc = x.pc + 1 ∧ y.records = records ∧ y.registers = put x.registers a v := by
  have executed : step host code x = x.settle (x.read host b)
      (fun callee => host.callExpanded callee record)
      fun v x => { x.write a v with records } := by
    rw [step_control at' rfl rfl, control]
    dsimp only
    rw [newest]
  refine (Does.settle executed (read_eq held) inside (fun v world => Below.put above)
    fun _ _ => rfl).imp fun v y below post => ?_
  rw [post.1]
  exact ⟨rfl, rfl, rfl⟩

end Instructions

end Execution

end Tonic
