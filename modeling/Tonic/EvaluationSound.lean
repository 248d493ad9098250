import Mathlib.Data.List.Forall2
import Tonic.CodeRuns

/-!
## The code of an expression computes its value

Where the code of an expression lies in a code object, its execution comes to the value of the
expression, in the world and with the locals it is evaluated in, or fails as the evaluation does.
-/

namespace Tonic

open Computations Execution Evaluation

variable {ν ω ε ρ α β : Type} (host : Host ν ω ε ρ) (code : CodeObject) (scope : Scope)
  (locals : Nat → Option ν)

/-- The execution stands at a point of the code, with the locals in their registers. -/
structure Stands (s : Point) (x : Execution ν ω ρ) : Prop where
  pc : x.pc = s.pc
  room : scope.locals.length ≤ s.next
  locals : ∀ slot < scope.locals.length, x.registers slot = locals slot

/-- The execution has come to a point, with a value in a register. -/
def Gives (t : Point) (r : Nat) (records : List ρ) (v : ν) (y : Execution ν ω ρ) : Prop :=
  y.pc = t.pc ∧ y.records = records ∧ y.registers r = some v

/-- A piece of code computes a value in a register of its own. -/
structure Yields (s : Point) (r : Nat) (t : Point) (m : Comp ω ε ν) : Prop where
  onward : s.pc ≤ t.pc
  fresh : s.next ≤ r
  inside : r < t.next
  does (x : Execution ν ω ρ) (stands : Stands scope locals s x) :
    Does host code s.pc t.pc s.next m x (Gives t r x.records)

/-- A piece of code fills a window of registers. -/
structure Fills (s t : Point) (base count : Nat) (m : Comp ω ε (List ν)) : Prop where
  onward : s.pc ≤ t.pc
  grows : s.next ≤ t.next
  does (x : Execution ν ω ρ) (stands : Stands scope locals s x)
    (room : scope.locals.length ≤ base) (inside : base + count ≤ s.next) :
    Does host code s.pc t.pc base m x fun vs y =>
      y.pc = t.pc ∧ y.records = x.records ∧ Held y.registers (List.range' base count) vs

section Pieces

variable {host code scope locals} {s t u : Point} {r : Nat} {x y : Execution ν ω ρ}

theorem Stands.next (stands : Stands scope locals s x)
    (below : Below s.next x.registers y.registers) (pc : y.pc = t.pc) (grows : s.next ≤ t.next) :
    Stands scope locals t y := by
  refine ⟨pc, Nat.le_trans stands.room grows, fun slot inside => ?_⟩
  rw [below slot (Nat.lt_of_lt_of_le inside stands.room), stands.locals slot inside]

theorem Stands.moves (stands : Stands scope locals s x) {pc : Nat} (at' : y.pc = pc)
    (same : y.registers = x.registers) : Stands scope locals ⟨pc, s.next⟩ y :=
  ⟨at', stands.room, fun slot inside => same ▸ stands.locals slot inside⟩

/-- A value is computed, and the execution stands where the next piece of code begins. -/
theorem Yields.run {m : Comp ω ε ν} (value : Yields host code scope locals s r t m) {low : Nat}
    (bound : low ≤ s.next) (stands : Stands scope locals s x) :
    Does host code s.pc t.pc low m x fun v y => Below s.next x.registers y.registers ∧
      Stands scope locals t y ∧ y.records = x.records ∧ y.registers r = some v := by
  have fresh := value.fresh
  have inside := value.inside
  refine ((value.does x stands).imp fun v y kept gives => ?_).mono (Nat.le_refl _) (Nat.le_refl _)
    bound
  exact ⟨kept, stands.next kept gives.1 (by omega), gives.2.1, gives.2.2⟩

theorem Execution.Writes.gives {v : ν} (writes : Writes x r v y) (pc : t.pc = x.pc + 1) :
    Gives t r x.records v y := by
  refine ⟨writes.pc.trans pc.symm, writes.records, ?_⟩
  rw [writes.registers, put_self]

theorem constant_yields {c : Constant} (lay : Layout.constant code c s r t) :
    Yields host code scope locals s r t (pure (host.constant c)) := by
  obtain ⟨_, _, ⟨rfl, rfl⟩, id, _, rfl, _, _, ⟨listed, rfl⟩, _, _, ⟨at', rfl⟩, rfl, rfl⟩ := lay
  refine ⟨Nat.le_succ _, Nat.le_refl _, Nat.lt_succ_self _, fun x stands => ?_⟩
  rw [← stands.pc] at at'
  refine Does.constant at' listed (Nat.le_refl _) (.pure ⟨?_, rfl, put_self⟩)
  exact congrArg (· + 1) stands.pc

variable (host) in
/-- An instruction with a register of its own. -/
theorem compute_does {op : Op} {b c : Nat} {registers numbers : List Nat}
    (lay : Layout.compute code op b c s r t)
    (form : ∀ a, op.computes ⟨op.toNat, a, b, c⟩ = some (registers, numbers)) :
    (s.pc ≤ t.pc ∧ s.next = r ∧ t.next = r + 1) ∧ ∀ (x : Execution ν ω ρ) (values : List ν),
      x.pc = s.pc → Held x.registers registers values →
      Does host code s.pc t.pc s.next (operate host op values numbers) x fun v y =>
        Gives t r x.records v y ∧ host.operate op values numbers x.world = (.ok v, y.world) := by
  obtain ⟨_, _, ⟨rfl, rfl⟩, _, _, ⟨at', rfl⟩, rfl, rfl⟩ := lay
  refine ⟨⟨Nat.le_succ _, rfl, rfl⟩, fun x values pc held => ?_⟩
  rw [← pc] at at'
  refine (Does.compute at' (form _) (mapM_read held) ⟨?_, ?_⟩ (Nat.le_refl _)).imp ?_
  · exact Nat.le_of_eq pc.symm
  · rw [pc]
    exact Nat.lt_succ_self _
  · intro v y below post
    exact ⟨post.1.gives (congrArg (· + 1) pc.symm), post.2⟩

/-- A value is computed, and an instruction makes another one of it. -/
theorem Yields.compute {m : Comp ω ε ν} {op : Op} {b c : Nat} {numbers : List Nat}
    (value : Yields host code scope locals s b u m) (lay : Layout.compute code op b c u r t)
    (form : ∀ a, op.computes ⟨op.toNat, a, b, c⟩ = some ([b], numbers)) :
    Yields host code scope locals s r t (m >>= fun v => operate host op [v] numbers) := by
  obtain ⟨⟨onward, fresh, inside⟩, does⟩ := compute_does host lay form
  have first := value.onward
  have below := value.inside
  have above := value.fresh
  refine ⟨by omega, by omega, by omega, fun x stands => ?_⟩
  refine (value.does x stands).seq u.pc u.next onward first (by omega) fun v y kept gives => ?_
  refine ((does y [v] gives.1 (.cons gives.2.2 .nil))).imp fun v' z _ post => ?_
  exact ⟨post.1.1, post.1.2.1.trans gives.2.1, post.1.2.2⟩

/-- A value that is there already is computed by no code at all. -/
theorem Yields.convert {m : Comp ω ε ν} {conversion : FormatConversion} {b : Nat}
    (value : Yields host code scope locals s b u m)
    (lay : Layout.convert code conversion b u r t) :
    Yields host code scope locals s r t (m >>= Evaluation.convert host conversion) := by
  cases conversion with
  | none =>
    obtain ⟨rfl, rfl⟩ := lay
    refine ⟨value.onward, value.fresh, value.inside, fun x stands => ?_⟩
    exact (value.does x stands).bind fun v y _ gives => .pure gives
  | str => exact value.compute lay fun _ => rfl
  | repr => exact value.compute lay fun _ => rfl
  | ascii => exact value.compute lay fun _ => rfl

/-- A delegation goes round as often as its iterator gives something. -/
theorem Yields.delegate {m : Comp ω ε ν} {b : Nat}
    (value : Yields host code scope locals s b u m) (lay : Layout.delegate code b u r t) :
    Yields host code scope locals s r t (m >>= Evaluation.delegate host) := by
  obtain ⟨_, _, constant, _, _, ⟨rfl, rfl⟩, _, v, rfl, _, _, ⟨asks, rfl⟩, _, _,
    ⟨yields, rfl⟩, _, _, ⟨jumps, rfl⟩, _, _, ⟨rfl, rfl⟩, rfl, rfl⟩ := lay
  have none : Yields host code scope locals u r v (pure (host.constant .none)) :=
    constant_yields constant
  have onward := value.onward
  have fresh := value.fresh
  have inside := value.inside
  have onward' := none.onward
  have fresh' := none.fresh
  have inside' := none.inside
  simp only at asks yields jumps
  refine ⟨by simp only; omega, by omega, inside', fun x stands => ?_⟩
  refine (value.does x stands).seq u.pc u.next (by simp only; omega) onward (by omega)
    fun iterator y kept gives => ?_
  have stands' := stands.next kept gives.1 (by omega)
  rw [Evaluation.delegate]
  refine Does.of_pure_bind (a := host.constant .none) (f := Comp.Repeats _) ?_
  refine (none.does y stands').seq v.pc u.next (by simp only; omega) onward' (Nat.le_refl _)
    fun sent z kept' gives' => ?_
  have held : z.registers b = some iterator := (kept' b inside).trans gives.2.2
  have records : z.records = x.records := gives'.2.1.trans gives.2.1
  refine Does.repeats (fun sent z => z.pc = v.pc ∧ z.records = x.records ∧
    z.registers r = some sent ∧ z.registers b = some iterator) ?_
    ⟨gives'.1, records, gives'.2.2, held⟩
  rintro sent y ⟨pc, records, sent', held⟩
  have at' : Layout.At code y.pc .yieldFrom r b (v.pc + 1 + 1 + 1) := pc ▸ asks
  refine (Does.yieldFrom at' (.cons sent' (.cons held .nil)) ?_ fresh').bind ?_
  · simp only
    omega
  · rintro ⟨given, more⟩ z below ⟨pc', records', registers⟩
    have kept : z.registers b = some iterator := (below b inside).trans held
    cases more with
    | false =>
      refine Does.pure ⟨pc', records'.trans records, ?_⟩
      rw [registers, put_self]
    | true =>
      have here : z.pc = v.pc + 1 := pc'.trans (by rw [if_pos rfl, pc])
      have at' : Layout.At code z.pc .yield r r 0 := here ▸ yields
      have holds : z.registers r = some given := by rw [registers, put_self]
      refine (Does.compute at' rfl (mapM_read (.cons holds .nil)) ?_ fresh').bind ?_
      · simp only
        omega
      · rintro answer z' below' ⟨writes, -⟩
        have here' : z'.pc = v.pc + 1 + 1 := by rw [writes.pc, here]
        refine Does.jump (here' ▸ jumps) (.pure ⟨rfl, ?_, ?_, ?_⟩)
        · exact writes.records.trans (records'.trans records)
        · change z'.registers r = some answer
          rw [writes.registers, put_self]
        · exact (below' b inside).trans kept

/-! ### Windows -/

theorem Fills.nil {base : Nat} : Fills host code scope locals s s base 0 (pure []) := by
  refine ⟨Nat.le_refl _, Nat.le_refl _, fun x stands room inside => ?_⟩
  exact Does.pure ⟨stands.pc, rfl, .nil⟩

theorem Stands.below {low : Nat} (stands : Stands scope locals s x)
    (below : Below low x.registers y.registers) (room : scope.locals.length ≤ low)
    (pc : y.pc = t.pc) (grows : s.next ≤ t.next) : Stands scope locals t y := by
  refine ⟨pc, Nat.le_trans stands.room grows, fun slot inside => ?_⟩
  rw [below slot (Nat.lt_of_lt_of_le inside room), stands.locals slot inside]

/-- A value is computed and moved into the first register of the window. -/
theorem Fills.cons {base count : Nat} {m : Comp ω ε ν} {ms : Comp ω ε (List ν)} {b : Nat}
    (value : Yields host code scope locals s b u m) (moved : Layout.At code u.pc .move base b 0)
    (rest : Fills host code scope locals ⟨u.pc + 1, u.next⟩ t (base + 1) count ms) :
    Fills host code scope locals s t base (count + 1)
      (m >>= fun v => ms >>= fun vs => pure (v :: vs)) := by
  have first := value.onward
  have fresh := value.fresh
  have within := value.inside
  have onward := rest.onward
  have grows := rest.grows
  simp only at onward grows
  refine ⟨by omega, by omega, fun x stands room inside => ?_⟩
  refine ((value.does x stands).mono (Nat.le_refl _) (Nat.le_refl _) ?_).seq u.pc base ?_ first
    (Nat.le_refl _) fun v y kept gives => ?_
  · omega
  · omega
  · refine Does.move (gives.1.symm ▸ moved) gives.2.2 (Nat.le_refl _) ?_
    have room' : Below base x.registers (y.write base v).registers :=
      (kept.mono (by omega)).trans (Below.put (Nat.le_refl _))
    have stands' : Stands scope locals ⟨u.pc + 1, u.next⟩ (y.write base v) :=
      stands.below room' room (congrArg (· + 1) gives.1) (by simp only; omega)
    have filled := rest.does _ stands' (by omega) (by simp only; omega)
    have ran := filled.imp fun vs z kept' post => And.intro (kept' base (Nat.lt_succ_self _)) post
    refine (ran.mono (by simp only; omega) (Nat.le_refl _) (Nat.le_succ _)).bind
      fun vs z _ post => ?_
    obtain ⟨here, pc, records, held⟩ := post
    refine .pure ⟨pc, records.trans gives.2.1, ?_⟩
    rw [List.range'_succ]
    exact .cons (here.trans put_self) held

section Lists

variable (host code scope locals)

variable {host code scope locals}

/-- The registers of pairs hold the values. -/
def HeldPairs (registers : Nat → Option ν) : List (Nat × Nat) → List (ν × ν) → Prop :=
  List.Forall₂ fun r v => registers r.1 = some v.1 ∧ registers r.2 = some v.2

theorem HeldPairs.below {old new : Nat → Option ν} {pairs : List (Nat × Nat)}
    {values : List (ν × ν)} {low : Nat} (held : HeldPairs old pairs values)
    (below : Below low old new) (bound : ∀ pair ∈ pairs, pair.1 < low ∧ pair.2 < low) :
    HeldPairs new pairs values := by
  induction held with
  | nil => exact .nil
  | cons here rest ih =>
    refine .cons ?_ (ih fun pair member => bound pair (List.mem_cons_of_mem _ member))
    obtain ⟨key, value⟩ := bound _ (List.mem_cons_self ..)
    exact ⟨(below _ key).trans here.1, (below _ value).trans here.2⟩

/-- The registers of named arguments hold the values under the same names. -/
def HeldNamed (registers : Nat → Option ν) : List (Nat × Nat) → List (Nat × ν) → Prop :=
  List.Forall₂ fun r v => r.1 = v.1 ∧ registers r.2 = some v.2

theorem HeldNamed.below {old new : Nat → Option ν} {named : List (Nat × Nat)}
    {values : List (Nat × ν)} {low : Nat} (held : HeldNamed old named values)
    (below : Below low old new) (bound : ∀ pair ∈ named, pair.2 < low) :
    HeldNamed new named values := by
  induction held with
  | nil => exact .nil
  | cons here rest ih =>
    refine .cons ?_ (ih fun pair member => bound pair (List.mem_cons_of_mem _ member))
    exact ⟨here.1, (below _ (bound _ (List.mem_cons_self ..))).trans here.2⟩

/-- A value is computed and moved to a register below those of its code. -/
theorem Yields.moved {m : Comp ω ε ν} {a b low : Nat}
    (value : Yields host code scope locals s b u m) (at' : Layout.At code u.pc .move a b 0)
    (room : low ≤ a) (inside : a < s.next) (above : scope.locals.length ≤ a)
    (stands : Stands scope locals s x) :
    Does host code s.pc (u.pc + 1) low m x fun v y => Below a x.registers y.registers ∧
      Stands scope locals ⟨u.pc + 1, u.next⟩ y ∧ y.records = x.records ∧
      y.registers a = some v := by
  have first := value.onward
  have fresh := value.fresh
  have within := value.inside
  refine Does.of_bind_pure ?_
  have ran := value.run (show low ≤ s.next by omega) stands
  refine ran.seq u.pc low (Nat.le_succ _) first (Nat.le_refl _) fun v y _ post => ?_
  obtain ⟨kept, stands, records, held⟩ := post
  have below : Below a x.registers (y.write a v).registers :=
    (kept.mono (Nat.le_of_lt inside)).trans (Below.put (Nat.le_refl _))
  refine Does.move (stands.pc.symm ▸ at') held room (.pure ⟨below, ?_, records, put_self⟩)
  exact stands.below (Below.put (Nat.le_refl a)) above (congrArg (· + 1) stands.pc) (Nat.le_refl _)

end Lists

end Pieces

end Tonic
