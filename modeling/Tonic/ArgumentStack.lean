import Tonic.Continuations
import Tonic.Library.Exploration
import Tonic.Verify

/-!
## The stack of argument records

A call with star arguments collects them in a record. The verifier gives every instruction a depth:
how many records its frame owns when it is reached. The frames of a run own as many, as long as a
frame that was suspended goes on where the verifier could have started as well.
-/

namespace Tonic

/-! ### Depths -/

namespace Op

/-- What an instruction needs of the number of records that its frame owns. -/
def argumentsFit (op : Op) (depth : Nat) : Prop :=
  match op with
  | .callExpanded | .argPos | .argStar | .argNamed | .argMapping => 0 < depth
  | .ret | .raise | .yield => depth = 0
  | _ => True

def argumentsAfter (op : Op) (depth : Nat) : Nat :=
  match op with
  | .beginArgs => depth + 1
  | .callExpanded => depth - 1
  | _ => depth

/-- Where control goes within the frame. A `Yield` gives it back to the caller. -/
def successors (op : Op) (pc : Nat) (i : Instr) : List Nat :=
  match op with
  | .ret | .raise | .yield => []
  | .jump => [i.a]
  | .jumpFalse | .jumpTrue => [pc + 1, i.b]
  | .next | .yieldFrom => [pc + 1, i.c]
  | .endAsyncFor => [i.b]
  | _ => [pc + 1]

end Op

namespace CodeObject

variable (code : CodeObject)

def handlers : List Nat := code.exceptionRegions.map (·.target)

/-- The instructions after those that suspend a frame. -/
def resumptions : List Nat :=
  code.instructions.zipIdx.filterMap fun (i, pc) =>
    match Op.ofNat? i.opcode with
    | some .yield | some .asyncYield => some (pc + 1)
    | _ => none

/-- Every place where a frame of the code starts, goes on or handles an exception. -/
def entries : List Nat := 0 :: code.handlers ++ code.resumptions

inductive Leads (roots : List Nat) : Nat → Prop where
  | root {pc : Nat} (found : pc ∈ roots) : Leads roots pc
  | next {pc next : Nat} {i : Instr} {op : Op} (before : Leads roots pc)
      (found : code.instructions[pc]? = some i) (decoded : Op.ofNat? i.opcode = some op)
      (successor : next ∈ op.successors pc i) : Leads roots next

/-- The depths are right wherever control can come from the roots. -/
structure Balanced (roots : List Nat) (depth : Nat → Nat) : Prop where
  root {pc : Nat} : pc ∈ roots → depth pc = 0
  fits {pc : Nat} : code.Leads roots pc → ∃ i op, code.instructions[pc]? = some i ∧
    Op.ofNat? i.opcode = some op ∧ op.argumentsFit (depth pc) ∧
    ∀ next ∈ op.successors pc i, depth next = op.argumentsAfter (depth pc)

section Analysis

variable {code}

theorem argumentStep_ok {pc depth : Nat} {i : Instr} {next : List (Nat × Nat)} :
    argumentStep pc depth i = .ok next ↔ ∃ op, Op.ofNat? i.opcode = some op ∧
      op.argumentsFit depth ∧ next = (op.successors pc i).map (·, op.argumentsAfter depth) := by
  unfold argumentStep decodeOp
  cases Op.ofNat? i.opcode with
  | none => simp only [throw, throwThe, MonadExceptOf.throw, bind, Except.bind, reduceCtorEq,
      false_and, exists_false]
  | some op =>
    simp only [pure, Except.pure, bind, Except.bind, Option.some.injEq, exists_eq_left']
    cases op <;>
      simp only [Op.argumentsFit, Op.argumentsAfter, Op.successors, List.map_cons, List.map_nil,
        true_and, Except.ok.injEq, eq_comm (a := next)] <;>
      split <;> simp_all [throw, throwThe, MonadExceptOf.throw] <;> omega

end Analysis

/-! ### The search of the verifier -/

/-- The search of the verifier, over the program counters with their depths. -/
def argumentSystem : Exploration.System Nat Fault where
  size := code.instructions.length
  visit pc depth :=
    match code.instructions[pc]? with
    | none => .error (.panicked "index out of bounds")
    | some i => argumentStep pc depth i
  outside := .panicked "index out of bounds"
  clash := unbalanced

theorem visit_eq (pc depth : Nat) : code.argumentSystem.visit pc depth =
    match code.instructions[pc]? with
    | none => .error (.panicked "index out of bounds")
    | some i => argumentStep pc depth i := rfl

theorem argumentStack_eq_explore (depths : List (Option Nat)) (work : List (Nat × Nat)) :
    code.argumentStack depths work =
      (code.argumentSystem.explore depths work).map fun _ => () := by
  induction depths, work using argumentStack.induct code with
  | case1 depths =>
    rw [argumentStack, Exploration.System.explore_nil]
    rfl
  | case2 depths pc depth work outside =>
    rw [argumentStack_outside outside, Exploration.System.explore_outside outside]
    rfl
  | case3 depths pc depth work previous found differs =>
    rw [argumentStack_seen found, Exploration.System.explore_seen found, if_pos differs,
      if_pos differs]
    rfl
  | case4 depths pc depth work previous found same ih =>
    rw [argumentStack_seen found, Exploration.System.explore_seen found, if_neg same, if_neg same,
      ih]
  | case5 depths pc depth work new outside =>
    rw [argumentStack_new new, Exploration.System.explore_new new, visit_eq, outside]
    rfl
  | case6 depths pc depth work new i found fault stuck =>
    rw [argumentStack_new new, Exploration.System.explore_new new, visit_eq, found]
    simp only [stuck]
    rfl
  | case7 depths pc depth work new i found next step ih =>
    rw [argumentStack_new new, Exploration.System.explore_new new, visit_eq, found]
    simp only [step]
    exact ih

section Balance

variable {code} {roots : List Nat}

theorem visit_ok {pc depth : Nat} {next : List (Nat × Nat)} :
    code.argumentSystem.visit pc depth = .ok next ↔ ∃ i op, code.instructions[pc]? = some i ∧
      Op.ofNat? i.opcode = some op ∧ op.argumentsFit depth ∧
      next = (op.successors pc i).map (·, op.argumentsAfter depth) := by
  rw [visit_eq]
  cases found : code.instructions[pc]? with
  | none => simp only [reduceCtorEq, false_and, exists_false]
  | some i =>
    simp only [argumentStep_ok, Option.some.injEq]
    constructor
    · rintro ⟨op, rest⟩
      exact ⟨i, op, rfl, rest⟩
    · rintro ⟨_, op, rfl, rest⟩
      exact ⟨op, rest⟩

/-- What the search meets is what control comes to, with its depth. -/
theorem Balanced.met {depth : Nat → Nat} (balanced : code.Balanced roots depth)
    {seeds : List (Nat × Nat)} (seeded : ∀ pc d, (pc, d) ∈ seeds → pc ∈ roots ∧ d = 0)
    {pc d : Nat} (met : code.argumentSystem.Met seeds pc d) :
    code.Leads roots pc ∧ d = depth pc := by
  induction met with
  | seed found =>
    obtain ⟨root, rfl⟩ := seeded _ _ found
    exact ⟨.root root, (balanced.root root).symm⟩
  | @step pc next d other successors before visited found ih =>
    obtain ⟨leads, rfl⟩ := ih
    obtain ⟨i, op, at', decoded, -, rfl⟩ := visit_ok.mp visited
    obtain ⟨target, inside, same⟩ := List.mem_map.mp found
    cases same
    refine ⟨.next leads at' decoded inside, ?_⟩
    obtain ⟨i', op', again, decoded', -, next⟩ := balanced.fits leads
    rw [at'] at again
    cases again
    rw [decoded] at decoded'
    cases decoded'
    exact (next _ inside).symm

theorem Leads.met {seeds : List (Nat × Nat)} (coherent : code.argumentSystem.Coherent seeds)
    (seeded : ∀ pc ∈ roots, (pc, 0) ∈ seeds) {pc : Nat} (leads : code.Leads roots pc) :
    ∃ d, code.argumentSystem.Met seeds pc d := by
  induction leads with
  | root found => exact ⟨0, .seed (seeded _ found)⟩
  | next before found decoded successor ih =>
    obtain ⟨d, met⟩ := ih
    obtain ⟨next, visited⟩ := coherent.visited met
    obtain ⟨i, op, at', decoded', fits, rfl⟩ := visit_ok.mp visited
    rw [found] at at'
    cases at'
    rw [decoded] at decoded'
    cases decoded'
    exact ⟨_, .step met visited (List.mem_map.mpr ⟨_, successor, rfl⟩)⟩

/-- The search succeeds exactly if the instructions have depths. -/
theorem coherent_iff_balanced (code : CodeObject) (seeds : List (Nat × Nat))
    (seeded : ∀ pc d, (pc, d) ∈ seeds ↔ pc ∈ roots ∧ d = 0) :
    code.argumentSystem.Coherent seeds ↔ ∃ depth, code.Balanced roots depth := by
  constructor
  · intro coherent
    classical
    let depth (pc : Nat) : Nat :=
      if met : ∃ d, code.argumentSystem.Met seeds pc d then met.choose else 0
    have right {pc d : Nat} (met : code.argumentSystem.Met seeds pc d) : depth pc = d := by
      have some : ∃ d, code.argumentSystem.Met seeds pc d := ⟨d, met⟩
      have chosen : depth pc = some.choose := dif_pos some
      rw [chosen]
      exact coherent.single some.choose_spec met
    refine ⟨depth, fun found => right (.seed ((seeded _ _).mpr ⟨found, rfl⟩)), fun leads => ?_⟩
    obtain ⟨d, met⟩ := leads.met coherent fun pc found => (seeded pc 0).mpr ⟨found, rfl⟩
    obtain ⟨next, visited⟩ := coherent.visited met
    obtain ⟨i, op, found, decoded, fits, rfl⟩ := visit_ok.mp visited
    refine ⟨i, op, found, decoded, right met ▸ fits, fun target inside => ?_⟩
    rw [right met]
    exact right (.step met visited (List.mem_map.mpr ⟨target, inside, rfl⟩))
  · rintro ⟨depth, balanced⟩
    have known {pc d : Nat} (met : code.argumentSystem.Met seeds pc d) :=
      balanced.met (fun pc d found => (seeded pc d).mp found) met
    refine ⟨fun met => ?_, fun met => ?_, fun met other => ?_⟩
    · obtain ⟨i, op, found, -⟩ := balanced.fits (known met).1
      exact (List.getElem?_eq_some_iff.mp found).1
    · obtain ⟨i, op, found, decoded, fits, -⟩ := balanced.fits (known met).1
      exact ⟨_, visit_ok.mpr ⟨i, op, found, decoded, (known met).2 ▸ fits, rfl⟩⟩
    · exact (known met).2.trans (known other).2.symm

end Balance

/-- The verifier accepts the argument stack of a code object exactly if the instructions that
control can come to have depths: every way to an instruction leaves as many records as any other,
none is taken that is not there, and none is left behind. -/
theorem verifyArgumentStack_iff :
    code.verifyArgumentStack = .ok () ↔ ∃ depth, code.Balanced (0 :: code.handlers) depth := by
  rw [verifyArgumentStack, argumentStack_eq_explore, ← coherent_iff_balanced code
    ((code.exceptionRegions.map fun region => (region.target, 0)).reverse ++ [(0, 0)]),
    ← Exploration.System.explore_iff]
  · change Except.map _ (code.argumentSystem.explore
      (List.replicate code.argumentSystem.size none) _) = _ ↔ _
    cases code.argumentSystem.explore (List.replicate code.argumentSystem.size none) _ with
    | error fault => simp only [Except.map, reduceCtorEq, exists_false]
    | ok final => simp only [Except.map, Except.ok.injEq, exists_eq']
  · intro pc d
    simp only [List.mem_append, List.mem_reverse, List.mem_map, Prod.mk.injEq, List.mem_cons,
      List.not_mem_nil, or_false, handlers]
    constructor
    · rintro (⟨region, found, rfl, rfl⟩ | ⟨rfl, rfl⟩)
      · exact ⟨.inr ⟨region, found, rfl⟩, rfl⟩
      · exact ⟨.inl rfl, rfl⟩
    · rintro ⟨rfl | ⟨region, found, rfl⟩, rfl⟩
      · exact .inr ⟨rfl, rfl⟩
      · exact .inl ⟨region, found, rfl, rfl⟩

end CodeObject

/-! ### Frames -/

/-- A frame, as far as the records are concerned: the instruction that comes next, and how many
records there were when the frame was entered. -/
structure ArgumentFrame where
  code : Nat
  ip : Nat
  argumentBase : Nat

/-- The records and the frames, the newest first, and where suspended frames will go on. -/
structure ArgumentState where
  records : List (ExpandedArgs Value)
  frames : List ArgumentFrame
  suspended : List (Nat × Nat)

namespace ArgumentState

def truncate (s : ArgumentState) (length : Nat) : List (ExpandedArgs Value) :=
  s.records.drop (s.records.length - length)

/-- What an instruction does to the records. The instructions that fill a record change the newest
one; they panic where there is none. -/
inductive Records : Op → List (ExpandedArgs Value) → List (ExpandedArgs Value) → Prop where
  | begins (records : List (ExpandedArgs Value)) :
    Records .beginArgs records (⟨none, [], [], none, []⟩ :: records)
  | fills {op : Op} (fills : op ∈ [Op.argPos, .argStar, .argNamed, .argMapping])
    (old new : ExpandedArgs Value) (records : List (ExpandedArgs Value)) :
    Records op (old :: records) (new :: records)
  | calls (record : ExpandedArgs Value) (records : List (ExpandedArgs Value)) :
    Records .callExpanded (record :: records) records
  | leaves {op : Op} (leaves : op ∉ [Op.beginArgs, .argPos, .argStar, .argNamed, .argMapping,
      .callExpanded]) (records : List (ExpandedArgs Value)) : Records op records records

variable (p : Program)

def At (f : ArgumentFrame) (i : Instr) (op : Op) : Prop :=
  ∃ code, p.code[f.code]? = some code ∧ code.instructions[f.ip]? = some i ∧
    Op.ofNat? i.opcode = some op

/-- One step. An instruction may enter other frames before it is through; where it goes on is
settled in advance. The expansion of a star argument is part of the instruction, so the steps leave
out the calls that go on, or are made again, before a deferred argument is expanded. -/
inductive Step : ArgumentState → ArgumentState → Prop where
  | executes {s : ArgumentState} {f : ArgumentFrame} {rest : List ArgumentFrame} {i : Instr}
      {op : Op} {records : List (ExpandedArgs Value)} {next : Nat} (top : s.frames = f :: rest)
      (found : At p f i op) (effect : Records op s.records records)
      (successor : next ∈ op.successors f.ip i) :
      Step s { s with records, frames := { f with ip := next } :: rest }
  | enters {s : ArgumentState} {code : Nat} (known : code < p.code.length) :
      Step s { s with frames := ⟨code, 0, s.records.length⟩ :: s.frames }
  /-- The frame of a generator is made, but not entered. -/
  | creates {s : ArgumentState} {code : Nat} (known : code < p.code.length) :
      Step s { s with suspended := (code, 0) :: s.suspended }
  | resumes {s : ArgumentState} {code ip : Nat} (saved : (code, ip) ∈ s.suspended) :
      Step s { s with frames := ⟨code, ip, s.records.length⟩ :: s.frames }
  | returns {s : ArgumentState} {f : ArgumentFrame} {rest : List ArgumentFrame} {i : Instr}
      (top : s.frames = f :: rest) (found : At p f i .ret) : Step s { s with frames := rest }
  | suspends {s : ArgumentState} {f : ArgumentFrame} {rest : List ArgumentFrame} {i : Instr}
      {op : Op} (top : s.frames = f :: rest) (found : At p f i op)
      (yields : op = .yield ∨ op = .asyncYield) :
      Step s { s with frames := rest, suspended := (f.code, f.ip + 1) :: s.suspended }
  /-- An exception is handled in a frame, and the frames above it are gone. -/
  | handles {s : ArgumentState} {gone rest : List ArgumentFrame} {f : ArgumentFrame}
      {code : CodeObject} {target : Nat} (split : s.frames = gone ++ f :: rest)
      (found : p.code[f.code]? = some code) (handler : target ∈ code.handlers) :
      Step s { s with
        records := s.truncate f.argumentBase, frames := { f with ip := target } :: rest }
  /-- An exception ends a frame, and the instruction that entered it makes a result of it, or there
  is no frame left. -/
  | absorbs {s : ArgumentState} {gone rest : List ArgumentFrame} {f : ArgumentFrame}
      (split : s.frames = gone ++ f :: rest) :
      Step s { s with records := s.truncate f.argumentBase, frames := rest }

inductive Reachable : ArgumentState → Prop where
  | start {code : Nat} (known : code < p.code.length) : Reachable ⟨[], [⟨code, 0, 0⟩], []⟩
  | next {s t : ArgumentState} (before : Reachable s) (step : Step p s t) : Reachable t

/-! ### Depths of frames -/

variable (depth : Nat → Nat → Nat)

/-- Every frame owns as many records as its depth says. -/
def Owned : List ArgumentFrame → Nat → Prop
  | [], records => records = 0
  | f :: rest, records => records = f.argumentBase + depth f.code f.ip ∧ Owned rest f.argumentBase

def Placed (place : Nat × Nat) : Prop :=
  ∃ code, p.code[place.1]? = some code ∧ code.Leads code.entries place.2

/-- The depths of all code objects, with the places where suspended frames go on as entries. -/
def Depths : Prop :=
  ∀ (c : Nat) (code : CodeObject), p.code[c]? = some code → code.Balanced code.entries (depth c)

structure Kept (s : ArgumentState) : Prop where
  owned : Owned depth s.frames s.records.length
  placed : ∀ f ∈ s.frames, Placed p (f.code, f.ip)
  saved : ∀ place ∈ s.suspended, Placed p place ∧ depth place.1 place.2 = 0

variable {p depth}

theorem Owned.split {gone rest : List ArgumentFrame} {f : ArgumentFrame} {records : Nat}
    (owned : Owned depth (gone ++ f :: rest) records) :
    Owned depth rest f.argumentBase ∧ f.argumentBase ≤ records := by
  induction gone generalizing records with
  | nil => exact ⟨owned.2, owned.1 ▸ Nat.le_add_right _ _⟩
  | cons g gone ih =>
    obtain ⟨below, bound⟩ := ih owned.2
    have := owned.1
    exact ⟨below, by omega⟩

theorem length_truncate {s : ArgumentState} {length : Nat} (bound : length ≤ s.records.length) :
    (s.truncate length).length = length := by
  rw [truncate, List.length_drop]
  omega

theorem Records.length {op : Op} {old new : List (ExpandedArgs Value)} (effect : Records op old new)
    {base depth : Nat} (before : old.length = base + depth) (fits : op.argumentsFit depth) :
    new.length = base + op.argumentsAfter depth := by
  cases effect with
  | begins =>
    rw [List.length_cons, before]
    rfl
  | fills fills =>
    rw [List.length_cons] at before ⊢
    simp only [List.mem_cons, List.not_mem_nil, or_false] at fills
    obtain rfl | rfl | rfl | rfl := fills <;> exact before
  | calls =>
    rw [List.length_cons] at before
    have positive : 0 < depth := fits
    change _ = base + (depth - 1)
    omega
  | leaves leaves =>
    rw [before]
    cases op <;> simp only [List.mem_cons, reduceCtorEq, or_self, or_true, true_or,
      not_true_eq_false, List.not_mem_nil] at leaves <;> rfl

/-- The instruction that comes next in a frame. -/
theorem Placed.next (depths : Depths p depth) {f : ArgumentFrame} (placed : Placed p (f.code, f.ip))
    {i : Instr} {op : Op} (found : At p f i op) : op.argumentsFit (depth f.code f.ip) ∧
    ∀ next ∈ op.successors f.ip i, depth f.code next = op.argumentsAfter (depth f.code f.ip) ∧
      Placed p (f.code, next) := by
  obtain ⟨code, known, leads⟩ := placed
  obtain ⟨code', again, at', decoded⟩ := found
  rw [known] at again
  cases again
  obtain ⟨i', op', found', decoded', fits, edges⟩ := (depths _ _ known).fits leads
  rw [at'] at found'
  cases found'
  rw [decoded] at decoded'
  cases decoded'
  exact ⟨fits, fun next inside => ⟨edges next inside, code, known, .next leads at' decoded inside⟩⟩

theorem entry_placed (depths : Depths p depth) {c pc : Nat} {code : CodeObject}
    (known : p.code[c]? = some code) (entry : pc ∈ code.entries) :
    Placed p (c, pc) ∧ depth c pc = 0 :=
  ⟨⟨code, known, .root entry⟩, (depths _ _ known).root entry⟩

theorem start_placed (depths : Depths p depth) {c : Nat} (known : c < p.code.length) :
    Placed p (c, 0) ∧ depth c 0 = 0 :=
  entry_placed depths (List.getElem?_eq_getElem known) (List.mem_cons_self ..)

theorem resumption_mem {code : CodeObject} {pc : Nat} {i : Instr} {op : Op}
    (found : code.instructions[pc]? = some i) (decoded : Op.ofNat? i.opcode = some op)
    (yields : op = .yield ∨ op = .asyncYield) : pc + 1 ∈ code.entries := by
  have inside : (i, pc) ∈ code.instructions.zipIdx := List.mk_mem_zipIdx_iff_getElem?.mpr found
  refine List.mem_append_right _ (List.mem_filterMap.mpr ⟨(i, pc), inside, ?_⟩)
  obtain rfl | rfl := yields <;> simp only [decoded]

/-- One step. -/
theorem Kept.step {s t : ArgumentState} (depths : Depths p depth) (kept : Kept p depth s)
    (step : Step p s t) : Kept p depth t := by
  obtain ⟨owned, placed, saved⟩ := kept
  cases step with
  | @executes f rest i op records next top found effect successor =>
    rw [top] at owned placed
    obtain ⟨fits, edges⟩ := (placed f (List.mem_cons_self ..)).next depths found
    obtain ⟨after, there⟩ := edges next successor
    refine ⟨⟨?_, owned.2⟩, fun g member => ?_, saved⟩
    · rw [after]
      exact effect.length owned.1 fits
    · cases List.mem_cons.mp member with
      | inl here => exact here ▸ there
      | inr below => exact placed g (List.mem_cons_of_mem _ below)
  | @enters code known =>
    obtain ⟨there, empty⟩ := start_placed depths known
    refine ⟨⟨by rw [empty]; rfl, owned⟩, fun g member => ?_, saved⟩
    cases List.mem_cons.mp member with
    | inl here => exact here ▸ there
    | inr below => exact placed g below
  | @creates code known =>
    refine ⟨owned, placed, fun place member => ?_⟩
    cases List.mem_cons.mp member with
    | inl here => exact here ▸ start_placed depths known
    | inr old => exact saved place old
  | @resumes code ip found =>
    obtain ⟨there, empty⟩ := saved _ found
    refine ⟨⟨by rw [empty]; rfl, owned⟩, fun g member => ?_, saved⟩
    cases List.mem_cons.mp member with
    | inl here => exact here ▸ there
    | inr below => exact placed g below
  | @returns f rest i top found =>
    rw [top] at owned placed
    obtain ⟨fits, -⟩ := (placed f (List.mem_cons_self ..)).next depths found
    have empty : depth f.code f.ip = 0 := fits
    have all : s.records.length = f.argumentBase := by rw [owned.1, empty, Nat.add_zero]
    refine ⟨?_, fun g member => placed g (List.mem_cons_of_mem _ member), saved⟩
    change Owned depth rest s.records.length
    exact all ▸ owned.2
  | @suspends f rest i op top found yields =>
    rw [top] at owned placed
    have here := placed f (List.mem_cons_self ..)
    obtain ⟨fits, edges⟩ := here.next depths found
    obtain ⟨code, known, at', decoded⟩ := found
    have entry := entry_placed depths known (resumption_mem at' decoded yields)
    have empty : depth f.code f.ip = 0 := by
      obtain rfl | rfl := yields
      · exact fits
      · -- The instruction after an `AsyncYield` is reached with the same depth.
        have after := (edges (f.ip + 1) (List.mem_cons_self ..)).1
        exact after.symm.trans entry.2
    have all : s.records.length = f.argumentBase := by rw [owned.1, empty, Nat.add_zero]
    refine ⟨?_, fun g member => placed g (List.mem_cons_of_mem _ member), fun place member => ?_⟩
    · change Owned depth rest s.records.length
      exact all ▸ owned.2
    · cases List.mem_cons.mp member with
      | inl new => exact new ▸ entry
      | inr old => exact saved place old
  | @handles gone rest f code target split found handler =>
    rw [split] at owned placed
    obtain ⟨below, bound⟩ := owned.split
    obtain ⟨there, empty⟩ := entry_placed depths found
      (List.mem_append_left _ (List.mem_cons_of_mem _ handler))
    refine ⟨⟨?_, below⟩, fun g member => ?_, saved⟩
    · rw [length_truncate bound, empty]
      rfl
    · cases List.mem_cons.mp member with
      | inl here => exact here ▸ there
      | inr later =>
        exact placed g (List.mem_append_right _ (List.mem_cons_of_mem _ later))
  | @absorbs gone rest f split =>
    rw [split] at owned placed
    obtain ⟨below, bound⟩ := owned.split
    refine ⟨?_, fun g member => placed g
      (List.mem_append_right _ (List.mem_cons_of_mem _ member)), saved⟩
    change Owned depth rest (s.truncate f.argumentBase).length
    rw [length_truncate bound]
    exact below

theorem Reachable.kept {s : ArgumentState} (depths : Depths p depth) (reached : Reachable p s) :
    Kept p depth s := by
  induction reached with
  | start known =>
    obtain ⟨there, empty⟩ := start_placed depths known
    refine ⟨⟨by rw [empty]; rfl, rfl⟩, fun f member => ?_, fun place member => ?_⟩
    · rw [List.mem_singleton.mp member]
      exact there
    · cases member
  | next before step ih => exact ih.step depths step

end ArgumentState

/-- In every run every frame owns as many argument records as its code and its next instruction
say, so no instruction fills or takes a record that is not there or is another frame's, and no frame
leaves one behind. A frame that was suspended may go on where the verifier did not look: the
instructions after those that suspend have to be among the places the depths start from. -/
theorem argument_records_kept (p : Program)
    (accepted : ∀ code ∈ p.code, ∃ depth, code.Balanced code.entries depth) :
    ∃ depth : Nat → Nat → Nat, ∀ s, ArgumentState.Reachable p s →
      ArgumentState.Owned depth s.frames s.records.length ∧
      ∀ f rest, s.frames = f :: rest → ∃ i op, ArgumentState.At p f i op ∧
        f.argumentBase ≤ s.records.length ∧
        op.argumentsFit (s.records.length - f.argumentBase) := by
  have all : ∀ c : Nat, ∃ depth, ∀ code, p.code[c]? = some code →
      code.Balanced code.entries depth := by
    intro c
    cases found : p.code[c]? with
    | none => exact ⟨fun _ => 0, fun code known => by cases known⟩
    | some code =>
      obtain ⟨depth, balanced⟩ := accepted code (List.mem_of_getElem? found)
      refine ⟨depth, fun code' known => ?_⟩
      cases known
      exact balanced
  choose depth depths using all
  refine ⟨depth, fun s reached => ?_⟩
  have kept := reached.kept depths
  refine ⟨kept.owned, fun f rest top => ?_⟩
  have owned := kept.owned
  rw [top] at owned
  obtain ⟨code, known, leads⟩ := kept.placed f (top ▸ List.mem_cons_self ..)
  obtain ⟨i, op, found, decoded, fits, -⟩ := (depths _ _ known).fits leads
  have own : s.records.length - f.argumentBase = depth f.code f.ip := by
    rw [owned.1]
    omega
  exact ⟨i, op, ⟨code, known, found, decoded⟩, owned.1 ▸ Nat.le_add_right _ _, own ▸ fits⟩

section Generator

/-- A generator that calls with a star argument, yields and returns. -/
def starGenerator : CodeObject where
  classBody := false
  generator := true
  coroutine := false
  name := "generator"
  params := 0
  signature := ⟨0, 0, 0, none, none, []⟩
  locals := []
  typeParams := []
  registers := 1
  instructions := [⟨43, 0, 0, 0⟩, ⟨45, 0, 0, 1⟩, ⟨48, 0, 0, 0⟩, ⟨77, 0, 0, 0⟩, ⟨41, 0, 0, 0⟩]
  spans := []
  constants := []
  calls := []
  cellLocals := []
  freeVars := []
  functions := []
  advisoryResults := []
  exceptionRegions := []

theorem starGenerator_balanced : ∃ depth, starGenerator.Balanced starGenerator.entries depth := by
  refine (CodeObject.coherent_iff_balanced starGenerator [(0, 0), (4, 0)] fun pc d => ?_).mp
    (Exploration.System.explore_iff _ |>.mp ⟨[some 0, some 1, some 1, some 0, some 0], ?_⟩)
  · change _ ↔ pc ∈ [0, 4] ∧ d = 0
    simp only [List.mem_cons, Prod.mk.injEq, List.not_mem_nil, or_false]
    omega
  · change starGenerator.argumentSystem.explore [none, none, none, none, none] _ = _
    rw [Exploration.System.explore_new rfl]
    change starGenerator.argumentSystem.explore [some 0, none, none, none, none] [(1, 1), (4, 0)] = _
    rw [Exploration.System.explore_new rfl]
    change starGenerator.argumentSystem.explore [some 0, some 1, none, none, none]
      [(2, 1), (4, 0)] = _
    rw [Exploration.System.explore_new rfl]
    change starGenerator.argumentSystem.explore [some 0, some 1, some 1, none, none]
      [(3, 0), (4, 0)] = _
    rw [Exploration.System.explore_new rfl]
    change starGenerator.argumentSystem.explore [some 0, some 1, some 1, some 0, none] [(4, 0)] = _
    rw [Exploration.System.explore_new rfl]
    exact Exploration.System.explore_nil

/-- A program of this generator alone. -/
theorem argument_records_kept_generator : ∃ depth : Nat → Nat → Nat, ∀ s,
    ArgumentState.Reachable ⟨bytecodeVersion, [], [starGenerator], []⟩ s →
      ArgumentState.Owned depth s.frames s.records.length ∧
      ∀ f rest, s.frames = f :: rest → ∃ i op,
        ArgumentState.At ⟨bytecodeVersion, [], [starGenerator], []⟩ f i op ∧
        f.argumentBase ≤ s.records.length ∧
        op.argumentsFit (s.records.length - f.argumentBase) :=
  argument_records_kept ⟨bytecodeVersion, [], [starGenerator], []⟩ fun code member => by
    rw [List.mem_singleton.mp member]
    exact starGenerator_balanced

end Generator

end Tonic
