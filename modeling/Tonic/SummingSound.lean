import Tonic.RangeViews
import Tonic.Summing

/-!
## Sums are left folds

A total is a machine integer or a value, and `+` on any value that stands for it gives a value that
stands for the next total. So the sum is what folding `+` over the items gives, in whatever frames
the iterator and the methods run.
-/

namespace Tonic

open Effect FixedWidth Heap

variable {h t : Heap} {v w item left : Value} {n m : Int}

/-! ### Totals -/

namespace Heap

def StandsFor (h : Heap) : SumTotal Value → Value → Prop
  | .int n, v => h.Whole v n ∧ v.asBool = none
  | .float _ _, _ => False
  | .generic w, v => v = w

theorem asBool_of_int (eq : Value.int n = some v) : v.asBool = none := by
  obtain ⟨_, rfl⟩ := int_eq_some_iff.mp eq
  rfl

theorem asBool_of_object {o : Object} (found : h.tryGet v = some o) : v.asBool = none := by
  cases v with
  | heap => rfl
  | _ => cases found

theorem ends_allocInt_stands (hs : Sound h) (n : Int) :
    ends (allocInt n) (fun v t => KeptBut h t none ∧ t.StandsFor (.int n) v)
      (fun e t => Exhausted e ∧ t = h) h := by
  have unmarked : ends (allocInt n) (fun v _ => v.asBool = none) (fun _ _ => True) h := by
    unfold allocInt
    split
    · next v eq =>
      obtain ⟨m, -, immediate⟩ := Option.bind_eq_some_iff.mp eq
      exact asBool_of_int immediate
    · exact ends_mono (ends_alloc hs (by simp [Object.trace]))
        (fun v t made => asBool_of_object made.2.1) fun _ _ _ => trivial
  exact ends_mono (ends_and (ends_allocInt hs n) unmarked)
    (fun _ _ made => ⟨made.1.1, made.1.2.1, made.2⟩) fun _ _ failed => ⟨failed.1.1, failed.1.2.1⟩

theorem Whole.integer (whole : h.Whole v n) : h.integer v = .ok n := by
  rcases whole with immediate | boxed
  · exact integer_of_immediate immediate
  · have native : h.nativeValue v = v := by simp [Heap.nativeValue, boxed]
    have large : v.integer = none := by
      cases imm : v.integer with
      | none => rfl
      | some m => simp [tryGet_of_integer imm] at boxed
    simp [Heap.integer, native, large, Heap.get, boxed, bind, Except.bind, pure, Except.pure]

/-- `+` on two integers, whatever the words they fit in. -/
theorem ends_addIntegers [FloatLibrary] (hs : Sound h) (rest : HeapM Value)
    (left : h.Whole v n) (right : h.Whole w m) :
    ends (binary rest .add v w) (fun r t => KeptBut h t none ∧ t.StandsFor (.int (n + m)) r)
      (fun e t => Exhausted e ∧ t = h) h := by
  have big : ends (bigBinary rest .add v w)
      (fun r t => KeptBut h t none ∧ t.StandsFor (.int (n + m)) r)
      (fun e t => Exhausted e ∧ t = h) h := by
    have integers : (h.isInteger v && h.isInteger w) = true := by
      rw [isInteger_of_integer left.integer, isInteger_of_integer right.integer]
      rfl
    rw [bigBinary, ends_bind, ends_get]
    simp only [integers, if_true, ends_bind, ends_reading, left.integer, right.integer]
    exact ends_allocInt_stands hs (n + m)
  have general : boolBinary .add v w = none := by
    unfold boolBinary
    split <;> rfl
  unfold binary
  rw [general]
  dsimp only
  split
  · next x y hx hy =>
    obtain rfl : x = n := Except.ok.inj ((integer_of_immediate hx).symm.trans left.integer)
    obtain rfl : y = m := Except.ok.inj ((integer_of_immediate hy).symm.trans right.integer)
    simp only [reduceCtorEq, false_and, if_false, wordBinary]
    split
    · next r eq =>
      obtain ⟨k, fits, immediate⟩ := Option.bind_eq_some_iff.mp eq
      obtain ⟨-, rfl⟩ := checked_eq_some.mp fits
      exact ⟨.refl hs none, .inl (integer_of_int immediate), asBool_of_int immediate⟩
    · exact big
  · exact big

/-- What is added up: integers of any size, booleans, and instances, of subclasses of the integers
or of any other class that is not one of the numbers. -/
def Summable (h : Heap) (types : RuntimeTypes Value) (v : Value) : Prop :=
  (∃ n, h.Whole v n) ∨ ∃ o cls, h.tryGet v = some o ∧ o.instanceClass = some cls ∧
    cls ≠ types.int ∧ cls ≠ types.bool ∧ cls ≠ types.float

section Classes

variable (objectClass : Value) (types : RuntimeTypes Value)

/-- The class of an integer is that of the integers or of the booleans. -/
theorem Whole.class_of (whole : h.Whole v n) :
    runtimeClass objectClass types h v = .ok types.int ∧ v.asBool = none ∨
      runtimeClass objectClass types h v = .ok types.bool ∧ ∃ b, v = .bool b := by
  rcases whole with immediate | boxed
  · cases v with
    | small => exact .inl ⟨rfl, rfl⟩
    | bool b => exact .inr ⟨rfl, b, rfl⟩
    | _ => cases immediate
  · refine .inl ⟨?_, asBool_of_object boxed⟩
    cases v with
    | heap => simp [runtimeClass, get_ok boxed, Except.map]
    | _ => cases boxed

theorem class_of_instance {o : Object} {cls : Value} (found : h.tryGet v = some o)
    (instance_of : o.instanceClass = some cls) :
    runtimeClass objectClass types h v = .ok cls := by
  cases v with
  | heap =>
    simp only [runtimeClass, get_ok found, Except.map]
    cases o <;> cases instance_of <;> rfl
  | _ => cases found

theorem sumItemInteger_whole (whole : h.Whole v n) :
    sumItemInteger h v = .ok (checked 64 n) := by
  have fits {k : Int} (word : Fits 64 k) : checked 64 k = some k := by rw [checked, if_pos word]
  unfold sumItemInteger
  rcases whole with immediate | boxed
  · have word := fits (immediate_of_integer immediate).fits
    cases v with
    | small =>
      rw [word, immediate]
      rfl
    | bool b =>
      cases immediate
      rw [word]
      cases b <;> rfl
    | _ => cases immediate
  · have large : v.integer = none := by
      cases v with
      | heap => rfl
      | _ => cases boxed
    rw [asBool_of_object boxed, large, Whole.integer (.inr boxed)]
    rfl

/-- No method is looked for where both operands are plain integers. -/
theorem binaryProtocol_whole (left : h.Whole v n) (right : h.Whole w m) :
    h.binaryProtocol objectClass types .add v w = .ok none := by
  have plain {u : Value} {k : Int} (whole : h.Whole u k) : h.operatorProtocolCapable u = false := by
    unfold operatorProtocolCapable
    rcases whole with immediate | boxed
    · rw [tryGet_of_integer immediate]
    · rw [boxed]
      rfl
  rw [binaryProtocol, plain left, plain right]
  rfl

end Classes

end Heap

/-! ### One addition -/

/-- The total of a machine integer and an item, or nothing where `+` has to be applied. -/
theorem quickSumTotal_cases {host : SumHost} {total : SumTotal Value}
    (summable : h.Summable host.types item)
    (whole : ∀ high low, total ≠ .float high low) :
    quickSumTotal host h total item = .ok none ∨
      ∃ n m, total = .int n ∧ h.Whole item m ∧
        quickSumTotal host h total item = .ok (some (.int (n + m))) := by
  have known : ∃ cls, runtimeClass host.objectClass host.types h item = .ok cls := by
    rcases summable with ⟨m, integer⟩ | ⟨o, cls, found, own, -⟩
    · rcases integer.class_of host.objectClass host.types with ⟨eq, -⟩ | ⟨eq, -⟩
      · exact ⟨_, eq⟩
      · exact ⟨_, eq⟩
    · exact ⟨cls, class_of_instance host.objectClass host.types found own⟩
  cases total with
  | float high low => exact absurd rfl (whole high low)
  | generic v =>
    obtain ⟨cls, eq⟩ := known
    refine .inl ?_
    rw [quickSumTotal, eq]
    rfl
  | int n =>
    rcases summable with ⟨m, integer⟩ | ⟨o, cls, found, own, notInt, notBool, notFloat⟩
    · have quick : quickSumTotal host h (.int n) item =
          .ok (((checked 64 m).bind (checkedAdd 64 n)).map .int) := by
        have numbers : ∃ cls, runtimeClass host.objectClass host.types h item = .ok cls ∧
            (cls = host.types.int ∨ cls = host.types.bool) := by
          rcases integer.class_of host.objectClass host.types with ⟨eq, -⟩ | ⟨eq, -⟩
          · exact ⟨_, eq, .inl rfl⟩
          · exact ⟨_, eq, .inr rfl⟩
        obtain ⟨cls, eq, number⟩ := numbers
        simp only [quickSumTotal, eq, Outcome.ok_bind, if_pos number, sumItemInteger_whole integer]
        rfl
      rw [quick]
      cases next : (checked 64 m).bind (checkedAdd 64 n) with
      | none => exact .inl rfl
      | some k =>
        obtain ⟨m', fits, sum⟩ := Option.bind_eq_some_iff.mp next
        obtain ⟨-, rfl⟩ := checked_eq_some.mp fits
        obtain ⟨-, rfl⟩ := checked_eq_some.mp sum
        exact .inr ⟨n, _, rfl, integer, rfl⟩
    · refine .inl ?_
      have other : ¬ (cls = host.types.int ∨ cls = host.types.bool) := not_or.mpr ⟨notInt, notBool⟩
      have eq := class_of_instance host.objectClass host.types found own
      simp only [quickSumTotal, eq, Outcome.ok_bind, if_neg other, if_neg notFloat]
      rfl

section Additions

variable [HostLibrary] [FloatLibrary] (host : SumHost)

/-- What `+` can end with, and the heap it leaves behind. -/
def Plus (h : Heap) (left right : Value) (outcome : Except Fault Value) (t : Heap) : Prop :=
  match h.binaryProtocol host.objectClass host.types .add left right with
  | .error fault => outcome = .error fault ∧ t = h
  | .ok none =>
    match outcome with
    | .ok v => binaryValues host.divide host.floats .add left right h = .ok v t
    | .error fault => binaryValues host.divide host.floats .add left right h = .error fault t
  | .ok (some protocol) =>
    ∃ d, Relation.ReflTransGen (DispatchStep host.divide host.floats host.extend host.powMod)
        ⟨h, [], .ready protocol⟩ d ∧ d.heap = t ∧
      match outcome with
      | .ok v => ∃ negate, d.turn = .value v negate
      | .error fault => d.turn = .failed fault

namespace SumItem

/-- The left operand is made of the total. -/
def Left (p : SumItem) (h : Heap) (v : Value) : Prop :=
  materializeSumTotal host p.total p.heap = .ok v h ∧ KeptBut p.heap h none ∧
    h.StandsFor p.total v

/-- `+` on the total and the item ends with an error, or there is no room for the total. -/
def Fails (p : SumItem) (fault : Fault) (t : Heap) : Prop :=
  (∃ h v, p.Left host h v ∧ Plus host h v p.item (.error fault) t) ∨
    materializeSumTotal host p.total p.heap = .error fault t ∧ Exhausted fault

end SumItem

/-- Whatever stands for a total, `+` on it and the item gives what stands for the next one. -/
def Addition.Exact (a : Addition) : Prop :=
  ∃ n m, a.total = .int n ∧ a.heap.Whole a.item m ∧ a.result = .int (n + m) ∧ a.after = a.heap ∧
    ∀ h v, KeptBut a.heap h none → h.StandsFor a.total v →
      h.binaryProtocol host.objectClass host.types .add v a.item = .ok none ∧
        ends (binaryValues host.divide host.floats .add v a.item)
          (fun r t => KeptBut h t none ∧ t.StandsFor a.result r)
          (fun e t => Exhausted e ∧ t = h) h

/-- `+` was applied to the total and the item. -/
def Addition.Operated (a : Addition) : Prop :=
  ∃ h v r, a.toSumItem.Left host h v ∧ Plus host h v a.item (.ok r) a.after ∧ a.result = .generic r

def Addition.Right (a : Addition) : Prop := a.Exact host ∨ a.Operated host

variable {host}

omit [HostLibrary] in
theorem SumItem.exact {p : SumItem} (hs : Sound p.heap) (int : p.total = .int n)
    (whole : p.heap.Whole p.item m) : Addition.Exact host ⟨p, p.heap, .int (n + m)⟩ := by
  refine ⟨n, m, int, whole, rfl, rfl, fun h v kept stands => ?_⟩
  have item : h.Whole p.item m := whole.keptBut kept hs (by simp)
  rw [int] at stands
  exact ⟨binaryProtocol_whole _ _ stands.1 item, ends_addIntegers kept.after.1 _ stands.1 item⟩

omit [HostLibrary] [FloatLibrary] in
theorem ends_materialize (host : SumHost) {total : SumTotal Value} (hs : Sound h)
    (whole : ∀ high low, total ≠ .float high low) :
    ends (materializeSumTotal host total) (fun v t => KeptBut h t none ∧ t.StandsFor total v)
      (fun e t => Exhausted e ∧ t = h) h := by
  cases total with
  | int n => exact ends_allocInt_stands hs n
  | float high low => exact absurd rfl (whole high low)
  | generic v => exact ⟨.refl hs none, rfl⟩

/-! ### `+` under way -/

/-- What is done with the result of an operator does not matter to the operator. -/
def DispatchTurn.completing (c : BinaryCompletion Value) : DispatchTurn → DispatchTurn
  | .ready s => .ready { s with completion := c }
  | .waiting candidate s => .waiting candidate { s with completion := c }
  | turn => turn

variable {divide : Int → Int → HeapM Value} {floats : Op → F64 → F64 → HeapM Value}
  {extend : Value → Value → HeapM Unit} {powMod : Value → Value → Value → HeapM Value}

theorem dispatch_completing {c : BinaryCompletion Value} {d : Dispatch} {turn : DispatchTurn}
    {answered : List (BinaryCandidate Value × Value)}
    (step : DispatchStep divide floats extend powMod ⟨h, answered, turn.completing c⟩ d) :
    ∃ turn' : DispatchTurn, d.turn = turn'.completing c ∧
      DispatchStep divide floats extend powMod ⟨h, answered, turn⟩ ⟨d.heap, d.answered, turn'⟩ := by
  cases turn with
  | ready s =>
    cases step with
    | call next =>
      obtain ⟨candidate, found, eq⟩ := Option.map_eq_some_iff.mp next
      obtain ⟨rfl, rfl⟩ := Prod.mk.inj eq
      refine ⟨.waiting candidate { s with next := s.next + 1, negateResult := candidate.negate },
        rfl, .call ?_⟩
      exact Option.map_eq_some_iff.mpr ⟨candidate, found, rfl⟩
    | fallback none run => exact ⟨_, rfl, .fallback (Option.map_eq_none_iff.mpr
        (Option.map_eq_none_iff.mp none)) run⟩
    | refuse none run => exact ⟨_, rfl, .refuse (Option.map_eq_none_iff.mpr
        (Option.map_eq_none_iff.mp none)) run⟩
  | waiting candidate s =>
    cases step with
    | decline h' => exact ⟨.ready s, rfl, .decline h'⟩
    | answer h' v accepts => exact ⟨.value v s.negateResult, rfl, .answer h' v accepts⟩
    | raise h' fault => exact ⟨.failed fault, rfl, .raise h' fault⟩
  | value v negate => cases step
  | failed fault => cases step

variable (host)

/-- The methods of `+` are being called for an item. -/
def SumItem.Operating (p : SumItem) (t : Heap) (iterator : Value)
    (answered : List (BinaryCandidate Value × Value)) (turn : DispatchTurn) : Prop :=
  ∃ h v protocol turn', p.Left host h v ∧
    h.binaryProtocol host.objectClass host.types .add v p.item = .ok (some protocol) ∧
    Relation.ReflTransGen (DispatchStep host.divide host.floats host.extend host.powMod)
      ⟨h, [], .ready protocol⟩ ⟨t, answered, turn'⟩ ∧
    turn = turn'.completing (.sum iterator)

variable {host} {p : SumItem} {iterator : Value} {turn : DispatchTurn}
  {answered : List (BinaryCandidate Value × Value)}

theorem SumItem.Operating.step {d : Dispatch}
    (operating : p.Operating host t iterator answered turn)
    (step : DispatchStep host.divide host.floats host.extend host.powMod ⟨t, answered, turn⟩ d) :
    p.Operating host d.heap iterator d.answered d.turn := by
  obtain ⟨h, v, protocol, turn', left, found, path, rfl⟩ := operating
  obtain ⟨turn'', eq, step⟩ := dispatch_completing step
  exact ⟨h, v, protocol, turn'', left, found, path.tail step, eq⟩

theorem SumItem.Operating.value {negate : Bool}
    (operating : p.Operating host t iterator answered (.value w negate)) :
    Addition.Right host ⟨p, t, .generic w⟩ := by
  obtain ⟨h, v, protocol, turn', left, found, path, eq⟩ := operating
  refine .inr ⟨h, v, w, left, ?_, rfl⟩
  have ended : turn' = .value w negate := by cases turn' <;> cases eq; rfl
  rw [Plus, found]
  exact ⟨_, path, rfl, negate, ended⟩

theorem SumItem.Operating.fails {fault : Fault}
    (operating : p.Operating host t iterator answered (.failed fault)) : p.Fails host fault t := by
  obtain ⟨h, v, protocol, turn', left, found, path, eq⟩ := operating
  refine .inl ⟨h, v, left, ?_⟩
  have ended : turn' = .failed fault := by cases turn' <;> cases eq; rfl
  rw [Plus, found]
  exact ⟨_, path, rfl, ended⟩

end Additions

/-! ### The books of a sum -/

namespace Summing

/-- The total so far. -/
def running (s : Summing) : Option (SumTotal Value) := (s.sums.getLast?.map (·.result)).or s.first

/-- The items that were added, the last one perhaps not to the end. -/
def history (s : Summing) : List SumItem := s.sums.map (·.toSumItem) ++ s.pending.toList

theorem getLast_snoc (sums : List Addition) (a : Addition) (first : Option (SumTotal Value)) :
    ((sums ++ [a]).getLast?.map (·.result)).or first = some a.result := by
  rw [List.getLast?_concat]
  rfl

/-- Nothing was done yet. -/
structure Fresh (s : Summing) : Prop where
  startHeap : s.startHeap = none
  first : s.first = none
  sums : s.sums = []
  pending : s.pending = none
  requests : s.requests = 0
  exhausted : s.exhausted = none

section Books

variable [HostLibrary] [FloatLibrary] (host : SumHost) (start : Value)

/-- What is summed, and the heaps it is summed in, are as they should be. The start value is no
string, and of no subclass of the strings. -/
structure Proper (s : Summing) : Prop where
  start : ∀ h, s.startHeap = some h → h.Summable host.types start ∧
    ∀ text, h.tryGet (h.nativeValue start) ≠ some (.str text)
  items : ∀ p ∈ s.history, Sound p.heap ∧ p.heap.Summable host.types p.item
  exhausted : ∀ h, s.exhausted = some h → Sound h

/-- The items were added one after the other, from the start value on. -/
structure Folds (s : Summing) : Prop where
  begins : ∀ h total, s.startHeap = some h → s.first = some total → h.StandsFor total start
  whole : ∀ total, s.running = some total → ∀ high low, total ≠ .float high low
  head : ∀ a ∈ s.sums.head?, s.first = some a.total
  chain : s.sums.IsChain fun a b => b.total = a.result
  right : ∀ a ∈ s.sums, a.Right host
  pending : ∀ p ∈ s.pending, s.running = some p.total

/-- What is known in each turn. -/
def InTurn (s : Summing) : Prop :=
  match s.turn with
  | .starting _ value | .opening value => value = start ∧ s.Fresh
  | .summing state =>
    s.running = some state.total ∧ s.pending = none ∧ s.requests = s.sums.length ∧
      s.exhausted = none
  | .waiting state =>
    s.running = some state.total ∧ s.pending = none ∧ s.requests = s.sums.length + 1 ∧
      s.exhausted = none
  | .adding iterator answered turn =>
    s.requests = s.sums.length + 1 ∧ s.exhausted = none ∧
      ∃ p, s.pending = some p ∧ p.Operating host s.heap iterator answered turn
  | .finished =>
    s.requests = s.sums.length + 1 ∧ s.exhausted.isSome ∧ s.pending = none ∧
      ∃ total v, s.running = some total ∧ s.heap.StandsFor total v ∧
        (s.destination < s.registers.length → s.registers[s.destination]? = some v)
  | .failed .start _ => False
  | .failed .iterator _ =>
    s.pending = none ∧ s.exhausted = none ∧ s.sums.length ≤ s.requests ∧
      s.requests ≤ s.sums.length + 1
  | .failed .addition fault =>
    s.requests = s.sums.length + 1 ∧ s.exhausted = none ∧
      ∃ p, s.pending = some p ∧ p.Fails host fault s.heap
  | .failed .result fault =>
    s.requests = s.sums.length + 1 ∧ s.exhausted.isSome ∧ s.pending = none ∧ Exhausted fault

structure Books (s : Summing) : Prop where
  folds : s.Folds host start
  turn : s.InTurn host start

end Books

variable [HostLibrary] [FloatLibrary] {host : SumHost} {start : Value} {s : Summing}

/-- What was added does not depend on what goes on. -/
theorem Folds.moves (folds : s.Folds host start) {heap : Heap} {registers : List Value}
    {turn : SumTurn} {requests : Nat} {exhausted : Option Heap} :
    Folds host start { s with heap, registers, turn, requests, exhausted } :=
  ⟨folds.begins, folds.whole, folds.head, folds.chain, folds.right, folds.pending⟩

/-- An addition that is right goes on record. -/
theorem added_books {p : SumItem} {result : SumTotal Value} {iterator : Value}
    (folds : s.Folds host start) (pending : s.pending = some p)
    (right : Addition.Right host ⟨p, s.heap, result⟩)
    (whole : ∀ high low, result ≠ .float high low) (requests : s.requests = s.sums.length + 1)
    (fresh : s.exhausted = none) : (s.added iterator result).Books host start := by
  have total : s.running = some p.total := folds.pending p pending
  have running : (s.added iterator result).running = some result := by
    rw [running, added, pending]
    exact getLast_snoc _ _ _
  have sums : (s.added iterator result).sums = s.sums ++ [⟨p, s.heap, result⟩] := by
    rw [added, pending]
    rfl
  refine ⟨⟨folds.begins, fun total eq => ?_, fun a mem => ?_, ?_, fun a mem => ?_, fun p mem => ?_⟩,
    running, rfl, ?_, fresh⟩
  · rw [running] at eq
    cases eq
    exact whole
  · rw [sums] at mem
    cases empty : s.sums with
    | nil =>
      rw [empty] at mem
      cases mem
      rw [Summing.running, empty] at total
      exact total
    | cons b rest =>
      rw [empty] at mem
      cases mem
      exact folds.head _ (by rw [empty]; rfl)
  · rw [sums]
    refine List.isChain_append.mpr ⟨folds.chain, .singleton _, fun a last b mem => ?_⟩
    cases mem
    rw [Summing.running, last] at total
    exact (Option.some.inj total).symm
  · rw [sums] at mem
    rcases List.mem_append.mp mem with old | new
    · exact folds.right a old
    · rw [List.mem_singleton.mp new]
      exact right
  · cases show p ∈ (none : Option SumItem) from mem
  · rw [sums, List.length_append]
    exact requests

omit [HostLibrary] [FloatLibrary] in
theorem mem_history_pending {p : SumItem} (pending : s.pending = some p) : p ∈ s.history := by
  rw [history, pending]
  exact List.mem_append_right _ List.mem_cons_self

omit [HostLibrary] [FloatLibrary] in
theorem mem_history_added {p : SumItem} (pending : s.pending = some p) (iterator : Value)
    (result : SumTotal Value) : p ∈ (s.added iterator result).history := by
  rw [history, added, pending]
  simp

omit [HostLibrary] in
theorem mem_history_addItem (state : SumState Value) (item : Value) :
    ⟨s.heap, state.total, item⟩ ∈ (s.addItem host state item).history := by
  unfold addItem
  dsimp only
  split
  · exact mem_history_pending rfl
  · exact mem_history_added rfl _ _
  · unfold on
    split
    · dsimp only [operate]
      split
      · exact mem_history_pending rfl
      · exact mem_history_pending rfl
      · unfold on
        split
        · exact mem_history_added rfl _ _
        · exact mem_history_pending rfl
    · exact mem_history_pending rfl

/-- An item is added, by `+` or without. -/
theorem addItem_books {state : SumState Value} {item : Value} (folds : s.Folds host start)
    (total : s.running = some state.total) (requests : s.requests = s.sums.length + 1)
    (fresh : s.exhausted = none) (proper : (s.addItem host state item).Proper host start) :
    (s.addItem host state item).Books host start := by
  obtain ⟨sound, summable⟩ := proper.items _ (mem_history_addItem state item)
  have whole := folds.whole state.total total
  let p : SumItem := ⟨s.heap, state.total, item⟩
  have folded (heap : Heap) : Folds host start { s with heap, pending := some p } := by
    refine ⟨folds.begins, folds.whole, folds.head, folds.chain, folds.right, ?_⟩
    rintro _ ⟨⟩
    exact total
  -- `+` itself decides
  have fails {heap : Heap} {fault : Fault} (failure : p.Fails host fault heap) :
      Books host start { s with heap, pending := some p, turn := .failed .addition fault } :=
    ⟨(folded heap).moves, requests, fresh, p, rfl, failure⟩
  unfold addItem
  dsimp only
  rcases quickSumTotal_cases summable whole with slow | ⟨n, m, int, integer, quick⟩
  · rw [slow]
    dsimp only
    have left := ends_materialize host sound whole
    unfold ends at left
    unfold on
    dsimp only
    cases made : materializeSumTotal host state.total s.heap with
    | error fault heap =>
      rw [made] at left
      exact fails (.inr ⟨made, left.1⟩)
    | ok v heap =>
      rw [made] at left
      have left : p.Left host heap v := ⟨made, left.1, left.2⟩
      simp only [operate]
      cases protocol : heap.binaryProtocol host.objectClass host.types .add v item with
      | error fault =>
        refine fails (.inl ⟨heap, v, left, ?_⟩)
        rw [Plus, protocol]
        exact ⟨rfl, rfl⟩
      | ok found =>
        cases found with
        | some protocol' =>
          refine ⟨(folded heap).moves, requests, fresh, p, rfl, ?_⟩
          exact ⟨heap, v, protocol', .ready protocol', left, protocol, .refl, rfl⟩
        | none =>
          simp only [on]
          cases run : binaryValues host.divide host.floats .add v item heap with
          | error fault after =>
            refine fails (.inl ⟨heap, v, left, ?_⟩)
            rw [Plus, protocol]
            exact run
          | ok r after =>
            refine added_books (folded after) rfl (.inr ⟨heap, v, r, left, ?_, rfl⟩) nofun
              requests fresh
            rw [Plus, protocol]
            exact run
  · rw [quick]
    exact added_books (folded s.heap) rfl (.inl (SumItem.exact sound int integer)) nofun requests
      fresh

omit [HostLibrary] [FloatLibrary] in
/-- The start value makes a total that stands for it. -/
theorem sumStartTotal_cases (summable : h.Summable host.types start)
    (plain : ∀ text, h.tryGet (h.nativeValue start) ≠ some (.str text)) :
    ∃ total, sumStartTotal host h start = .ok total ∧ h.StandsFor total start ∧
      ∀ high low, total ≠ .float high low := by
  unfold sumStartTotal
  split
  · next text found => exact absurd found (plain text)
  rcases summable with ⟨n, whole⟩ | ⟨o, cls, found, own, notInt, -, notFloat⟩
  · rcases whole.class_of host.objectClass host.types with ⟨eq, unmarked⟩ | ⟨eq, -⟩
    · simp only [eq, Outcome.ok_bind, if_true, whole.integer]
      cases fits : checked 64 n with
      | none => exact ⟨.generic start, rfl, rfl, fun _ _ eq => by cases eq⟩
      | some m =>
        obtain ⟨-, rfl⟩ := checked_eq_some.mp fits
        exact ⟨.int _, rfl, ⟨whole, unmarked⟩, fun _ _ eq => by cases eq⟩
    · simp only [eq, Outcome.ok_bind, if_neg host.bool_ne_int, if_neg host.bool_ne_float]
      exact ⟨.generic start, rfl, rfl, fun _ _ eq => by cases eq⟩
  · have eq := class_of_instance host.objectClass host.types found own
    simp only [eq, Outcome.ok_bind, if_neg notInt, if_neg notFloat]
    exact ⟨.generic start, rfl, rfl, fun _ _ eq => by cases eq⟩

/-- Failing leaves the items that were added. -/
theorem Fresh.folds (fresh : s.Fresh) : s.Folds host start := by
  refine ⟨fun h total eq => ?_, fun total eq => ?_, fun a mem => ?_, ?_, fun a mem => ?_,
    fun p mem => ?_⟩
  · rw [fresh.startHeap] at eq
    cases eq
  · rw [running, fresh.sums, fresh.first] at eq
    cases eq
  · rw [fresh.sums] at mem
    cases mem
  · rw [fresh.sums]
    exact .nil
  · rw [fresh.sums] at mem
    cases mem
  · rw [fresh.pending] at mem
    cases mem

theorem starts_books {iterator : Value} (fresh : s.Fresh)
    (proper : (s.starts host iterator start).Proper host start) :
    (s.starts host iterator start).Books host start := by
  have known : (s.starts host iterator start).startHeap = some s.heap := by
    unfold starts
    split <;> rfl
  obtain ⟨summable, plain⟩ := proper.start _ known
  obtain ⟨total, eq, stands, whole⟩ := sumStartTotal_cases summable plain
  have running (turn : SumTurn) :
      running { s with startHeap := some s.heap, first := some total, turn } = some total := by
    rw [Summing.running, fresh.sums]
    rfl
  unfold starts
  rw [eq]
  refine ⟨⟨fun h first startHeap same => ?_, fun other same => ?_, fun a mem => ?_, ?_,
    fun a mem => ?_, fun p mem => ?_⟩, running _, fresh.pending, ?_, fresh.exhausted⟩
  · cases startHeap
    cases same
    exact stands
  · rw [running] at same
    cases same
    exact whole
  · have mem : a ∈ s.sums.head? := mem
    rw [fresh.sums] at mem
    cases mem
  · change s.sums.IsChain _
    rw [fresh.sums]
    exact .nil
  · have mem : a ∈ s.sums := mem
    rw [fresh.sums] at mem
    cases mem
  · have mem : p ∈ s.pending := mem
    rw [fresh.pending] at mem
    cases mem
  · change s.requests = s.sums.length
    rw [fresh.requests, fresh.sums]
    rfl

/-- The iterator is exhausted, and the total becomes a value. -/
theorem exhaust_books {total : SumTotal Value} (folds : s.Folds host start)
    (running : s.running = some total) (pending : s.pending = none)
    (requests : s.requests = s.sums.length + 1)
    (proper : (s.exhaust host total).Proper host start) :
    (s.exhaust host total).Books host start := by
  have marked : (s.exhaust host total).exhausted = some s.heap := by
    unfold exhaust on
    split <;> rfl
  have made := ends_materialize host (proper.exhausted _ marked) (folds.whole total running)
  unfold ends at made
  unfold exhaust on
  dsimp only
  cases run : materializeSumTotal host total s.heap with
  | error fault heap =>
    rw [run] at made
    exact ⟨folds.moves, requests, rfl, pending, made.1⟩
  | ok v heap =>
    rw [run] at made
    refine ⟨folds.moves, requests, rfl, pending, total, v, running, made.2, fun low => ?_⟩
    exact List.getElem?_set_self (by simpa [store] using low)

/-- Asking, or calling `__iter__`, has failed. -/
theorem failed_books (folds : s.Folds host start) (pending : s.pending = none)
    (fresh : s.exhausted = none) (low : s.sums.length ≤ s.requests)
    (high : s.requests ≤ s.sums.length + 1) (fault : Fault) (heap : Heap) :
    Books host start { s with heap, turn := .failed .iterator fault } :=
  ⟨folds.moves, pending, fresh,
    low, high⟩

theorem Fresh.failed (fresh : s.Fresh) (fault : Fault) (heap : Heap) :
    Books host start { s with heap, turn := .failed .iterator fault } := by
  refine failed_books fresh.folds fresh.pending fresh.exhausted ?_ ?_ fault heap
  · rw [fresh.sums]
    exact Nat.zero_le _
  · rw [fresh.requests]
    exact Nat.zero_le _

theorem ask_books {state : SumState Value} (folds : s.Folds host start)
    (running : s.running = some state.total) (pending : s.pending = none)
    (requests : s.requests = s.sums.length) (fresh : s.exhausted = none)
    (proper : (s.ask host state).Proper host start) : (s.ask host state).Books host start := by
  have counted : s.requests + 1 = s.sums.length + 1 := congrArg (· + 1) requests
  unfold ask on at proper ⊢
  dsimp only at proper ⊢
  split at proper
  · next asked heap _ =>
    cases asked with
    | item value => exact addItem_books folds.moves running counted fresh proper
    | exhausted => exact exhaust_books folds.moves running pending counted proper
    | called =>
      exact ⟨folds.moves, running, pending, counted, fresh⟩
  · next fault heap _ =>
    refine failed_books (s := { s with requests := s.requests + 1 }) folds.moves pending fresh ?_
      (Nat.le_of_eq counted) fault heap
    exact Nat.le_of_lt (Nat.lt_of_lt_of_eq (Nat.lt_succ_self _) counted.symm)

theorem step_books (books : s.Books host start) (reply : Reply)
    (proper : (s.step host reply).Proper host start) : (s.step host reply).Books host start := by
  obtain ⟨folds, inTurn⟩ := books
  have whole := Books.mk folds inTurn
  unfold InTurn at inTurn
  unfold step at proper ⊢
  cases turn : s.turn with
  | starting source value =>
    rw [turn] at inTurn proper
    obtain ⟨rfl, fresh⟩ := inTurn
    dsimp only at proper ⊢
    unfold begin on at proper ⊢
    split at proper
    · next iterator heap _ =>
      have fresh : Fresh { s with heap } := ⟨fresh.startHeap, fresh.first, fresh.sums,
        fresh.pending, fresh.requests, fresh.exhausted⟩
      cases iterator with
      | some iterator => exact starts_books fresh proper
      | none =>
        exact ⟨folds.moves, rfl, fresh.startHeap, fresh.first, fresh.sums, fresh.pending,
          fresh.requests, fresh.exhausted⟩
    · next fault heap _ =>
      exact fresh.failed fault heap
  | opening value =>
    rw [turn] at inTurn proper
    obtain ⟨rfl, fresh⟩ := inTurn
    cases reply with
    | value heap iterator =>
      dsimp only at proper ⊢
      unfold opened on at proper ⊢
      split at proper
      · next heap' _ =>
        refine starts_books ?_ proper
        exact ⟨fresh.startHeap, fresh.first, fresh.sums, fresh.pending, fresh.requests,
          fresh.exhausted⟩
      · next fault heap' _ =>
        refine Fresh.failed ?_ fault heap'
        exact ⟨fresh.startHeap, fresh.first, fresh.sums, fresh.pending, fresh.requests,
          fresh.exhausted⟩
    | raises heap fault stops => exact fresh.failed fault heap
  | summing state =>
    rw [turn] at inTurn proper
    obtain ⟨running, pending, requests, fresh⟩ := inTurn
    exact ask_books folds running pending requests fresh proper
  | waiting state =>
    rw [turn] at inTurn proper
    obtain ⟨running, pending, requests, fresh⟩ := inTurn
    cases reply with
    | value heap item => exact addItem_books folds.moves running requests fresh proper
    | raises heap fault stops =>
      dsimp only at proper ⊢
      split at proper
      · next stopped =>
        rw [if_pos stopped]
        exact exhaust_books folds.moves running pending requests proper
      · next stopped =>
        rw [if_neg stopped]
        exact failed_books folds pending fresh (by omega) requests.le fault heap
  | adding iterator answered dispatch =>
    rw [turn] at inTurn
    obtain ⟨requests, fresh, p, pending, operating⟩ := inTurn
    cases dispatch with
    | value v negate =>
      exact added_books folds.moves pending operating.value nofun requests fresh
    | failed fault =>
      exact ⟨folds.moves, requests, fresh, p, pending, operating.fails⟩
    | ready state => exact whole
    | waiting candidate state => exact whole
  | finished => exact whole
  | failed failure fault => exact whole

theorem operator_books {iterator : Value} {answered : List (BinaryCandidate Value × Value)}
    {turn : DispatchTurn} {d : Dispatch} (books : s.Books host start)
    (adding : s.turn = .adding iterator answered turn)
    (step : DispatchStep host.divide host.floats host.extend host.powMod
      ⟨s.heap, answered, turn⟩ d) :
    Books host start { s with heap := d.heap, turn := .adding iterator d.answered d.turn } := by
  obtain ⟨folds, inTurn⟩ := books
  rw [InTurn, adding] at inTurn
  obtain ⟨requests, fresh, p, pending, operating⟩ := inTurn
  exact ⟨folds.moves, requests, fresh, p, pending, operating.step step⟩

/-- The runs of `sum(source, start)`. -/
inductive Reachable (host : SumHost) (source start : Value) : Summing → Prop where
  | begins (heap : Heap) (registers : List Value) (destination : Nat) :
    Reachable host source start (sum heap registers destination source start)
  | step {s t : Summing} (reached : Reachable host source start s) (step : Step host s t)
    (proper : t.Proper host start) : Reachable host source start t

theorem reachable_books {source : Value} (reached : Reachable host source start s) :
    s.Books host start := by
  induction reached with
  | begins heap registers destination =>
    have fresh : Fresh (sum heap registers destination source start) :=
      ⟨rfl, rfl, rfl, rfl, rfl, rfl⟩
    exact ⟨fresh.folds, rfl, fresh⟩
  | step reached step proper books =>
    cases step with
    | moves reply => exact step_books books reply proper
    | operator adding step => exact operator_books books adding step

/-- How a sum ends. -/
def Ends (host : SumHost) (s : Summing) : Prop :=
  match s.turn with
  | .finished => s.exhausted.isSome ∧ s.pending = none ∧
      ∃ total v, s.running = some total ∧ s.heap.StandsFor total v ∧
        (s.destination < s.registers.length → s.registers[s.destination]? = some v)
  | .failed .start _ => False
  | .failed .iterator _ => s.exhausted = none ∧ s.pending = none
  | .failed .addition fault => s.exhausted = none ∧
      ∃ p, s.pending = some p ∧ p.Fails host fault s.heap
  | .failed .result fault => s.exhausted.isSome ∧ s.pending = none ∧ Exhausted fault
  | _ => True

theorem InTurn.ends (inTurn : s.InTurn host start) : s.Ends host := by
  unfold InTurn at inTurn
  unfold Ends
  cases turn : s.turn with
  | starting | opening | summing | waiting | adding => exact trivial
  | finished =>
    rw [turn] at inTurn
    exact inTurn.2
  | failed failure fault =>
    rw [turn] at inTurn
    cases failure with
    | start => exact inTurn
    | iterator => exact ⟨inTurn.2.1, inTurn.1⟩
    | addition => exact inTurn.2
    | result => exact inTurn.2

/-- Each request but the last has given an item, and no item was left out or added twice. -/
theorem InTurn.once (inTurn : s.InTurn host start) :
    s.history.length ≤ s.requests ∧ s.requests ≤ s.history.length + 1 := by
  have settled (pending : s.pending = none) : s.history.length = s.sums.length := by
    rw [history, pending]
    simp
  have unsettled {p : SumItem} (pending : s.pending = some p) :
      s.history.length = s.sums.length + 1 := by
    rw [history, pending]
    simp
  unfold InTurn at inTurn
  cases turn : s.turn with
  | starting source value | opening value =>
    rw [turn] at inTurn
    have fresh := inTurn.2
    rw [settled fresh.pending, fresh.sums, fresh.requests]
    exact ⟨Nat.le_refl _, Nat.zero_le _⟩
  | summing state | waiting state =>
    rw [turn] at inTurn
    rw [settled inTurn.2.1, inTurn.2.2.1]
    omega
  | adding iterator answered dispatch =>
    rw [turn] at inTurn
    obtain ⟨requests, -, p, pending, -⟩ := inTurn
    rw [unsettled pending, requests]
    omega
  | finished =>
    rw [turn] at inTurn
    rw [settled inTurn.2.2.1, inTurn.1]
    omega
  | failed failure fault =>
    rw [turn] at inTurn
    cases failure with
    | start => exact inTurn.elim
    | iterator =>
      rw [settled inTurn.1]
      exact inTurn.2.2
    | addition =>
      obtain ⟨requests, -, p, pending, -⟩ := inTurn
      rw [unsettled pending, requests]
      omega
    | result =>
      rw [settled inTurn.2.2.1, inTurn.1]
      omega

end Summing

/-- What is summed up is what folding `+` from the left over the items gives. -/
theorem sum_folds [HostLibrary] [FloatLibrary] {host : SumHost} {source start : Value} {s : Summing}
    (reached : Summing.Reachable host source start s) :
    s.Folds host start ∧ s.Ends host ∧
      s.history.length ≤ s.requests ∧ s.requests ≤ s.history.length + 1 :=
  have books := Summing.reachable_books reached
  ⟨books.folds, books.turn.ends, books.turn.once⟩

section Runs

open Summing

/-- The types of the numbers are told apart. -/
def plainHost : SumHost where
  objectClass := .none
  types := { (default : RuntimeTypes Value) with
    int := .bool true, bool := .bool false, float := .none }
  bool_ne_int := by decide
  bool_ne_float := by decide
  floatStart _ _ := throw unsupported
  floatAfterInt _ _ _ := throw unsupported
  addFloat _ _ _ _ := throw unsupported
  floatValue _ _ := throw unsupported
  divide _ _ := throw unsupported
  floats _ _ _ := throw unsupported
  extend _ _ := throw unsupported
  powMod _ _ _ := throw unsupported

/-- A list that holds `True`, and an iterator over it. -/
def oneTruth (index : Nat) : Heap := .ofObjects [.list [.bool true], .iterator (.heap 0 1) index]

theorem oneTruth_sound (index : Nat) : Sound (oneTruth index) :=
  Heap.ofObjects_sound (by simp) (by simp [Object.trace, Heap.Within])

/-- `sum(iter([True]), 1)` -/
theorem sum_folds_truth :
    let _ : HostLibrary := ⟨String.length, List.length, fun _ => ""⟩
    let _ : FloatLibrary := ⟨fun x _ => x⟩
    ∃ s : Summing, s.turn = .finished ∧ s.registers.map (·.asInt) = [some 2] ∧
      s.Folds plainHost (.small ⟨1, by decide, by decide⟩) := by
  intro _ _
  let one : Value := .small ⟨1, by decide, by decide⟩
  let idle : Reply := .value .empty .none
  let s : Summing := .sum (oneTruth 0) [.none] 0 (.heap 1 1) one
  have proper {t : Summing} (looked : t.startHeap = some (oneTruth 0))
      (items : ∀ p ∈ t.history, p.heap = oneTruth 1 ∧ p.item = .bool true)
      (exhausted : ∀ h, t.exhausted = some h → h = oneTruth 1) : t.Proper plainHost one := by
    refine ⟨fun h eq => ?_, fun p mem => ?_, fun h eq => ?_⟩
    · obtain rfl := Option.some.inj (looked.symm.trans eq)
      exact ⟨.inl ⟨1, .inl rfl⟩, nofun⟩
    · obtain ⟨heap, item⟩ := items p mem
      rw [heap, item]
      exact ⟨oneTruth_sound 1, .inl ⟨1, .inl rfl⟩⟩
    · rw [exhausted h eq]
      exact oneTruth_sound 1
  let first : Summing :=
    ⟨oneTruth 0, [.none], 0, .summing ⟨.heap 1 1, .int 1⟩, 0, none, some (oneTruth 0),
      some (.int 1), [], none⟩
  let second : Summing :=
    ⟨oneTruth 1, [.none], 0, .summing ⟨.heap 1 1, .int 2⟩, 1, none, some (oneTruth 0),
      some (.int 1), [⟨⟨oneTruth 1, .int 1, .bool true⟩, oneTruth 1, .int 2⟩], none⟩
  let third : Summing :=
    ⟨oneTruth 1, [.small ⟨2, by decide, by decide⟩], 0, .finished, 2, some (oneTruth 1),
      some (oneTruth 0), some (.int 1),
      [⟨⟨oneTruth 1, .int 1, .bool true⟩, oneTruth 1, .int 2⟩], none⟩
  have begun : s.step plainHost idle = first := rfl
  have added : first.step plainHost idle = second := rfl
  have finished : second.step plainHost idle = third := rfl
  have one_item : ∀ p ∈ [(⟨oneTruth 1, .int 1, .bool true⟩ : SumItem)],
      p.heap = oneTruth 1 ∧ p.item = .bool true := by
    intro p mem
    rw [List.mem_singleton.mp mem]
    exact ⟨rfl, rfl⟩
  have reached : Reachable plainHost (.heap 1 1) one first := by
    refine .step (.begins (oneTruth 0) [.none] 0) (begun ▸ .moves idle) (proper rfl ?_ ?_)
    · intro p mem
      cases mem
    · intro h eq
      cases eq
  have reached : Reachable plainHost (.heap 1 1) one second := by
    refine .step reached (added ▸ .moves idle) (proper rfl one_item ?_)
    intro h eq
    cases eq
  have reached : Reachable plainHost (.heap 1 1) one third := by
    refine .step reached (finished ▸ .moves idle) (proper rfl one_item ?_)
    intro h eq
    exact (Option.some.inj eq).symm
  exact ⟨third, rfl, rfl, (sum_folds reached).1⟩

/-- An instance of a subclass of `str` that has an `__add__` of its own, and an empty list. -/
def addableText : Heap :=
  final (do
    let text ← alloc (.str "a")
    let method ← alloc (.function ⟨0, 0, false, [], [], none, none, none⟩)
    let cls ← alloc (.classObject
      { root := false, id := 0, version := 0, name := "S", metaclass := .unbound
        namespaceMapping := none, attributes := [("__add__", method)]
        extraAttributes := [], dictionaryOrder := [.string "__add__"]
        bases := [], mro := [], dependents := [] })
    let _ ← alloc (.instanceObject cls .empty (some text))
    let items ← alloc (.list [])
    alloc (.iterator items 0)) .empty

/-- Such an instance is refused, even where nothing is added to it. -/
theorem sum_refuses_text :
    let _ : HostLibrary := ⟨String.length, List.length, fun _ => ""⟩
    let _ : FloatLibrary := ⟨fun x _ => x⟩
    ¬ ∀ (host : SumHost) (heap : Heap) (registers : List Value) (destination : Nat)
      (source start : Value) (s : Summing),
      Relation.ReflTransGen (Step host) (.sum heap registers destination source start) s →
      (∀ h, s.startHeap = some h → h.Summable host.types start) →
      (∀ p ∈ s.history, Sound p.heap ∧ p.heap.Summable host.types p.item) →
      (∀ h, s.exhausted = some h → Sound h) → s.Ends host := by
  intro _ _ folds
  let s : Summing := .sum addableText [.none] 0 (.heap 5 1) (.heap 3 1)
  let refused : Summing :=
    ⟨addableText, [.none], 0, .failed .start
      (typeError "sum() can't sum strings [use ''.join(seq) instead]"), 0, none, some addableText,
      none, [], none⟩
  have step : s.step plainHost (.value .empty .none) = refused := rfl
  refine folds plainHost addableText [.none] 0 (.heap 5 1) (.heap 3 1) refused
    (.single (step ▸ .moves _)) ?_ ?_ ?_
  · intro h eq
    obtain rfl := Option.some.inj eq
    exact .inr ⟨_, _, rfl, rfl, by decide, by decide, by decide⟩
  · intro p mem
    cases mem
  · intro h eq
    cases eq

end Runs

end Tonic
