import Tonic.Layout
import Tonic.Library.Outcome

/-!
## The lowering lays its code out

What an expression is lowered to lies in the finished code as the layout says. A jump that is not
patched yet is kept apart, with the target it will have.
-/

namespace Tonic

open Choice

variable {α β γ δ : Type}

/-- How far the lowering has come. -/
def Lower.point (s : Lower) : Point := ⟨s.instructions.length, s.next⟩

/-- The finished code has what was emitted, with the targets of the jumps that are still open. -/
structure Finishes (code : CodeObject) (jumps : List (Nat × Nat)) (s : Lower) : Prop where
  waits {pc target : Nat} {i : Instr} : (pc, target) ∈ jumps → s.instructions[pc]? = some i →
    code.instructions[pc]? = i.patched target
  done {pc : Nat} {i : Instr} : pc ∉ jumps.map Prod.fst → s.instructions[pc]? = some i →
    code.instructions[pc]? = some i
  constants : s.constants <+: code.constants
  calls : s.calls <+: code.calls

/-- The open jumps are different instructions that were emitted. -/
structure Opened (jumps : List (Nat × Nat)) (s : Lower) : Prop where
  apart : (jumps.map Prod.fst).Nodup
  emitted : ∀ pc ∈ jumps.map Prod.fst, pc < s.instructions.length

/-- The loops and the regions are as they were. -/
structure Untouched (s t : Lower) : Prop where
  loops : t.loops = s.loops
  exceptionRegions : t.exceptionRegions = s.exceptionRegions
  finallyBypasses : t.finallyBypasses = s.finallyBypasses
  withBypasses : t.withBypasses = s.withBypasses

/-- Where a jump of the finished code goes to. -/
def CodeObject.targetAt (code : CodeObject) (pc : Nat) : Nat :=
  match code.instructions[pc]? with
  | none => 0
  | some i =>
    match Op.ofNat? i.opcode with
    | some .jump => i.a
    | some .next | some .yieldFrom => i.c
    | _ => i.b

/-- A program of the lowering emits what a layout says. Some jumps are open before and after it. -/
def Lays (code : CodeObject) (jumps : List (Nat × Nat)) (m : LowerM α)
    (jumps' : α → List (Nat × Nat)) (f : α → β) (l : Choice Point β) : Prop :=
  ∀ s a t, m s = .ok (a, t) → Opened jumps s →
    Opened (jumps' a) t ∧ Untouched s t ∧
      (Finishes code (jumps' a) t → Finishes code jumps s ∧ l s.point (f a) t.point)

section Steps

variable {s t : Lower}

theorem Untouched.refl : Untouched s s := ⟨rfl, rfl, rfl, rfl⟩

theorem Untouched.trans {u : Lower} (first : Untouched s t) (second : Untouched t u) :
    Untouched s u :=
  ⟨second.loops.trans first.loops, second.exceptionRegions.trans first.exceptionRegions,
    second.finallyBypasses.trans first.finallyBypasses,
    second.withBypasses.trans first.withBypasses⟩

theorem LowerM.bind_ok {m : LowerM α} {k : α → LowerM γ} {c : γ} (run : (m >>= k) s = .ok (c, t)) :
    ∃ a u, m s = .ok (a, u) ∧ k a u = .ok (c, t) := by
  obtain ⟨⟨a, u⟩, first, rest⟩ := Outcome.bind_ok run
  exact ⟨a, u, first, rest⟩

namespace Lower

theorem index_ok {n a : Nat} (run : index n s = .ok (a, t)) : a = n ∧ t = s := by
  unfold index at run
  split at run <;> cases run
  exact ⟨rfl, rfl⟩

theorem pc_ok {pc : Nat} (run : Lower.pc s = .ok (pc, t)) : pc = s.instructions.length ∧ t = s :=
  index_ok run

theorem alloc_ok {count r : Nat} (run : alloc count s = .ok (r, t)) :
    r = s.next ∧ t = { s with next := s.next + count, high := max s.high (s.next + count) } := by
  obtain ⟨u, v, got, rest⟩ := LowerM.bind_ok run
  cases got
  split at rest <;> cases rest
  exact ⟨rfl, rfl⟩

theorem emit_ok {op : Op} {a b c pc : Nat} (run : emit op a b c s = .ok (pc, t)) :
    pc = s.instructions.length ∧
      t = { s with instructions := s.instructions ++ [Instr.mk op.toNat a b c] } := by
  obtain ⟨u, v, got, rest⟩ := LowerM.bind_ok run
  cases got
  split at rest <;> cases rest
  exact ⟨rfl, rfl⟩

theorem patch_ok {pc target : Nat} (run : patch pc target s = .ok ((), t)) :
    ∃ i j, s.instructions[pc]? = some i ∧ i.patched target = some j ∧
      t = { s with instructions := s.instructions.set pc j } := by
  obtain ⟨u, v, got, rest⟩ := LowerM.bind_ok run
  cases got
  cases found : s.instructions[pc]? with
  | none =>
    rw [found] at rest
    cases rest
  | some i =>
    rw [found] at rest
    dsimp only at rest
    cases changed : i.patched target with
    | none =>
      rw [changed] at rest
      cases rest
    | some j =>
      rw [changed] at rest
      cases rest
      exact ⟨i, j, rfl, changed, rfl⟩

end Lower

end Steps

section Rules

variable {code : CodeObject} {jumps jumps' : List (Nat × Nat)} {s t : Lower}

theorem Finishes.perm (finishes : Finishes code jumps s) (perm : jumps.Perm jumps') :
    Finishes code jumps' s where
  waits waiting found := finishes.waits (perm.mem_iff.mpr waiting) found
  done finished found := finishes.done (fun open' => finished ((perm.map _).mem_iff.mp open')) found
  constants := finishes.constants
  calls := finishes.calls

theorem Opened.perm (opened : Opened jumps s) (perm : jumps.Perm jumps') : Opened jumps' s where
  apart := (perm.map _).nodup_iff.mp opened.apart
  emitted pc member := opened.emitted pc ((perm.map _).mem_iff.mpr member)

theorem Opened.fresh (opened : Opened jumps s) : s.instructions.length ∉ jumps.map Prod.fst :=
  fun member => Nat.lt_irrefl _ (opened.emitted _ member)

theorem Opened.grows (opened : Opened jumps s)
    (grows : s.instructions.length ≤ t.instructions.length) : Opened jumps t :=
  ⟨opened.apart, fun pc member => Nat.lt_of_lt_of_le (opened.emitted pc member) grows⟩

/-- An instruction is emitted whose target may be left open. -/
theorem Finishes.emitted {i : Instr} (new : List (Nat × Nat))
    (finishes : Finishes code (new ++ jumps) { s with instructions := s.instructions ++ [i] })
    (here : ∀ pc ∈ new.map Prod.fst, pc = s.instructions.length) : Finishes code jumps s where
  waits waiting found := by
    refine finishes.waits (List.mem_append_right _ waiting) ?_
    exact List.getElem?_append_left (List.getElem?_eq_some_iff.mp found).1 ▸ found
  done := by
    intro pc j finished found
    have inside := (List.getElem?_eq_some_iff.mp found).1
    refine finishes.done ?_ ((List.getElem?_append_left inside).trans found)
    rw [List.map_append, List.mem_append]
    rintro (member | member)
    · have := here pc member
      omega
    · exact finished member
  constants := finishes.constants
  calls := finishes.calls

theorem Finishes.patched {pc target : Nat} {i j : Instr} (found : s.instructions[pc]? = some i)
    (changed : i.patched target = some j) (apart : pc ∉ jumps.map Prod.fst)
    (finishes : Finishes code jumps { s with instructions := s.instructions.set pc j }) :
    Finishes code ((pc, target) :: jumps) s where
  waits := by
    intro pc' target' i' waiting found'
    cases waiting with
    | head =>
      cases found.symm.trans found'
      rw [changed]
      refine finishes.done apart ?_
      exact List.getElem?_set_self (List.getElem?_eq_some_iff.mp found).1
    | tail _ waiting =>
      refine finishes.waits waiting ?_
      have other : pc ≠ pc' := by
        rintro rfl
        exact apart (List.mem_map_of_mem waiting)
      exact (List.getElem?_set_ne other).trans found'
  done := by
    intro pc' i' finished found'
    rw [List.map_cons, List.mem_cons, not_or] at finished
    refine finishes.done finished.2 ?_
    exact (List.getElem?_set_ne (Ne.symm finished.1)).trans found'
  constants := finishes.constants
  calls := finishes.calls

theorem Opened.closed {p : Nat × Nat} (opened : Opened (p :: jumps) s)
    (same : t.instructions.length = s.instructions.length) : Opened jumps t where
  apart := (List.nodup_cons.mp opened.apart).2
  emitted pc member := same ▸ opened.emitted pc (List.mem_cons_of_mem _ member)

theorem targetAt_patched {i j : Instr} {pc target : Nat} (changed : i.patched target = some j)
    (found : code.instructions[pc]? = some j) : code.targetAt pc = target := by
  unfold Instr.patched at changed
  rw [Option.map_eq_some_iff] at changed
  obtain ⟨op, decoded, rfl⟩ := changed
  rw [CodeObject.targetAt, found]
  cases op <;> simp [decoded]

theorem Opened.emit {op : Op} {a b c pc : Nat} (opened : Opened jumps s) (target : Nat)
    (went : Lower.emit op a b c s = .ok (pc, t)) :
    Opened ((pc, target) :: jumps) t ∧ Untouched s t ∧
      (Finishes code ((pc, target) :: jumps) t → Finishes code jumps s ∧
        code.instructions[s.point.pc]? = (Instr.mk op.toNat a b c).patched target ∧
        t.point = ⟨s.point.pc + 1, s.point.next⟩) := by
  obtain ⟨rfl, rfl⟩ := Lower.emit_ok went
  refine ⟨⟨List.nodup_cons.mpr ⟨opened.fresh, opened.apart⟩, ?_⟩, ⟨rfl, rfl, rfl, rfl⟩,
    fun finishes => ?_⟩
  · intro pc member
    rw [List.length_append, List.length_singleton]
    cases List.mem_cons.mp member with
    | inl here => exact here ▸ Nat.lt_succ_self _
    | inr there => exact Nat.lt_succ_of_lt (opened.emitted pc there)
  · refine ⟨Finishes.emitted [_] finishes fun pc member => List.mem_singleton.mp member, ?_, ?_⟩
    · exact finishes.waits (List.mem_cons_self ..) List.getElem?_concat_length
    · simp [Lower.point]

theorem Opened.patchAll {ends : List Nat} {target : Nat}
    (opened : Opened (ends.map (·, target) ++ jumps) s)
    (went : Lower.patchAll ends target s = .ok ((), t)) :
    Opened jumps t ∧ Untouched s t ∧ t.point = s.point ∧
      (Finishes code jumps t → Finishes code (ends.map (·, target) ++ jumps) s) := by
  induction ends generalizing s with
  | nil =>
    cases went
    exact ⟨opened, .refl, rfl, id⟩
  | cons p rest ih =>
    obtain ⟨⟨⟩, u, first, went⟩ := LowerM.bind_ok went
    obtain ⟨i, j, found, changed, rfl⟩ := Lower.patch_ok first
    have apart := (List.nodup_cons.mp opened.apart).1
    obtain ⟨opened, untouched, point, finishes⟩ := ih (opened.closed (by simp)) went
    refine ⟨opened, ⟨untouched.1, untouched.2, untouched.3, untouched.4⟩, ?_, fun after => ?_⟩
    · simpa [Lower.point] using point
    · exact Finishes.patched found changed apart (finishes after)

theorem getElem?_of_begins {xs ys : List α} {a : α} (begins : xs ++ [a] <+: ys) :
    ys[xs.length]? = some a := by
  obtain ⟨rest, rfl⟩ := begins
  simp

namespace Lays

variable {m : LowerM α} {jumps₁ : α → List (Nat × Nat)} {jumps₂ : γ → List (Nat × Nat)} {f : α → β}
  {g : γ → δ} {l : Choice Point β}

theorem pure {a : α} : Lays code jumps (Pure.pure a) (fun _ => jumps) f (Pure.pure (f a)) := by
  rintro s _ _ ⟨⟩ opened
  exact ⟨opened, .refl, fun finishes => ⟨finishes, rfl, rfl⟩⟩

theorem bind {k : α → LowerM γ} {l' : β → Choice Point δ} (first : Lays code jumps m jumps₁ f l)
    (rest : ∀ a, Lays code (jumps₁ a) (k a) jumps₂ g (l' (f a))) :
    Lays code jumps (m >>= k) jumps₂ g (l >>= l') := by
  intro s c t run opened
  obtain ⟨a, u, went, onward⟩ := LowerM.bind_ok run
  obtain ⟨opened, untouched, lays⟩ := first s a u went opened
  obtain ⟨opened, untouched', lays'⟩ := rest a u c t onward opened
  refine ⟨opened, untouched.trans untouched', fun finishes => ?_⟩
  obtain ⟨finishes, onward⟩ := lays' finishes
  obtain ⟨finishes, went⟩ := lays finishes
  exact ⟨finishes, f a, u.point, went, onward⟩

/-- The jumps may be listed in any order. -/
theorem perm {jumps₁' : α → List (Nat × Nat)} (lays : Lays code jumps m jumps₁ f l)
    (same : ∀ a, (jumps₁ a).Perm (jumps₁' a)) : Lays code jumps m jumps₁' f l := by
  intro s a t run opened
  obtain ⟨opened, untouched, lays⟩ := lays s a t run opened
  exact ⟨opened.perm (same a), untouched, fun finishes => lays (finishes.perm (same a).symm)⟩

/-- Something else is made of the result. -/
theorem result {h : α → γ} {g : γ → β} (lays : Lays code jumps m (fun a => jumps₂ (h a)) f l)
    (same : ∀ a, f a = g (h a)) :
    Lays code jumps (m >>= fun a => Pure.pure (h a)) jumps₂ g l := by
  intro s c t run opened
  obtain ⟨a, _, went, ⟨⟩⟩ := LowerM.bind_ok run
  exact same a ▸ lays s a t went opened

theorem alloc {count : Nat} :
    Lays code jumps (Lower.alloc count) (fun _ => jumps) id (Layout.alloc count) := by
  intro s r t run opened
  obtain ⟨rfl, rfl⟩ := Lower.alloc_ok run
  refine ⟨opened.grows (Nat.le_refl _), ⟨rfl, rfl, rfl, rfl⟩, fun finishes => ⟨?_, rfl, rfl⟩⟩
  exact ⟨finishes.waits, finishes.done, finishes.constants, finishes.calls⟩

theorem pc : Lays code jumps Lower.pc (fun _ => jumps) id Layout.here := by
  intro s r t run opened
  obtain ⟨rfl, rfl⟩ := Lower.pc_ok run
  exact ⟨opened, .refl, fun finishes => ⟨finishes, rfl, rfl⟩⟩

theorem index {n : Nat} {k : Nat → LowerM γ} {l : Choice Point δ}
    (rest : Lays code jumps (k n) jumps₂ g l) :
    Lays code jumps (Lower.index n >>= k) jumps₂ g l := by
  intro s c t run opened
  obtain ⟨a, u, went, onward⟩ := LowerM.bind_ok run
  obtain ⟨rfl, rfl⟩ := Lower.index_ok went
  exact rest _ c t onward opened

theorem emit {op : Op} {a b c : Nat} : Lays code jumps (Lower.emit op a b c) (fun _ => jumps)
    (fun _ => ()) (Layout.emit code op a b c) := by
  intro s pc t run opened
  obtain ⟨rfl, rfl⟩ := Lower.emit_ok run
  refine ⟨opened.grows (by simp), ⟨rfl, rfl, rfl, rfl⟩, fun finishes => ?_⟩
  refine ⟨Finishes.emitted [] finishes (fun _ member => by cases member), ?_, ?_⟩
  · exact finishes.done opened.fresh List.getElem?_concat_length
  · simp [Lower.point]

/-- A jump is emitted whose target is left open. -/
theorem jump {op : Op} {a b c : Nat} {a' b' c' : Nat → Nat} {k : Nat → LowerM γ}
    {l : Nat → Choice Point δ}
    (form : ∀ target, (Instr.mk op.toNat a b c).patched target =
      some ⟨op.toNat, a' target, b' target, c' target⟩)
    (rest : ∀ pc, Lays code ((pc, code.targetAt pc) :: jumps) (k pc) jumps₂ g
      (l (code.targetAt pc))) :
    Lays code jumps (Lower.emit op a b c >>= k) jumps₂ g (do
      let target ← Choice.guess
      Layout.emit code op (a' target) (b' target) (c' target)
      l target) := by
  intro s d t run opened
  obtain ⟨pc, u, went, onward⟩ := LowerM.bind_ok run
  obtain ⟨opened, untouched, lays⟩ := opened.emit (code.targetAt pc) went
  obtain ⟨opened, untouched', lays'⟩ := rest _ _ d t onward opened
  refine ⟨opened, untouched.trans untouched', fun finishes => ?_⟩
  obtain ⟨finishes, onward⟩ := lays' finishes
  obtain ⟨finishes, here, point⟩ := lays finishes
  exact ⟨finishes, _, _, rfl, (), u.point, ⟨here.trans (form _), point⟩, onward⟩

/-- The same where the target is known already. -/
theorem jumpTo {op : Op} {a b c a' b' c' target : Nat} {k : Nat → LowerM γ}
    {l : Unit → Choice Point δ}
    (form : (Instr.mk op.toNat a b c).patched target = some ⟨op.toNat, a', b', c'⟩)
    (rest : ∀ pc, Lays code ((pc, target) :: jumps) (k pc) jumps₂ g (l ())) :
    Lays code jumps (Lower.emit op a b c >>= k) jumps₂ g
      (Layout.emit code op a' b' c' >>= l) := by
  intro s d t run opened
  obtain ⟨pc, u, went, onward⟩ := LowerM.bind_ok run
  obtain ⟨opened, untouched, lays⟩ := opened.emit target went
  obtain ⟨opened, untouched', lays'⟩ := rest _ _ d t onward opened
  refine ⟨opened, untouched.trans untouched', fun finishes => ?_⟩
  obtain ⟨finishes, onward⟩ := lays' finishes
  obtain ⟨finishes, here, point⟩ := lays finishes
  exact ⟨finishes, (), u.point, ⟨here.trans form, point⟩, onward⟩

/-- A jump is patched to go here. -/
theorem patch {p : Nat} {rest : List (Nat × Nat)} {k : Unit → LowerM γ} {l : Unit → Choice Point δ}
    (perm : jumps.Perm ((p, code.targetAt p) :: rest))
    (later : Lays code rest (k ()) jumps₂ g (l ())) :
    Lays code jumps (Lower.pc >>= fun target => Lower.patch p target >>= k) jumps₂ g
      (Layout.reach (code.targetAt p) >>= l) := by
  intro s d t run opened
  obtain ⟨stop, u, went, onward⟩ := LowerM.bind_ok run
  obtain ⟨rfl, rfl⟩ := Lower.pc_ok went
  obtain ⟨⟨⟩, v, went, onward⟩ := LowerM.bind_ok onward
  have opened := opened.perm perm
  obtain ⟨i, j, found, changed, rfl⟩ := Lower.patch_ok went
  have apart := (List.nodup_cons.mp opened.apart).1
  obtain ⟨opened, untouched, lays⟩ := later _ d t onward (opened.closed (by simp))
  refine ⟨opened, ⟨untouched.1, untouched.2, untouched.3, untouched.4⟩, fun finishes => ?_⟩
  obtain ⟨finishes, onward⟩ := lays finishes
  have inside := (List.getElem?_eq_some_iff.mp found).1
  have target : code.targetAt p = u.instructions.length :=
    targetAt_patched changed (finishes.done apart (List.getElem?_set_self inside))
  refine ⟨Finishes.perm ?_ perm.symm, (), u.point, ⟨target.symm, rfl⟩, ?_⟩
  · rw [target]
    exact Finishes.patched found changed apart finishes
  · simpa [Lower.point] using onward

/-- Several jumps are patched to go here. -/
theorem patchAll {m : LowerM (List Nat)} {rest : List (Nat × Nat)} {k : Unit → LowerM γ}
    {l : Nat → Choice Point Unit} {l' : Nat → Choice Point δ}
    (open' : ∀ target, Lays code jumps m (fun ends => ends.map (·, target) ++ rest) (fun _ => ())
      (l target))
    (later : ∀ target, Lays code rest (k ()) jumps₂ g (l' target)) :
    Lays code jumps
      (m >>= fun ends => Lower.pc >>= fun stop => Lower.patchAll ends stop >>= k) jumps₂ g (do
        let stop ← Choice.guess
        l stop
        Layout.reach stop
        l' stop) := by
  intro s d t run opened
  obtain ⟨ends, _, went, onward⟩ := LowerM.bind_ok run
  obtain ⟨stop, u, got, onward⟩ := LowerM.bind_ok onward
  obtain ⟨rfl, rfl⟩ := Lower.pc_ok got
  obtain ⟨⟨⟩, v, patched, onward⟩ := LowerM.bind_ok onward
  obtain ⟨opened, untouched, lays⟩ := open' u.instructions.length s ends u went opened
  obtain ⟨opened, untouched', point, lays'⟩ := opened.patchAll patched
  obtain ⟨opened, untouched'', lays''⟩ := later u.instructions.length v d t onward opened
  refine ⟨opened, (untouched.trans untouched').trans untouched'', fun finishes => ?_⟩
  obtain ⟨finishes, onward⟩ := lays'' finishes
  obtain ⟨finishes, went⟩ := lays (lays' finishes)
  exact ⟨finishes, _, _, rfl, (), _, went, (), _, ⟨rfl, rfl⟩, point ▸ onward⟩

/-- The layout guesses right. -/
theorem guess {jumps₁ : γ → List (Nat × Nat)} {m : LowerM γ} {l : α → Choice Point δ} (a : α)
    (lays : Lays code jumps m jumps₁ g (l a)) :
    Lays code jumps m jumps₁ g (Choice.guess >>= l) := by
  intro s c t run opened
  obtain ⟨opened, untouched, lays⟩ := lays s c t run opened
  refine ⟨opened, untouched, fun finishes => ?_⟩
  obtain ⟨finishes, onward⟩ := lays finishes
  exact ⟨finishes, a, _, rfl, onward⟩

theorem check {p : Prop} {m : LowerM γ} {l : Unit → Choice Point δ} (holds : p)
    (lays : Lays code jumps m jumps₂ g (l ())) :
    Lays code jumps m jumps₂ g (Choice.check (fun _ => p) >>= l) := by
  intro s c t run opened
  obtain ⟨opened, untouched, lays⟩ := lays s c t run opened
  refine ⟨opened, untouched, fun finishes => ?_⟩
  obtain ⟨finishes, onward⟩ := lays finishes
  exact ⟨finishes, (), _, ⟨holds, rfl⟩, onward⟩

/-- A constant is listed. -/
theorem listed {c : Constant} {k : Nat → LowerM γ} {l : Nat → Choice Point δ}
    (rest : ∀ id, Lays code jumps (k id) jumps₂ g (l id)) :
    Lays code jumps (do
      let s ← get
      let id ← Lower.index s.constants.length
      set { s with constants := s.constants ++ [c] }
      k id) jumps₂ g (do
        let id ← Choice.guess
        Choice.check fun _ => code.constants[id]? = some c
        l id) := by
  intro s d t run opened
  obtain ⟨_, _, got, run⟩ := LowerM.bind_ok run
  cases got
  obtain ⟨id, u, indexed, run⟩ := LowerM.bind_ok run
  obtain ⟨rfl, rfl⟩ := Lower.index_ok indexed
  obtain ⟨_, _, stored, onward⟩ := LowerM.bind_ok run
  cases stored
  obtain ⟨opened, untouched, lays⟩ := rest _ _ d t onward ⟨opened.apart, opened.emitted⟩
  refine ⟨opened, ⟨untouched.1, untouched.2, untouched.3, untouched.4⟩, fun finishes => ?_⟩
  obtain ⟨finishes, onward⟩ := lays finishes
  refine ⟨⟨finishes.waits, finishes.done, (List.prefix_append ..).trans finishes.constants,
    finishes.calls⟩, _, _, rfl, (), _, ⟨?_, rfl⟩, onward⟩
  exact getElem?_of_begins finishes.constants

end Lays

/-! ### Expressions -/

section Lists

variable {scope : Scope}

end Lists

end Rules

end Tonic
