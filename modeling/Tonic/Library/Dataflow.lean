import Mathlib.Algebra.BigOperators.Group.List.Basic
import Mathlib.Algebra.Order.Ring.Nat
import Mathlib.Tactic.Common

/-!
## Dataflow by a worklist

A forward analysis keeps one state for each program point. What flows along an edge is merged into
the state behind it, and a point whose state has changed is looked at again. In the end no edge
carries more than the state behind it allows.
-/

namespace Dataflow

variable {σ ε : Type}

/-- States with a merge. A merge that changes a state takes weight from it. -/
structure Domain (σ : Type) where
  merge : σ → σ → σ
  weight : σ → Nat
  lighter : ∀ known incoming, merge known incoming ≠ known →
    weight (merge known incoming) < weight known

/-- A merge allows what both of its parts allow. -/
structure Domain.Order (d : Domain σ) (le : σ → σ → Prop) : Prop where
  refl (s : σ) : le s s
  trans {a b c : σ} : le a b → le b c → le a c
  left (known incoming : σ) : le known (d.merge known incoming)
  right (known incoming : σ) : le incoming (d.merge known incoming)

structure System (σ ε : Type) extends Domain σ where
  /-- What leaves a point, and where it goes. -/
  flow : Nat → σ → Except ε (List (Nat × σ))
  outside : ε

def unseen (states : List (Option σ)) : Nat := states.countP (·.isNone)

namespace Domain

variable (d : Domain σ)

def total (states : List (Option σ)) : Nat := (states.map fun s => s.elim 0 d.weight).sum

/-- A point was seen for the first time, or some state has lost weight. -/
def Less (states before : List (Option σ)) : Prop :=
  unseen states < unseen before ∨ unseen states = unseen before ∧ d.total states < d.total before

variable {d}

theorem unseen_set {states : List (Option σ)} {point : Nat} {old : Option σ} (new : σ)
    (found : states[point]? = some old) :
    unseen (states.set point (some new)) + (if old.isNone then 1 else 0) = unseen states := by
  induction states generalizing point with
  | nil => cases found
  | cons s states ih =>
    cases point with
    | zero =>
      cases found
      simp only [unseen, List.set_cons_zero, List.countP_cons, Option.isNone_some, Bool.false_eq_true,
        if_false, Nat.add_zero]
    | succ point =>
      have rest := @ih point found
      simp only [unseen, List.set_cons_succ, List.countP_cons] at rest ⊢
      omega

theorem total_set {states : List (Option σ)} {point : Nat} {old : σ} (new : σ)
    (found : states[point]? = some (some old)) :
    d.total (states.set point (some new)) + d.weight old = d.total states + d.weight new := by
  induction states generalizing point with
  | nil => cases found
  | cons s states ih =>
    cases point with
    | zero =>
      cases found
      simp only [total, List.set_cons_zero, List.map_cons, List.sum_cons, Option.elim_some]
      omega
    | succ point =>
      have rest := @ih point found
      simp only [total, List.set_cons_succ, List.map_cons, List.sum_cons] at rest ⊢
      omega

theorem Less.trans {a b c : List (Option σ)} (first : d.Less a b) (second : d.Less b c) :
    d.Less a c := by
  unfold Less at *
  omega

end Domain

namespace System

variable [DecidableEq σ] (g : System σ ε)

/-- A state flows to a point; whether it has changed what is known there. -/
def send (states : List (Option σ)) (point : Nat) (incoming : σ) :
    Except ε (List (Option σ) × Bool) :=
  match states[point]? with
  | none => .error g.outside
  | some none => .ok (states.set point (some incoming), true)
  | some (some known) =>
    if g.merge known incoming = known then .ok (states, false)
    else .ok (states.set point (some (g.merge known incoming)), true)

/-- The points whose states have changed are looked at again, in the order of the edges. -/
def sendAll (states : List (Option σ)) :
    List (Nat × σ) → Except ε (List (Option σ) × List Nat)
  | [] => .ok (states, [])
  | (point, incoming) :: rest =>
    match g.send states point incoming with
    | .error fault => .error fault
    | .ok (states, changed) =>
      match sendAll states rest with
      | .error fault => .error fault
      | .ok (states, queue) => .ok (states, if changed then point :: queue else queue)

section Send

variable {g} {states after : List (Option σ)} {point : Nat} {incoming : σ} {changed : Bool}

theorem send_less (sent : g.send states point incoming = .ok (after, changed)) :
    after = states ∧ changed = false ∨ g.Less after states ∧ changed = true := by
  unfold send at sent
  split at sent
  · cases sent
  · next found =>
    cases sent
    have := Domain.unseen_set incoming found
    simp only [Option.isNone_none, if_true] at this
    exact .inr ⟨.inl (by omega), rfl⟩
  · next known found =>
    split at sent
    · cases sent
      exact .inl ⟨rfl, rfl⟩
    · next differs =>
      cases sent
      have same := Domain.unseen_set (g.merge known incoming) found
      have less := Domain.total_set (d := g.toDomain) (g.merge known incoming) found
      have lighter := g.lighter known incoming differs
      simp only [Option.isNone_some, Bool.false_eq_true, if_false, Nat.add_zero] at same
      exact .inr ⟨.inr ⟨same, by omega⟩, rfl⟩

theorem sendAll_less {edges : List (Nat × σ)} {queue : List Nat}
    (sent : g.sendAll states edges = .ok (after, queue)) :
    after = states ∧ queue = [] ∨ g.Less after states := by
  induction edges generalizing states queue with
  | nil =>
    cases sent
    exact .inl ⟨rfl, rfl⟩
  | cons edge edges ih =>
    rw [sendAll] at sent
    split at sent
    · cases sent
    · next middle changed first =>
      split at sent
      · cases sent
      · next last queue' rest =>
        cases sent
        cases send_less first with
        | inl kept =>
          obtain ⟨rfl, rfl⟩ := kept
          exact ih rest
        | inr less =>
          cases ih rest with
          | inl kept => exact .inr (kept.1 ▸ less.1)
          | inr later => exact .inr (later.trans less.1)

end Send

def solve (states : List (Option σ)) (queue : List Nat) : Except ε (List (Option σ)) :=
  match queue with
  | [] => .ok states
  | point :: queue =>
    match states[point]? with
    | some (some state) =>
      match g.flow point state with
      | .error fault => .error fault
      | .ok edges =>
        match _sent : g.sendAll states edges with
        | .error fault => .error fault
        | .ok (after, changed) => solve after (queue ++ changed)
    | _ => .error g.outside
termination_by (unseen states, g.total states, queue.length)
decreasing_by
  cases sendAll_less _sent with
  | inl kept =>
    obtain ⟨rfl, rfl⟩ := kept
    rw [List.append_nil]
    exact .right _ (.right _ (Nat.lt_succ_self _))
  | inr less =>
    cases less with
    | inl fewer => exact .left _ _ fewer
    | inr lighter =>
      rw [lighter.1]
      exact .right _ (.left _ _ lighter.2)

section Solve

variable {g} {states after : List (Option σ)} {point : Nat} {queue : List Nat}

theorem solve_nil : g.solve states [] = .ok states := by rw [solve]

theorem solve_cons {state : σ} (found : states[point]? = some (some state)) :
    g.solve states (point :: queue) =
      match g.flow point state with
      | .error fault => .error fault
      | .ok edges =>
        match g.sendAll states edges with
        | .error fault => .error fault
        | .ok (after, changed) => g.solve after (queue ++ changed) := by
  rw [solve, found]
  dsimp only
  split
  · rfl
  · split <;> simp_all only

end Solve

/-! ### Solutions -/

variable (le : σ → σ → Prop)

/-- Every edge from a point is covered by what is known behind it. -/
def Sends (states : List (Option σ)) (point : Nat) (state : σ) : Prop :=
  ∃ edges, g.flow point state = .ok edges ∧ ∀ target incoming, (target, incoming) ∈ edges →
    ∃ known, states[target]? = some (some known) ∧ le incoming known

def Solved (states : List (Option σ)) : Prop :=
  ∀ (point : Nat) (state : σ), states[point]? = some (some state) → g.Sends le states point state

end System

/-- A point that was seen. -/
def Seen (states : List (Option σ)) (point : Nat) : Prop := ∃ s, states[point]? = some (some s)

def Grows (le : σ → σ → Prop) (states after : List (Option σ)) : Prop :=
  ∀ (point : Nat) (state : σ), states[point]? = some (some state) →
    ∃ known, after[point]? = some (some known) ∧ le state known

namespace System

variable [DecidableEq σ] {g : System σ ε} {le : σ → σ → Prop} {states after : List (Option σ)}

omit [DecidableEq σ] in
theorem Sends.mono (order : g.Order le) (grows : Grows le states after) {point : Nat} {state : σ}
    (sends : g.Sends le states point state) : g.Sends le after point state := by
  obtain ⟨edges, flow, covered⟩ := sends
  refine ⟨edges, flow, fun target incoming edge => ?_⟩
  obtain ⟨known, found, le⟩ := covered target incoming edge
  obtain ⟨known', found', le'⟩ := grows target known found
  exact ⟨known', found', order.trans le le'⟩

omit [DecidableEq σ] in
theorem grows_trans (order : g.Order le) {last : List (Option σ)} (first : Grows le states after)
    (second : Grows le after last) : Grows le states last := by
  intro point state found
  obtain ⟨known, found', le⟩ := first point state found
  obtain ⟨known', found'', le'⟩ := second point known found'
  exact ⟨known', found'', order.trans le le'⟩

omit [DecidableEq σ] in
theorem grows_refl (order : g.Order le) : Grows le states states :=
  fun _ state found => ⟨state, found, order.refl state⟩

omit [DecidableEq σ] in
theorem grows_set (order : g.Order le) {point : Nat} {old : Option σ} {new : σ}
    (found : states[point]? = some old) (covers : ∀ known, old = some known → le known new) :
    Grows le states (states.set point (some new)) := by
  intro p s at'
  by_cases same : point = p
  · subst same
    have bound := (List.getElem?_eq_some_iff.mp found).1
    refine ⟨new, List.getElem?_set_self bound, covers s ?_⟩
    rw [found] at at'
    exact Option.some.inj at'
  · exact ⟨s, by rw [List.getElem?_set_ne same, at'], order.refl s⟩

theorem send_covers (order : g.Order le) {point : Nat} {incoming : σ} {changed : Bool}
    (sent : g.send states point incoming = .ok (after, changed)) :
    Grows le states after ∧ (∃ known, after[point]? = some (some known) ∧ le incoming known) ∧
      ∀ p s, after[p]? = some (some s) → states[p]? = some (some s) ∨ changed = true ∧ p = point := by
  unfold send at sent
  have fresh (p : Nat) (s : σ) (new : Option σ) (at' : (states.set point new)[p]? = some (some s)) :
      states[p]? = some (some s) ∨ true = true ∧ p = point := by
    by_cases same : point = p
    · exact .inr ⟨rfl, same.symm⟩
    · rw [List.getElem?_set_ne same] at at'
      exact .inl at'
  split at sent
  · cases sent
  · next found =>
    cases sent
    have bound := (List.getElem?_eq_some_iff.mp found).1
    refine ⟨grows_set order found (fun known old => by cases old), ?_, fun p s at' =>
      fresh p s _ at'⟩
    exact ⟨incoming, List.getElem?_set_self bound, order.refl incoming⟩
  · next known found =>
    split at sent
    · next same =>
      cases sent
      refine ⟨grows_refl order, ⟨known, found, ?_⟩, fun p s at' => .inl at'⟩
      have := order.right known incoming
      rwa [same] at this
    · cases sent
      have bound := (List.getElem?_eq_some_iff.mp found).1
      refine ⟨grows_set order found (fun old same => ?_), ?_, fun p s at' => fresh p s _ at'⟩
      · cases same
        exact order.left known incoming
      · exact ⟨_, List.getElem?_set_self bound, order.right known incoming⟩

theorem sendAll_covers (order : g.Order le) {edges : List (Nat × σ)} {queue : List Nat}
    (sent : g.sendAll states edges = .ok (after, queue)) :
    Grows le states after ∧
      (∀ target incoming, (target, incoming) ∈ edges →
        ∃ known, after[target]? = some (some known) ∧ le incoming known) ∧
      ∀ p s, after[p]? = some (some s) → states[p]? = some (some s) ∨ p ∈ queue := by
  induction edges generalizing states queue with
  | nil =>
    cases sent
    exact ⟨grows_refl order, fun _ _ edge => absurd edge List.not_mem_nil, fun _ _ => .inl⟩
  | cons edge edges ih =>
    rw [sendAll] at sent
    split at sent
    · cases sent
    · next middle changed first =>
      split at sent
      · cases sent
      · next last queue' rest =>
        cases sent
        obtain ⟨grows, ⟨known, here, le⟩, fresh⟩ := send_covers order first
        obtain ⟨grows', covered, fresh'⟩ := ih rest
        refine ⟨grows_trans order grows grows', fun target incoming member => ?_,
          fun p s at' => ?_⟩
        · cases List.mem_cons.mp member with
          | inl same =>
            cases same
            obtain ⟨known', found, le'⟩ := grows' _ _ here
            exact ⟨known', found, order.trans le le'⟩
          | inr later => exact covered target incoming later
        · cases fresh' p s at' with
          | inl before =>
            cases fresh p s before with
            | inl old => exact .inl old
            | inr new =>
              rw [new.1, if_pos rfl, new.2]
              exact .inr (List.mem_cons_self ..)
          | inr queued =>
            refine .inr ?_
            split
            · exact List.mem_cons_of_mem _ queued
            · exact queued

/-- The states that are no longer queued send nothing new. -/
theorem solve_solved (order : g.Order le) {queue : List Nat} {final : List (Option σ)}
    (done : ∀ point state, states[point]? = some (some state) →
      point ∈ queue ∨ g.Sends le states point state)
    (run : g.solve states queue = .ok final) : Grows le states final ∧ g.Solved le final := by
  induction states, queue using solve.induct g with
  | case1 states =>
    rw [solve_nil] at run
    cases run
    refine ⟨grows_refl order, fun point state found => ?_⟩
    exact (done point state found).resolve_left List.not_mem_nil
  | case2 states point queue state found fault stuck =>
    rw [solve_cons found, stuck] at run
    cases run
  | case3 states point queue state found edges flow fault stuck =>
    rw [solve_cons found, flow] at run
    dsimp only at run
    rw [stuck] at run
    cases run
  | case4 states point queue state found edges flow after changed sent ih =>
    rw [solve_cons found, flow] at run
    dsimp only at run
    rw [sent] at run
    obtain ⟨grows, covered, fresh⟩ := sendAll_covers order sent
    have rest := ih (fun p s at' => ?_) run
    · exact ⟨grows_trans order grows rest.1, rest.2⟩
    · cases fresh p s at' with
      | inr queued => exact .inl (List.mem_append_right _ queued)
      | inl old =>
        cases done p s old with
        | inr sends => exact .inr (sends.mono order grows)
        | inl queued =>
          cases List.mem_cons.mp queued with
          | inr later => exact .inl (List.mem_append_left _ later)
          | inl here =>
            subst here
            rw [found] at old
            cases old
            exact .inr ⟨edges, flow, covered⟩
  | case5 states point queue absent =>
    rw [solve] at run
    split at run
    · next state found => exact absurd found (absent state)
    · cases run

/-- Where the flow of a state is defined and stays inside, the analysis comes to an end. -/
theorem send_ok {point : Nat} (incoming : σ) (inside : point < states.length) :
    ∃ after changed, g.send states point incoming = .ok (after, changed) ∧
      after.length = states.length ∧ Seen after point ∧ ∀ p, Seen states p → Seen after p := by
  have kept (new : σ) (p : Nat) : Seen states p → Seen (states.set point (some new)) p := by
    rintro ⟨s, found⟩
    by_cases same : point = p
    · subst same
      exact ⟨new, List.getElem?_set_self inside⟩
    · exact ⟨s, by rw [List.getElem?_set_ne same, found]⟩
  unfold send
  split
  · next outside => exact absurd inside (Nat.not_lt.mpr (List.getElem?_eq_none_iff.mp outside))
  · exact ⟨_, _, rfl, List.length_set, ⟨_, List.getElem?_set_self inside⟩, kept _⟩
  · next known found =>
    split
    · exact ⟨_, _, rfl, rfl, ⟨known, found⟩, fun p => id⟩
    · exact ⟨_, _, rfl, List.length_set, ⟨_, List.getElem?_set_self inside⟩, kept _⟩

theorem sendAll_ok {edges : List (Nat × σ)}
    (inside : ∀ target incoming, (target, incoming) ∈ edges → target < states.length) :
    ∃ after queue, g.sendAll states edges = .ok (after, queue) ∧
      after.length = states.length ∧ (∀ p ∈ queue, Seen after p) ∧
      ∀ p, Seen states p → Seen after p := by
  induction edges generalizing states with
  | nil =>
    refine ⟨states, [], rfl, rfl, fun p member => ?_, fun p => id⟩
    cases member
  | cons edge edges ih =>
    obtain ⟨middle, changed, first, length, here, kept⟩ :=
      send_ok (g := g) edge.2 (inside edge.1 edge.2 (List.mem_cons_self ..))
    obtain ⟨after, queue, rest, length', queued, kept'⟩ := @ih middle
      fun target incoming member => length ▸ inside target incoming (List.mem_cons_of_mem _ member)
    refine ⟨after, if changed then edge.1 :: queue else queue, ?_, length'.trans length,
      fun p member => ?_, fun p seen => kept' p (kept p seen)⟩
    · rw [sendAll, first]
      dsimp only
      rw [rest]
    · split at member
      · cases List.mem_cons.mp member with
        | inl same => exact same ▸ kept' edge.1 here
        | inr later => exact queued p later
      · exact queued p member

theorem solve_ok {size : Nat} (flows : ∀ point < size, ∀ state, ∃ edges,
      g.flow point state = .ok edges ∧ ∀ target incoming, (target, incoming) ∈ edges → target < size)
    {queue : List Nat} (length : states.length = size)
    (queued : ∀ point ∈ queue, Seen states point) : ∃ final, g.solve states queue = .ok final := by
  induction states, queue using solve.induct g with
  | case1 states => exact ⟨states, solve_nil⟩
  | case2 states point queue state found fault stuck =>
    have bound := (List.getElem?_eq_some_iff.mp found).1
    obtain ⟨edges, flow, -⟩ := flows point (length ▸ bound) state
    rw [stuck] at flow
    cases flow
  | case3 states point queue state found edges flow fault stuck =>
    have bound := (List.getElem?_eq_some_iff.mp found).1
    obtain ⟨edges', flow', inside⟩ := flows point (length ▸ bound) state
    rw [flow] at flow'
    cases flow'
    obtain ⟨after, changed, sent, -⟩ := sendAll_ok (g := g) (length ▸ inside)
    rw [stuck] at sent
    cases sent
  | case4 states point queue state found edges flow after changed sent ih =>
    have bound := (List.getElem?_eq_some_iff.mp found).1
    obtain ⟨edges', flow', inside⟩ := flows point (length ▸ bound) state
    rw [flow] at flow'
    cases flow'
    obtain ⟨after', changed', sent', length', fresh, kept⟩ := sendAll_ok (g := g) (length ▸ inside)
    rw [sent] at sent'
    cases sent'
    rw [solve_cons found, flow]
    dsimp only
    rw [sent]
    refine ih (length'.trans length) fun p member => ?_
    cases List.mem_append.mp member with
    | inl old => exact kept p (queued p (List.mem_cons_of_mem _ old))
    | inr new => exact fresh p new
  | case5 states point queue absent =>
    obtain ⟨state, found⟩ := queued point (List.mem_cons_self ..)
    exact absurd found (absent state)

/-! ### Runs -/

variable {χ : Type}

inductive Reaches (step : Nat → χ → Nat → χ → Prop) (start : Nat × χ) : Nat → χ → Prop where
  | start : Reaches step start start.1 start.2
  | next {point after : Nat} {c d : χ} (before : Reaches step start point c)
      (taken : step point c after d) : Reaches step start after d

omit [DecidableEq σ] in
/-- The states of a solution describe every run. -/
theorem Solved.describes (solved : g.Solved le states) {step : Nat → χ → Nat → χ → Prop}
    {describes : σ → χ → Prop} (mono : ∀ s t c, le s t → describes s c → describes t c)
    (sound : ∀ point state edges c after d, g.flow point state = .ok edges → describes state c →
      step point c after d → ∃ out, (after, out) ∈ edges ∧ describes out d)
    {start : Nat × χ} (entry : ∃ state, states[start.1]? = some (some state) ∧
      describes state start.2) {point : Nat} {c : χ} (reached : Reaches step start point c) :
    ∃ state, states[point]? = some (some state) ∧ describes state c := by
  induction reached with
  | start => exact entry
  | @next point after c d before taken ih =>
    obtain ⟨state, found, right⟩ := ih
    obtain ⟨edges, flow, covered⟩ := solved point state found
    obtain ⟨out, edge, right'⟩ := sound point state edges c after d flow right taken
    obtain ⟨known, found', le⟩ := covered after out edge
    exact ⟨known, found', mono out known d le right'⟩

end System

/-! ### States of facts -/

section Facts

variable {φ : Type} (d : Domain φ)

theorem weight_zipWith_le (known incoming : List φ) :
    ((List.zipWith d.merge known incoming).map d.weight).sum ≤ (known.map d.weight).sum := by
  induction known generalizing incoming with
  | nil => exact Nat.le_refl _
  | cons k known ih =>
    cases incoming with
    | nil => exact Nat.zero_le _
    | cons i incoming =>
      have rest := ih incoming
      simp only [List.zipWith_cons_cons, List.map_cons, List.sum_cons]
      by_cases same : d.merge k i = k
      · rw [same]
        omega
      · have := d.lighter k i same
        omega

theorem weight_zipWith_lt {known incoming : List φ} (length : known.length = incoming.length)
    (differs : List.zipWith d.merge known incoming ≠ known) :
    ((List.zipWith d.merge known incoming).map d.weight).sum < (known.map d.weight).sum := by
  induction known generalizing incoming with
  | nil => exact absurd rfl differs
  | cons k known ih =>
    cases incoming with
    | nil => cases length
    | cons i incoming =>
      simp only [List.zipWith_cons_cons, List.map_cons, List.sum_cons]
      have rest := weight_zipWith_le d known incoming
      by_cases same : d.merge k i = k
      · have tail : List.zipWith d.merge known incoming ≠ known := by
          intro eq
          exact differs (by rw [List.zipWith_cons_cons, same, eq])
        have := ih (Nat.succ.inj length) tail
        rw [same]
        omega
      · have := d.lighter k i same
        omega

/-- A vector is merged fact by fact. -/
def Domain.vector (n : Nat) : Domain (Vector φ n) where
  merge := Vector.zipWith d.merge
  weight v := (v.toList.map d.weight).sum
  lighter known incoming differs := by
    have lists : (Vector.zipWith d.merge known incoming).toList =
        List.zipWith d.merge known.toList incoming.toList := Vector.toList_zipWith
    rw [lists]
    refine weight_zipWith_lt d ?_ fun same => differs ?_
    · rw [Vector.length_toList, Vector.length_toList]
    · exact Vector.toList_inj.mp (lists.trans same)

/-- A vector allows what its facts allow. -/
def Pointwise (le : φ → φ → Prop) {n : Nat} (a b : Vector φ n) : Prop :=
  ∀ i (inside : i < n), le a[i] b[i]

theorem Domain.Order.vector {d : Domain φ} {le : φ → φ → Prop} (order : d.Order le) (n : Nat) :
    (d.vector n).Order (Pointwise le) where
  refl s i inside := order.refl s[i]
  trans first second i inside := order.trans (first i inside) (second i inside)
  left known incoming i inside := by
    change le known[i] (Vector.zipWith d.merge known incoming)[i]
    rw [Vector.getElem_zipWith]
    exact order.left _ _
  right known incoming i inside := by
    change le incoming[i] (Vector.zipWith d.merge known incoming)[i]
    rw [Vector.getElem_zipWith]
    exact order.right _ _

end Facts

end Dataflow
