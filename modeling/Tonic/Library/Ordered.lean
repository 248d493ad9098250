import Mathlib.Data.List.Nodup

/-!
## Insertion-ordered stores

A list of entries in the order of their first insertion. An entry is found by its identity; it
keeps the key it was first stored under, and the value it was last given.
-/

namespace Ordered

variable {κ α β : Type*} [DecidableEq κ] {s : List (κ × α × β)} {m m' : κ} {a : α} {b : β} {i : Nat}

def keys (s : List (κ × α × β)) : List κ := s.map (·.1)

def get (m : κ) : List (κ × α × β) → Option (α × β)
  | [] => none
  | e :: s => if e.1 = m then some e.2 else get m s

def put (m : κ) (a : α) (b : β) : List (κ × α × β) → List (κ × α × β)
  | [] => [(m, a, b)]
  | e :: s => if e.1 = m then (m, e.2.1, b) :: s else e :: put m a b s

def erase (m : κ) : List (κ × α × β) → List (κ × α × β)
  | [] => []
  | e :: s => if e.1 = m then s else e :: erase m s

theorem get_eq_none : get m s = none ↔ m ∉ keys s := by
  induction s with
  | nil => simp [get, keys]
  | cons e s ih =>
    unfold get keys
    split
    · next same => simp [same]
    · next differ => simp [ih, keys, Ne.symm differ]

theorem keys_put : keys (put m a b s) = if m ∈ keys s then keys s else keys s ++ [m] := by
  induction s with
  | nil => simp [put, keys]
  | cons e s ih =>
    unfold put
    split
    · next same => simp [keys, same]
    · next differ =>
      have head : m ∈ keys (e :: s) ↔ m ∈ keys s := by simp [keys, Ne.symm differ]
      show e.1 :: keys (put m a b s) = _
      rw [ih]
      by_cases member : m ∈ keys s
      · rw [if_pos member, if_pos (head.mpr member)]
        rfl
      · rw [if_neg member, if_neg (mt head.mp member)]
        rfl

theorem keys_erase : keys (erase m s) = (keys s).erase m := by
  induction s with
  | nil => rfl
  | cons e s ih =>
    unfold erase
    split
    · next same => simp [keys, same]
    · next differ =>
      show e.1 :: keys (erase m s) = (e.1 :: keys s).erase m
      rw [ih, List.erase_cons_tail (by simpa using differ)]

theorem erase_of_absent (absent : m ∉ keys s) : erase m s = s := by
  induction s with
  | nil => rfl
  | cons e s ih =>
    rw [keys, List.map_cons, List.mem_cons, not_or] at absent
    unfold erase
    rw [if_neg (Ne.symm absent.1), ih absent.2]

theorem nodup_put (nodup : (keys s).Nodup) : (keys (put m a b s)).Nodup := by
  rw [keys_put]
  split
  · exact nodup
  · next absent =>
    exact nodup.append (List.nodup_singleton m) (by simpa [List.disjoint_singleton] using absent)

theorem nodup_erase (nodup : (keys s).Nodup) : (keys (erase m s)).Nodup := by
  rw [keys_erase]
  exact nodup.erase m

/-- A stored value is found under the key that was there first. -/
theorem get_put : get m' (put m a b s) =
    if m' = m then some (((get m s).map (·.1)).getD a, b) else get m' s := by
  induction s with
  | nil => simp [put, get, eq_comm]
  | cons e s ih =>
    unfold put
    split
    · next same =>
      subst same
      by_cases eq : m' = e.1
      · simp [get, eq]
      · simp [get, eq, Ne.symm eq]
    · next differ =>
      rw [get, ih, get, if_neg differ]
      by_cases eq : m' = m
      · simp [eq, differ]
      · simp [eq, get]

theorem get_erase (nodup : (keys s).Nodup) :
    get m' (erase m s) = if m' = m then none else get m' s := by
  induction s with
  | nil => simp [erase, get]
  | cons e s ih =>
    obtain ⟨absent, nodup⟩ := List.nodup_cons.mp nodup
    unfold erase
    split
    · next same =>
      subst same
      by_cases eq : m' = e.1
      · rw [if_pos eq, eq, get_eq_none]
        exact absent
      · simp [get, eq, Ne.symm eq]
    · next differ =>
      rw [get, ih nodup, get]
      by_cases eq : m' = m
      · simp [eq, differ]
      · simp [eq]

/-! ### The entries by their position -/

theorem get_of_position (at' : (keys s).idxOf? m = some i) : get m s = (s[i]?).map (·.2) := by
  induction s generalizing i with
  | nil => cases at'
  | cons e s ih =>
    rw [keys, List.map_cons, List.idxOf?_cons] at at'
    unfold get
    split at at'
    · next same =>
      cases at'
      simp [beq_iff_eq.mp same]
    · next differ =>
      obtain ⟨j, hj, rfl⟩ := Option.map_eq_some_iff.mp at'
      rw [if_neg (by simpa using differ), ih hj, List.getElem?_cons_succ]

theorem put_of_position (at' : (keys s).idxOf? m = some i) :
    put m a b s = s.modify i fun e => (e.1, e.2.1, b) := by
  induction s generalizing i with
  | nil => cases at'
  | cons e s ih =>
    rw [keys, List.map_cons, List.idxOf?_cons] at at'
    unfold put
    split at at'
    · next same =>
      cases at'
      rw [if_pos (beq_iff_eq.mp same), List.modify_zero_cons, beq_iff_eq.mp same]
    · next differ =>
      obtain ⟨j, hj, rfl⟩ := Option.map_eq_some_iff.mp at'
      rw [if_neg (by simpa using differ), ih hj, List.modify_succ_cons]

theorem put_of_absent (absent : (keys s).idxOf? m = none) : put m a b s = s ++ [(m, a, b)] := by
  induction s with
  | nil => rfl
  | cons e s ih =>
    have absent' := List.idxOf?_eq_none_iff.mp absent
    rw [keys, List.map_cons, List.mem_cons, not_or] at absent'
    unfold put
    rw [if_neg (Ne.symm absent'.1), ih (List.idxOf?_eq_none_iff.mpr absent'.2)]
    rfl

theorem erase_of_position (at' : (keys s).idxOf? m = some i) : erase m s = s.eraseIdx i := by
  induction s generalizing i with
  | nil => cases at'
  | cons e s ih =>
    rw [keys, List.map_cons, List.idxOf?_cons] at at'
    unfold erase
    split at at'
    · next same =>
      cases at'
      rw [if_pos (beq_iff_eq.mp same), List.eraseIdx_zero, List.tail_cons]
    · next differ =>
      obtain ⟨j, hj, rfl⟩ := Option.map_eq_some_iff.mp at'
      rw [if_neg (by simpa using differ), ih hj, List.eraseIdx_cons_succ]

/-- The positions with one more key at the end. -/
theorem idxOf?_concat {xs : List κ} {x : κ} (absent : x ∉ xs) (y : κ) :
    (xs ++ [x]).idxOf? y = if x = y then some xs.length else xs.idxOf? y := by
  have append : (xs ++ [x]).idxOf? y = (xs.idxOf? y).or (([x].idxOf? y).map (· + xs.length)) :=
    List.findIdx?_append
  rw [append, List.idxOf?_singleton]
  by_cases own : x = y
  · subst own
    rw [List.idxOf?_eq_none_iff.mpr absent]
    simp
  · simp [own]

/-! ### Histories -/

inductive Change (κ α β : Type*) where
  | put (m : κ) (a : α) (b : β)
  | erase (m : κ)
  | clear

namespace Change

def apply (s : List (κ × α × β)) : Change κ α β → List (κ × α × β)
  | put m a b => Ordered.put m a b s
  | erase m => Ordered.erase m s
  | clear => []

/-- What a change makes of the entry of one identity. -/
def on (m : κ) (found : Option (α × β)) : Change κ α β → Option (α × β)
  | put m' a b => if m = m' then some ((found.map (·.1)).getD a, b) else found
  | erase m' => if m = m' then none else found
  | clear => none

end Change

def replay (history : List (Change κ α β)) : List (κ × α × β) := history.foldl Change.apply []

/-- The value most recently stored under an identity and not erased since, with the key that was
stored first. -/
def latest (m : κ) (history : List (Change κ α β)) : Option (α × β) :=
  history.foldl (Change.on m) none

theorem nodup_apply (nodup : (keys s).Nodup) (c : Change κ α β) : (keys (c.apply s)).Nodup := by
  cases c with
  | put => exact nodup_put nodup
  | erase => exact nodup_erase nodup
  | clear => exact List.nodup_nil

theorem get_apply (nodup : (keys s).Nodup) (c : Change κ α β) :
    get m (c.apply s) = c.on m (get m s) := by
  cases c with
  | put m' a b =>
    show get m (put m' a b s) = if m = m' then _ else _
    rw [get_put]
    by_cases eq : m = m'
    · rw [if_pos eq, if_pos eq, eq]
    · rw [if_neg eq, if_neg eq]
  | erase m' => exact get_erase nodup
  | clear => rfl

theorem nodup_replay (history : List (Change κ α β)) : (keys (replay history)).Nodup := by
  have from' (history : List (Change κ α β)) (s) (nodup : (keys s).Nodup) :
      (keys (history.foldl Change.apply s)).Nodup := by
    induction history generalizing s with
    | nil => exact nodup
    | cons c history ih => exact ih _ (nodup_apply nodup c)
  exact from' history [] List.nodup_nil

theorem get_replay (history : List (Change κ α β)) : get m (replay history) = latest m history := by
  have from' (history : List (Change κ α β)) (s) (nodup : (keys s).Nodup) :
      get m (history.foldl Change.apply s) = history.foldl (Change.on m) (get m s) := by
    induction history generalizing s with
    | nil => rfl
    | cons c history ih =>
      rw [List.foldl_cons, List.foldl_cons, ih _ (nodup_apply nodup c), get_apply nodup]
  exact from' history [] List.nodup_nil

/-! ### Order -/

/-- What stays of a list is in its old order, and what is new comes behind it. -/
def Follows (old new : List α) : Prop := ∃ kept added, kept.Sublist old ∧ new = kept ++ added

theorem Follows.refl (xs : List α) : Follows xs xs := ⟨xs, [], .refl xs, by simp⟩

theorem follows_append (xs added : List α) : Follows xs (xs ++ added) := ⟨xs, added, .refl xs, rfl⟩

theorem follows_sublist {kept xs : List α} (sub : kept.Sublist xs) : Follows xs kept :=
  ⟨kept, [], sub, by simp⟩

theorem Follows.trans {xs ys zs : List α} (first : Follows xs ys) (second : Follows ys zs) :
    Follows xs zs := by
  obtain ⟨kept, added, sub, rfl⟩ := first
  obtain ⟨kept', added', sub', rfl⟩ := second
  obtain ⟨l, r, rfl, left, right⟩ := List.sublist_append_iff.mp sub'
  exact ⟨l, r ++ added', left.trans sub, by simp⟩

end Ordered
