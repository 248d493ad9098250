import Mathlib.Data.List.Basic

/-!
# Reading a list that changes

A reader takes the keys of a list one by one, by position, while keys are added at the end and
taken out anywhere. What it read is compared with the keys that were there the whole time.
-/

namespace Cursor

variable {κ : Type*}

/-- One change of a list of keys. -/
inductive Edit [DecidableEq κ] : List κ → List κ → Prop where
  | none (keys : List κ) : Edit keys keys
  | insert {keys : List κ} {k : κ} (new : k ∉ keys) : Edit keys (keys ++ [k])
  | delete (keys : List κ) (k : κ) : Edit keys (keys.filter fun x => decide (x ≠ k))

/-- What is known of a reader: the keys when it started and now, those it read, those present all
the time, whether it still has each key it read, and whether the keys ever changed. -/
structure Reading (κ : Type*) where
  first : List κ
  keys : List κ
  yielded : List κ
  present : κ → Prop
  intact : Prop
  altered : Prop

namespace Reading

def start (keys : List κ) : Reading κ := ⟨keys, keys, [], (· ∈ keys), True, False⟩

def yields (r : Reading κ) (k : κ) : Reading κ := { r with yielded := r.yielded ++ [k] }

def change (r : Reading κ) (keys : List κ) : Reading κ :=
  { r with
    keys
    present := fun k => r.present k ∧ k ∈ keys
    intact := r.intact ∧ ∀ k ∈ r.yielded, k ∈ keys
    altered := r.altered ∨ keys ≠ r.keys }

open Classical in
/-- The keys of a list that were present all the time. -/
noncomputable def lasting (r : Reading κ) (keys : List κ) : List κ :=
  keys.filter fun k => decide (r.present k)

/-- The keys present all the time, each as often as at the start and in that order: some of them
have been read, and all of them once as many keys were read as there were. -/
structure Faithful (r : Reading κ) : Prop where
  order : r.lasting r.yielded <+: r.lasting r.first
  complete : r.first.length ≤ r.yielded.length → r.lasting r.yielded = r.lasting r.first

open Classical in
theorem lasting_change (r : Reading κ) (keys items : List κ) :
    (r.change keys).lasting items = (r.lasting items).filter fun k => decide (k ∈ keys) := by
  unfold lasting change
  rw [List.filter_filter]
  congr
  funext k
  simp [and_comm]

theorem Faithful.change {r : Reading κ} (faithful : r.Faithful) (keys : List κ) :
    (r.change keys).Faithful where
  order := by
    rw [lasting_change, lasting_change]
    exact faithful.order.filter _
  complete all := by
    rw [lasting_change, lasting_change]
    show List.filter _ (r.lasting r.yielded) = List.filter _ (r.lasting r.first)
    rw [faithful.complete all]

theorem Faithful.of_take {r : Reading κ} (read : r.yielded = r.first.take r.yielded.length) :
    r.Faithful where
  order := by
    rw [read]
    exact (List.take_prefix _ _).filter _
  complete all := by rw [read, List.take_of_length_le all]

/-- A reader by position: the keys present all the time kept their order, and what was read is the
part before the position as long as no key of it went away. -/
structure Positioned (r : Reading κ) : Prop where
  faithful : r.Faithful
  within : ∀ k, r.present k → k ∈ r.keys
  order : r.lasting r.keys = r.lasting r.first
  window : r.intact → r.keys.take r.yielded.length = r.yielded
  unaltered : ¬ r.altered → r.keys = r.first

theorem Positioned.start (keys : List κ) : (start keys).Positioned where
  faithful := .of_take rfl
  within _ := id
  order := rfl
  window _ := rfl
  unaltered _ := rfl

/-- A change leaves the keys present all the time in their order, and what is before the position
where it is, unless a key that was read goes away. -/
theorem Positioned.change [DecidableEq κ] {r : Reading κ} (positioned : r.Positioned) {keys : List κ}
    (edit : Edit r.keys keys) : (r.change keys).Positioned where
  faithful := positioned.faithful.change keys
  within _ := And.right
  order := by
    rw [lasting_change, lasting_change]
    show List.filter _ (r.lasting keys) = List.filter _ (r.lasting r.first)
    rw [← positioned.order]
    generalize was : r.keys = old at edit
    cases edit with
    | none => rfl
    | @insert k new =>
      have gone : ¬ r.present k := fun present => new (was ▸ positioned.within k present)
      simp [lasting, List.filter_append, gone]
    | delete k =>
      simp only [lasting, List.filter_filter]
      apply List.filter_congr
      intro x mem
      by_cases same : x = k <;> simp [same, mem]
  window := by
    rintro ⟨intact, kept⟩
    show keys.take r.yielded.length = r.yielded
    have window := positioned.window intact
    generalize r.keys = old at edit window
    cases edit with
    | none => exact window
    | @insert k new =>
      rw [List.take_append_of_le_length, window]
      have := congrArg List.length window
      rw [List.length_take] at this
      omega
    | delete k =>
      have apart : ∀ x ∈ r.yielded, x ≠ k := by
        intro x mem same
        have := kept x mem
        simp [same] at this
      obtain ⟨rest, split⟩ : ∃ rest, old = r.yielded ++ rest :=
        ⟨old.drop r.yielded.length, by
          nth_rw 1 [← window]
          exact (List.take_append_drop _ _).symm⟩
      rw [split, List.filter_append, List.filter_eq_self.mpr (by simpa using apart)]
      exact List.take_left
  unaltered same := by
    show keys = r.first
    rw [← positioned.unaltered fun altered => same (.inl altered)]
    by_contra differ
    exact same (.inr differ)

/-- Reading the key at the position. -/
theorem Positioned.yields {r : Reading κ} (positioned : r.Positioned) (intact : r.intact) {k : κ}
    (at' : r.keys[r.yielded.length]? = some k) (size : r.keys.length = r.first.length) :
    (r.yields k).Positioned := by
  have window : r.keys.take (r.yielded ++ [k]).length = r.yielded ++ [k] := by
    obtain ⟨inside, value⟩ := List.getElem?_eq_some_iff.mp at'
    rw [List.length_append, List.length_singleton, List.take_succ_eq_append_getElem inside, value,
      positioned.window intact]
  have read : r.lasting (r.yielded ++ [k]) <+: r.lasting r.first := by
    rw [← positioned.order, ← window]
    exact (List.take_prefix _ _).filter _
  refine ⟨⟨read, fun all => ?_⟩, positioned.within, positioned.order, fun _ => window,
    positioned.unaltered⟩
  show r.lasting (r.yielded ++ [k]) = r.lasting r.first
  rw [← positioned.order, ← window, List.take_of_length_le (size ▸ all)]

end Reading

end Cursor
