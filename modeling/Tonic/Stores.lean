import Mathlib.Logic.Function.Basic
import Tonic.Storage

/-!
## Storing one object

A store, and an allocation, change what one value resolves to and nothing else.
-/

namespace Tonic

open Effect

namespace Heap

variable {h t : Heap} {owner v : Value} {o o' : Object}

theorem tryGet_store_eq (distinct : h.Distinct) {l : Nat} (hl : h.location owner = some l)
    (ho : h.tryGet owner = some o) :
    (h.store l o').tryGet = Function.update h.tryGet owner (some o') := by
  funext v
  rw [Function.update_apply]
  split
  · next eq =>
    subst eq
    exact tryGet_store hl ho
  · next ne =>
    simp only [tryGet, entry, location_store]
    cases hk : h.location v with
    | none => rfl
    | some k =>
      have apart : l ≠ k := fun eq => ne (distinct (eq ▸ hk) hl)
      simp [store, List.getElem?_modify, apart]

/-- The object of one handle is replaced; every other one stays. -/
def Stores (h t : Heap) (owner : Value) (o : Object) : Prop :=
  t.tryGet = Function.update h.tryGet owner (some o)

theorem wp_setObject_stores {Q : Unit → Heap → Prop} {E : Heap → Prop} (hv : h.Valid)
    (ho : h.tryGet owner = some o) (next : ∀ t, Stores h t owner o' → Q () t) :
    wp (setObject owner o') Q E h := by
  obtain ⟨e, he, -⟩ := tryGet_eq_some.mp ho
  obtain ⟨l, hl, -⟩ := entry_eq_some.mp he
  simp only [setObject, wp_bind, wp_get, hl, wp_set]
  exact next _ (tryGet_store_eq hv.distinct hl ho)

theorem Stores.of_same {h₀ : Heap} (same : h.tryGet = h₀.tryGet) (hs : Stores h t owner o) :
    Stores h₀ t owner o := by
  unfold Stores at *
  rw [hs, same]

theorem tryGet_barrier (owner v : Value) (h : Heap) :
    (h.writeBarrier owner v).tryGet = h.tryGet :=
  funext fun _ => tryGet_writeBarrier ..

/-! ### Allocation -/

theorem location_unissued (hv : h.Valid) (new : ¬ h.Issued v) : h.location v = none := by
  cases located : h.location v with
  | none => rfl
  | some l =>
    obtain ⟨i, s, rfl, hi, hl⟩ := location_eq_some.mp located
    refine absurd ⟨s, hi, .inr ⟨rfl, fun free => ?_⟩⟩ new
    obtain ⟨s', hi', none⟩ := hv.freed free
    rw [hi] at hi'
    cases hi'
    rw [hl] at none
    cases none

/-- The handle of a new object was never handed out, and no other handle is affected. -/
theorem wp_alloc_stores (hs : Sound h) (ho : ∀ v ∈ o.trace, h.Issued v) :
    wp (alloc o)
      (fun v t => After h t ∧ Stores h t v o ∧ ¬ h.Issued v ∧ t.Issued v)
      (fun t => After h t ∧ t = h) h := by
  have failed := wp_alloc_room (o := o) hs
  suffices stores : wp (alloc o)
      (fun v t => After h t ∧ Stores h t v o ∧ ¬ h.Issued v ∧ t.Issued v) (After h) h from
    wp_mono (wp_and failed stores) (fun _ _ => And.right) fun t ht => ⟨ht.2, ht.1.1⟩
  simp only [alloc, wp_bind]
  refine wp_mono (wp_allocSlot hs) ?_ fun _ => id
  rintro slot t ⟨s, taken⟩
  simp only [wp_get, taken.taken, wp_bind, wp_set, wp_pure]
  obtain ⟨after, same, entry, issued⟩ := taken.after hs ho
  refine ⟨after, ?_, fun old => Nat.lt_irrefl _ (taken.fresh _ old), issued⟩
  funext v
  rw [Function.update_apply]
  split
  · next eq =>
    subst eq
    simp only [tryGet, entry]
    rfl
  · next ne =>
    by_cases old : h.Issued v
    · simp only [tryGet, same v old]
    · cases v with
      | heap i g =>
        have location : ({ t with
            slots := t.slots.set slot { s with location := some t.objects.length }
            objects := t.objects ++ [⟨o, slot, true⟩] } : Heap).location (.heap i g) =
              h.location (.heap i g) := by
          by_cases eq : i = slot
          · subst eq
            have bound : i < t.slots.length := (List.getElem?_eq_some_iff.mp taken.taken).1
            have other : s.generation ≠ g := fun eq => ne (eq ▸ rfl)
            rw [taken.unused]
            simp [Heap.location, bound, other]
          · simp [Heap.location, List.getElem?_set_ne (Ne.symm eq), taken.other i eq]
        simp only [tryGet, Heap.entry, location, location_unissued hs.valid old, Option.bind_none]
      | _ => exact absurd trivial old

theorem tryGet_unissued (hv : h.Valid) (new : ¬ h.Issued v) : h.tryGet v = none := by
  simp [tryGet, entry, location_unissued hv new]

end Heap

end Tonic
