import Tonic.Faces
import Tonic.Run

/-!
## Classes and their versions

A class knows its ancestors, which never change, and its live descendants, whose versions move on
with its own. What a lookup in a class can see is settled by the version of that class.
-/

namespace Tonic

open Effect

namespace Heap

def face (h : Heap) (v : Value) : Option Face := (h.tryGet v).map (·.face)

variable {h t : Heap} {v w : Value} {c : ClassFace}

theorem face_eq_class : h.face v = some (.classObject c) ↔
    ∃ o : Class, h.tryGet v = some (.classObject o) ∧ o.face = c := by
  unfold face
  cases ho : h.tryGet v with
  | none => simp
  | some o => cases o <;> simp [Object.face]

theorem face_eq_builtin {b : Builtin} : h.face v = some (.builtin b) ↔
    h.tryGet v = some (.builtin b) := by
  unfold face
  cases ho : h.tryGet v with
  | none => simp
  | some o => cases o <;> simp [Object.face]

/-- Classes and namespaces as a lookup relies on them. -/
structure Lineage (h : Heap) : Prop where
  /-- An ancestor is as live as its descendants. -/
  ancestors : ∀ {v c}, h.face v = some (.classObject c) → ∀ a ∈ c.mro,
    ∃ b, h.face a = some (.classObject b)
  proper : ∀ {v c}, h.face v = some (.classObject c) → v ∉ c.mro
  dependents : ∀ {v c}, h.face v = some (.classObject c) → c.dependents.Nodup ∧
    ∀ w, w ∈ c.dependents ↔ ∃ d, h.face w = some (.classObject d) ∧ v ∈ d.mro
  namespaces : ∀ {v ds}, h.face v = some (.namespaceObject ds) → ds = []

/-- A class has the attributes it had, and the builtins among them are still there. -/
def SameAttributes (h t : Heap) (v : Value) : Prop :=
  ∃ b d, h.face v = some (.classObject b) ∧ t.face v = some (.classObject d) ∧
    d.attributes = b.attributes ∧ ∀ m ∈ b.attributes, ∀ f,
      h.face m.2 = some (.builtin f) → t.face m.2 = some (.builtin f)

/-- What a later heap keeps of an earlier one: as long as a class lives it keeps its ancestors, its
version never falls, and at the same version nothing on its lineage has changed. -/
structure Later (h t : Heap) : Prop where
  issued : ∀ {v}, h.Issued v → t.Issued v
  gone : ∀ {v}, h.Issued v → h.face v = none → t.face v = none
  shapes : h.shapes.nodes <+: t.shapes.nodes
  classes : ∀ {v c}, h.face v = some (.classObject c) → t.face v ≠ none →
    ∃ d, t.face v = some (.classObject d) ∧ d.mro = c.mro ∧ c.version ≤ d.version ∧
      (d.version = c.version → ∀ a ∈ v :: c.mro, h.SameAttributes t a)

theorem issued_of_face (hv : h.Valid) {f : Face} (found : h.face v = some f) : h.Issued v := by
  refine HeapState.issued_of_resolves hv ?_
  obtain ⟨o, ho, -⟩ := Option.map_eq_some_iff.mp found
  simp [ho]

theorem SameAttributes.refl (found : h.face v = some (.classObject c)) : h.SameAttributes h v :=
  ⟨c, c, found, found, rfl, fun _ _ _ => id⟩

theorem SameAttributes.trans {u : Heap} (ht : h.SameAttributes t v) (tu : t.SameAttributes u v) :
    h.SameAttributes u v := by
  obtain ⟨b, d, hb, hd, same, keep⟩ := ht
  obtain ⟨b', d', hb', hd', same', keep'⟩ := tu
  rw [hd] at hb'
  cases hb'
  refine ⟨b, d', hb, hd', same'.trans same, fun m hm f hf => ?_⟩
  exact keep' m (same ▸ hm) f (keep m hm f hf)

theorem Lineage.sameAttributes (lineage : h.Lineage) (found : h.face v = some (.classObject c)) :
    ∀ a ∈ v :: c.mro, h.SameAttributes h a := by
  intro a ha
  rcases List.mem_cons.mp ha with rfl | ha
  · exact .refl found
  · obtain ⟨b, hb⟩ := lineage.ancestors found a ha
    exact .refl hb

theorem Later.refl (lineage : h.Lineage) : h.Later h :=
  ⟨id, fun _ => id, List.prefix_refl _, fun found _ =>
    ⟨_, found, rfl, Nat.le_refl _, fun _ => lineage.sameAttributes found⟩⟩

theorem Later.trans {u : Heap} (hv : h.Valid) (ht : h.Later t) (tu : t.Later u) : h.Later u where
  issued hi := tu.issued (ht.issued hi)
  gone hi none := tu.gone (ht.issued hi) (ht.gone hi none)
  shapes := ht.shapes.trans tu.shapes
  classes {v c} found live := by
    have issued := issued_of_face hv found
    have between : t.face v ≠ none := fun none => live (tu.gone (ht.issued issued) none)
    obtain ⟨d, hd, mro, le, same⟩ := ht.classes found between
    obtain ⟨e, he, mro', le', same'⟩ := tu.classes hd live
    refine ⟨e, he, mro'.trans mro, Nat.le_trans le le', fun eq a ha => ?_⟩
    exact (same (by omega) a ha).trans (same' (by omega) a (by rwa [mro]))

/-- A change of the heap that makes no class, and bumps every class below one that it edits. -/
structure Revises (h t : Heap) : Prop where
  issued : ∀ {v}, h.Issued v → t.Issued v
  gone : ∀ {v}, h.Issued v → h.face v = none → t.face v = none
  shapes : h.shapes.nodes <+: t.shapes.nodes
  classes : ∀ {v c}, h.face v = some (.classObject c) →
    ∃ d, t.face v = some (.classObject d) ∧ d.mro = c.mro ∧ d.dependents = c.dependents ∧
      c.version ≤ d.version ∧ (d.version = c.version → ∀ a ∈ v :: c.mro,
        ∃ b e, h.face a = some (.classObject b) ∧ t.face a = some (.classObject e) ∧
          e.attributes = b.attributes)
  back : ∀ {v d}, t.face v = some (.classObject d) → ∃ c, h.face v = some (.classObject c)
  namespaces : ∀ {v ds}, t.face v = some (.namespaceObject ds) →
    h.face v = some (.namespaceObject ds) ∨ ds = []
  builtins : ∀ {v b}, h.face v = some (.builtin b) → t.face v = some (.builtin b)

theorem Revises.later (r : h.Revises t) : h.Later t where
  issued := r.issued
  gone := r.gone
  shapes := r.shapes
  classes found _ := by
    obtain ⟨d, hd, mro, -, le, same⟩ := r.classes found
    refine ⟨d, hd, mro, le, fun eq a ha => ?_⟩
    obtain ⟨b, e, hb, he, attributes⟩ := same eq a ha
    exact ⟨b, e, hb, he, attributes, fun _ _ _ => r.builtins⟩

theorem Revises.lineage (r : h.Revises t) (lineage : h.Lineage) : t.Lineage := by
  have before {v d} (found : t.face v = some (.classObject d)) :
      ∃ c, h.face v = some (.classObject c) ∧ d.mro = c.mro ∧ d.dependents = c.dependents := by
    obtain ⟨c, hc⟩ := r.back found
    obtain ⟨d', hd', mro, dependents, -⟩ := r.classes hc
    rw [found] at hd'
    cases hd'
    exact ⟨c, hc, mro, dependents⟩
  refine ⟨fun found a ha => ?_, fun found => ?_, fun {v d} found => ?_, fun {v ds} found => ?_⟩
  · obtain ⟨c, hc, mro, -⟩ := before found
    obtain ⟨b, hb⟩ := lineage.ancestors hc a (mro ▸ ha)
    obtain ⟨e, he, -⟩ := r.classes hb
    exact ⟨e, he⟩
  · obtain ⟨c, hc, mro, -⟩ := before found
    exact mro ▸ lineage.proper hc
  · obtain ⟨c, hc, -, dependents⟩ := before found
    obtain ⟨nodup, iff⟩ := lineage.dependents hc
    rw [dependents]
    refine ⟨nodup, fun w => (iff w).trans ⟨?_, ?_⟩⟩
    · rintro ⟨e, he, mem⟩
      obtain ⟨e', he', mro, -⟩ := r.classes he
      exact ⟨e', he', mro ▸ mem⟩
    · rintro ⟨e', he', mem⟩
      obtain ⟨e, he, mro, -⟩ := before he'
      exact ⟨e, he, mro ▸ mem⟩
  · rcases r.namespaces found with old | new
    · exact lineage.namespaces old
    · exact new

/-- What a mutation does to the classes, given that they were in order. -/
def Carries (h t : Heap) : Prop := After h t ∧ (h.Lineage → t.Lineage ∧ h.Later t)

theorem Carries.refl (hs : Sound h) : h.Carries h :=
  ⟨hs.after, fun lineage => ⟨lineage, .refl lineage⟩⟩

theorem Carries.trans {u : Heap} (hv : h.Valid) (ht : h.Carries t) (tu : t.Carries u) :
    h.Carries u := by
  refine ⟨ht.1.trans tu.1, fun lineage => ?_⟩
  obtain ⟨between, later⟩ := ht.2 lineage
  obtain ⟨end_, later'⟩ := tu.2 between
  exact ⟨end_, later.trans hv later'⟩

theorem Revises.carries (after : After h t) (r : h.Revises t) : h.Carries t :=
  ⟨after, fun lineage => ⟨r.lineage lineage, r.later⟩⟩

/-! ### Mutations that show nothing -/

theorem face_eq (h : Heap) (v : Value) : h.face v = (h.location v).bind (h.faces[·]?) := by
  unfold face tryGet entry faces
  cases h.location v with
  | none => rfl
  | some l => simp [List.getElem?_map, Function.comp_def]

/-- A handle that was not handed out before leads to a new object. -/
theorem location_new (hv : h.Valid) (after : After h t) (new : ¬ h.Issued v) {l : Nat}
    (located : t.location v = some l) : h.objects.length ≤ l := by
  by_contra short
  have bound : l < h.objects.length := by omega
  have stored := List.getElem?_eq_getElem bound
  have at_l := location_handle hv stored
  have issued : h.Issued (h.handle h.objects[l]) :=
    HeapState.issued_of_resolves hv (by simp [tryGet, entry_eq_some.mpr ⟨l, at_l, stored⟩])
  refine new (after.1.valid.distinct located ?_ ▸ issued)
  rw [after.2.location issued, at_l]

theorem Keeps.face (keeps : h.Keeps t) (hv : h.Valid) (after : After h t) (issued : h.Issued v) :
    t.face v = h.face v := by
  obtain ⟨fresh, faces, -⟩ := keeps.faces
  rw [face_eq, face_eq, after.2.location issued]
  cases located : h.location v with
  | none => rfl
  | some l =>
    obtain ⟨i, slot, -, hi, at_l⟩ := location_eq_some.mp located
    obtain ⟨e, stored, -⟩ := hv.located hi at_l
    have bound : l < h.faces.length := by
      simpa [Heap.faces] using (List.getElem?_eq_some_iff.mp stored).1
    simp [faces, List.getElem?_append_left bound]

theorem Keeps.fresh (keeps : h.Keeps t) (hv : h.Valid) (after : After h t) (new : ¬ h.Issued v)
    {f : Face} (found : t.face v = some f) : f.Fresh := by
  obtain ⟨fresh, faces, ok⟩ := keeps.faces
  rw [face_eq, Option.bind_eq_some_iff] at found
  obtain ⟨l, located, stored⟩ := found
  have bound : h.faces.length ≤ l := by
    simpa [Heap.faces] using location_new hv after new located
  rw [faces, List.getElem?_append_right bound] at stored
  exact ok f (List.mem_of_getElem? stored)

theorem Keeps.revises (keeps : h.Keeps t) (hv : h.Valid) (after : After h t)
    (lineage : h.Lineage) : h.Revises t := by
  have old {v f} (found : h.face v = some f) : t.face v = some f :=
    (keeps.face hv after (issued_of_face hv found)).trans found
  refine ⟨fun hi => after.2.issued hi, fun hi none => ?_, ?_, fun found => ?_, fun {v d} found => ?_,
    fun {v ds} found => ?_, old⟩
  · rw [keeps.face hv after hi, none]
  · rw [keeps.shapes]
  · refine ⟨_, old found, rfl, rfl, Nat.le_refl _, fun _ a ha => ?_⟩
    obtain ⟨b, -, hb, -⟩ := lineage.sameAttributes found a ha
    exact ⟨b, b, hb, old hb, rfl⟩
  · by_cases hi : h.Issued v
    · rw [keeps.face hv after hi] at found
      exact ⟨d, found⟩
    · exact (keeps.fresh hv after hi found).elim
  · by_cases hi : h.Issued v
    · rw [keeps.face hv after hi] at found
      exact .inl found
    · exact .inr (keeps.fresh hv after hi found)

theorem Keeps.carries (keeps : h.Keeps t) (hv : h.Valid) (after : After h t) : h.Carries t :=
  ⟨after, fun lineage =>
    have r := keeps.revises hv after lineage
    ⟨r.lineage lineage, r.later⟩⟩

end Heap

end Tonic
