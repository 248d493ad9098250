import Tonic.AttributeLayout
import Tonic.AttributeSet
import Tonic.Library.Outcome
import Tonic.ModuleMembers

/-!
## Failed stores and deletions

A store or a deletion that fails raises an exception and leaves every object as it was, with one
exception of its own: an object whose class would have it store attributes, without a place to
store them.
-/

namespace Tonic

open Effect Outcome

/-- A failure that a program sees, not one that ends it. -/
def Fault.Raised : Fault → Prop
  | .raised _ => True
  | .panicked _ => False

namespace Heap

variable {h t u : Heap} {owner value : Value} {name : String}

/-- Every object is what it was. -/
def Untouched (h t : Heap) : Prop := t.tryGet = h.tryGet ∧ t.shapes = h.shapes

theorem Untouched.refl (h : Heap) : h.Untouched h := ⟨rfl, rfl⟩

theorem Untouched.barrier (h : Heap) (owner value : Value) :
    h.Untouched (h.writeBarrier owner value) :=
  ⟨funext fun v => by simp, by simp⟩

/-! ### Lookups do not panic -/

theorem get_raises (v : Value) : FailsOnly Fault.Raised (h.get v) := by
  unfold Heap.get
  split
  · exact .ok _
  · cases v <;> exact .error trivial

theorem classOf_raises (v : Value) : FailsOnly Fault.Raised (h.classOf v) := by
  unfold Heap.classOf
  split
  · exact .ok _
  · exact .error trivial
  · next failed => exact .error (get_raises v _ failed)

theorem firstAttribute_raises (classes : List Value) :
    FailsOnly Fault.Raised (h.firstAttribute name classes) := by
  induction classes with
  | nil => exact .ok _
  | cons cls rest ih =>
    refine .bind (classOf_raises cls) fun c _ => ?_
    cases findMember name c.attributes with
    | some value => exact .ok _
    | none => exact ih

theorem classLookup_raises (cls : Value) : FailsOnly Fault.Raised (h.classLookup cls name) :=
  .bind (classOf_raises cls) fun _ _ => firstAttribute_raises _

theorem propertyFunction_raises (cls : Option Value) (what : String)
    (function : Option Value → Option Value → Option Value → Option Value) :
    FailsOnly Fault.Raised (h.propertyFunction cls name what function) := by
  cases cls with
  | none => exact .ok _
  | some cls =>
    refine .bind (classLookup_raises cls) fun found _ => ?_
    cases found with
    | none => exact .ok _
    | some value =>
      dsimp only
      split
      · split
        · exact .ok _
        · exact .error trivial
      · exact .ok _

theorem descriptorHook_raises (cls : Option Value) (hook other : String) :
    FailsOnly Fault.Raised (h.descriptorHook cls name hook other) := by
  cases cls with
  | none => exact .ok _
  | some cls =>
    refine .bind (classLookup_raises cls) fun found _ => ?_
    cases found with
    | none => exact .ok _
    | some descriptor =>
      dsimp only
      split
      · exact .ok _
      · refine .bind (classLookup_raises _) fun found _ => ?_
        cases found with
        | some f => exact .ok _
        | none =>
          refine .bind (classLookup_raises _) fun found _ => ?_
          exact .ite (fun _ => .error trivial) fun _ => .ok _

end Heap

theorem unsupportedHook_raises (name : String) :
    FailsOnly Fault.Raised (unsupportedHook name) :=
  .ite (fun _ => .error trivial) fun _ => .ok _

theorem nextClassVersion_raises (c : Class) : FailsOnly Fault.Raised (nextClassVersion c) :=
  .ite (fun _ => .ok _) fun _ => .error trivial

theorem classInvalidationTargets_raises (h : Heap) (owner : Value) :
    FailsOnly Fault.Raised (classInvalidationTargets h owner) := by
  refine .bind (Heap.get_raises owner) fun o _ => ?_
  cases o with
  | classObject c =>
    refine .bind (nextClassVersion_raises c) fun _ _ => ?_
    refine .bind ?_ fun _ _ => .ok _
    generalize c.dependents.filterMap _ = live
    induction live with
    | nil => exact .ok _
    | cons d live ih =>
      refine .bind ?_ fun _ _ => ih
      exact .bind (nextClassVersion_raises d.2) fun _ _ => .ok _
  | _ => exact .error trivial

/-! ### Computations that do no harm -/

section Harmless

variable {α β : Type} {h₀ h : Heap}

/-- A failure is an exception, and every object is what it was in `h₀`. -/
def Harmless (h₀ : Heap) (m : HeapM α) (h : Heap) : Prop :=
  ends m (fun _ _ => True) (fun e t => e.Raised ∧ h₀.Untouched t) h

theorem Harmless.fails {e : Fault} (raised : e.Raised) (same : h₀.Untouched h) :
    Harmless h₀ (throw e : HeapM α) h := ⟨raised, same⟩

theorem Harmless.reading {f : Heap → Except Fault α} {k : α → HeapM β} (same : h₀.Untouched h)
    (raises : FailsOnly Fault.Raised (f h)) (rest : ∀ a, f h = .ok a → Harmless h₀ (k a) h) :
    Harmless h₀ (reading f >>= k) h := by
  unfold Harmless at *
  rw [ends_bind, ends_reading]
  cases read : f h with
  | ok a => exact rest a read
  | error e => exact ⟨raises e read, same⟩

theorem Harmless.guard {c : Prop} [Decidable c] {e : Fault} {k : PUnit → HeapM β}
    (raised : e.Raised) (same : h₀.Untouched h) (rest : ¬c → Harmless h₀ (k ⟨⟩) h) :
    Harmless h₀ (if c then throw e >>= k else k ⟨⟩) h := by
  split
  · exact ⟨raised, same⟩
  · exact rest ‹_›

theorem Harmless.barrier {owner value : Value} {k : Unit → HeapM β}
    (rest : Harmless h₀ (k ()) (h.writeBarrier owner value)) :
    Harmless h₀ (Tonic.writeBarrier owner value >>= k) h := by
  unfold Harmless at *
  rw [ends_bind]
  exact rest

/-- What cannot fail does no harm. -/
theorem Harmless.of_wp {m : HeapM α} {Q : α → Heap → Prop} (total : wp m Q (fun _ => False) h) :
    Harmless h₀ m h := by
  unfold Harmless ends
  unfold wp at total
  cases ran : m h with
  | ok a t => trivial
  | error e t => rw [ran] at total; exact total.elim

theorem not_harmless {m : HeapM α} {reason : String} {t : Heap}
    (ran : m h = .error (.panicked reason) t) : ¬ Harmless h₀ m h := by
  intro harmless
  exact (ends_failed harmless ran).1

end Harmless

namespace Heap

variable {h : Heap} {owner value : Value} {name : String}

/-- The class of the object has it store attributes under the name, but the object has no place
for them. -/
def Untabled (h : Heap) (owner : Value) (name : String) : Prop :=
  ∃ o cls c, h.tryGet owner = some o ∧ o.instanceClass = some cls ∧ o.attributes = none ∧
    h.classOf cls = .ok c ∧ c.root = false ∧ layoutNames.contains name = false

theorem wp_store (distinct : h.Distinct) {o o' : Object} (found : h.tryGet owner = some o) :
    wp (setObject owner o') (fun _ _ => True) (fun _ => False) h :=
  wp_mono (wp_setObject_replaced distinct found) (fun _ _ _ => trivial) fun _ => id

/-! ### Stores -/

theorem addModuleMember_harmless (distinct : h.Distinct) :
    Harmless h (addModuleMember owner name value) h := by
  unfold addModuleMember
  apply Harmless.barrier
  apply Harmless.reading (.barrier ..) (get_raises _)
  intro o read
  cases o with
  | moduleObject members =>
    exact .of_wp (wp_store (distinct_writeBarrier distinct) (get_eq_ok read))
  | _ => exact .fails trivial (.barrier ..)

theorem setInstanceAttr_harmless {cls : Value} {o : Object} (distinct : h.Distinct)
    (found : h.tryGet owner = some o) (own : o.instanceClass = some cls)
    (tabled : ¬ h.Untabled owner name) :
    Harmless h (setInstanceAttr owner cls name value) h := by
  unfold setInstanceAttr
  apply Harmless.reading (.refl h) (classOf_raises _)
  intro c read
  refine .guard ⟨⟩ (.refl h) fun notRoot => ?_
  refine .guard ⟨⟩ (.refl h) fun plain => ?_
  apply Harmless.barrier
  apply Harmless.reading (.barrier ..) (get_raises _)
  intro o' read'
  have same : o' = o := by
    have := get_eq_ok read'
    rw [tryGet_writeBarrier, found] at this
    cases this
    rfl
  subst same
  cases table : o'.attributes with
  | none =>
    refine absurd ⟨o', cls, c, found, own, table, read, ?_, ?_⟩ tabled
    · simpa using notRoot
    · simpa using plain
  | some a =>
    cases set : a.set (h.writeBarrier owner value).shapes name value with
    | mk b shapes =>
      cases hb : o'.withAttributes b with
      | none => cases o' <;> cases table <;> cases hb
      | some o'' =>
        have stored := @wp_store { h.writeBarrier owner value with shapes } owner
          (distinct_writeBarrier distinct) _ o'' (get_eq_ok read')
        apply Harmless.of_wp (Q := fun _ _ => True)
        simp only [wp_bind, wp_get, set, wp_set, hb]
        exact stored

theorem setClassAttr_harmless (lineage : h.Lineage) (distinct : h.Distinct) :
    Harmless h (setClassAttr owner name value) h := by
  unfold setClassAttr
  apply Harmless.reading (.refl h) (unsupportedHook_raises name)
  intro _ _
  refine .guard ⟨⟩ (.refl h) fun _ => ?_
  apply Harmless.reading (.refl h) (get_raises _)
  intro o read
  cases o with
  | classObject c =>
    refine .guard ⟨⟩ (.refl h) fun _ => ?_
    apply Harmless.barrier
    apply Harmless.reading (.barrier ..) (classInvalidationTargets_raises _ _)
    intro targets ok
    obtain ⟨c, hc, rfl⟩ := classInvalidationTargets_ok lineage.writeBarrier ok
    have got : (h.writeBarrier owner value).get owner = .ok (.classObject c) := by
      simp only [Heap.get, hc]
    refine .of_wp (Q := fun _ _ => True) ?_
    simp only [getObject, wp_bind, wp_reading, got]
    refine wp_mono (wp_editClass lineage.writeBarrier (distinct_writeBarrier distinct) hc _ _)
      (fun _ s run => ?_) fun _ => id
    exact wp_mono run (fun _ _ _ => trivial) fun _ => id
  | _ => exact .fails trivial (.refl h)

theorem setAnnotations_harmless {f : Function} (distinct : h.Distinct)
    (found : h.tryGet owner = some (.function f)) :
    Harmless h (setAnnotations owner f value) h := by
  unfold setAnnotations
  split
  · exact .of_wp (wp_store distinct found)
  · refine .reading (f := fun h => .ok (h.tryGet value)) (.refl h) (.ok _) fun o read => ?_
    cases read
    split
    · apply Harmless.barrier
      exact .of_wp (wp_store (distinct_writeBarrier distinct) (by simpa using found))
    · exact .fails trivial (.refl h)

theorem setStopValue_harmless {e : Exception} (distinct : h.Distinct)
    (found : h.tryGet owner = some (.exception e)) :
    Harmless h (setStopValue owner e value) h := by
  unfold setStopValue
  apply Harmless.barrier
  exact .of_wp (wp_store (distinct_writeBarrier distinct) (by simpa using found))

theorem setPlainAttr_harmless (lineage : h.Lineage) (distinct : h.Distinct)
    (tabled : ¬ h.Untabled owner name) : Harmless h (setPlainAttr owner name value) h := by
  unfold setPlainAttr
  apply Harmless.reading (.refl h) (get_raises _)
  intro o read
  have found := get_eq_ok read
  cases own : o.instanceClass with
  | some cls => exact setInstanceAttr_harmless distinct found own tabled
  | none => exact setClassAttr_harmless lineage distinct

theorem setAttr_harmless (lineage : h.Lineage) (distinct : h.Distinct)
    (tabled : ¬ h.Untabled owner name) : Harmless h (setAttr owner name value) h := by
  have plain : Harmless h (setPlainAttr owner name value) h :=
    setPlainAttr_harmless lineage distinct tabled
  unfold setAttr
  refine .reading (f := fun h => .ok (h.tryGet owner)) (.refl h) (.ok _) fun o read => ?_
  simp only [Except.ok.injEq] at read
  split
  · exact addModuleMember_harmless distinct
  · split
    · exact setAnnotations_harmless distinct read
    · exact plain
  · split
    · exact setStopValue_harmless distinct read
    · exact plain
  · exact plain

/-! ### Deletions -/

theorem deleteModuleMember_harmless (distinct : h.Distinct) :
    Harmless h (deleteModuleMember owner name) h := by
  unfold deleteModuleMember
  apply Harmless.reading (.refl h) (get_raises _)
  intro o read
  cases o with
  | moduleObject members =>
    dsimp only
    split
    · exact .of_wp (wp_store distinct (get_eq_ok read))
    · exact .fails trivial (.refl h)
  | _ => exact .fails trivial (.refl h)

theorem deleteInstanceAttr_harmless {cls : Value} {o : Object} (distinct : h.Distinct)
    (found : h.tryGet owner = some o) (own : o.instanceClass = some cls)
    (tabled : ¬ h.Untabled owner name) : Harmless h (deleteInstanceAttr owner cls name) h := by
  unfold deleteInstanceAttr
  apply Harmless.reading (.refl h) (classOf_raises _)
  intro c read
  refine .guard ⟨⟩ (.refl h) fun plain => ?_
  apply Harmless.reading (.refl h) (get_raises _)
  intro o' read'
  have same : o' = o := by
    have := get_eq_ok read'
    rw [found] at this
    cases this
    rfl
  subst same
  simp only [Bool.or_eq_true, not_or, Bool.not_eq_true] at plain
  cases table : o'.attributes with
  | none => exact absurd ⟨o', cls, c, found, own, table, read, plain.1, plain.2⟩ tabled
  | some a =>
    dsimp only
    refine .reading (f := fun h => .ok h) (.refl h) (.ok _) fun _ same => ?_
    cases same
    cases deleted : a.delete h.shapes name with
    | none => exact .fails trivial (.refl h)
    | some kept =>
      cases hb : o'.withAttributes kept.2 with
      | none => cases o' <;> cases table <;> cases hb
      | some o'' =>
        dsimp only
        rw [hb]
        exact .of_wp (wp_store distinct found)

theorem deleteClassAttr_harmless (lineage : h.Lineage) (distinct : h.Distinct) :
    Harmless h (deleteClassAttr owner name) h := by
  unfold deleteClassAttr
  apply Harmless.reading (.refl h) (get_raises _)
  intro o read
  cases o with
  | classObject c =>
    refine .guard ⟨⟩ (.refl h) fun _ => ?_
    refine .guard ⟨⟩ (.refl h) fun _ => ?_
    apply Harmless.reading (.refl h) (classInvalidationTargets_raises _ _)
    intro targets ok
    obtain ⟨d, hd, rfl⟩ := classInvalidationTargets_ok lineage ok
    rw [get_eq_ok read] at hd
    cases hd
    refine .of_wp (Q := fun _ _ => True) ?_
    rw [wp_bind]
    refine wp_mono (wp_editClass lineage distinct (get_eq_ok read) _ _) (fun _ s run => ?_)
      fun _ => id
    exact wp_mono run (fun _ _ _ => trivial) fun _ => id
  | _ => exact .fails trivial (.refl h)

theorem deletePlainAttr_harmless (lineage : h.Lineage) (distinct : h.Distinct)
    (tabled : ¬ h.Untabled owner name) : Harmless h (deletePlainAttr owner name) h := by
  unfold deletePlainAttr
  apply Harmless.reading (.refl h) (get_raises _)
  intro o read
  have found := get_eq_ok read
  cases own : o.instanceClass with
  | some cls => exact deleteInstanceAttr_harmless distinct found own tabled
  | none => exact deleteClassAttr_harmless lineage distinct

theorem delAttr_harmless (lineage : h.Lineage) (distinct : h.Distinct)
    (tabled : ¬ h.Untabled owner name) : Harmless h (delAttr owner name) h := by
  have plain := deletePlainAttr_harmless lineage distinct tabled
  unfold delAttr
  refine .reading (f := fun h => .ok (h.tryGet owner)) (.refl h) (.ok _) fun o read => ?_
  simp only [Except.ok.injEq] at read
  split
  · exact deleteModuleMember_harmless distinct
  · split
    · exact .of_wp (wp_store distinct read)
    · exact plain
  · split
    · exact .of_wp (wp_store distinct read)
    · exact plain
  · exact plain

/-! ### Without a table -/

/-- A failure at the table that is not there. -/
def Panics {α : Type} (m : HeapM α) (h : Heap) : Prop :=
  ends m (fun _ _ => False) (fun e _ => e = unguarded) h

theorem Panics.not_harmless {α : Type} {m : HeapM α} {h₀ : Heap} (panics : Panics m h) :
    ¬ Harmless h₀ m h := by
  intro harmless
  unfold Panics ends at panics
  unfold Harmless ends at harmless
  cases ran : m h with
  | ok a t => rwa [ran] at panics
  | error e t =>
    rw [ran] at panics harmless
    rw [panics] at harmless
    exact harmless.1

/-- Such an object is no module, no function and no exception. -/
theorem mutated_plainly {o : Object} {cls : Value} (found : h.tryGet owner = some o)
    (own : o.instanceClass = some cls) (table : o.attributes = none) :
    setAttr owner name value h = setPlainAttr owner name value h ∧
      delAttr owner name h = deletePlainAttr owner name h := by
  have read : tryGetObject owner h = .ok (some o) h := by
    simp only [tryGetObject, Effect.reading, found]
  unfold setAttr delAttr
  rw [bind_ok read, bind_ok read]
  cases o with
  | moduleObject members => cases own
  | function f => cases own
  | exception e => cases table
  | _ => exact ⟨rfl, rfl⟩

theorem Untabled.setAttr_panics (untabled : h.Untabled owner name) :
    Panics (setAttr owner name value) h := by
  obtain ⟨o, cls, c, found, own, table, ofCls, notRoot, plain⟩ := untabled
  have got : h.get owner = .ok o := by simp [Heap.get, found]
  have got' : (h.writeBarrier owner value).get owner = .ok o := by simp [Heap.get, found]
  unfold Panics ends
  rw [(mutated_plainly found own table).1]
  change ends (setPlainAttr owner name value) (fun _ _ => False) (fun e _ => e = unguarded) h
  simp only [setPlainAttr, getObject, ends_bind, ends_reading, got, own, setInstanceAttr,
    Tonic.classOf, ofCls, notRoot, plain, Bool.false_eq_true, if_false]
  change ends (reading (·.get owner)) _ _ (h.writeBarrier owner value)
  rw [ends_reading, got']
  simp only [table]
  rfl

theorem Untabled.delAttr_panics (untabled : h.Untabled owner name) :
    Panics (delAttr owner name) h := by
  obtain ⟨o, cls, c, found, own, table, ofCls, notRoot, plain⟩ := untabled
  have got : h.get owner = .ok o := by simp [Heap.get, found]
  unfold Panics ends
  have plainly : delAttr owner name h = deletePlainAttr owner name h :=
    (@mutated_plainly _ _ .none name _ _ found own table).2
  rw [plainly]
  change ends (deletePlainAttr owner name) (fun _ _ => False) (fun e _ => e = unguarded) h
  simp only [deletePlainAttr, getObject, ends_bind, ends_reading, got, own, deleteInstanceAttr,
    Tonic.classOf, ofCls, notRoot, plain, Bool.or_self, Bool.false_eq_true, if_false, table]
  rfl

theorem setAttr_harmless_iff (lineage : h.Lineage) (distinct : h.Distinct) :
    Harmless h (setAttr owner name value) h ↔ ¬ h.Untabled owner name :=
  ⟨fun harmless untabled => untabled.setAttr_panics.not_harmless harmless,
    setAttr_harmless lineage distinct⟩

theorem delAttr_harmless_iff (lineage : h.Lineage) (distinct : h.Distinct) :
    Harmless h (delAttr owner name) h ↔ ¬ h.Untabled owner name :=
  ⟨fun harmless untabled => untabled.delAttr_panics.not_harmless harmless,
    delAttr_harmless lineage distinct⟩

end Heap

end Tonic
