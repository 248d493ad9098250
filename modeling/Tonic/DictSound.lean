import Tonic.Dict
import Tonic.Storage

/-!
## Container mutations and the remembered set
-/

namespace Tonic

open Effect

theorem mem_pairs {entries : List (Value × Value)} {v : Value} :
    v ∈ pairs entries ↔ ∃ entry ∈ entries, v = entry.1 ∨ v = entry.2 := by
  simp [pairs]

namespace Dict

theorem mem_replaceValue {d : Dict} {i : Nat} {value : Value} {entry : Value × Value}
    (h : entry ∈ (d.replaceValue i value).entries) :
    ∃ old ∈ d.entries, entry.1 = old.1 ∧ (entry.2 = old.2 ∨ entry.2 = value) := by
  obtain ⟨k, hk⟩ := List.mem_iff_getElem?.mp h
  simp only [replaceValue, List.getElem?_modify] at hk
  cases old : d.entries[k]? with
  | none => simp [old] at hk
  | some before =>
    rw [old] at hk
    simp only [Option.map_eq_map, Option.map_some, Option.some.injEq] at hk
    refine ⟨before, List.mem_of_getElem? old, ?_⟩
    split at hk <;> subst hk <;> simp

theorem mem_removeAt {d d' : Dict} {i : Nat} (h : d.removeAt i = .ok d')
    {entry : Value × Value} (he : entry ∈ d'.entries) : entry ∈ d.entries := by
  unfold removeAt at h
  cases hh : d.hashes[i]? with
  | none => simp [hh, throw, throwThe, MonadExceptOf.throw] at h
  | some hash =>
    cases hb : d.index.lookup hash with
    | none => simp [hh, hb, throw, throwThe, MonadExceptOf.throw] at h
    | some bucket =>
      simp only [hh, hb, pure, Except.pure, bind, Except.bind] at h
      split at h
      · cases h
      · cases h
        exact List.mem_of_mem_eraseIdx he

end Dict

namespace Heap

variable {h h₀ : Heap} {owner key value : Value} {Q : Dict → Heap → Prop} {E : Heap → Prop}

theorem wp_expectDict (failed : E h) (ok : ∀ d, h.tryGet owner = some (.dict d) → Q d h) :
    wp (expectDict owner) Q E h := by
  simp only [expectDict, wp_bind]
  refine wp_getObject failed fun o ho => ?_
  split
  · exact ok _ ho
  · exact failed

theorem wp_nextEpoch {name : String} {n : Nat} {Q : Nat → Heap → Prop} (failed : E h)
    (ok : ∀ m, Q m h) : wp (nextEpoch name n) Q E h := by
  unfold nextEpoch
  split
  · exact ok _
  · exact failed

/-- The heap after the barriers of a key and a value. -/
theorem barrierPair (hs : Sound h) (hk : h.Issued key) (hv : h.Issued value) :
    let t := (h.writeBarrier owner key).writeBarrier owner value
    After h t ∧ (∀ v ∈ [key, value], t.Issued v) ∧ ∀ v ∈ [key, value], t.Covered owner v := by
  have first := hs.writeBarrier owner key
  refine ⟨first.trans (first.1.writeBarrier owner value), ?_, ?_⟩
  · simp [hk, hv]
  · simp only [List.mem_cons, List.not_mem_nil, or_false, forall_eq_or_imp, forall_eq]
    exact ⟨(covered_writeBarrier h owner key).writeBarrier _ _, covered_writeBarrier _ _ _⟩

theorem ancestors_hashed {o : Object} {d : Dict} {wrap : Dict → Object}
    (ho : o.hashed = some (d, wrap)) (d' : Dict) : (wrap d').ancestors = [] := by
  unfold Object.hashed at ho
  split at ho <;> cases ho <;> rfl

section Entries

variable {d : Dict} {i hash : Nat} {material : Key} {version mutationVersion : Nat}

/-- An entry store brings in its key and value only, in a dictionary and in a set. -/
theorem trace_replaceValue {o : Object} {wrap : Dict → Object} (ho : o.hashed = some (d, wrap)) :
    ∀ v ∈ (wrap { d.replaceValue i value with mutationVersion }).trace,
      v ∈ o.trace ∨ v ∈ [key, value] := by
  intro v hv
  unfold Object.hashed at ho
  split at ho <;> cases ho
  · obtain ⟨entry, he, eq⟩ := mem_pairs.mp hv
    obtain ⟨old, mem, first, second⟩ := Dict.mem_replaceValue he
    rcases eq with rfl | rfl
    · exact .inl (mem_pairs.mpr ⟨old, mem, .inl first⟩)
    · rcases second with second | second
      · exact .inl (mem_pairs.mpr ⟨old, mem, .inr second⟩)
      · exact .inr (by simp [second])
  · obtain ⟨entry, he, rfl⟩ := List.mem_map.mp hv
    obtain ⟨old, mem, first, -⟩ := Dict.mem_replaceValue he
    exact .inl (List.mem_map.mpr ⟨old, mem, first.symm⟩)

theorem trace_append {o : Object} {wrap : Dict → Object} (ho : o.hashed = some (d, wrap)) :
    ∀ v ∈ (wrap { d.append hash material key value with version, mutationVersion }).trace,
      v ∈ o.trace ∨ v ∈ [key, value] := by
  intro v hv
  unfold Object.hashed at ho
  split at ho <;> cases ho
  · obtain ⟨entry, he, eq⟩ := mem_pairs.mp hv
    rcases List.mem_append.mp he with old | new
    · exact .inl (mem_pairs.mpr ⟨entry, old, eq⟩)
    · cases List.mem_singleton.mp new
      exact .inr (by simpa using eq)
  · obtain ⟨entry, he, rfl⟩ := List.mem_map.mp hv
    rcases List.mem_append.mp he with old | new
    · exact .inl (List.mem_map.mpr ⟨entry, old, rfl⟩)
    · cases List.mem_singleton.mp new
      exact .inr (by simp)

end Entries

theorem dictSet_after [HostLibrary] (hs : Sound h) (hk : h.Issued key) (hv : h.Issued value) :
    wp (dictSet owner key value) (fun _ => After h) (After h) h := by
  simp only [dictSet, wp_bind, wp_nativeValue]
  refine wp_reading_intro hs.after fun material _ => ?_
  obtain ⟨base, issued, covered⟩ := barrierPair hs hk hv
  refine wp_expectDict base fun d hd => wp_nextEpoch base fun m => ?_
  have safe {d'} (new : ∀ v ∈ (Object.dict d').trace, v ∈ (Object.dict d).trace ∨
      v ∈ [key, value]) := Replaces.store issued covered new (by simp [Object.ancestors])
  split
  · exact wp_setObject_last base hd (safe (trace_replaceValue rfl))
  · rw [wp_bind]
    exact wp_nextEpoch base fun n => wp_setObject_last base hd (safe (trace_append rfl))

theorem dictSetStr_after [HostLibrary] {name : String} (hs : Sound h) (hv : h.Issued value) :
    wp (dictSetStr owner name value) (fun _ => After h) (After h) h := by
  simp only [dictSetStr, wp_bind]
  refine wp_mono (wp_alloc hs (by simp [Object.trace])) ?_ fun _ => id
  rintro k t ⟨base, -, hk, -⟩
  exact wp_call base (dictSet_after base.1 hk (base.2.issued hv))

theorem hashSetHashed_after {hash : Int} {found : Option Nat} (hs : Sound h)
    (hk : h.Issued key) (hv : h.Issued value) :
    wp (hashSetHashed owner key value hash found) (fun _ => After h) (After h) h := by
  simp only [hashSetHashed, wp_bind, wp_nativeValue]
  refine wp_reading_intro hs.after fun material _ => ?_
  obtain ⟨base, issued, covered⟩ := barrierPair hs hk hv
  refine wp_getObject base fun o ho => ?_
  cases hashed : o.hashed with
  | none => exact base
  | some view =>
    obtain ⟨d, wrap⟩ := view
    rw [wp_bind]
    refine wp_nextEpoch base fun m => ?_
    have safe {d'} (new : ∀ v ∈ (wrap d').trace, v ∈ o.trace ∨ v ∈ [key, value]) :=
      Replaces.store issued covered new (by simp [ancestors_hashed hashed])
    cases found with
    | some i =>
      simp only
      split
      · exact base
      · exact wp_setObject_last base ho (safe (trace_replaceValue hashed))
    | none =>
      rw [wp_bind]
      exact wp_nextEpoch base fun n =>
        wp_setObject_last base ho (safe (trace_append hashed))

theorem Replaces.entries {d₁ d₂ : Dict} (sub : ∀ entry ∈ d₂.entries, entry ∈ d₁.entries) :
    Replaces h owner (.dict d₁) (.dict d₂) := by
  refine .shrink (fun v hv => ?_) (by simp [Object.ancestors])
  obtain ⟨entry, he, eq⟩ := mem_pairs.mp hv
  exact mem_pairs.mpr ⟨entry, sub entry he, eq⟩

/-- Every stage of a removal stores entries that were there before. -/
theorem commitRemoval_after {d d' : Dict} (base : After h₀ h)
    (hd : h.tryGet owner = some (.dict d)) (sub : ∀ entry ∈ d'.entries, entry ∈ d.entries) :
    wp (commitRemoval owner d') (fun _ => After h₀) (After h₀) h := by
  simp only [commitRemoval, wp_bind]
  refine wp_mono (wp_setObject base hd (.entries sub)) ?_ fun _ => id
  rintro _ t ⟨base, hd⟩
  refine wp_nextEpoch base fun n => ?_
  refine wp_mono (wp_setObject base hd (.entries fun _ => id)) ?_ fun _ => id
  rintro _ t ⟨base, hd⟩
  exact wp_nextEpoch base fun m => wp_setObject_last base hd (.entries fun _ => id)

theorem dictDelete_after [HostLibrary] (hs : Sound h) :
    wp (dictDelete owner key) (fun _ => After h) (After h) h := by
  simp only [dictDelete, wp_bind, wp_nativeValue]
  refine wp_reading_intro hs.after fun material _ => ?_
  refine wp_expectDict hs.after fun d hd => ?_
  split
  · rw [wp_bind]
    exact wp_reading_intro hs.after fun _ _ => hs.after
  · rw [wp_bind]
    refine wp_reading_intro hs.after fun d' removed => ?_
    exact commitRemoval_after hs.after hd fun entry => Dict.mem_removeAt removed

theorem dictDeleteAt_after {i : Nat} (hs : Sound h) :
    wp (dictDeleteAt owner i) (fun _ => After h) (After h) h := by
  simp only [dictDeleteAt, wp_bind, wp_nativeValue]
  refine wp_expectDict hs.after fun d hd => ?_
  split
  · exact hs.after
  · rw [wp_bind]
    refine wp_reading_intro hs.after fun d' removed => ?_
    exact commitRemoval_after hs.after hd fun entry => Dict.mem_removeAt removed

theorem dictClear_after (hs : Sound h) :
    wp (dictClear owner) (fun _ => After h) (After h) h := by
  simp only [dictClear, wp_bind, wp_nativeValue]
  exact wp_expectDict hs.after fun d hd => commitRemoval_after hs.after hd (by simp)

/-- A traced entry of a dictionary was handed out. -/
theorem Valid.issued_entry {d : Dict} (hv : h.Valid) (hd : h.tryGet owner = some (.dict d))
    {entry : Value × Value} (he : entry ∈ d.entries) : h.Issued entry.1 ∧ h.Issued entry.2 :=
  ⟨hv.issued_trace hd (mem_pairs.mpr ⟨entry, he, .inl rfl⟩),
    hv.issued_trace hd (mem_pairs.mpr ⟨entry, he, .inr rfl⟩)⟩

theorem dictMerge_after [HostLibrary] {other : Value} (hs : Sound h) :
    wp (dictMerge owner other) (fun _ => After h) (After h) h := by
  simp only [dictMerge, wp_bind, wp_nativeValue]
  refine wp_getObject hs.after fun o ho => ?_
  split
  · split
    · exact hs.after
    · refine wp_forM (P := After h) (fun i _ t base => ?_) hs.after
      rw [wp_bind]
      refine wp_getObject base fun o ho => ?_
      split
      · next d =>
        cases entry : d.entries[i]? with
        | none => exact base
        | some e =>
          have issued := base.1.valid.issued_entry ho (List.mem_of_getElem? entry)
          exact wp_call base (dictSet_after base.1 issued.1 issued.2)
      · exact base
  · exact hs.after

/-! ### Lists and items -/

theorem trace_listSet {values : List Value} {i : Nat} :
    ∀ v ∈ (Object.list (values.set i value)).trace, v ∈ (Object.list values).trace ∨
      v ∈ [value] := by
  intro v hv
  exact (List.mem_or_eq_of_mem_set hv).imp_right (by simp)

/-- The heap after the barrier of one value. -/
theorem barrierOne (hs : Sound h) (hv : h.Issued value) :
    After h (h.writeBarrier owner value) ∧ (∀ v ∈ [value], (h.writeBarrier owner value).Issued v) ∧
      ∀ v ∈ [value], (h.writeBarrier owner value).Covered owner v :=
  ⟨hs.writeBarrier owner value, by simpa using hv,
    by simpa using covered_writeBarrier h owner value⟩

theorem appendList_after (hs : Sound h) (hv : h.Issued value) :
    wp (appendList owner value) (fun _ => After h) (After h) h := by
  simp only [appendList, wp_bind, wp_nativeValue, wp_writeBarrier]
  obtain ⟨base, issued, covered⟩ := barrierOne hs hv
  refine wp_getObject base fun o ho => ?_
  split
  · refine wp_setObject_last base ho (.store issued covered (fun v hv => ?_)
      (by simp [Object.ancestors]))
    simpa [Object.trace] using hv
  · exact base

theorem replaceList_after {values : List Value} (hs : Sound h)
    (hv : ∀ v ∈ values, h.Issued v) :
    wp (replaceList owner values) (fun _ => After h) (After h) h := by
  simp only [replaceList, wp_bind, wp_nativeValue]
  refine wp_getObject hs.after fun o ho => ?_
  split
  · rw [wp_bind, wp_writeBarriers]
    refine wp_setObject_last hs.writeBarriers (by simpa using ho) (.store
      (by simpa using hv) (fun v => covered_writeBarriers) (fun v hv => .inr hv)
      (by simp [Object.ancestors]))
  · exact hs.after

theorem setItem_after [HostLibrary] (hs : Sound h) (hk : h.Issued key) (hv : h.Issued value) :
    wp (setItem owner key value) (fun _ => After h) (After h) h := by
  simp only [setItem, wp_bind, wp_nativeValue]
  refine wp_getObject hs.after fun o ho => ?_
  split
  · exact dictSet_after hs hk hv
  · exact hs.after
  · split
    · exact hs.after
    · simp only [wp_bind]
      refine wp_reading_intro hs.after fun i _ => wp_reading_intro hs.after fun x _ =>
        wp_reading_intro hs.after fun b _ => ?_
      exact wp_setObject_last hs.after ho (.shrink (by simp [Object.trace])
        (by simp [Object.ancestors]))
  · rw [wp_bind]
    refine wp_reading_intro hs.after fun raw _ => ?_
    split
    · exact hs.after
    · split
      · rw [wp_bind]
        refine wp_reading_intro hs.after fun i _ => ?_
        simp only [wp_bind, wp_writeBarrier]
        obtain ⟨base, issued, covered⟩ := barrierOne hs hv
        exact wp_setObject_last base (by simpa using ho)
          (.store issued covered trace_listSet (by simp [Object.ancestors]))
      · exact hs.after

theorem deleteItem_after [HostLibrary] (hs : Sound h) :
    wp (deleteItem owner key) (fun _ => After h) (After h) h := by
  simp only [deleteItem, wp_bind, wp_nativeValue]
  refine wp_getObject hs.after fun o ho => ?_
  split
  · exact dictDelete_after hs
  · exact hs.after
  · rw [wp_bind]
    refine wp_reading_intro hs.after fun raw _ => ?_
    split
    · exact hs.after
    · split
      · rw [wp_bind]
        refine wp_reading_intro hs.after fun i _ => ?_
        refine wp_setObject_last hs.after ho (.shrink (fun v hv => ?_)
          (by simp [Object.ancestors]))
        exact List.mem_of_mem_eraseIdx hv
      · exact hs.after

end Heap

end Tonic
