import Tonic.MutatorsSound
import Tonic.SourceModules
import Tonic.Stores

/-!
## Members of module objects

What an edit of one member leaves behind: that member, and nothing else, has changed.
-/

namespace Tonic

open Effect

/-! ### Lists of members -/

section Members

variable {name n : String} {value : Value} {members : List (String × Value)}

theorem findMember_cons {m : String × Value} :
    findMember name (m :: members) = if m.1 = name then some m.2 else findMember name members := by
  unfold findMember
  rw [List.find?_cons]
  by_cases eq : m.1 = name <;> simp [eq]

theorem findMember_setMember :
    findMember n (setMember name value members) =
      if n = name then some value else findMember n members := by
  induction members with
  | nil => simp [setMember, findMember_cons, eq_comm]
  | cons m rest ih =>
    simp only [setMember]
    split
    · next eq =>
      subst eq
      by_cases same : n = m.1
      · simp [findMember_cons, same]
      · simp [findMember_cons, same, Ne.symm same]
    · next ne =>
      rw [findMember_cons, findMember_cons, ih]
      by_cases same : n = name
      · subst same; simp [ne]
      · simp [same]

theorem names_setMember : (setMember name value members).map (·.1) =
    if name ∈ members.map (·.1) then members.map (·.1) else members.map (·.1) ++ [name] := by
  induction members with
  | nil => rfl
  | cons m rest ih =>
    simp only [setMember]
    split
    · next eq => simp [eq]
    · next ne =>
      rw [List.map_cons, ih, List.map_cons]
      have other : name ≠ m.1 := Ne.symm ne
      by_cases mem : name ∈ rest.map (·.1)
      · rw [if_pos mem, if_pos (List.mem_cons_of_mem _ mem)]
      · rw [if_neg mem, if_neg (by simp only [List.mem_cons, not_or]; exact ⟨other, mem⟩)]
        rfl

theorem nodup_setMember (distinct : (members.map (·.1)).Nodup) :
    ((setMember name value members).map (·.1)).Nodup := by
  rw [names_setMember]
  split
  · exact distinct
  · next new => simpa [List.nodup_append, distinct] using fun a b mem eq => new (by
      rw [← eq]; exact List.mem_map.mpr ⟨_, mem, rfl⟩)

theorem findMember_eq_none : findMember name members = none ↔ name ∉ members.map (·.1) := by
  induction members with
  | nil => simp [findMember]
  | cons m rest ih =>
    rw [findMember_cons, List.map_cons, List.mem_cons, not_or, ← ih]
    by_cases eq : m.1 = name
    · simp [eq]
    · simp [eq, Ne.symm eq]

theorem findMember_eraseP (distinct : (members.map (·.1)).Nodup) :
    findMember n (members.eraseP (·.1 = name)) =
      if n = name then none else findMember n members := by
  induction members with
  | nil => simp [findMember]
  | cons m rest ih =>
    rw [List.map_cons, List.nodup_cons] at distinct
    by_cases eq : m.1 = name
    · subst eq
      rw [List.eraseP_cons_of_pos (by simp), findMember_cons]
      by_cases same : n = m.1
      · subst same
        rw [if_pos rfl]
        exact findMember_eq_none.mpr distinct.1
      · rw [if_neg same, if_neg (Ne.symm same)]
    · rw [List.eraseP_cons_of_neg (by simpa using eq), findMember_cons, findMember_cons,
        ih distinct.2]
      by_cases same : n = name
      · subst same; simp [eq]
      · simp [same]

theorem findMember_filter (keep : String → Bool) :
    findMember n (members.filter fun m => keep m.1) =
      if keep n then findMember n members else none := by
  induction members with
  | nil => simp [findMember]
  | cons m rest ih =>
    by_cases kept : keep m.1
    · rw [List.filter_cons_of_pos (by simpa using kept), findMember_cons, findMember_cons, ih]
      by_cases same : m.1 = n
      · subst same; simp [kept]
      · simp [same]
    · rw [List.filter_cons_of_neg (by simpa using kept), findMember_cons, ih]
      by_cases same : m.1 = n
      · subst same; simp [kept]
      · simp [same]

theorem any_member : members.any (·.1 = name) = (findMember name members).isSome := by
  rw [findMember, Option.isSome_map, Bool.eq_iff_iff, List.any_eq_true, List.find?_isSome]

end Members

namespace Heap

variable {h t u : Heap} {owner v value : Value} {name n : String} {members : List (String × Value)}
  {o : Object} {r : Option Value}

/-- The member of a module object. -/
def member (h : Heap) (owner : Value) (name : String) : Option Value :=
  match h.tryGet owner with
  | some (.moduleObject members) => findMember name members
  | _ => none

def IsModule (h : Heap) (owner : Value) : Prop :=
  ∃ members, h.tryGet owner = some (.moduleObject members) ∧ (members.map (·.1)).Nodup

theorem member_of (ho : h.tryGet owner = some (.moduleObject members)) :
    h.member owner name = findMember name members := by
  unfold member
  rw [ho]

theorem member_congr (same : t.tryGet owner = h.tryGet owner) : t.member owner = h.member owner := by
  funext name
  unfold member
  rw [same]

theorem IsModule.congr (m : h.IsModule owner) (same : t.tryGet owner = h.tryGet owner) :
    t.IsModule owner := by
  obtain ⟨members, found, distinct⟩ := m
  exact ⟨members, same.trans found, distinct⟩

theorem IsModule.issued (m : h.IsModule owner) (hv : h.Valid) : h.Issued owner := by
  obtain ⟨members, found, -⟩ := m
  by_contra new
  rw [tryGet_unissued hv new] at found
  cases found

theorem issued_member (hv : h.Valid) (found : h.member owner name = some v) : h.Issued v := by
  unfold member at found
  split at found
  · next members ho =>
    refine hv.issued_trace ho ?_
    simp only [findMember, Option.map_eq_some_iff] at found
    obtain ⟨m, hm, rfl⟩ := found
    exact List.mem_map_of_mem (List.mem_of_find?_eq_some hm)
  · cases found

/-- Reading an attribute of a module reads a member. -/
theorem attr_module (m : h.IsModule owner) : attr owner name h =
    match h.member owner name with
    | some value => .ok value h
    | none => .error (missing name) h := by
  obtain ⟨members, found, -⟩ := m
  rw [member_of found]
  have read : (tryGetObject owner) h = .ok (some (.moduleObject members)) h := by
    simp only [tryGetObject, reading, found]
  unfold attr attrWithin
  rw [get_bind, bind_ok read]
  cases eq : findMember name members <;> simp only [eq] <;> rfl

theorem Stores.here (st : Stores h t owner o) : t.tryGet owner = some o := by
  rw [show t.tryGet = _ from st, Function.update_self]

theorem Stores.elsewhere (st : Stores h t owner o) (ne : v ≠ owner) : t.tryGet v = h.tryGet v := by
  rw [show t.tryGet = _ from st, Function.update_of_ne ne]

/-- One member of one module object has changed, to `r`. -/
structure MemberEdit (h t : Heap) (owner : Value) (name : String) (r : Option Value) : Prop where
  after : After h t
  room : t.room = h.room
  isModule : t.IsModule owner
  others : ∀ v, v ≠ owner → t.tryGet v = h.tryGet v
  member : ∀ n, t.member owner n = if n = name then r else h.member owner n

theorem MemberEdit.removed (edit : MemberEdit h t owner name none)
    (was : h.member owner name = some v) (n : String) : t.member owner n =
      if n = name ∧ h.member owner n = some v then none else h.member owner n := by
  rw [edit.member]
  by_cases eq : n = name
  · subst eq
    rw [if_pos rfl, if_pos ⟨rfl, was⟩]
  · rw [if_neg eq, if_neg fun here => eq here.1]

theorem wp_setObject_room : wp (setObject owner o) (fun _ t => t.room = h.room)
    (fun t => t.room = h.room) h := by
  simp only [setObject, wp_bind, wp_get]
  split
  · rfl
  · rfl

theorem room_writeBarrier : (h.writeBarrier owner value).room = h.room := by
  unfold writeBarrier
  split
  · split <;> rfl
  · rfl

theorem Stores.memberEdit {members' : List (String × Value)} (st : Stores h t owner (.moduleObject members'))
    (after : After h t) (room : t.room = h.room)
    (ho : h.tryGet owner = some (.moduleObject members)) (distinct : (members'.map (·.1)).Nodup)
    (found : ∀ n, findMember n members' = if n = name then r else findMember n members) :
    MemberEdit h t owner name r where
  after := after
  room := room
  isModule := ⟨members', st.here, distinct⟩
  others _ ne := st.elsewhere ne
  member n := by rw [member_of st.here, member_of ho, found]

theorem wp_addModuleMember (hs : Sound h) (m : h.IsModule owner) (hv : h.Issued value) :
    wp (addModuleMember owner name value) (fun _ t => MemberEdit h t owner name (some value))
      (fun _ => False) h := by
  obtain ⟨members, ho, distinct⟩ := m
  have after := @addModuleMember_after h owner value name hs hv
  suffices run : wp (addModuleMember owner name value) (fun _ t =>
      Stores h t owner (.moduleObject (setMember name value members)) ∧ t.room = h.room)
      (fun _ => False) h from
    wp_mono (wp_and after run) (fun _ t ht =>
      ht.2.1.memberEdit ht.1 ht.2.2 ho (nodup_setMember distinct) fun _ => findMember_setMember)
      fun _ ht => ht.2
  have ho' : (h.writeBarrier owner value).tryGet owner = some (.moduleObject members) := by
    rw [tryGet_barrier, ho]
  simp only [addModuleMember, wp_bind, wp_writeBarrier, getObject, wp_reading, Heap.get, ho']
  have valid := (@barrierOne h owner value hs hv).1.1.valid
  have stores : wp (setObject owner (.moduleObject (setMember name value members)))
      (fun _ t => Stores (h.writeBarrier owner value) t owner
        (.moduleObject (setMember name value members)))
      (fun _ => False) (h.writeBarrier owner value) := wp_setObject_stores valid ho' fun _ => id
  exact wp_mono (wp_and stores wp_setObject_room) (fun _ _ ht =>
    ⟨ht.1.of_same (tryGet_barrier ..), ht.2.trans room_writeBarrier⟩) fun _ ht => ht.1

theorem wp_deleteModuleMember (hs : Sound h) (m : h.IsModule owner) :
    wp (deleteModuleMember owner name) (fun _ t => MemberEdit h t owner name none)
      (fun t => t = h ∧ h.member owner name = none) h := by
  obtain ⟨members, ho, distinct⟩ := m
  have after := @deleteModuleMember_after h owner name hs
  suffices run : wp (deleteModuleMember owner name) (fun _ t =>
      Stores h t owner (.moduleObject (members.eraseP (·.1 = name))) ∧ t.room = h.room)
      (fun t => t = h ∧ h.member owner name = none) h from
    wp_mono (wp_and after run) (fun _ t ht => ht.2.1.memberEdit ht.1 ht.2.2 ho
      (distinct.sublist (List.eraseP_sublist.map _)) fun _ => findMember_eraseP distinct)
      fun _ ht => ht.2
  simp only [deleteModuleMember, getObject, wp_bind, wp_reading, Heap.get, ho, any_member]
  cases found : findMember name members with
  | none =>
    exact ⟨rfl, (member_of ho).trans found⟩
  | some value =>
    rw [Option.isSome_some, if_pos rfl]
    have stores : wp (setObject owner (.moduleObject (members.eraseP (·.1 = name))))
        (fun _ t => Stores h t owner (.moduleObject (members.eraseP (·.1 = name))))
        (fun _ => False) h := wp_setObject_stores hs.valid ho fun _ => id
    exact wp_mono (wp_and stores wp_setObject_room) (fun _ _ => id) fun _ ht => ht.1.elim

/-- A reset keeps the members of the metadata. -/
theorem wp_resetModuleMembers (hs : Sound h) (m : h.IsModule owner) :
    wp (resetModuleMembers owner) (fun _ t => After h t ∧ t.IsModule owner ∧
        (∀ v, v ≠ owner → t.tryGet v = h.tryGet v) ∧
        ∀ n, t.member owner n = if Installed.isMetadata n then h.member owner n else none)
      (fun _ => False) h := by
  obtain ⟨members, ho, distinct⟩ := m
  have after := @resetModuleMembers_after h owner hs
  suffices run : wp (resetModuleMembers owner) (fun _ t =>
      Stores h t owner (.moduleObject (members.filter fun m => Installed.isMetadata m.1)))
      (fun _ => False) h by
    refine wp_mono (wp_and after run) ?_ fun _ ht => ht.2
    rintro - t ⟨after, st⟩
    refine ⟨after, ⟨_, st.here, distinct.sublist (List.filter_sublist.map _)⟩,
      fun v ne => st.elsewhere ne, fun n => ?_⟩
    rw [member_of st.here, member_of ho, findMember_filter]
  simp only [resetModuleMembers, getObject, wp_bind, wp_reading, Heap.get, ho]
  exact wp_setObject_stores hs.valid ho fun _ => id

end Heap

end Tonic
