import Tonic.InstanceShapes

/-!
## Attribute sites

An attribute load remembers at its site where an instance kept the attribute, and once it has seen
the same place often enough it looks there first.
-/

namespace Tonic

open Effect Heap

def quickenThreshold : Nat := 8

namespace Caches

def site (c : Caches Value) (code pc : Nat) : Option (AdaptiveState Value) :=
  (c.adaptiveSites[code]?).bind (·[pc]?)

def setSite (c : Caches Value) (code pc : Nat) (state : AdaptiveState Value) : Caches Value :=
  { c with adaptiveSites := c.adaptiveSites.modify code (·.set pc state) }

/-- What a load finds in the cache of its site, the entry it missed, and the site afterwards. -/
def consult (c : Caches Value) (h : Heap) (code pc : Nat) (object : Value) :
    Option Value × Option (AttrCacheEntry Value) × Caches Value :=
  match c.site code pc with
  | some (.attrSlot cached) =>
    match h.cachedInstanceSlot object cached with
    | some value => (some value, none, c)
    | none => (none, some cached, c.setSite code pc .generic)
  | some (.attrSlotPic index) =>
    match (c.attrPics[index]?).bind fun pic =>
        (h.cachedInstanceSlot object pic.1).or (h.cachedInstanceSlot object pic.2) with
    | some value => (some value, none, c)
    | none => (none, none, c.setSite code pc .generic)
  | _ => (none, none, c)

def observeInstanceAttr (c : Caches Value) (code pc : Nat) (entry : AttrCacheEntry Value) :
    Caches Value :=
  let seen (count : Nat) :=
    c.setSite code pc
      (if quickenThreshold ≤ count then .attrSlot entry else .observedAttr entry count)
  match c.site code pc with
  | some .generic => seen 1
  | some (.observedAttr observed count) =>
    if observed = entry then seen (min (count + 1) 255) else seen 1
  | _ => c

def installAttrPic (c : Caches Value) (code pc : Nat) (first second : AttrCacheEntry Value) :
    Caches Value :=
  let capacity := min (c.adaptiveSites.map List.length).sum (2 ^ 64 - 1)
  if capacity ≤ c.attrPics.length ∨ 2 ^ 32 ≤ c.attrPics.length then c.setSite code pc .generic
  else { c with attrPics := c.attrPics ++ [(first, second)] }.setSite code pc
    (.attrSlotPic c.attrPics.length)

/-- What the site learns from a load that went through the generic protocol. -/
def record (c : Caches Value) (h : Heap) (code pc : Nat) (object : Value) (name : String)
    (missed : Option (AttrCacheEntry Value)) : Caches Value :=
  match h.instanceSlotCache object name with
  | none => c.setSite code pc .generic
  | some current =>
    if current.slot < 2 ^ 16 then
      match missed.filter (· ≠ current) with
      | some previous => c.installAttrPic code pc previous current
      | none => c.observeInstanceAttr code pc current
    else c

/-- The entries a site may answer from. -/
def entries (c : Caches Value) : AdaptiveState Value → List (AttrCacheEntry Value)
  | .observedAttr entry _ | .attrSlot entry => [entry]
  | .attrSlotPic index => (c.attrPics[index]?).elim [] fun pic => [pic.1, pic.2]
  | _ => []

end Caches

/-- An attribute load: the cache of the site answers, or the generic protocol does. -/
def loadAttribute (objectClass : Value) (types : RuntimeTypes Value) (c : Caches Value)
    (code pc : Nat) (object : Value) (name : String) : HeapM DescriptorAccess := do
  let h ← get
  match (c.consult h code pc object).1 with
  | some value => return .value value
  | none => invokeAttributeGet objectClass types object name

/-- A load that is going through the generic protocol. -/
structure Loading where
  code : Nat
  pc : Nat
  object : Value
  name : String
  missed : Option (AttrCacheEntry Value)

/-- A heap, the caches of the program that runs on it, and the loads it is in the middle of; the
attribute a site loads is part of the program. -/
structure SiteState where
  heap : HeapState
  names : Nat → Nat → Option String
  caches : Caches Value
  loading : List Loading

/-- One step of a run: the heap changes, a load misses its cache, a load comes back from the
generic protocol or fails in it, another site changes, or the next program starts. -/
inductive SiteStep [HostLibrary] : SiteState → SiteState → Prop where
  | heap (s : SiteState) (t : HeapState) (step : ClassStep s.heap t) :
    SiteStep s { s with heap := t }
  | miss (s : SiteState) (l : Loading) (c : Caches Value) (named : s.names l.code l.pc = some l.name)
    (consulted : s.caches.consult s.heap.heap l.code l.pc l.object = (none, l.missed, c)) :
    SiteStep s { s with caches := c, loading := l :: s.loading }
  | record (s : SiteState) (l : Loading) (rest : List Loading) (loading : s.loading = l :: rest) :
    SiteStep s { s with
      caches := s.caches.record s.heap.heap l.code l.pc l.object l.name l.missed, loading := rest }
  | fail (s : SiteState) (l : Loading) (rest : List Loading) (loading : s.loading = l :: rest) :
    SiteStep s { s with loading := rest }
  | elsewhere (s : SiteState) (c : Caches Value) (pics : c.attrPics = s.caches.attrPics)
    (sites : ∀ code pc, (s.names code pc).isSome = true → c.site code pc = s.caches.site code pc) :
    SiteStep s { s with caches := c }
  | restart (s : SiteState) (names : Nat → Nat → Option String) (c : Caches Value)
    (pics : c.attrPics = []) (fresh : ∀ sites ∈ c.adaptiveSites, ∀ state ∈ sites, state = .generic)
    (idle : s.loading = []) : SiteStep s { s with names, caches := c }

def SiteState.start : SiteState := ⟨.start, fun _ _ => none, .empty, []⟩

def SiteReachable [HostLibrary] (s : SiteState) : Prop :=
  Relation.ReflTransGen SiteStep .start s

/-! ### What a site knows -/

/-- The entry was right for the name in some heap before this one. -/
def Recorded [HostLibrary] (s : HeapState) (name : String) (entry : AttrCacheEntry Value) : Prop :=
  ∃ before : HeapState, before.Classes ∧ Relation.ReflTransGen ClassStep before s ∧
    ∃ owner, before.heap.instanceSlotCache owner name = some entry

namespace Caches

variable {c d : Caches Value} {h : Heap} {code pc code' pc' : Nat} {state found : AdaptiveState Value}
  {name : String} {entry : AttrCacheEntry Value}

theorem site_setSite (at_site : (c.setSite code pc state).site code' pc' = some found) :
    (found = state ∧ code' = code ∧ pc' = pc) ∨ c.site code' pc' = some found := by
  simp only [site, setSite, List.getElem?_modify, Option.map_eq_map] at at_site ⊢
  by_cases same : code = code'
  · subst same
    cases sites : c.adaptiveSites[code]? with
    | none => simp [sites] at at_site
    | some sites' =>
      simp only [sites, if_true, Option.map_some, Option.bind_some, List.getElem?_set] at at_site ⊢
      split at at_site
      · next here =>
        split at at_site
        · cases at_site
          exact .inl ⟨rfl, trivial, here.symm⟩
        · cases at_site
      · exact .inr at_site
  · simp only [same, if_false, Option.map_id_fun', id_eq] at at_site
    exact .inr at_site

@[simp] theorem attrPics_setSite : (c.setSite code pc state).attrPics = c.attrPics := rfl

/-- The states of the attribute sites refer to entries that satisfy `P` for the site's name. -/
def Holds (c : Caches Value) (names : Nat → Nat → Option String)
    (P : String → AttrCacheEntry Value → Prop) : Prop :=
  ∀ code pc name state, names code pc = some name → c.site code pc = some state →
    (∀ entry ∈ c.entries state, P name entry) ∧
      ∀ index, state = .attrSlotPic index → index < c.attrPics.length

section Sites

variable {names : Nat → Nat → Option String} {P Q : String → AttrCacheEntry Value → Prop}

theorem Holds.mono (holds : c.Holds names P) (le : ∀ name entry, P name entry → Q name entry) :
    c.Holds names Q := fun code pc name state named at_site =>
  have ⟨entries, bounds⟩ := holds code pc name state named at_site
  ⟨fun entry mem => le _ _ (entries entry mem), bounds⟩

theorem Holds.setSite (holds : c.Holds names P) (named : names code pc = some name)
    (right : ∀ entry ∈ c.entries state, P name entry)
    (bound : ∀ index, state = .attrSlotPic index → index < c.attrPics.length) :
    (c.setSite code pc state).Holds names P := by
  intro code' pc' name' found named' at_site
  rcases site_setSite at_site with ⟨rfl, rfl, rfl⟩ | old
  · rw [named] at named'
    cases named'
    exact ⟨right, bound⟩
  · exact holds code' pc' name' found named' old

theorem Holds.generic (holds : c.Holds names P) (named : names code pc = some name) :
    (c.setSite code pc .generic).Holds names P := by
  apply holds.setSite named
  · intro entry mem
    cases mem
  · intro index eq
    cases eq

theorem Holds.consult (holds : c.Holds names P) (named : names code pc = some name)
    {object : Value} {value : Option Value} {missed : Option (AttrCacheEntry Value)}
    (consulted : c.consult h code pc object = (value, missed, d)) :
    d.Holds names P ∧ (∀ entry ∈ missed, P name entry) ∧
      ∀ v, value = some v → ∃ entry, P name entry ∧ h.cachedInstanceSlot object entry = some v := by
  have none_missed {entry : AttrCacheEntry Value} : entry ∈ (none : Option _) → P name entry := by
    simp
  unfold Caches.consult at consulted
  split at consulted
  · next cached at_site =>
    have right := (holds code pc name _ named at_site).1 cached (by simp [entries])
    split at consulted
    · next v hit =>
      cases consulted
      refine ⟨holds, fun _ => none_missed, fun v' eq => ⟨cached, right, ?_⟩⟩
      rw [hit, eq]
    · cases consulted
      refine ⟨holds.generic named, fun entry mem => ?_, fun v' eq => by cases eq⟩
      cases mem
      exact right
  · next index at_site =>
    have right := (holds code pc name _ named at_site).1
    split at consulted
    · next v hit =>
      cases consulted
      refine ⟨holds, fun _ => none_missed, fun v' eq => ?_⟩
      cases eq
      obtain ⟨pic, at_index, either⟩ := Option.bind_eq_some_iff.mp hit
      have both : ∀ entry ∈ [pic.1, pic.2], P name entry := by
        simpa [entries, at_index] using right
      rcases Option.or_eq_some_iff.mp either with first | ⟨-, second⟩
      · exact ⟨pic.1, both _ (by simp), first⟩
      · exact ⟨pic.2, both _ (by simp), second⟩
    · cases consulted
      exact ⟨holds.generic named, fun _ => none_missed, fun v' eq => by cases eq⟩
  · cases consulted
    exact ⟨holds, fun _ => none_missed, fun v' eq => by cases eq⟩

theorem Holds.observe (holds : c.Holds names P) (named : names code pc = some name)
    (right : P name entry) : (c.observeInstanceAttr code pc entry).Holds names P := by
  have seen (count : Nat) : (c.setSite code pc (if quickenThreshold ≤ count then .attrSlot entry
      else .observedAttr entry count)).Holds names P := by
    split
    all_goals
      apply holds.setSite named
      · intro e mem
        cases List.mem_singleton.mp mem
        exact right
      · intro index eq
        cases eq
  unfold observeInstanceAttr
  split
  · exact seen 1
  · split
    · exact seen _
    · exact seen 1
  · exact holds

theorem Holds.install {first second : AttrCacheEntry Value} (holds : c.Holds names P)
    (named : names code pc = some name) (first_right : P name first)
    (second_right : P name second) : (c.installAttrPic code pc first second).Holds names P := by
  unfold installAttrPic
  simp only
  split
  · exact holds.generic named
  · have grown : ({ c with attrPics := c.attrPics ++ [(first, second)] } : Caches Value).Holds
        names P := by
      intro code' pc' name' state' named' at_site
      obtain ⟨right, bound⟩ := holds code' pc' name' state' named' at_site
      constructor
      · cases state' with
        | attrSlotPic index =>
          have old := bound index rfl
          simpa [entries, List.getElem?_append_left old] using right
        | _ => exact right
      · intro index eq
        have old := bound index eq
        simp only [List.length_append]
        omega
    apply grown.setSite named
    · intro e mem
      have mem : e ∈ [first, second] := by simpa [entries] using mem
      simp only [List.mem_cons, List.not_mem_nil, or_false] at mem
      rcases mem with rfl | rfl
      · exact first_right
      · exact second_right
    · intro index eq
      cases eq
      simp

theorem Holds.record (holds : c.Holds names P) (named : names code pc = some name) {object : Value}
    {missed : Option (AttrCacheEntry Value)} (missed_right : ∀ e ∈ missed, P name e)
    (right : ∀ e, h.instanceSlotCache object name = some e → P name e) :
    (c.record h code pc object name missed).Holds names P := by
  unfold Caches.record
  split
  · exact holds.generic named
  · next current recorded =>
    split
    · split
      · next previous kept =>
        obtain ⟨mem, -⟩ := Option.filter_eq_some_iff.mp kept
        exact holds.install named (missed_right previous mem) (right current recorded)
      · exact holds.observe named (right current recorded)
    · exact holds

end Sites

end Caches

namespace SiteState

variable [HostLibrary]

/-- Whatever the sites and the loads in progress know was right at some earlier moment. -/
structure Sound (s : SiteState) : Prop where
  classes : s.heap.Classes
  tidy : s.heap.heap.Tidy
  sites : s.caches.Holds s.names (Recorded s.heap)
  loading : ∀ l ∈ s.loading, s.names l.code l.pc = some l.name ∧
    ∀ e ∈ l.missed, Recorded s.heap l.name e

theorem start_sound : Sound start := by
  constructor
  · exact HeapState.start_classes
  · exact HeapState.start_tidy
  · intro code pc name state named
    cases named
  · intro l mem
    cases mem

theorem step_sound {s t : SiteState} (step : SiteStep s t) (hs : s.Sound) : t.Sound := by
  obtain ⟨classes, tidy, sites, loading⟩ := hs
  cases step with
  | heap u step =>
    have later {name entry} : Recorded s.heap name entry → Recorded u name entry := by
      rintro ⟨before, proper, run, recorded⟩
      exact ⟨before, proper, run.tail step, recorded⟩
    constructor
    · exact (HeapState.step_classes step classes).1
    · exact Heap.lasting_tidy.step step classes tidy
    · exact sites.mono fun _ _ => later
    · intro l mem
      obtain ⟨named, missed⟩ := loading l mem
      exact ⟨named, fun e he => later (missed e he)⟩
  | miss l c named consulted =>
    obtain ⟨holds, missed, -⟩ := sites.consult named consulted
    constructor
    · exact classes
    · exact tidy
    · exact holds
    · intro k mem
      rcases List.mem_cons.mp mem with rfl | old
      · exact ⟨named, missed⟩
      · exact loading k old
  | record l rest top =>
    obtain ⟨named, missed⟩ := loading l (by simp [top])
    constructor
    · exact classes
    · exact tidy
    · apply sites.record named missed
      intro e recorded
      exact ⟨s.heap, classes, .refl, l.object, recorded⟩
    · intro k mem
      exact loading k (by simp [top, mem])
  | fail l rest top =>
    constructor
    · exact classes
    · exact tidy
    · exact sites
    · intro k mem
      exact loading k (by simp [top, mem])
  | elsewhere c pics same =>
    constructor
    · exact classes
    · exact tidy
    · intro code pc name state named at_site
      have named : s.names code pc = some name := named
      rw [same code pc (by simp [named])] at at_site
      have same_entries : c.entries state = s.caches.entries state := by
        cases state <;> simp [Caches.entries, pics]
      rw [same_entries, pics]
      exact sites code pc name state named at_site
    · exact loading
  | restart names c pics fresh idle =>
    constructor
    · exact classes
    · exact tidy
    · intro code pc name state named at_site
      have generic : state = .generic := by
        obtain ⟨found, at_code, at_pc⟩ := Option.bind_eq_some_iff.mp at_site
        exact fresh found (List.mem_of_getElem? at_code) state (List.mem_of_getElem? at_pc)
      subst generic
      constructor
      · intro e mem
        cases mem
      · intro index eq
        cases eq
    · intro l mem
      rw [idle] at mem
      cases mem

theorem reachable_sound {s : SiteState} (reach : SiteReachable s) : s.Sound := by
  induction reach with
  | refl => exact start_sound
  | tail _ step ih => exact step_sound step ih

end SiteState

/-! ### The answer of a cache -/

namespace Heap

variable {h : Heap} {owner cls value : Value} {name : String}

theorem Plain.hook_ok (lineage : h.Lineage) (plain : h.Plain owner name value) :
    h.customAttributeMethod owner "__getattribute__" (h.defaultGetattribute owner) = .ok none := by
  obtain ⟨quiet, o, cls, shape, slot, values, ho, parts, looked, -⟩ := plain
  have apart : h.isClass owner = false := by
    cases o <;> simp_all [Object.instanceParts, isClass]
  have own : (h.tryGet owner).bind (·.instanceClass) = some cls := by
    cases o <;> simp_all [Object.instanceParts, Object.instanceClass]
  obtain ⟨c, hc⟩ := class_of_lookup looked
  have found : h.classOf cls = .ok c := by simp [classOf, Heap.get, hc]
  obtain ⟨r, hr⟩ := lineage.classLookup_ok found "__getattribute__"
  unfold hasCustomGetattribute at quiet
  cases found : h.customAttributeMethod owner "__getattribute__" (h.defaultGetattribute owner) with
  | ok call =>
    rw [found] at quiet
    simpa using quiet
  | error e =>
    simp only [customAttributeMethod, apart, specialMethodCall, own, hr, bind, Except.bind] at found
    cases r <;> cases found

/-- Steps that do not answer change nothing. -/
theorem firstAccess_none {last : HeapM DescriptorAccess}
    {steps : List (HeapM (Option DescriptorAccess))} (none : ∀ step ∈ steps, step h = .ok none h) :
    firstAccess last steps h = last h := by
  induction steps with
  | nil => rfl
  | cons step steps ih =>
    rw [firstAccess, bind_ok (none step List.mem_cons_self)]
    exact ih fun later mem => none later (List.mem_cons_of_mem _ mem)

/-- A slot that the layout does not shadow is what the object answers with. -/
theorem Plain.attr (tidy : h.Tidy) (plain : h.Plain owner name value)
    (cached : uncachedNames.contains name = false) : Tonic.attr owner name h = .ok value h := by
  obtain ⟨-, o, cls, shape, slot, values, ho, parts, -, slotted, at_slot⟩ := plain
  have stored : (Attributes.slots shape values).get h.shapes name = some value := by
    simp [Attributes.get, slotted, at_slot]
  have inst (cls : Value) :
      instanceAttribute owner cls (.slots shape values) name h = .ok value h := by
    show (match (Attributes.slots shape values).get h.shapes name with
      | some value => pure value
      | none => classAttribute owner cls name : HeapM Value) h = _
    rw [stored]
    rfl
  have unlisted : name ≠ "__dict__" := by
    obtain ⟨node, mem, rfl⟩ := Shapes.name_of_slot slotted
    exact tidy.shapes.names node mem
  have start : Tonic.attr owner name h = attrWithin (h.objects.length + 1) owner name h := rfl
  rw [start, attrWithin]
  have found : tryGetObject owner h = .ok (some o) h := by simp [tryGetObject, reading, ho]
  rw [bind_ok found]
  simp only [uncachedNames, List.contains_eq_mem, List.mem_cons, List.not_mem_nil, or_false,
    decide_eq_false_iff_not, not_or] at cached
  cases o with
  | instanceObject cls' attributes backing =>
    cases parts
    simp only [cached.1, unlisted, if_false]
    exact inst cls
  | exception e =>
    obtain ⟨rfl, attributes⟩ : e.cls = cls ∧ e.attributes = .slots shape values := by
      simpa [Object.instanceParts] using parts
    have inst : instanceAttribute owner e.cls e.attributes name h = .ok value h := by
      rw [attributes]
      exact inst e.cls
    show exceptionAttribute owner e name h = .ok value h
    unfold exceptionAttribute
    split
    case h_8 =>
      cases stops : e.stopIterationValue with
      | none => exact inst
      | some stop =>
        have face : h.face owner = some (.exception e.cls (.slots shape values) true) := by
          simp [face, ho, Object.face, attributes, stops]
        have other : name ≠ "value" := by
          rintro rfl
          have lacks := (tidy.stops face).2
          rw [slotted] at lacks
          cases lacks
        simp only [if_neg other]
        exact inst
    all_goals simp_all
  | _ => cases parts

/-- Where nothing in the classes is in the way, the generic protocol reads the slot. -/
theorem Plain.invokeAttributeGet (objectClass : Value) (types : RuntimeTypes Value)
    (lineage : h.Lineage) (tidy : h.Tidy) (plain : h.Plain owner name value)
    (cached : uncachedNames.contains name = false) :
    Tonic.invokeAttributeGet objectClass types owner name h = .ok (.value value) h := by
  have hook := plain.hook_ok lineage
  have own := plain.attr tidy cached
  obtain ⟨-, o, cls, shape, slot, values, ho, parts, looked, -⟩ := plain
  have apart : h.isClass owner = false := by
    cases o <;> simp_all [Object.instanceParts, isClass]
  have cls_own : (h.tryGet owner).bind (·.instanceClass) = some cls := by
    cases o <;> simp_all [Object.instanceParts, Object.instanceClass]
  have found : tryGetObject owner h = .ok (some o) h := by simp [tryGetObject, reading, ho]
  -- no step of the protocol answers before the object does
  have super : superGetter owner name h = .ok none h := by
    rw [superGetter, bind_ok found]
    cases o <;> first | rfl | cases parts
  have property : h.propertyGetter owner name = .ok none := by
    simp [propertyGetter, cls_own, looked, bind, Except.bind, pure, Except.pure]
  have descriptor : h.descriptorGetter owner name = .ok none := by
    cases o with
    | instanceObject _ _ _ =>
      cases parts
      simp [descriptorGetter, ho, Object.instanceParts, looked, bind, Except.bind, pure, Except.pure]
    | exception e =>
      obtain ⟨rfl, -⟩ : e.cls = cls ∧ e.attributes = .slots shape values := by
        simpa [Object.instanceParts] using parts
      simp [descriptorGetter, ho, Object.instanceParts, looked, bind, Except.bind, pure, Except.pure]
    | _ => cases parts
  have round : roundGetter objectClass types owner name h = .ok none h := by
    have native : ((h.tryGet owner).bind (·.instanceParts)).isNone = false := by simp [ho, parts]
    show (if name = "__round__" && !h.isClass owner &&
        ((h.tryGet owner).bind (·.instanceParts)).isNone then _ else pure none : HeapM _) h = _
    rw [native]
    simp [pure, EStateM.pure]
  have access : plainAccess objectClass types owner name h = .ok (.value value) h := by
    have kept : attempt (Tonic.attr owner name) h = .ok (.ok value) h := by
      simp [attempt, own]
    rw [plainAccess, bind_ok kept]
    rfl
  have default : invokeDefaultAttributeGet objectClass types owner name h =
      .ok (.value value) h := by
    show firstAccess (plainAccess objectClass types owner name)
      [superGetter owner name,
       if h.isClass owner then metaclassGetter owner name true else return none,
       do return (← reading (·.propertyGetter owner name)).map (.call ⟨·, some owner⟩ []),
       reading (·.descriptorGetter owner name),
       roundGetter objectClass types owner name] h = _
    rw [firstAccess_none, access]
    intro step mem
    simp only [List.mem_cons, List.not_mem_nil, or_false] at mem
    rcases mem with rfl | rfl | rfl | rfl | rfl
    · exact super
    · rw [apart]
      rfl
    · have run : reading (·.propertyGetter owner name) h = .ok none h := by
        simp only [reading, property]
      rw [bind_ok run]
      rfl
    · simp only [reading, descriptor]
    · exact round
  have run : reading (fun h => h.customAttributeMethod owner "__getattribute__"
      (h.defaultGetattribute owner)) h = .ok none h := by
    simp only [reading, hook]
  rw [Tonic.invokeAttributeGet, bind_ok run]
  have kept : attempt (invokeDefaultAttributeGet objectClass types owner name) h =
      .ok (.ok (.value value)) h := by
    simp [attempt, default]
  dsimp only
  rw [bind_ok kept]
  rfl

end Heap

section Loads

variable [HostLibrary]

/-- A hit is right because nothing it depends on has changed since it was recorded. -/
theorem Recorded.plain {s : HeapState} {name : String} {entry : AttrCacheEntry Value}
    (recorded : Recorded s name entry) {object value : Value}
    (hit : s.heap.cachedInstanceSlot object entry = some value) :
    s.heap.Plain object name value ∧ uncachedNames.contains name = false := by
  obtain ⟨before, classes, run, owner, entry_of⟩ := recorded
  have later := (HeapState.run_classes run classes).2
  refine ⟨later.cached classes.lineage entry_of hit, ?_⟩
  unfold instanceSlotCache at entry_of
  split at entry_of
  · cases entry_of
  · simp only [Option.bind_eq_bind, Option.bind_eq_some_iff] at entry_of
    obtain ⟨o, -, parts, -, rest⟩ := entry_of
    split at rest
    · cases rest
    · next cacheable => simpa using cacheable

/-- Whatever happened to the receiver, its class and the bases since the site was last executed, a
load gives what the generic protocol computes now, and a cache only answers where no user hook and
no attribute of the classes is in the way. -/
theorem attribute_sites (objectClass : Value) (types : RuntimeTypes Value) {s : SiteState}
    (reach : SiteReachable s) {code pc : Nat} {name : String}
    (named : s.names code pc = some name) (object : Value) :
    loadAttribute objectClass types s.caches code pc object name s.heap.heap =
        invokeAttributeGet objectClass types object name s.heap.heap ∧
      ∀ value, (s.caches.consult s.heap.heap code pc object).1 = some value →
        s.heap.heap.Plain object name value := by
  have sound := SiteState.reachable_sound reach
  have asked : s.caches.consult s.heap.heap code pc object = (_, _, _) := rfl
  obtain ⟨-, -, hits⟩ := sound.sites.consult named asked
  constructor
  · show (match (s.caches.consult s.heap.heap code pc object).1 with
      | some value => pure (.value value)
      | none => invokeAttributeGet objectClass types object name : HeapM _) s.heap.heap = _
    cases answer : (s.caches.consult s.heap.heap code pc object).1 with
    | none => rfl
    | some value =>
      obtain ⟨entry, recorded, hit⟩ := hits value answer
      obtain ⟨plain, cached⟩ := recorded.plain hit
      rw [plain.invokeAttributeGet objectClass types sound.classes.lineage sound.tidy cached]
      rfl
  · intro value answer
    obtain ⟨entry, recorded, hit⟩ := hits value answer
    exact (recorded.plain hit).1

end Loads

section Quickened

def bareInstance : Value := .heap 1 1

def oneName : Shapes := (Shapes.empty.transition 0 "x").2

def oneAttribute : Heap :=
  { emptyClass with
    shapes := oneName
    objects := emptyClass.objects ++
      [⟨.instanceObject (.heap 0 1) (.slots 1 [.bool true]) none, 1, true⟩]
    slots := [⟨1, some 0⟩, ⟨1, some 1⟩] }

theorem slot_oneName : oneName.slot 1 "x" = some 0 := by
  rw [@Shapes.slot_succ oneName 0 ⟨0, "x", 1⟩ rfl]
  rfl

theorem setAttr_bareInstance : final (setAttr bareInstance "x" (.bool true))
    (final (alloc (.instanceObject (.heap 0 1) .empty none)) emptyClass) = oneAttribute := by
  have set : Attributes.empty.set .empty "x" (.bool true) = (.slots 1 [.bool true], oneName) := by
    have absent : Shapes.empty.slot 0 "x" = none := by simp [Shapes.slot]
    simp only [Attributes.set, Attributes.empty, absent]
    rfl
  have run : final (setAttr bareInstance "x" (.bool true))
      (final (alloc (.instanceObject (.heap 0 1) .empty none)) emptyClass) =
        { oneAttribute with
          shapes := (Attributes.empty.set .empty "x" (.bool true)).2
          objects := emptyClass.objects ++ [⟨.instanceObject (.heap 0 1)
            (Attributes.empty.set .empty "x" (.bool true)).1 none, 1, true⟩] } := rfl
  rw [run, set]
  rfl

def entryX : AttrCacheEntry Value := ⟨.heap 0 1, 1, 0, 1⟩

theorem instanceSlotCache_bareInstance :
    oneAttribute.instanceSlotCache bareInstance "x" = some entryX := by
  have looked (name : String) : oneAttribute.classLookup (.heap 0 1) name = .ok none := rfl
  have found : oneAttribute.tryGet bareInstance = some (.instanceObject (.heap 0 1) (.slots 1 [.bool true]) none) := rfl
  have hook : oneAttribute.hasCustomGetattribute bareInstance = false := by
    rw [hasCustomGetattribute_eq found rfl, looked]
  have slotted : oneAttribute.shapes.slot 1 "x" = some 0 := slot_oneName
  simp [instanceSlotCache, hook, found, Object.instanceParts, looked, uncachedNames, Attributes.slotCache, slotted]
  rfl

def oneSite (state : AdaptiveState Value) : Caches Value :=
  { Caches.empty with adaptiveSites := [[state]] }

def loadX (code pc : Nat) : Option String := if code = 0 ∧ pc = 0 then some "x" else none

section
variable [HostLibrary]

/-- A load of the attribute that its site does not answer yet. -/
theorem observed {s : HeapState} (heap : s.heap = oneAttribute) {state : AdaptiveState Value}
    {next : Caches Value}
    (miss : (oneSite state).consult oneAttribute 0 0 bareInstance = (none, none, oneSite state))
    (seen : (oneSite state).observeInstanceAttr 0 0 entryX = next)
    (reach : SiteReachable ⟨s, loadX, oneSite state, []⟩) : SiteReachable ⟨s, loadX, next, []⟩ := by
  have missed := SiteStep.miss ⟨s, loadX, oneSite state, []⟩ ⟨0, 0, bareInstance, "x", none⟩
    (oneSite state) rfl (by rw [heap]; exact miss)
  have recorded := SiteStep.record ⟨s, loadX, oneSite state, [⟨0, 0, bareInstance, "x", none⟩]⟩
    ⟨0, 0, bareInstance, "x", none⟩ [] rfl
  have same : (oneSite state).record s.heap 0 0 bareInstance "x" none = next := by
    rw [heap, ← seen]
    simp [Caches.record, instanceSlotCache_bareInstance, entryX]
  simp only [same] at recorded
  exact (reach.tail missed).tail recorded

theorem quickened {s : HeapState} (heap : s.heap = oneAttribute)
    (start : SiteReachable ⟨s, loadX, oneSite .generic, []⟩) :
    SiteReachable ⟨s, loadX, oneSite (.attrSlot entryX), []⟩ := by
  have first : SiteReachable ⟨s, loadX, oneSite (.observedAttr entryX 1), []⟩ :=
    observed heap rfl rfl start
  have again {n : Nat} {state : AdaptiveState Value}
      (seen : (if quickenThreshold ≤ min (n + 1) 255 then .attrSlot entryX
        else .observedAttr entryX (min (n + 1) 255)) = state)
      (reach : SiteReachable ⟨s, loadX, oneSite (.observedAttr entryX n), []⟩) :
      SiteReachable ⟨s, loadX, oneSite state, []⟩ := by
    refine observed heap rfl ?_ reach
    rw [← seen]
    simp [Caches.observeInstanceAttr, Caches.site, Caches.setSite, oneSite]
  exact again rfl (again rfl (again rfl (again rfl (again rfl (again rfl (again rfl first))))))

end

theorem reachable_oneAttribute [HostLibrary] :
    ∃ s : HeapState, s.heap = oneAttribute ∧ ClassReachable s := by
  let c := HeapState.next (.next .start bareNamespace) emptyClass
  have created : ClassStep c (c.next (final (alloc (.instanceObject (.heap 0 1) .empty none))
      emptyClass)) := by
    refine .alloc c (.instanceObject (.heap 0 1) .empty none) rfl fun v hv => ?_
    cases List.mem_singleton.mp hv
    exact .inr rfl
  let i := c.next (final (alloc (.instanceObject (.heap 0 1) .empty none)) emptyClass)
  have stored : ClassStep i (i.next (final (setAttr bareInstance "x" (.bool true)) i.heap)) := by
    refine .mutate i (.setAttr bareInstance "x" (.bool true)) fun v hv => ?_
    simp only [Mutation.arguments, List.mem_cons, List.not_mem_nil, or_false] at hv
    rcases hv with rfl | rfl
    · exact .inr rfl
    · exact .inl (.inl (.inl rfl))
  exact ⟨_, setAttr_bareInstance, (reachable_emptyClass.tail created).tail stored⟩

theorem site_of_classes [HostLibrary] {s : HeapState} (reach : ClassReachable s) :
    SiteReachable { SiteState.start with heap := s } := by
  induction reach with
  | refl => exact .refl
  | tail _ step ih => exact ih.tail (.heap _ _ step)

/-- The ninth load of the attribute is answered by its site. -/
theorem attribute_sites_bareInstance :
    invokeAttributeGet .none default bareInstance "x" oneAttribute =
      .ok (.value (.bool true)) oneAttribute := by
  let _ : HostLibrary := ⟨String.length, List.length, fun _ => ""⟩
  obtain ⟨s, heap, reach⟩ := reachable_oneAttribute
  have site : SiteReachable ⟨s, loadX, oneSite (.attrSlot entryX), []⟩ := by
    apply quickened heap
    have fresh : ∀ sites ∈ (oneSite .generic).adaptiveSites, ∀ state ∈ sites, state = .generic := by
      simp [oneSite]
    exact (site_of_classes reach).tail (.restart _ loadX (oneSite .generic) rfl fresh rfl)
  have agree := (@attribute_sites _ .none default _ site 0 0 "x" rfl bareInstance).1
  rw [heap] at agree
  exact agree.symm

end Quickened
end Tonic
