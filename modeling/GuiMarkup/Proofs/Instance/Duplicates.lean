import GuiMarkup.Proofs.Instance.Loops

/-! The first occurrence of a name wins: every later occurrence for the same map is
reported once as a duplicate and otherwise ignored. -/

namespace GuiMarkup

open QualifiedName Markup

namespace Loader

/-! ## Occurrences and maps -/

/-- One occurrence of a name for a map: an attribute or a child element. -/
inductive Occurrence where
  | attribute (a : Attribute) (n : QualifiedName)
  | element (c : Element) (n : QualifiedName)

/-- Where an occurrence is reported: at its name. -/
def Occurrence.position : Occurrence → Pos
  | .attribute a _ => a.nameSpan.start
  | .element c _ => c.nameSpan.start

/-- One of the three maps of a setter, with what puts entries into it. -/
structure Slot (α : Type) where
  /-- The map in a setter. -/
  map : Setter → KeyMap α
  /-- The setter with an entry put under a name. -/
  put : Setter → String → α → Setter
  map_put : ∀ s k v, map (put s k v) = (map s).insert k v
  /-- The role of the attributes that go into the map. -/
  role : Role
  /-- The names of the child elements that go into the map. -/
  accepts : QualifiedName → Bool
  /-- The report of a name given twice. -/
  duplicate : String → Issue
  /-- The entry an attribute gives. -/
  attributeEntry : Attribute → QualifiedName → α
  /-- The entry a child element gives, if any. -/
  elementEntry : Element → QualifiedName → Option α

/-- Properties: `X` and `X-b` attributes of one text, and `att.X` elements. -/
def Slot.properties : Slot Property where
  map s := s.properties
  put s k v := { s with properties := s.properties.insert k v }
  map_put _ _ _ := rfl
  role := .propertyAttribute
  accepts := isPropertyElementName
  duplicate := .duplicatedProperty
  attributeEntry a n :=
    { binding := n.binding, values := [.text a.value false a.valueSpan.start], attPos := a.span.start }
  elementEntry c n :=
    let values := ((propertyValues c n).run #[]).1
    if values.isEmpty then none
    else some { binding := n.binding, values := values, attPos := c.span.start }

/-- Event handlers: `ev.X` attributes, and elements of one script. -/
def Slot.handlers : Slot Handler where
  map s := s.handlers
  put s k v := { s with handlers := s.handlers.insert k v }
  map_put _ _ _ := rfl
  role := .eventAttribute
  accepts := isEventElementName
  duplicate := .duplicatedEvent
  attributeEntry a n :=
    { binding := n.binding, script := a.value, attPos := a.span.start, valuePos := a.valueSpan.start }
  elementEntry c n := (soleScript c.children).map fun script =>
    { binding := n.binding, script := script.1, attPos := c.span.start, valuePos := script.2.1 }

/-- Environment variables: `env.X` attributes, and elements of at most one text. -/
def Slot.environment : Slot EnvEntry where
  map s := s.environment
  put s k v := { s with environment := s.environment.insert k v }
  map_put _ _ _ := rfl
  role := .environmentAttribute
  accepts := isEnvironmentElementName
  duplicate := .duplicatedEnvironment
  attributeEntry a _ := { value := a.value, attPos := a.span.start, valuePos := a.valueSpan.start }
  elementEntry c _ := (environmentEntry c).map fun value =>
    { value := value.1, attPos := c.span.start, valuePos := value.2 }

section Occurrences

variable {α : Type} (S : Slot α) (N : String)

/-- The occurrence of `N` that an attribute is, if it is one. -/
def Slot.attributeOccurrence (a : Attribute) : Option Occurrence :=
  match QualifiedName.classify a.name with
  | .ok n => if n.attributeRole = S.role ∧ n.name = N then some (.attribute a n) else none
  | .error _ => none

/-- The occurrence of `N` that a named child element is, if it is one. -/
def Slot.elementOccurrence (p : Element × QualifiedName) : Option Occurrence :=
  if S.accepts p.2 = true ∧ p.2.name = N then some (.element p.1 p.2) else none

/-- The occurrences of `N` for the map, in the order `fill` reads them. -/
def Slot.occurrences (attrs : List Attribute) (children : List Node) : List Occurrence :=
  attrs.filterMap (S.attributeOccurrence N) ++
    (classified children).filterMap (S.elementOccurrence N)

/-- The entry an occurrence gives, if any. -/
def Slot.entry? : Occurrence → Option α
  | .attribute a n => some (S.attributeEntry a n)
  | .element c n => S.elementEntry c n

variable {S N}

theorem Slot.attributeOccurrence_eq_some {a : Attribute} {o : Occurrence}
    (h : S.attributeOccurrence N a = some o) :
    ∃ n, QualifiedName.classify a.name = .ok n ∧ n.attributeRole = S.role ∧ n.name = N ∧
      o = .attribute a n := by
  unfold Slot.attributeOccurrence at h
  split at h
  · rename_i n hn
    split at h
    · rename_i hp
      cases h
      exact ⟨n, hn, hp.1, hp.2, rfl⟩
    · cases h
  · cases h

/-- An attribute of the map's role that is no occurrence of `N` has another name. -/
theorem Slot.attributeOccurrence_eq_none {a : Attribute} {n : QualifiedName}
    (h : S.attributeOccurrence N a = none) (hn : QualifiedName.classify a.name = .ok n)
    (hrole : n.attributeRole = S.role) : n.name ≠ N := by
  intro hname
  simp [Slot.attributeOccurrence, hn, hrole, hname] at h

theorem Slot.elementOccurrence_accepts {p : Element × QualifiedName} {o : Occurrence}
    (h : S.elementOccurrence N p = some o) :
    S.accepts p.2 = true ∧ p.2.name = N ∧ o = .element p.1 p.2 := by
  unfold Slot.elementOccurrence at h
  split at h
  · rename_i hp
    cases h
    exact ⟨hp.1, hp.2, rfl⟩
  · cases h

/-- A child element the map takes that is no occurrence of `N` has another name. -/
theorem Slot.elementOccurrence_eq_none {p : Element × QualifiedName}
    (h : S.elementOccurrence N p = none) (hacc : S.accepts p.2 = true) : p.2.name ≠ N := by
  intro hname
  simp [Slot.elementOccurrence, hacc, hname] at h

end Occurrences

/-! ## Steps that read a name first come, first served -/

section Reads

variable {α β : Type} (S : Slot α) (N : String)

/-- A step over an item: an occurrence fills an empty entry of `N` or is reported on a full
one; any other item leaves the entry alone. -/
structure Slot.Reads (f : Setter → β → Reporting Setter) (occ : β → Option Occurrence) :
    Prop where
  full : ∀ s x o, occ x = some o → (S.map s).contains N = true →
    f s x = (do report o.position (S.duplicate N); pure s)
  empty : ∀ s x o, occ x = some o → (S.map s).contains N = false →
    Yields (fun t => (S.map t).find? N = S.entry? o) (f s x)
  other : ∀ s x, occ x = none → Yields (fun t => (S.map t).find? N = (S.map s).find? N) (f s x)

variable {S N}
variable {f : Setter → β → Reporting Setter} {occ : β → Option Occurrence}

/-- A fold of such steps keeps the entry it found, or puts in the first one an occurrence gives. -/
theorem Slot.Reads.foldlM_find? (h : S.Reads N f occ) : ∀ (l : List β) (s : Setter),
    Yields (fun t => (S.map t).find? N =
      ((S.map s).find? N).or ((l.filterMap occ).findSome? S.entry?)) (l.foldlM f s)
  | [], s => Yields.pure (by simp)
  | x :: l, s => by
    rw [List.foldlM_cons]
    cases hx : occ x with
    | none =>
      refine Yields.bind (h.other s x hx) fun t ht => (foldlM_find? h l t).mono fun u hu => ?_
      rw [hu, ht, List.filterMap_cons_none hx]
    | some o =>
      rw [List.filterMap_cons_some hx, List.findSome?_cons]
      cases hc : (S.map s).contains N
      · have hnone : (S.map s).find? N = none := by
          rwa [KeyMap.contains_eq_isSome_find?, Option.isSome_eq_false_iff,
            Option.isNone_iff_eq_none] at hc
        refine Yields.bind (h.empty s x o hx hc) fun t ht => (foldlM_find? h l t).mono
          fun u hu => ?_
        rw [hu, ht, hnone]
        cases S.entry? o <;> rfl
      · obtain ⟨e, he⟩ := Option.isSome_iff_exists.1
          ((KeyMap.contains_eq_isSome_find? _ _).symm.trans hc)
        rw [h.full s x o hx hc, bind_assoc, pure_bind]
        refine Yields.bind Yields.report fun _ _ => (foldlM_find? h l s).mono fun u hu => ?_
        rw [hu, he]
        rfl

/-- After an earlier occurrence put its entry in, the fold reads a later one as a bare report. -/
theorem Slot.Reads.foldlM_drop (h : S.Reads N f occ) {pre post : List β} {x : β}
    {o : Occurrence} (hx : occ x = some o) {s : Setter}
    (hstored : ((S.map s).find? N).or ((pre.filterMap occ).findSome? S.entry?) ≠ none) :
    (pre ++ x :: post).foldlM f s = (do
      let t ← pre.foldlM f s
      report o.position (S.duplicate N)
      post.foldlM f t) := by
  rw [List.foldlM_append]
  refine (h.foldlM_find? pre s).bind_congr fun t ht => ?_
  have hc : (S.map t).contains N = true := by
    rw [KeyMap.contains_eq_isSome_find?, ht, Option.isSome_iff_ne_none]
    exact hstored
  rw [List.foldlM_cons, h.full t x o hx hc, bind_assoc, pure_bind]

/-- A step that does nothing on an item can be left out of a fold. -/
theorem foldlM_skip {σ : Type} {g : σ → β → Reporting σ} {x : β}
    (hx : ∀ s, g s x = pure s) (pre post : List β) (s : σ) :
    (pre ++ x :: post).foldlM g s = (pre ++ post).foldlM g s := by
  simp only [List.foldlM_append, List.foldlM_cons, hx, pure_bind]

/-- Steps of another map's loop never read or write this map. -/
theorem Slot.reads_foreign {step : Setter → Element → QualifiedName → Reporting Setter}
    (hkeep : ∀ s c n, Yields (fun t => S.map t = S.map s) (step s c n)) :
    S.Reads N (fun s (p : Element × QualifiedName) => step s p.1 p.2) (fun _ => none) where
  full _ _ _ h := by cases h
  empty _ _ _ h := by cases h
  other s p _ := (hkeep s p.1 p.2).mono fun _ h => by rw [h]

/-- The step of the loop of a map: skip other names, report a name already there, else put in. -/
structure Slot.Steps (S : Slot α) (step : Setter → Element → QualifiedName → Reporting Setter) :
    Prop where
  skip : ∀ s c n, S.accepts n = false → step s c n = pure s
  dup : ∀ s c n, S.accepts n = true → (S.map s).contains n.name = true →
    step s c n = (do report c.nameSpan.start (S.duplicate n.name); pure s)
  new : ∀ s c n, S.accepts n = true → (S.map s).contains n.name = false →
    Yields (· = (S.elementEntry c n).elim s (S.put s n.name)) (step s c n)

/-- The loop of the map reads `N` first come, first served. -/
theorem Slot.Steps.reads {step : Setter → Element → QualifiedName → Reporting Setter}
    (h : S.Steps step) :
    S.Reads N (fun s (p : Element × QualifiedName) => step s p.1 p.2) (S.elementOccurrence N) where
  full s p o hocc hc := by
    obtain ⟨hacc, rfl, rfl⟩ := Slot.elementOccurrence_accepts hocc
    exact h.dup s p.1 p.2 hacc hc
  empty s p o hocc hc := by
    obtain ⟨hacc, rfl, rfl⟩ := Slot.elementOccurrence_accepts hocc
    refine (h.new s p.1 p.2 hacc hc).mono fun t ht => ?_
    subst ht
    cases he : S.elementEntry p.1 p.2 with
    | none => simpa [Slot.entry?, he, KeyMap.contains_eq_isSome_find?] using hc
    | some e => simp [Slot.entry?, he, S.map_put]
  other s p hocc := by
    cases hacc : S.accepts p.2
    · rw [h.skip s p.1 p.2 hacc]
      exact Yields.pure rfl
    · have hname := Slot.elementOccurrence_eq_none hocc hacc
      cases hc : (S.map s).contains p.2.name
      · refine (h.new s p.1 p.2 hacc hc).mono fun t ht => ?_
        subst ht
        cases S.elementEntry p.1 p.2 with
        | none => rfl
        | some e => simp [S.map_put, KeyMap.find?_insert_of_ne _ (Ne.symm hname)]
      · rw [h.dup s p.1 p.2 hacc hc]
        exact Yields.bind Yields.report fun _ _ => Yields.pure rfl

end Reads

/-! ## Attributes -/

theorem classify_of_ok {raw : String} {n : QualifiedName}
    (h : QualifiedName.classify raw = .ok n) (pos : Pos) : classify raw pos = pure (some n) := by
  unfold classify
  rw [h]

theorem readAttribute_of_error {s : Setter} {a : Attribute} {e : NameError}
    (h : QualifiedName.classify a.name = .error e) :
    readAttribute s a = (do report a.nameSpan.start (.invalidName e); pure s) := by
  unfold readAttribute classify
  rw [h]
  simp only [bind_assoc, pure_bind]

/-- An attribute changes at most the map of its role. -/
theorem readAttribute_frame (s : Setter) {a : Attribute} {n : QualifiedName}
    (hn : QualifiedName.classify a.name = .ok n) :
    Yields (fun t => (n.attributeRole ≠ .propertyAttribute → t.properties = s.properties) ∧
      (n.attributeRole ≠ .eventAttribute → t.handlers = s.handlers) ∧
      (n.attributeRole ≠ .environmentAttribute → t.environment = s.environment))
      (readAttribute s a) := by
  unfold readAttribute
  rw [classify_of_ok hn, pure_bind]
  dsimp only
  rcases attributeRole_cases n with hr | hr | hr | hr | hr <;> rw [hr] <;> dsimp only
  · exact Yields.pure (by split <;> simp)
  iterate 3
    split
    · exact Yields.bind Yields.report fun _ _ => Yields.pure (by simp)
    · exact Yields.pure (by simp)
  · exact Yields.bind Yields.report fun _ _ => Yields.pure (by simp)

/-- The attributes read `N` first come, first served for a map whose attribute step does. -/
theorem Slot.reads_attributes {α : Type} {S : Slot α} {N : String}
    (hown : ∀ s a n, QualifiedName.classify a.name = .ok n → n.attributeRole = S.role →
      readAttribute s a = if (S.map s).contains n.name then
        (do report a.nameSpan.start (S.duplicate n.name); pure s)
        else pure (S.put s n.name (S.attributeEntry a n)))
    (hkeep : ∀ s a n, QualifiedName.classify a.name = .ok n → n.attributeRole ≠ S.role →
      Yields (fun t => S.map t = S.map s) (readAttribute s a)) :
    S.Reads N readAttribute (S.attributeOccurrence N) where
  full s a o hocc hc := by
    obtain ⟨n, hn, hrole, rfl, rfl⟩ := Slot.attributeOccurrence_eq_some hocc
    rw [hown s a n hn hrole, if_pos hc]
    rfl
  empty s a o hocc hc := by
    obtain ⟨n, hn, hrole, rfl, rfl⟩ := Slot.attributeOccurrence_eq_some hocc
    rw [hown s a n hn hrole, if_neg (by simp [hc])]
    exact Yields.pure (by simp [Slot.entry?, S.map_put])
  other s a hocc := by
    cases hn : QualifiedName.classify a.name with
    | error e =>
      rw [readAttribute_of_error hn]
      exact Yields.bind Yields.report fun _ _ => Yields.pure rfl
    | ok n =>
      by_cases hrole : n.attributeRole = S.role
      · have hname := Slot.attributeOccurrence_eq_none hocc hn hrole
        rw [hown s a n hn hrole]
        split
        · exact Yields.bind Yields.report fun _ _ => Yields.pure rfl
        · exact Yields.pure (by simp [S.map_put, KeyMap.find?_insert_of_ne _ (Ne.symm hname)])
      · exact (hkeep s a n hn hrole).mono fun t ht => by rw [ht]

theorem readAttribute_property {s : Setter} {a : Attribute} {n : QualifiedName}
    (hn : QualifiedName.classify a.name = .ok n) (hrole : n.attributeRole = .propertyAttribute) :
    readAttribute s a = if s.properties.contains n.name then
      (do report a.nameSpan.start (.duplicatedProperty n.name); pure s)
      else pure (Slot.properties.put s n.name (Slot.properties.attributeEntry a n)) := by
  unfold readAttribute
  rw [classify_of_ok hn, pure_bind]
  dsimp only
  rw [hrole]
  rfl

theorem readAttribute_event {s : Setter} {a : Attribute} {n : QualifiedName}
    (hn : QualifiedName.classify a.name = .ok n) (hrole : n.attributeRole = .eventAttribute) :
    readAttribute s a = if s.handlers.contains n.name then
      (do report a.nameSpan.start (.duplicatedEvent n.name); pure s)
      else pure (Slot.handlers.put s n.name (Slot.handlers.attributeEntry a n)) := by
  unfold readAttribute
  rw [classify_of_ok hn, pure_bind]
  dsimp only
  rw [hrole]
  rfl

theorem readAttribute_environment {s : Setter} {a : Attribute} {n : QualifiedName}
    (hn : QualifiedName.classify a.name = .ok n) (hrole : n.attributeRole = .environmentAttribute) :
    readAttribute s a = if s.environment.contains n.name then
      (do report a.nameSpan.start (.duplicatedEnvironment n.name); pure s)
      else pure (Slot.environment.put s n.name (Slot.environment.attributeEntry a n)) := by
  unfold readAttribute
  rw [classify_of_ok hn, pure_bind]
  dsimp only
  rw [hrole]
  rfl

/-! ## The steps of the loops, map by map -/

/-- A property step changes only the properties. -/
theorem propertyStep_frame (s : Setter) (c : Element) (n : QualifiedName) :
    Yields (fun t => t.handlers = s.handlers ∧ t.environment = s.environment)
      (propertyStep s c n) := by
  unfold propertyStep
  split
  · exact Yields.pure ⟨rfl, rfl⟩
  · split
    · exact Yields.bind Yields.report fun _ _ => Yields.pure ⟨rfl, rfl⟩
    · refine Yields.bind (Yields.true _) fun values _ => ?_
      split
      · exact Yields.pure ⟨rfl, rfl⟩
      · exact Yields.pure ⟨rfl, rfl⟩

/-- An event step changes only the handlers. -/
theorem eventStep_frame (s : Setter) (c : Element) (n : QualifiedName) :
    Yields (fun t => t.properties = s.properties ∧ t.environment = s.environment)
      (eventStep s c n) := by
  unfold eventStep
  split
  · exact Yields.pure ⟨rfl, rfl⟩
  · split
    · exact Yields.bind Yields.report fun _ _ => Yields.pure ⟨rfl, rfl⟩
    · split
      · dsimp only
        split
        · exact Yields.bind Yields.report fun _ _ => Yields.pure ⟨rfl, rfl⟩
        · exact Yields.pure ⟨rfl, rfl⟩
      · exact Yields.bind Yields.report fun _ _ => Yields.pure ⟨rfl, rfl⟩

/-- An environment step changes only the environment. -/
theorem environmentStep_frame (s : Setter) (c : Element) (n : QualifiedName) :
    Yields (fun t => t.properties = s.properties ∧ t.handlers = s.handlers)
      (environmentStep s c n) := by
  unfold environmentStep
  split
  · exact Yields.pure ⟨rfl, rfl⟩
  · split
    · exact Yields.bind Yields.report fun _ _ => Yields.pure ⟨rfl, rfl⟩
    · split
      · exact Yields.pure ⟨rfl, rfl⟩
      · exact Yields.bind Yields.report fun _ _ => Yields.pure ⟨rfl, rfl⟩

theorem propertyStep_steps : Slot.properties.Steps propertyStep where
  skip s c n hacc := by
    have hacc' : n.isPropertyElementName = false := hacc
    simp [propertyStep, hacc']
  dup s c n hacc hc := by
    have hacc' : n.isPropertyElementName = true := hacc
    have hc' : s.properties.contains n.name = true := hc
    simp [propertyStep, Slot.properties, hacc', hc']
  new s c n hacc hc := by
    have hacc' : n.isPropertyElementName = true := hacc
    have hc' : s.properties.contains n.name = false := hc
    unfold propertyStep
    rw [if_neg (by simp [hacc']), if_neg (by simp [hc'])]
    -- the values do not depend on what was reported before
    refine Yields.bind (Yields.of_appends (propertyValues_appends c n) rfl) fun values hv => ?_
    subst hv
    simp only [Slot.properties]
    split <;> exact Yields.pure (by simp [*])

theorem eventStep_steps : Slot.handlers.Steps eventStep where
  skip s c n hacc := by
    have hacc' : n.isEventElementName = false := hacc
    simp [eventStep, hacc']
  dup s c n hacc hc := by
    have hacc' : n.isEventElementName = true := hacc
    have hc' : s.handlers.contains n.name = true := hc
    simp [eventStep, Slot.handlers, hacc', hc']
  new s c n hacc hc := by
    have hacc' : n.isEventElementName = true := hacc
    have hc' : s.handlers.contains n.name = false := hc
    unfold eventStep
    rw [if_neg (by simp [hacc']), if_neg (by simp [hc'])]
    simp only [Slot.handlers]
    rcases soleScript c.children with _ | ⟨script, pos, _ | _⟩
    · exact Yields.bind Yields.report fun _ _ => Yields.pure rfl
    · exact Yields.pure rfl
    · exact Yields.bind Yields.report fun _ _ => Yields.pure rfl

theorem environmentStep_steps : Slot.environment.Steps environmentStep where
  skip s c n hacc := by
    have hacc' : n.isEnvironmentElementName = false := hacc
    simp [environmentStep, hacc']
  dup s c n hacc hc := by
    have hacc' : n.isEnvironmentElementName = true := hacc
    have hc' : s.environment.contains n.name = true := hc
    simp [environmentStep, Slot.environment, hacc', hc']
  new s c n hacc hc := by
    have hacc' : n.isEnvironmentElementName = true := hacc
    have hc' : s.environment.contains n.name = false := hc
    unfold environmentStep
    rw [if_neg (by simp [hacc']), if_neg (by simp [hc'])]
    simp only [Slot.environment]
    rcases environmentEntry c with _ | ⟨value, pos⟩
    · exact Yields.bind Yields.report fun _ _ => Yields.pure rfl
    · exact Yields.pure rfl

theorem propertyStep_reads (N : String) :
    Slot.properties.Reads N (fun s (p : Element × QualifiedName) => propertyStep s p.1 p.2)
      (Slot.properties.elementOccurrence N) :=
  propertyStep_steps.reads

theorem eventStep_reads (N : String) :
    Slot.handlers.Reads N (fun s (p : Element × QualifiedName) => eventStep s p.1 p.2)
      (Slot.handlers.elementOccurrence N) :=
  eventStep_steps.reads

theorem environmentStep_reads (N : String) :
    Slot.environment.Reads N (fun s (p : Element × QualifiedName) => environmentStep s p.1 p.2)
      (Slot.environment.elementOccurrence N) :=
  environmentStep_steps.reads

/-- Each loop skips the child elements of the other two. -/
theorem propertyFold_skip {p : Element × QualifiedName} (h : p.2.isPropertyElementName = false)
    (pre post : List (Element × QualifiedName)) (s : Setter) :
    (pre ++ p :: post).foldlM (fun s p => propertyStep s p.1 p.2) s =
      (pre ++ post).foldlM (fun s p => propertyStep s p.1 p.2) s :=
  foldlM_skip (fun s => by simp [propertyStep, h]) pre post s

theorem eventFold_skip {p : Element × QualifiedName} (h : p.2.isEventElementName = false)
    (pre post : List (Element × QualifiedName)) (s : Setter) :
    (pre ++ p :: post).foldlM (fun s p => eventStep s p.1 p.2) s =
      (pre ++ post).foldlM (fun s p => eventStep s p.1 p.2) s :=
  foldlM_skip (fun s => by simp [eventStep, h]) pre post s

theorem environmentFold_skip {p : Element × QualifiedName}
    (h : p.2.isEnvironmentElementName = false) (pre post : List (Element × QualifiedName))
    (s : Setter) :
    (pre ++ p :: post).foldlM (fun s p => environmentStep s p.1 p.2) s =
      (pre ++ post).foldlM (fun s p => environmentStep s p.1 p.2) s :=
  foldlM_skip (fun s => by simp [environmentStep, h]) pre post s

/-- The three kinds of child elements are told apart by their category. -/
theorem elementNames_apart (n : QualifiedName) :
    (n.isPropertyElementName = true → n.isEventElementName = false ∧
      n.isEnvironmentElementName = false) ∧
    (n.isEventElementName = true → n.isPropertyElementName = false ∧
      n.isEnvironmentElementName = false) ∧
    (n.isEnvironmentElementName = true → n.isPropertyElementName = false ∧
      n.isEventElementName = false) := by
  simp only [isPropertyElementName, isEventElementName, isEnvironmentElementName,
    isEnvironmentAttributeName, Bool.and_eq_true, beq_iff_eq]
  refine ⟨?_, ?_, ?_⟩ <;> intro h <;> simp_all

/-- Over the three loops, the entry of `N` ends as the first entry any of them puts in. -/
theorem loops_find? {α : Type} {S : Slot α} {N : String}
    {occ₁ occ₂ occ₃ : Element × QualifiedName → Option Occurrence}
    (h₁ : S.Reads N (fun s (p : Element × QualifiedName) => propertyStep s p.1 p.2) occ₁)
    (h₂ : S.Reads N (fun s (p : Element × QualifiedName) => eventStep s p.1 p.2) occ₂)
    (h₃ : S.Reads N (fun s (p : Element × QualifiedName) => environmentStep s p.1 p.2) occ₃)
    (l : List (Element × QualifiedName)) (s : Setter) :
    Yields (fun t => (S.map t).find? N =
      ((((S.map s).find? N).or ((l.filterMap occ₁).findSome? S.entry?)).or
        ((l.filterMap occ₂).findSome? S.entry?)).or ((l.filterMap occ₃).findSome? S.entry?))
      (loops l s) :=
  Yields.bind (h₁.foldlM_find? l s) fun t ht => Yields.bind (h₂.foldlM_find? l t) fun u hu =>
    (h₃.foldlM_find? l u).mono fun v hv => by rw [hv, hu, ht]

/-- What `fill` needs of a map to keep the first entry of `N`. -/
structure Slot.Lawful {α : Type} (S : Slot α) (N : String) : Prop where
  attributes : S.Reads N readAttribute (S.attributeOccurrence N)
  loopsFind : ∀ l s, Yields (fun t => (S.map t).find? N =
    ((S.map s).find? N).or ((l.filterMap (S.elementOccurrence N)).findSome? S.entry?)) (loops l s)
  loopsDrop : ∀ pre p post o s, S.elementOccurrence N p = some o →
    ((S.map s).find? N).or ((pre.filterMap (S.elementOccurrence N)).findSome? S.entry?) ≠ none →
    OneMore (o.position, S.duplicate N) Eq (loops (pre ++ p :: post) s) (loops (pre ++ post) s)
  find_withDefault : ∀ pos defaults s,
    (S.map (withDefault pos defaults s)).find? N = (S.map s).find? N
  find_initial : ∀ pos, (S.map { tagPos := pos }).find? N = none
  inert : ∀ n, S.accepts n = true → n.isCtorName = false ∧ (n.elementRole == .unrecognized) = false

theorem Slot.properties_lawful {N : String} (hN : N ≠ "") : Slot.properties.Lawful N where
  attributes := Slot.reads_attributes (fun _ _ _ hn hrole => readAttribute_property hn hrole)
    fun s _ _ hn hrole => (readAttribute_frame s hn).mono fun _ ht => ht.1 hrole
  loopsFind l s := (loops_find? (propertyStep_reads N)
    (Slot.reads_foreign fun s c n => (eventStep_frame s c n).mono fun _ h => h.1)
    (Slot.reads_foreign fun s c n => (environmentStep_frame s c n).mono fun _ h => h.1) l s).mono
      fun _ ht => by simpa using ht
  loopsDrop pre p post o s hp hstored := by
    obtain ⟨hacc, -, rfl⟩ := Slot.elementOccurrence_accepts hp
    have hapart := (elementNames_apart p.2).1 hacc
    unfold loops
    rw [(propertyStep_reads N).foldlM_drop hp hstored,
      List.foldlM_append (f := fun s (p : Element × QualifiedName) => propertyStep s p.1 p.2)]
    simp only [bind_assoc, eventFold_skip hapart.1, environmentFold_skip hapart.2]
    refine OneMore.bind_left (Yields.true _) fun t _ => OneMore.report_bind ?_
    exact Appends.bind (propertyFold_appends _ _) fun _ =>
      Appends.bind (eventFold_appends _ _) fun _ => environmentFold_appends _ _
  find_withDefault pos defaults s := by
    unfold withDefault
    split
    · rfl
    · exact KeyMap.find?_insert_of_ne _ hN
  find_initial _ := rfl
  inert n h := by
    have h' : n.isPropertyElementName = true := h
    have := (elementNames_apart n).1 h'
    simp_all [QualifiedName.elementRole, QualifiedName.isCtorName,
      QualifiedName.isPropertyElementName]

theorem Slot.handlers_lawful (N : String) : Slot.handlers.Lawful N where
  attributes := Slot.reads_attributes (fun _ _ _ hn hrole => readAttribute_event hn hrole)
    fun s _ _ hn hrole => (readAttribute_frame s hn).mono fun _ ht => ht.2.1 hrole
  loopsFind l s := (loops_find?
    (Slot.reads_foreign fun s c n => (propertyStep_frame s c n).mono fun _ h => h.1)
    (eventStep_reads N)
    (Slot.reads_foreign fun s c n => (environmentStep_frame s c n).mono fun _ h => h.2) l s).mono
      fun _ ht => by simpa using ht
  loopsDrop pre p post o s hp hstored := by
    obtain ⟨hacc, -, rfl⟩ := Slot.elementOccurrence_accepts hp
    have hapart := (elementNames_apart p.2).2.1 hacc
    unfold loops
    simp only [propertyFold_skip hapart.1, environmentFold_skip hapart.2]
    refine OneMore.bind_left ((Slot.reads_foreign (S := Slot.handlers) (N := N)
      fun s c n => (propertyStep_frame s c n).mono fun _ h => h.1).foldlM_find? _ s)
      fun t ht => ?_
    rw [(eventStep_reads N).foldlM_drop hp (by simpa [ht] using hstored),
      List.foldlM_append (f := fun s (p : Element × QualifiedName) => eventStep s p.1 p.2)]
    simp only [bind_assoc]
    refine OneMore.bind_left (Yields.true _) fun u _ => OneMore.report_bind ?_
    exact Appends.bind (eventFold_appends _ _) fun _ => environmentFold_appends _ _
  find_withDefault pos defaults s := by
    unfold withDefault
    split <;> rfl
  find_initial _ := rfl
  inert n h := by
    have h' : n.isEventElementName = true := h
    have := (elementNames_apart n).2.1 h'
    simp_all [QualifiedName.elementRole, QualifiedName.isCtorName, QualifiedName.isEventElementName]

theorem Slot.environment_lawful (N : String) : Slot.environment.Lawful N where
  attributes := Slot.reads_attributes (fun _ _ _ hn hrole => readAttribute_environment hn hrole)
    fun s _ _ hn hrole => (readAttribute_frame s hn).mono fun _ ht => ht.2.2 hrole
  loopsFind l s := (loops_find?
    (Slot.reads_foreign fun s c n => (propertyStep_frame s c n).mono fun _ h => h.2)
    (Slot.reads_foreign fun s c n => (eventStep_frame s c n).mono fun _ h => h.2)
    (environmentStep_reads N) l s).mono fun _ ht => by simpa using ht
  loopsDrop pre p post o s hp hstored := by
    obtain ⟨hacc, -, rfl⟩ := Slot.elementOccurrence_accepts hp
    have hapart := (elementNames_apart p.2).2.2 hacc
    unfold loops
    simp only [propertyFold_skip hapart.1, eventFold_skip hapart.2]
    refine OneMore.bind_left ((Slot.reads_foreign (S := Slot.environment) (N := N)
      fun s c n => (propertyStep_frame s c n).mono fun _ h => h.2).foldlM_find? _ s)
      fun t ht => ?_
    refine OneMore.bind_left ((Slot.reads_foreign (S := Slot.environment) (N := N)
      fun s c n => (eventStep_frame s c n).mono fun _ h => h.2).foldlM_find? _ t)
      fun u hu => ?_
    rw [(environmentStep_reads N).foldlM_drop hp (by simpa [hu, ht] using hstored),
      List.foldlM_append (f := fun s (p : Element × QualifiedName) => environmentStep s p.1 p.2)]
    refine OneMore.bind_left (Yields.true _) fun v _ => OneMore.report_bind ?_
    exact environmentFold_appends _ _
  find_withDefault pos defaults s := by
    unfold withDefault
    split <;> rfl
  find_initial _ := rfl
  inert n h := by
    have h' : n.isEnvironmentElementName = true := h
    have := (elementNames_apart n).2.2 h'
    simp_all [QualifiedName.elementRole, QualifiedName.isCtorName,
      QualifiedName.isEnvironmentElementName, QualifiedName.isEnvironmentAttributeName]

/-! ## Leaving a later occurrence out -/

theorem classified_append (l₁ l₂ : List Node) :
    classified (l₁ ++ l₂) = classified l₁ ++ classified l₂ :=
  List.filterMap_append

/-- Leaving out a child element whose name reads changes nothing that classifying reports. -/
theorem classifyChildren_drop {c : Element} {n : QualifiedName}
    (hc : QualifiedName.classify c.name = .ok n) {β : Type} (m : Reporting β) :
    ∀ pre post : List Node, (classifyChildren (pre ++ .element c :: post) >>= fun _ => m) =
      (classifyChildren (pre ++ post) >>= fun _ => m)
  | [], post => by
    rw [List.nil_append, List.nil_append, classifyChildren, classify_of_ok hc]
    simp only [bind_assoc, pure_bind]
  | .element c' :: pre, post => by
    simp only [List.cons_append, classifyChildren, bind_assoc, pure_bind]
    exact bind_congr fun _ => classifyChildren_drop hc m pre post
  | .text .. :: pre, post => by
    simp only [List.cons_append, classifyChildren]
    exact classifyChildren_drop hc m pre post
  | .cdata .. :: pre, post => by
    simp only [List.cons_append, classifyChildren]
    exact classifyChildren_drop hc m pre post

/-- A child element in another role adds no constructor child and no report. -/
theorem ctorChildren_drop {c : Element} {n : QualifiedName}
    (hc : QualifiedName.classify c.name = .ok n) (hctor : n.isCtorName = false)
    (hrole : (n.elementRole == .unrecognized) = false) :
    ∀ pre post : List Node,
      ctorChildren (pre ++ .element c :: post) (classesOf (pre ++ .element c :: post)) =
        ctorChildren (pre ++ post) (classesOf (pre ++ post))
  | [], post => by
    rw [List.nil_append, List.nil_append, (classified_named hc).2, ctorChildren]
    simp [hctor, hrole]
  | .element c' :: pre, post => by
    cases hc' : QualifiedName.classify c'.name with
    | ok n' =>
      rw [List.cons_append, List.cons_append, (classified_named hc').2,
        (classified_named hc').2, ctorChildren, ctorChildren,
        ctorChildren_drop hc hctor hrole pre post]
    | error e =>
      rw [List.cons_append, List.cons_append, (classified_unnamed hc').2,
        (classified_unnamed hc').2, ctorChildren, ctorChildren,
        ctorChildren_drop hc hctor hrole pre post]
  | .text .. :: pre, post => by
    rw [List.cons_append, List.cons_append, classesOf_text, classesOf_text, ctorChildren,
      ctorChildren, ctorChildren_drop hc hctor hrole pre post]
  | .cdata .. :: pre, post => by
    rw [List.cons_append, List.cons_append, classesOf_cdata, classesOf_cdata, ctorChildren,
      ctorChildren, ctorChildren_drop hc hctor hrole pre post]

theorem defaultContent_eq_map (children : List Node) (classes : List (Option QualifiedName)) :
    defaultContent children classes =
      (soleText children ++ ·) <$> ctorChildren children classes := by
  rw [defaultContent, map_eq_pure_bind]

/-- A setter without its default content. -/
def withoutDefault (s : Setter) : Setter :=
  { s with properties := ⟨s.properties.entries.filter (·.1 != "")⟩ }

theorem withoutDefault_withDefault (pos : Pos) (defaults : List Value) (s : Setter) :
    withoutDefault (withDefault pos defaults s) = withoutDefault s := by
  unfold withDefault
  split
  · rfl
  · simp only [withoutDefault, KeyMap.insert, KeyMap.filter_insertSorted_empty]

/-- Two setters that differ at most in their default content. -/
def AgreeBesidesDefault (s s' : Setter) : Prop :=
  withoutDefault s = withoutDefault s'

theorem attributeOccurrence_of_key {α : Type} {S : Slot α} {N : String} {a : Attribute}
    (h : attributeKey S.role a = some N) :
    ∃ n, S.attributeOccurrence N a = some (.attribute a n) := by
  unfold attributeKey at h
  split at h
  · rename_i n hn
    split at h
    · rename_i hrole
      cases h
      exact ⟨n, by simp [Slot.attributeOccurrence, hn, hrole]⟩
    · cases h
  · cases h

theorem elementKey_of_some {p : QualifiedName → Bool} {c : Element} {N : String}
    (h : elementKey p (.element c) = some N) :
    ∃ n, QualifiedName.classify c.name = .ok n ∧ p n = true ∧ n.name = N := by
  cases hn : QualifiedName.classify c.name with
  | ok n =>
    rw [elementKey_of_classify hn] at h
    by_cases hp : p n = true
    · rw [if_pos hp] at h
      cases h
      exact ⟨n, rfl, hp, rfl⟩
    · rw [if_neg hp] at h
      cases h
  | error e => simp [elementKey, hn] at h

/-! ## The first occurrence wins -/

/-- The first occurrence of `N` for the map of `S` wins. Each later occurrence adds one
duplicate report at its name, and dropping it changes the setter at most in its default
content. -/
structure Slot.FirstWins {α : Type} (S : Slot α) (N : String) (span : Span)
    (attrs : List Attribute) (children : List Node) : Prop where
  entry : ∀ log, (S.map ((fill span attrs children).run log).1).find? N =
    (S.occurrences N attrs children).findSome? S.entry?
  laterAttribute : ∀ pre a post, attrs = pre ++ a :: post → attributeKey S.role a = some N →
    (S.occurrences N pre []).findSome? S.entry? ≠ none →
    OneMore (a.nameSpan.start, S.duplicate N) AgreeBesidesDefault
      (fill span attrs children) (fill span (pre ++ post) children)
  laterElement : ∀ pre c post, children = pre ++ .element c :: post →
    elementKey S.accepts (.element c) = some N →
    (S.occurrences N attrs pre).findSome? S.entry? ≠ none →
    OneMore (c.nameSpan.start, S.duplicate N) AgreeBesidesDefault
      (fill span attrs children) (fill span attrs (pre ++ post))

/-- Everything after the attributes only appends. -/
theorem afterAttributes_appends (span : Span) (children : List Node) (s : Setter) :
    Appends (do
      let _ ← classifyChildren children
      let defaults ← defaultContent children (classesOf children)
      let s ← loops (classified children) s
      pure (withDefault span.start defaults s)) :=
  Appends.bind (classifyChildren_appends _) fun _ =>
    Appends.bind (defaultContent_appends _ _) fun _ =>
      Appends.bind (loops_appends _ _) fun _ => Appends.pure _

theorem Slot.Lawful.firstWins {α : Type} {S : Slot α} {N : String} (h : S.Lawful N)
    (span : Span) (attrs : List Attribute) (children : List Node) :
    S.FirstWins N span attrs children where
  entry log := by
    have hfill : Yields (fun t => (S.map t).find? N =
        (S.occurrences N attrs children).findSome? S.entry?) (fill span attrs children) := by
      rw [fill_eq_defaultLast]
      refine Yields.bind (h.attributes.foldlM_find? attrs _) fun s hs =>
        Yields.bind (Yields.true _) fun _ _ => Yields.bind (Yields.true _) fun defaults _ =>
          Yields.bind (h.loopsFind _ s) fun t ht => Yields.pure ?_
      rw [h.find_withDefault, ht, hs, h.find_initial, Option.none_or, Slot.occurrences,
        List.findSome?_append]
    exact hfill log
  laterAttribute pre a post hattrs hkey hstored := by
    obtain ⟨n, hocc⟩ := attributeOccurrence_of_key hkey
    subst hattrs
    have hbefore : ((S.map { tagPos := span.start }).find? N).or
        ((pre.filterMap (S.attributeOccurrence N)).findSome? S.entry?) ≠ none := by
      rw [h.find_initial, Option.none_or]
      simpa only [Slot.occurrences, classified, List.filterMap_nil, List.append_nil] using hstored
    rw [fill_eq_defaultLast, fill_eq_defaultLast, h.attributes.foldlM_drop hocc hbefore,
      List.foldlM_append (f := readAttribute)]
    simp only [bind_assoc]
    refine OneMore.bind_left (Yields.true _) fun t _ => ?_
    refine (OneMore.report_bind ?_).mono fun _ _ hv => congrArg withoutDefault hv
    exact Appends.bind (Appends.foldlM readAttribute_appends _ _) fun s =>
      afterAttributes_appends span children s
  laterElement pre c post hchildren hkey hstored := by
    obtain ⟨n, hc, hacc, rfl⟩ := elementKey_of_some hkey
    have hocc : S.elementOccurrence n.name (c, n) = some (.element c n) := by
      simp [Slot.elementOccurrence, hacc]
    obtain ⟨hctor, hrole⟩ := h.inert n hacc
    subst hchildren
    rw [fill_eq_defaultLast, fill_eq_defaultLast]
    refine OneMore.bind_left (h.attributes.foldlM_find? attrs _) fun s hs => ?_
    rw [classifyChildren_drop hc]
    refine OneMore.bind_left (Yields.true _) fun _ _ => ?_
    rw [defaultContent_eq_map, defaultContent_eq_map, ctorChildren_drop hc hctor hrole,
      bind_map_left, bind_map_left]
    refine OneMore.bind_left (Yields.true _) fun more _ => ?_
    rw [classified_append, classified_append, (classified_named hc).1]
    simp only [← map_eq_pure_bind]
    refine (h.loopsDrop _ _ _ _ s hocc ?_).map fun t t' htt' => ?_
    · rw [hs, h.find_initial, Option.none_or]
      simpa [Slot.occurrences, List.findSome?_append] using hstored
    · subst htt'
      simp only [AgreeBesidesDefault, withoutDefault_withDefault]

/-- In every setter that `fill` builds, the first occurrence of a name wins, for the
properties, the event handlers and the environment variables alike, and a later occurrence
is reported once, with its message, at its name. -/
theorem fill_keeps_first_occurrence (span : Span) (attrs : List Attribute)
    (children : List Node) {N : String} (hN : N ≠ "") :
    Slot.properties.FirstWins N span attrs children ∧
      Slot.handlers.FirstWins N span attrs children ∧
      Slot.environment.FirstWins N span attrs children ∧
      (Slot.properties.duplicate N).message = s!"Duplicated property \"{N}\"." ∧
      (Slot.handlers.duplicate N).message = s!"Duplicated event \"{N}\"." ∧
      (Slot.environment.duplicate N).message = s!"Duplicated environment variable \"{N}\"." :=
  ⟨(Slot.properties_lawful hN).firstWins span attrs children,
    (Slot.handlers_lawful N).firstWins span attrs children,
    (Slot.environment_lawful N).firstWins span attrs children, rfl, rfl, rfl⟩

/-- A property given as an attribute and again as an element. -/
theorem fill_keeps_first_occurrence_sample :
    "Text" ≠ "" ∧
      Slot.properties.FirstWins "Text" {} [{ name := "Text", value := "attr" }]
        [.element { name := "att.Text", children := [.text "element"] }] ∧
      Slot.handlers.FirstWins "Text" {} [{ name := "Text", value := "attr" }]
        [.element { name := "att.Text", children := [.text "element"] }] ∧
      Slot.environment.FirstWins "Text" {} [{ name := "Text", value := "attr" }]
        [.element { name := "att.Text", children := [.text "element"] }] ∧
      (Slot.properties.duplicate "Text").message = "Duplicated property \"Text\"." ∧
      (Slot.handlers.duplicate "Text").message = "Duplicated event \"Text\"." ∧
      (Slot.environment.duplicate "Text").message =
        "Duplicated environment variable \"Text\"." :=
  ⟨by decide, fill_keeps_first_occurrence _ _ _ (by decide)⟩

/-- A later `att.Text` element is still one of the children: beside it the text is no longer
the only child, so the default content is lost, while the element itself only reports that
`Text` is duplicated. -/
theorem fill_later_element_drops_default_content :
    let attrs : List Attribute := [{ name := "Text", value := "a" }]
    let later : Node := .element { name := "att.Text", children := [.text "b"] }
    let loaded := (fill {} attrs [.text "hello", later]).run #[]
    loaded.1.properties.find? "" = none ∧ loaded.2 = #[({}, .duplicatedProperty "Text")] ∧
      ((fill {} attrs [.text "hello"]).run #[]).1.properties.find? "" ≠ none := by
  intro attrs later loaded
  have hattr : QualifiedName.classify "Text" = .ok { name := "Text" } := by decide
  have hlater :
      QualifiedName.classify "att.Text" = .ok { category := some "att", name := "Text" } := by
    decide
  -- running `fill` leaves closed map operations on literal keys
  refine ⟨?_, ?_, ?_⟩
  all_goals
    simp [loaded, later, attrs, fill, classifyChildren, classify, readAttribute, defaultContent,
      ctorChildren, soleText, readProperties, readEvents, readEnvironment, hattr, hlater,
      attributeRole, elementRole, isCtorName, isReferenceAttributeName,
      isEnvironmentAttributeName, isPropertyAttributeName, isEventAttributeName,
      isPropertyElementName, isEventElementName, isEnvironmentElementName]
    decide

end Loader

end GuiMarkup
