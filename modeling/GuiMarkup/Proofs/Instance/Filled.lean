import GuiMarkup.Proofs.Instance.Loops
import GuiMarkup.Proofs.Instance.Depth
import GuiMarkup.Proofs.Instance.Layout

/-! Every setter that loading gives is `Filled`: its maps are in ascending order of names
and its values stand beside their names as the loader puts them. -/

namespace GuiMarkup

open QualifiedName Markup

/-- What every step of `fill` keeps: maps ordered by name, and bindings as the loader puts them. -/
structure SetterOf.Ordered (s : Setter) : Prop where
  properties : s.properties.Sorted
  handlers : s.handlers.Sorted
  environment : s.environment.Sorted
  unbound : ∀ p ∈ s.properties.find? "", p.binding = none
  nested : ∀ kp ∈ s.properties.entries, Value.isSingleText kp.2.values = false →
    (kp.2.binding = some setBinding ↔ ∃ t, kp.2.values = [.setter t])

/-- A setter as `fill` leaves it: ordered, with a text as default content only beside texts. -/
structure SetterOf.Filled (s : Setter) : Prop extends SetterOf.Ordered s where
  textAlone : ∀ p ∈ s.properties.find? "", Value.isSingleText p.values = true →
    ∀ kp ∈ s.properties.entries, Value.isSingleText kp.2.values = true

/-- A setter part way through `fill`: ordered, with every value filled at every depth. -/
def SetterOf.Filling (s : Setter) : Prop :=
  s.Ordered ∧ ∀ kp ∈ s.properties.entries, ∀ v ∈ kp.2.values, v.EverySetter SetterOf.Filled

/-- A setter whose properties are each of one text, as attributes alone give them. -/
def SetterOf.SingleTexts (s : Setter) : Prop :=
  ∀ kp ∈ s.properties.entries, Value.isSingleText kp.2.values = true

namespace SetterOf.Filling

variable {s : Setter}

theorem empty (pos : Pos) : SetterOf.Filling { tagPos := pos } :=
  ⟨⟨List.Pairwise.nil, List.Pairwise.nil, List.Pairwise.nil, by simp [KeyMap.find?], by simp⟩,
    by simp⟩

/-- A property under a name keeps the default content and the order. -/
theorem insertNamed (h : s.Filling) {k : String} (hk : k ≠ "") {p : Property}
    (hnested : Value.isSingleText p.values = false →
      (p.binding = some setBinding ↔ ∃ t, p.values = [.setter t]))
    (hvals : ∀ v ∈ p.values, v.EverySetter SetterOf.Filled) :
    SetterOf.Filling { s with properties := s.properties.insert k p } := by
  obtain ⟨hord, hbelow⟩ := h
  refine ⟨⟨hord.properties.insert k p, hord.handlers, hord.environment, ?_, ?_⟩, ?_⟩
  · rw [KeyMap.find?_insert_of_ne _ (Ne.symm hk)]
    exact hord.unbound
  · intro kp hkp
    rcases KeyMap.mem_insertSorted hkp with rfl | hkp
    · exact hnested
    · exact hord.nested kp hkp
  · intro kp hkp
    rcases KeyMap.mem_insertSorted hkp with rfl | hkp
    · exact hvals
    · exact hbelow kp hkp

/-- Default content of texts and constructors goes in without a binding. -/
theorem insertDefault (h : s.Filling) {vs : List Value} (pos : Pos)
    (hvs : ∀ v ∈ vs, (∀ t, v ≠ .setter t) ∧ v.EverySetter SetterOf.Filled) :
    SetterOf.Filling
      { s with properties := s.properties.insert "" { values := vs, attPos := pos } } := by
  obtain ⟨hord, hbelow⟩ := h
  refine ⟨⟨hord.properties.insert _ _, hord.handlers, hord.environment, by simp, ?_⟩, ?_⟩
  · intro kp hkp
    rcases KeyMap.mem_insertSorted hkp with rfl | hkp
    · refine fun _ => iff_of_false (by simp) ?_
      rintro ⟨t, ht⟩
      have ht' : vs = [.setter t] := ht
      exact (hvs _ (by simp [ht'])).1 t rfl
    · exact hord.nested kp hkp
  · intro kp hkp
    rcases KeyMap.mem_insertSorted hkp with rfl | hkp
    · exact fun v hv => (hvs v hv).2
    · exact hbelow kp hkp

theorem insertHandler (h : s.Filling) (k : String) (hd : Handler) :
    SetterOf.Filling { s with handlers := s.handlers.insert k hd } :=
  ⟨⟨h.1.properties, h.1.handlers.insert k hd, h.1.environment, h.1.unbound, h.1.nested⟩, h.2⟩

theorem insertEnvironment (h : s.Filling) (k : String) (v : EnvEntry) :
    SetterOf.Filling { s with environment := s.environment.insert k v } :=
  ⟨⟨h.1.properties, h.1.handlers, h.1.environment.insert k v, h.1.unbound, h.1.nested⟩, h.2⟩

theorem setInstanceName (h : s.Filling) (n : Option InstanceName) :
    SetterOf.Filling { s with instanceName := n } :=
  ⟨⟨h.1.properties, h.1.handlers, h.1.environment, h.1.unbound, h.1.nested⟩, h.2⟩

/-- A filling setter whose text default content stands beside texts only is filled throughout. -/
theorem everySetter (h : s.Filling)
    (halone : ∀ p ∈ s.properties.find? "", Value.isSingleText p.values = true →
      SetterOf.SingleTexts s) :
    s.EverySetter SetterOf.Filled :=
  SetterOf.everySetter_iff.2 ⟨{ h.1 with textAlone := halone }, h.2⟩

end SetterOf.Filling

namespace Loader

/-! ## Attributes, events and environment elements -/

/-- What the attributes leave: a filling setter of named properties of one text each. -/
def AttributesFilled (s : Setter) : Prop :=
  s.Filling ∧ s.SingleTexts ∧ s.properties.find? "" = none

theorem readAttribute_filled {s : Setter} (a : Attribute) (hs : AttributesFilled s) :
    Yields AttributesFilled (readAttribute s a) := by
  obtain ⟨hfill, hsingle, hnone⟩ := hs
  unfold readAttribute
  refine Yields.bind (classify_wellFormed _ _) fun o ho => ?_
  cases o with
  | none => exact Yields.pure ⟨hfill, hsingle, hnone⟩
  | some n =>
    have hne : n.name ≠ "" := isIdent_ne_empty (ho n rfl).name
    dsimp only
    split
    · exact Yields.pure (by split <;> exact ⟨hfill.setInstanceName _, hsingle, hnone⟩)
    · split
      · exact Yields.bind Yields.report fun _ _ => Yields.pure ⟨hfill, hsingle, hnone⟩
      · exact Yields.pure ⟨hfill.insertEnvironment _ _, hsingle, hnone⟩
    · split
      · exact Yields.bind Yields.report fun _ _ => Yields.pure ⟨hfill, hsingle, hnone⟩
      · refine Yields.pure ⟨hfill.insertNamed hne (by simp [Value.isSingleText])
          (by simp), fun kp hkp => ?_, by rwa [KeyMap.find?_insert_of_ne _ (Ne.symm hne)]⟩
        rcases KeyMap.mem_insertSorted hkp with rfl | hkp
        · rfl
        · exact hsingle kp hkp
    · split
      · exact Yields.bind Yields.report fun _ _ => Yields.pure ⟨hfill, hsingle, hnone⟩
      · exact Yields.pure ⟨hfill.insertHandler _ _, hsingle, hnone⟩
    · exact Yields.bind Yields.report fun _ _ => Yields.pure ⟨hfill, hsingle, hnone⟩

theorem foldAttributes_filled (attrs : List Attribute) (pos : Pos) :
    Yields AttributesFilled (attrs.foldlM readAttribute { tagPos := pos }) :=
  Yields.foldlM (fun _ a hs => readAttribute_filled a hs) attrs _
    ⟨.empty pos, by simp [SetterOf.SingleTexts], by simp [KeyMap.find?]⟩

/-- An event step keeps a setter filling and its properties as they were. -/
theorem eventStep_filled {props : KeyMap Property} (s : Setter) (c : Element) (n : QualifiedName)
    (hs : s.Filling ∧ s.properties = props) :
    Yields (fun t => t.Filling ∧ t.properties = props) (eventStep s c n) := by
  unfold eventStep
  split
  · exact Yields.pure hs
  · split
    · exact Yields.bind Yields.report fun _ _ => Yields.pure hs
    · split
      · have hs' := hs.1.insertHandler n.name
        dsimp only
        split
        · exact Yields.bind Yields.report fun _ _ => Yields.pure ⟨hs' _, hs.2⟩
        · exact Yields.pure ⟨hs' _, hs.2⟩
      · exact Yields.bind Yields.report fun _ _ => Yields.pure hs

/-- An environment step keeps a setter filling and its properties as they were. -/
theorem environmentStep_filled {props : KeyMap Property} (s : Setter) (c : Element)
    (n : QualifiedName) (hs : s.Filling ∧ s.properties = props) :
    Yields (fun t => t.Filling ∧ t.properties = props) (environmentStep s c n) := by
  unfold environmentStep
  split
  · exact Yields.pure hs
  · split
    · exact Yields.bind Yields.report fun _ _ => Yields.pure hs
    · split
      · exact Yields.pure ⟨hs.1.insertEnvironment _ _, hs.2⟩
      · exact Yields.bind Yields.report fun _ _ => Yields.pure hs

/-- The event and environment elements keep a setter filling and its properties. -/
theorem readEventsEnvironment_filled (s : Setter) (children : List Node) (hs : s.Filling) :
    Yields (fun t => t.Filling ∧ t.properties = s.properties) (do
      let s ← readEvents s children (classesOf children)
      readEnvironment s children (classesOf children)) := by
  simp only [readEvents_loop.eq_foldlM, readEnvironment_loop.eq_foldlM]
  refine Yields.bind (Yields.foldlM (fun t (p : Element × QualifiedName) ht =>
    @eventStep_filled s.properties t p.1 p.2 ht) (classified children) s ⟨hs, rfl⟩)
    fun t ht => ?_
  exact Yields.foldlM (fun u (p : Element × QualifiedName) hu =>
    @environmentStep_filled s.properties u p.1 p.2 hu) (classified children) t ht

/-- Beside a sole text or CDATA child there is no property element. -/
theorem readProperties_of_soleText {children : List Node} (h : soleText children ≠ [])
    (s : Setter) (classes : List (Option QualifiedName)) :
    readProperties s children classes = pure s := by
  unfold soleText at h
  split at h
  · rw [readProperties, readProperties]
  · rw [readProperties, readProperties]
  · exact absurd rfl h

/-! ## Constructors, setters and default content -/

/-- Default content as `defaultContent` gives it: a sole text, or constructors. -/
def DefaultShape (children : List Node) (vs : List Value) : Prop :=
  (soleText children ≠ [] ∧ vs = soleText children) ∨
    (soleText children = [] ∧ ∀ v ∈ vs, v.asCtor?.isSome)

theorem DefaultShape.not_setter {children : List Node} {vs : List Value}
    (h : DefaultShape children vs) : ∀ v ∈ vs, ∀ t, v ≠ .setter t := by
  rintro v hv t rfl
  rcases h with ⟨-, rfl⟩ | ⟨-, hctors⟩
  · unfold soleText at hv
    split at hv <;> simp at hv
  · have := hctors _ hv
    simp [Value.asCtor?] at this

/-- What loading keeps in order, per function of the loader. -/
def CtorFilled (x : Element) : Prop :=
  Yields (fun o => ∀ c ∈ o, c.setter.EverySetter SetterOf.Filled) (ctor x)

def FillFilled (span : Span) (attrs : List Attribute) (children : List Node) : Prop :=
  Yields (·.EverySetter SetterOf.Filled) (fill span attrs children)

def PropertiesFilled (s : Setter) (children : List Node) (classes : List (Option QualifiedName)) :
    Prop :=
  s.Filling → ClassesRead classes → Yields (fun t => t.Filling ∧
    t.properties.find? "" = s.properties.find? "") (readProperties s children classes)

def DefaultFilled (children : List Node) (classes : List (Option QualifiedName)) : Prop :=
  Yields (fun vs => DefaultShape children vs ∧ ∀ v ∈ vs, v.EverySetter SetterOf.Filled)
    (defaultContent children classes)

def CtorsFilled (children : List Node) (classes : List (Option QualifiedName)) : Prop :=
  Yields (fun vs => ∀ v ∈ vs, v.asCtor?.isSome ∧ v.EverySetter SetterOf.Filled)
    (ctorChildren children classes)

theorem appendFilledCtors {more : Reporting (List Value)}
    (hmore : Yields (fun vs => ∀ v ∈ vs, v.asCtor?.isSome ∧ v.EverySetter SetterOf.Filled) more)
    (here : List Value) (hhere : ∀ v ∈ here, v.asCtor?.isSome ∧ v.EverySetter SetterOf.Filled) :
    Yields (fun vs => ∀ v ∈ vs, v.asCtor?.isSome ∧ v.EverySetter SetterOf.Filled)
      (do let more ← more; pure (here ++ more)) :=
  Yields.bind hmore fun _ hm => Yields.pure fun v hv =>
    (List.mem_append.1 hv).elim (hhere v) (hm v)

/-- A named property element keeps a setter filling and its default content. -/
theorem insertNamed_filled {s : Setter} (hs : s.Filling) {n : QualifiedName} (hn : n.WellFormed)
    {values : List Value} (pos : Pos)
    (hnested : Value.isSingleText values = false →
      (n.binding = some setBinding ↔ ∃ t, values = [.setter t]))
    (hvals : ∀ v ∈ values, v.EverySetter SetterOf.Filled) :
    let t : Setter := { s with properties := (s.properties.insert n.name
      { binding := n.binding, values := values, attPos := pos }) }
    t.Filling ∧ t.properties.find? "" = s.properties.find? "" := by
  have hne := isIdent_ne_empty hn.name
  exact ⟨hs.insertNamed hne hnested hvals, KeyMap.find?_insert_of_ne _ (Ne.symm hne)⟩

theorem filled_all :
    (∀ x, CtorFilled x) ∧ (∀ span attrs children, FillFilled span attrs children) ∧
      (∀ s children classes, PropertiesFilled s children classes) ∧
      (∀ children classes, DefaultFilled children classes) ∧
      (∀ children classes, CtorsFilled children classes) := by
  apply Loader.ctor.mutual_induct CtorFilled FillFilled PropertiesFilled DefaultFilled CtorsFilled
  · intro name nameSpan span attrs children hfill
    unfold CtorFilled
    rw [ctor]
    refine Yields.bind (Yields.true _) fun o _ => ?_
    cases o with
    | none => exact Yields.pure (by simp)
    | some n =>
      dsimp only
      split
      · exact Yields.bind Yields.report fun _ _ => Yields.pure (by simp)
      · refine Yields.bind hfill fun s hs => Yields.pure ?_
        rintro c ⟨⟩
        exact hs
  · intro span attrs children hdefault hprops
    unfold FillFilled
    rw [fill]
    refine Yields.bind (foldAttributes_filled attrs span.start) fun s hs => ?_
    refine Yields.bind (P := fun classes => classes = classesOf children ∧ ClassesRead classes)
      (fun log => ⟨classifyChildren_classesOf children log, fun o ho n hn =>
        (classify_eq_ok ((classifyChildren_named children log) o ho n hn).choose_spec.2).1⟩)
      fun classes hclasses => ?_
    obtain ⟨hcl, hread⟩ := hclasses
    subst hcl
    refine Yields.bind (hdefault _) fun defaults hdefaults => ?_
    obtain ⟨hshape, hvals⟩ := hdefaults
    have hprops := hprops s (classesOf children) defaults
    simp only [dite_eq_ite] at hprops
    dsimp only
    have hs₁ : SetterOf.Filling (if defaults.isEmpty = true then s else
        { s with properties := s.properties.insert "" { values := defaults, attPos := span.start } }) := by
      split
      · exact hs.1
      · exact hs.1.insertDefault _ fun v hv => ⟨hshape.not_setter v hv, hvals v hv⟩
    rcases hshape with ⟨hsole, rfl⟩ | ⟨hsole, hctors⟩
    · -- a sole text child leaves no property element: every property is one text
      rw [readProperties_of_soleText hsole, pure_bind]
      rw [if_neg (by simpa using hsole)] at hs₁ ⊢
      refine (readEventsEnvironment_filled _ children hs₁).mono fun s₃ hs₃ => ?_
      refine hs₃.1.everySetter fun _ _ _ kp hkp => ?_
      rw [hs₃.2] at hkp
      rcases KeyMap.mem_insertSorted hkp with rfl | hkp
      · obtain ⟨t, pos, ht, -⟩ := (soleText_cases children).resolve_left hsole
        simp [ht, Value.isSingleText]
      · exact hs.2.1 kp hkp
    · refine Yields.bind (hprops hs₁ hread) fun s₂ hs₂ => ?_
      refine (readEventsEnvironment_filled s₂ children hs₂.1).mono fun s₃ hs₃ => ?_
      refine hs₃.1.everySetter fun p hp hsingle => absurd hsingle ?_
      rw [hs₃.2, hs₂.2] at hp
      split at hp
      · rw [hs.2.2] at hp
        cases hp
      · simp only [KeyMap.find?_insert_self, Option.mem_def, Option.some.injEq] at hp
        subst hp
        simpa using Value.isSingleText_of_ctors hctors
  · intro s name cnameSpan cspan cattrs cchildren rest n classes hnot ih hs hcl
    rw [readProperties, if_pos hnot]
    exact ih s hs hcl.tail
  · intro s name cnameSpan cspan cattrs cchildren rest n classes hnot hc ih hs hcl
    rw [readProperties, if_neg hnot, if_pos hc]
    exact Yields.bind Yields.report fun _ _ => ih s hs hcl.tail
  · intro s name cnameSpan cspan cattrs cchildren rest n classes hnot hc hset ih hfill hs hcl
    have hn : n.WellFormed := hcl.head n rfl
    rw [readProperties, if_neg hnot, if_neg hc]
    dsimp only
    rw [if_pos hset]
    refine Yields.bind hfill fun nested hnested => ?_
    obtain ⟨hs', hkeep⟩ := @insertNamed_filled _ hs _ hn [.setter nested] cspan.start
      (fun _ => ⟨fun _ => ⟨nested, rfl⟩, fun _ => by simpa using hset⟩) (by simpa using hnested)
    exact (ih _ hs' hcl.tail).mono fun _ h => ⟨h.1, h.2.trans hkeep⟩
  · intro s name cnameSpan cspan cattrs cchildren rest n classes hnot hc hset ih hdefault hs hcl
    have hn : n.WellFormed := hcl.head n rfl
    rw [readProperties, if_neg hnot, if_neg hc]
    dsimp only
    rw [if_neg hset]
    refine Yields.bind (Yields.true _) fun grand _ => ?_
    refine Yields.bind (hdefault grand) fun values hvalues => ?_
    obtain ⟨hshape, hvals⟩ := hvalues
    split
    · exact ih s hs hcl.tail
    · have hnested : Value.isSingleText values = false →
          (n.binding = some setBinding ↔ ∃ t, values = [.setter t]) := fun _ =>
        iff_of_false (by simpa using hset) fun ht => by
          obtain ⟨t, ht⟩ := ht
          exact hshape.not_setter _ (by simp [ht]) t rfl
      obtain ⟨hs', hkeep⟩ := insertNamed_filled hs hn cspan.start hnested hvals
      exact (ih _ hs' hcl.tail).mono fun _ h => ⟨h.1, h.2.trans hkeep⟩
  · intro s tag rest classes ih hs hcl
    rw [readProperties]
    exact ih hs hcl.tail
  · intro s tag tail hs _
    rw [readProperties]
    exact Yields.pure ⟨hs, rfl⟩
  · intro s content span rest classes ih hs hcl
    rw [readProperties]
    exact ih hs hcl
  · intro s content span rest classes ih hs hcl
    rw [readProperties]
    exact ih hs hcl
  · intro s classes hs _
    rw [readProperties]
    exact Yields.pure ⟨hs, rfl⟩
  · intro children classes hctors
    unfold DefaultFilled
    rw [defaultContent]
    rcases soleText_cases children with h | ⟨t, pos, h, hnil⟩
    · refine Yields.bind hctors fun more hmore => Yields.pure ?_
      rw [h, List.nil_append]
      exact ⟨.inr ⟨h, fun v hv => (hmore v hv).1⟩, fun v hv => (hmore v hv).2⟩
    · rw [hnil classes]
      refine Yields.bind (P := fun more => more = []) (Yields.pure rfl) fun more hm => ?_
      subst hm
      exact Yields.pure ⟨.inl ⟨by simp [h], by simp⟩, by simp [h]⟩
  · intro c rest n classes hctor ihrest ihc
    unfold CtorsFilled
    rw [ctorChildren, if_pos hctor]
    refine Yields.bind ihc fun o ho => ?_
    cases o with
    | some v =>
      exact appendFilledCtors ihrest [.ctor v] (by simpa [Value.asCtor?] using ho v rfl)
    | none => exact appendFilledCtors ihrest [] (by simp)
  · intro c rest n classes hctor hunknown ihrest
    unfold CtorsFilled
    rw [ctorChildren, if_neg hctor, if_pos hunknown]
    exact Yields.bind Yields.report fun _ _ => appendFilledCtors ihrest [] (by simp)
  · intro c rest n classes hctor hknown ihrest
    unfold CtorsFilled
    rw [ctorChildren, if_neg hctor, if_neg hknown]
    exact appendFilledCtors ihrest [] (by simp)
  · intro tag rest classes ihrest
    unfold CtorsFilled
    rw [ctorChildren]
    exact ihrest
  · intro tag tail
    unfold CtorsFilled
    rw [ctorChildren]
    exact Yields.pure (by simp)
  · intro content span rest classes ihrest
    unfold CtorsFilled
    rw [ctorChildren]
    exact ihrest
  · intro content span rest classes ihrest
    unfold CtorsFilled
    rw [ctorChildren]
    exact ihrest
  · intro classes
    unfold CtorsFilled
    rw [ctorChildren]
    exact Yields.pure (by simp)

/-- Every setter, at any depth, of a constructor that loading gives is filled. -/
theorem ctor_filled (x : Element) (log : Array (Pos × Issue)) {c : Ctor}
    (h : ((ctor x).run log).1 = some c) : c.setter.EverySetter SetterOf.Filled :=
  filled_all.1 x log c h

end Loader

end GuiMarkup
