import GuiMarkup.Proofs.Instance.Duplicates
import GuiMarkup.Proofs.Markup.Parsed

/-! Every attribute and child element that `fill` reads is kept in the setter, reported,
or one of the two kinds it passes over (`EveryPartAccounted`). -/

namespace GuiMarkup

open QualifiedName Markup

namespace Loader

/-! ## Reports of a run -/

/-- Every report of a run of `m` from the empty log is a report of a run of `m'`. -/
def Within {α β : Type} (m : Reporting α) (m' : Reporting β) : Prop :=
  ∀ d ∈ (m.run #[]).2, d ∈ (m'.run #[]).2

/-- A run of `m` from the empty log reports something at `p`. -/
def ReportsAt {α : Type} (p : Pos) (m : Reporting α) : Prop :=
  ∃ issue, (p, issue) ∈ (m.run #[]).2

namespace Within

variable {α β γ : Type}

theorem trans {m : Reporting α} {m' : Reporting β} {m'' : Reporting γ} (h : Within m m')
    (h' : Within m' m'') : Within m m'' :=
  fun d hd => h' d (h d hd)

theorem refl (m : Reporting α) : Within m m := fun _ hd => hd

/-- What runs first reports within the whole run. -/
theorem bind_left {m₀ : Reporting γ} {m : Reporting α} {f : α → Reporting β} (h : Within m₀ m)
    (hf : ∀ a, Appends (f a)) : Within m₀ (m >>= f) := fun d hd => by
  show d ∈ ((f (m.run #[]).1).run (m.run #[]).2).2
  rw [hf _ _]
  exact Array.mem_append_left _ (h d hd)

/-- What runs next, from the value that ran first, reports within the whole run. -/
theorem bind_right {m₀ : Reporting γ} {m : Reporting α} {f : α → Reporting β}
    (hf : Appends (f (m.run #[]).1)) (h : Within m₀ (f (m.run #[]).1)) :
    Within m₀ (m >>= f) := fun d hd => by
  show d ∈ ((f (m.run #[]).1).run (m.run #[]).2).2
  rw [hf _]
  exact Array.mem_append_right _ (h d hd)

/-- A run whose value is mapped reports what the run reports. -/
theorem map (f : α → β) (m : Reporting α) : Within m (f <$> m) := fun _ hd => hd

/-- The step at each item of a fold reports within the fold. -/
theorem foldlM_step {σ : Type} {f : σ → β → Reporting σ} (hf : ∀ s x, Appends (f s x))
    (pre post : List β) (x : β) (s : σ) :
    Within (f ((pre.foldlM f s).run #[]).1 x) ((pre ++ x :: post).foldlM f s) := by
  simp only [List.foldlM_append, List.foldlM_cons]
  exact bind_right (Appends.bind (hf _ x) fun u => Appends.foldlM hf post u)
    (bind_left (refl _) fun u => Appends.foldlM hf post u)

end Within

theorem ReportsAt.within {α β : Type} {p : Pos} {m : Reporting α} {m' : Reporting β}
    (h : ReportsAt p m) (hw : Within m m') : ReportsAt p m' :=
  let ⟨issue, hi⟩ := h
  ⟨issue, hw _ hi⟩

/-- A report followed by a run that only appends. -/
theorem reportsAt_report_bind {α : Type} (p : Pos) (issue : Issue) {f : Unit → Reporting α}
    (hf : ∀ u, Appends (f u)) : ReportsAt p (report p issue >>= f) :=
  ReportsAt.within ⟨issue, by
    show (p, issue) ∈ (#[] : Array (Pos × Issue)).push (p, issue)
    simp⟩ (Within.bind_left (Within.refl _) hf)

/-- The report that one run makes beyond another is one of its reports. -/
theorem OneMore.reportsAt {α β : Type} {d : Pos × Issue} {R : α → β → Prop} {m : Reporting α}
    {m' : Reporting β} (h : OneMore d R m m') : ReportsAt d.1 m := by
  obtain ⟨l₁, l₂, h₁, -, -⟩ := h #[]
  refine ⟨d.2, ?_⟩
  rw [Array.mem_def, h₁]
  simp

/-! ## Where `fill` reads each part -/

/-- What `fill` does after the attributes, from the setter they give. -/
def afterAttributes (span : Span) (children : List Node) (s : Setter) : Reporting Setter := do
  let _ ← classifyChildren children
  let defaults ← defaultContent children (classesOf children)
  let s ← loops (classified children) s
  pure (withDefault span.start defaults s)

theorem fill_eq_afterAttributes (span : Span) (attrs : List Attribute) (children : List Node) :
    fill span attrs children =
      attrs.foldlM readAttribute { tagPos := span.start } >>= afterAttributes span children := by
  rw [fill_eq_defaultLast]
  rfl

/-- The setter that the attributes of an element give. -/
def attributesSetter (span : Span) (attrs : List Attribute) : Setter :=
  ((attrs.foldlM readAttribute { tagPos := span.start }).run #[]).1

section Parts

variable {span : Span} {attrs : List Attribute} {children : List Node}

theorem within_fill {α : Type} {m : Reporting α}
    (h : Within m (afterAttributes span children (attributesSetter span attrs))) :
    Within m (fill span attrs children) := by
  rw [fill_eq_afterAttributes]
  exact Within.bind_right (afterAttributes_appends span children _) h

/-- An attribute is read from the setter that the attributes before it give. -/
theorem readAttribute_within_fill {pre post : List Attribute} {a : Attribute}
    (h : attrs = pre ++ a :: post) :
    Within (readAttribute (attributesSetter span pre) a) (fill span attrs children) := by
  rw [fill_eq_afterAttributes, h]
  exact Within.bind_left (Within.foldlM_step readAttribute_appends pre post a _)
    fun s => afterAttributes_appends span children s

theorem classifyChildren_within_fill :
    Within (classifyChildren children) (fill span attrs children) := by
  refine within_fill ?_
  unfold afterAttributes
  exact Within.bind_left (Within.refl _) fun _ => Appends.bind (defaultContent_appends _ _)
    fun _ => Appends.bind (loops_appends _ _) fun _ => Appends.pure _

theorem defaultContent_within_fill :
    Within (defaultContent children (classesOf children)) (fill span attrs children) := by
  refine within_fill ?_
  unfold afterAttributes
  refine Within.bind_right (Appends.bind (defaultContent_appends _ _) fun _ =>
    Appends.bind (loops_appends _ _) fun _ => Appends.pure _) ?_
  exact Within.bind_left (Within.refl _) fun _ =>
    Appends.bind (loops_appends _ _) fun _ => Appends.pure _

theorem loops_within_fill :
    Within (loops (classified children) (attributesSetter span attrs))
      (fill span attrs children) := by
  refine within_fill ?_
  unfold afterAttributes
  refine Within.bind_right (Appends.bind (defaultContent_appends _ _) fun _ =>
    Appends.bind (loops_appends _ _) fun _ => Appends.pure _) ?_
  refine Within.bind_right (Appends.bind (loops_appends _ _) fun _ => Appends.pure _) ?_
  exact Within.bind_left (Within.refl _) fun _ => Appends.pure _

/-! ## Child elements -/

theorem mem_classified {c : Element} {n : QualifiedName}
    (hc : Node.element c ∈ children) (hn : QualifiedName.classify c.name = .ok n) :
    (c, n) ∈ classified children := by
  simp only [classified, List.mem_filterMap]
  exact ⟨.element c, hc, by simp [hn, Except.toOption]⟩

theorem propertyStep_within_loops {l : List (Element × QualifiedName)}
    {p : Element × QualifiedName} (hp : p ∈ l) (s : Setter) :
    ∃ t, Within (propertyStep t p.1 p.2) (loops l s) := by
  obtain ⟨pre, post, rfl⟩ := List.append_of_mem hp
  unfold loops
  exact ⟨_, Within.bind_left
    (Within.foldlM_step (fun s p => propertyStep_appends s p.1 p.2) pre post p s)
    fun t => Appends.bind (eventFold_appends _ t) fun u => environmentFold_appends _ u⟩

theorem eventStep_within_loops {l : List (Element × QualifiedName)}
    {p : Element × QualifiedName} (hp : p ∈ l) (s : Setter) :
    ∃ t, Within (eventStep t p.1 p.2) (loops l s) := by
  obtain ⟨pre, post, rfl⟩ := List.append_of_mem hp
  unfold loops
  exact ⟨_, Within.bind_right
    (Appends.bind (eventFold_appends _ _) fun u => environmentFold_appends _ u)
    (Within.bind_left (Within.foldlM_step (fun s p => eventStep_appends s p.1 p.2) pre post p _)
      fun u => environmentFold_appends _ u)⟩

theorem environmentStep_within_loops {l : List (Element × QualifiedName)}
    {p : Element × QualifiedName} (hp : p ∈ l) (s : Setter) :
    ∃ t, Within (environmentStep t p.1 p.2) (loops l s) := by
  obtain ⟨pre, post, rfl⟩ := List.append_of_mem hp
  unfold loops
  exact ⟨_, Within.bind_right
    (Appends.bind (eventFold_appends _ _) fun u => environmentFold_appends _ u)
    (Within.bind_right (environmentFold_appends _ _)
      (Within.foldlM_step (fun s p => environmentStep_appends s p.1 p.2) pre post p _))⟩

/-- A loop that steps over a named child steps over it within `fill`. -/
theorem step_within_fill {step : Setter → Element → QualifiedName → Reporting Setter}
    {c : Element} {n : QualifiedName}
    (hstep : ∀ (l : List (Element × QualifiedName)) s, (c, n) ∈ l →
      ∃ t, Within (step t c n) (loops l s))
    (hc : Node.element c ∈ children) (hn : QualifiedName.classify c.name = .ok n) :
    ∃ t, Within (step t c n) (fill span attrs children) :=
  let ⟨t, ht⟩ := hstep _ _ (mem_classified hc hn)
  ⟨t, ht.trans loops_within_fill⟩

theorem classify_within_classifyChildren {c : Element} :
    ∀ {children : List Node}, Node.element c ∈ children →
      Within (classify c.name c.nameSpan.start) (classifyChildren children)
  | .element c' :: rest, h => by
    rw [classifyChildren]
    rcases List.mem_cons.1 h with h | h
    · cases h
      exact Within.bind_left (Within.refl _) fun _ =>
        Appends.bind (classifyChildren_appends rest) fun _ => Appends.pure _
    · exact Within.bind_right
        (Appends.bind (classifyChildren_appends rest) fun _ => Appends.pure _)
        (Within.bind_left (classify_within_classifyChildren h) fun _ => Appends.pure _)
  | .text .. :: rest, h => by
    simp only [classifyChildren]
    exact classify_within_classifyChildren ((List.mem_cons.1 h).resolve_left fun h => by cases h)
  | .cdata .. :: rest, h => by
    simp only [classifyChildren]
    exact classify_within_classifyChildren ((List.mem_cons.1 h).resolve_left fun h => by cases h)

/-- What the default content takes from a child element named `n`. -/
def ctorChild (c : Element) (n : QualifiedName) : Reporting (List Value) :=
  if n.isCtorName then do
    match ← ctor c with
    | some v => pure [Value.ctor v]
    | none => pure []
  else if n.elementRole == .unrecognized then do
    report c.nameSpan.start (.unknownElement c.name); pure []
  else pure []

theorem ctorChildren_named (c : Element) (rest : List Node) (n : QualifiedName)
    (classes : List (Option QualifiedName)) :
    ctorChildren (.element c :: rest) (some n :: classes) = (do
      let here ← ctorChild c n
      let more ← ctorChildren rest classes
      pure (here ++ more)) := by
  rw [ctorChildren]
  unfold ctorChild
  split
  · simp only [bind_assoc]
    refine bind_congr fun o => ?_
    cases o <;> simp
  · split <;> simp

theorem ctorChild_appends (c : Element) (n : QualifiedName) : Appends (ctorChild c n) := by
  unfold ctorChild
  split
  · refine Appends.bind (appends_all.1 c) fun o => ?_
    cases o <;> exact Appends.pure _
  · split
    · exact Appends.reportThen _ _ _
    · exact Appends.pure _

theorem ctorChildren_appends (children : List Node) (classes : List (Option QualifiedName)) :
    Appends (ctorChildren children classes) :=
  appends_all.2.2.2.2 children classes

/-- The default content takes every named child element in turn, with its values and reports. -/
theorem ctorChild_within_ctorChildren {c : Element} {n : QualifiedName}
    (hn : QualifiedName.classify c.name = .ok n) :
    ∀ {children : List Node}, Node.element c ∈ children →
      Within (ctorChild c n) (ctorChildren children (classesOf children)) ∧
        Yields (fun vs => ∀ v ∈ ((ctorChild c n).run #[]).1, v ∈ vs)
          (ctorChildren children (classesOf children))
  | .element c' :: rest, h => by
    cases hc' : QualifiedName.classify c'.name with
    | ok n' =>
      rw [(classified_named hc').2, ctorChildren_named]
      have htail : ∀ here, Appends (do
          let more ← ctorChildren rest (classesOf rest)
          pure (here ++ more)) := fun _ =>
        Appends.bind (ctorChildren_appends _ _) fun _ => Appends.pure _
      rcases List.mem_cons.1 h with h | h
      · cases h
        rw [hn] at hc'
        cases hc'
        refine ⟨Within.bind_left (Within.refl _) htail, ?_⟩
        refine Yields.bind (Yields.of_appends (ctorChild_appends c n) rfl) fun here hh =>
          Yields.bind (Yields.true _) fun more _ => Yields.pure fun v hv => ?_
        exact List.mem_append_left _ (hh ▸ hv)
      · obtain ⟨hw, hy⟩ := ctorChild_within_ctorChildren hn h
        refine ⟨Within.bind_right (htail _) (Within.bind_left hw fun _ => Appends.pure _), ?_⟩
        exact Yields.bind (Yields.true _) fun here _ => Yields.bind hy fun more hm =>
          Yields.pure fun v hv => List.mem_append_right _ (hm v hv)
    | error e =>
      rw [(classified_unnamed hc').2, ctorChildren]
      rcases List.mem_cons.1 h with h | h
      · cases h
        rw [hn] at hc'
        cases hc'
      · exact ctorChild_within_ctorChildren hn h
  | .text .. :: rest, h => by
    rw [classesOf_text, ctorChildren]
    exact ctorChild_within_ctorChildren hn ((List.mem_cons.1 h).resolve_left fun h => by cases h)
  | .cdata .. :: rest, h => by
    rw [classesOf_cdata, ctorChildren]
    exact ctorChild_within_ctorChildren hn ((List.mem_cons.1 h).resolve_left fun h => by cases h)

end Parts

/-! ## What each step reports -/

theorem readAttribute_reportsAt_of_error {s : Setter} {a : Attribute} {e : NameError}
    (h : QualifiedName.classify a.name = .error e) :
    ReportsAt a.nameSpan.start (readAttribute s a) := by
  rw [readAttribute_of_error h]
  exact reportsAt_report_bind _ _ fun _ => Appends.pure _

theorem readAttribute_reportsAt_of_unrecognized {s : Setter} {a : Attribute} {n : QualifiedName}
    (hn : QualifiedName.classify a.name = .ok n) (hrole : n.attributeRole = .unrecognized) :
    ReportsAt a.nameSpan.start (readAttribute s a) := by
  unfold readAttribute
  rw [classify_of_ok hn, pure_bind]
  dsimp only
  rw [hrole]
  exact reportsAt_report_bind _ _ fun _ => Appends.pure _

theorem classify_reportsAt_of_error {raw : String} {e : NameError} (pos : Pos)
    (h : QualifiedName.classify raw = .error e) : ReportsAt pos (classify raw pos) := by
  unfold classify
  rw [h]
  exact reportsAt_report_bind _ _ fun _ => Appends.pure _

theorem ctorChild_reportsAt_of_unrecognized {c : Element} {n : QualifiedName}
    (hrole : n.elementRole = .unrecognized) : ReportsAt c.nameSpan.start (ctorChild c n) := by
  have hctor : n.isCtorName = false := by
    unfold QualifiedName.elementRole at hrole
    split at hrole
    · cases hrole
    · simp_all
  unfold ctorChild
  rw [if_neg (by simp [hctor]), if_pos (by simp [hrole])]
  exact reportsAt_report_bind _ _ fun _ => Appends.pure _

/-- An `ev.X` element without a sole text is reported, as a duplicate or as no script. -/
theorem eventStep_reportsAt {c : Element} {n : QualifiedName} (hev : n.isEventElementName = true)
    (hnone : soleScript c.children = none) (s : Setter) :
    ReportsAt c.nameSpan.start (eventStep s c n) ∨ ReportsAt c.span.start (eventStep s c n) := by
  unfold eventStep
  rw [if_neg (by simp [hev])]
  split
  · exact .inl (reportsAt_report_bind _ _ fun _ => Appends.pure _)
  · rw [hnone]
    exact .inr (reportsAt_report_bind _ _ fun _ => Appends.pure _)

/-- An `env.X` element without a value is reported, as a duplicate or as no text. -/
theorem environmentStep_reportsAt {c : Element} {n : QualifiedName}
    (henv : n.isEnvironmentElementName = true) (hnone : environmentEntry c = none) (s : Setter) :
    ReportsAt c.nameSpan.start (environmentStep s c n) ∨
      ReportsAt c.span.start (environmentStep s c n) := by
  unfold environmentStep
  rw [if_neg (by simp [henv])]
  split
  · exact .inl (reportsAt_report_bind _ _ fun _ => Appends.pure _)
  · rw [hnone]
    exact .inr (reportsAt_report_bind _ _ fun _ => Appends.pure _)

/-- An `att.X` element is reported as a duplicate, or its content is read. -/
theorem propertyStep_reportsAt_or_reads {c : Element} {n : QualifiedName}
    (hatt : n.isPropertyElementName = true) (s : Setter) :
    ReportsAt c.nameSpan.start (propertyStep s c n) ∨
      Within (propertyValues c n) (propertyStep s c n) := by
  unfold propertyStep
  rw [if_neg (by simp [hatt])]
  split
  · exact .inl (reportsAt_report_bind _ _ fun _ => Appends.pure _)
  · refine .inr (Within.bind_left (Within.refl _) fun values => ?_)
    split <;> exact Appends.pure _

/-! ## What `fill` gives -/

/-- The constructor that an element named by the constructor name `n` loads to around `s`. -/
def ctorOf (c : Element) (n : QualifiedName) (s : Setter) : Ctor :=
  { typeNamespace := n.qualifier, typeName := n.name, styleName := styleOf c.attributes,
    setter := s }

theorem ctor_of_ctorName {c : Element} {n : QualifiedName}
    (hn : QualifiedName.classify c.name = .ok n) (hctor : n.isCtorName = true) :
    ctor c = (fun s => some (ctorOf c n s)) <$> fill c.span c.attributes c.children := by
  obtain ⟨name, nameSpan, span, attrs, children⟩ := c
  rw [ctor, classify_of_ok hn]
  simp [hctor, ctorOf]

theorem ctorChild_of_ctorName {c : Element} {n : QualifiedName}
    (hn : QualifiedName.classify c.name = .ok n) (hctor : n.isCtorName = true) :
    ctorChild c n =
      (fun s => [Value.ctor (ctorOf c n s)]) <$> fill c.span c.attributes c.children := by
  unfold ctorChild
  rw [if_pos hctor, ctor_of_ctorName hn hctor]
  simp

/-- The setter that `fill` gives: the loops, then the default content. -/
theorem fill_value (span : Span) (attrs : List Attribute) (children : List Node) :
    ((fill span attrs children).run #[]).1 =
      withDefault span.start ((defaultContent children (classesOf children)).run #[]).1
        ((loops (classified children) (attributesSetter span attrs)).run #[]).1 := by
  have hfill : Yields (· = withDefault span.start
      ((defaultContent children (classesOf children)).run #[]).1
      ((loops (classified children) (attributesSetter span attrs)).run #[]).1)
      (fill span attrs children) := by
    rw [fill_eq_afterAttributes]
    refine Yields.bind (P := (· = attributesSetter span attrs))
      (Yields.of_appends (Appends.foldlM readAttribute_appends _ _) rfl) fun s hs => ?_
    subst hs
    unfold afterAttributes
    refine Yields.bind (Yields.true _) fun _ _ => ?_
    refine Yields.bind (P := (· = ((defaultContent children (classesOf children)).run #[]).1))
      (Yields.of_appends (defaultContent_appends _ _) rfl) fun defaults hd => ?_
    refine Yields.bind (P := (· = ((loops (classified children)
      (attributesSetter span attrs)).run #[]).1))
      (Yields.of_appends (loops_appends _ _) rfl) fun t ht => Yields.pure ?_
    rw [hd, ht]
  exact hfill #[]

/-! ## A map keeps the entry of each part, or the part is reported -/

section Slots

variable {α : Type} {S : Slot α} {N : String} {span : Span} {attrs : List Attribute}
  {children : List Node}

/-- An attribute that is an occurrence of `N` keeps its own entry, or is reported as a duplicate. -/
theorem Slot.Lawful.keeps_attribute (h : S.Lawful N) {pre post : List Attribute} {a : Attribute}
    {n : QualifiedName} (hattrs : attrs = pre ++ a :: post)
    (hocc : S.attributeOccurrence N a = some (.attribute a n)) :
    (S.map ((fill span attrs children).run #[]).1).find? N = some (S.attributeEntry a n) ∨
      ReportsAt a.nameSpan.start (fill span attrs children) := by
  by_cases hstored : (S.occurrences N pre []).findSome? S.entry? = none
  · -- no attribute before it is an occurrence, since each would give an entry
    have hpre : pre.filterMap (S.attributeOccurrence N) = [] := by
      cases hl : pre.filterMap (S.attributeOccurrence N) with
      | nil => rfl
      | cons o os =>
        have ho : o ∈ pre.filterMap (S.attributeOccurrence N) := by
          rw [hl]
          exact List.mem_cons_self
        obtain ⟨b, -, hb⟩ := List.mem_filterMap.1 ho
        obtain ⟨m, -, -, -, rfl⟩ := Slot.attributeOccurrence_eq_some hb
        simp [Slot.occurrences, classified, hl, Slot.entry?] at hstored
    refine .inl ?_
    rw [(h.firstWins span attrs children).entry #[], Slot.occurrences, hattrs,
      List.filterMap_append, List.filterMap_cons_some hocc, hpre, List.nil_append,
      List.cons_append, List.findSome?_cons]
    rfl
  · obtain ⟨m, hm, hrole, hN, -⟩ := Slot.attributeOccurrence_eq_some hocc
    have hkey : attributeKey S.role a = some N := by
      rw [attributeKey_of_classify hm, if_pos hrole, hN]
    exact .inr (OneMore.reportsAt
      ((h.firstWins span attrs children).laterAttribute pre a post hattrs hkey hstored))

/-- A child element that is an occurrence of `N` and gives an entry keeps it, or is reported. -/
theorem Slot.Lawful.keeps_element (h : S.Lawful N) {pre post : List Node} {c : Element}
    {n : QualifiedName} (hchildren : children = pre ++ .element c :: post)
    (hn : QualifiedName.classify c.name = .ok n) (hacc : S.accepts n = true) (hN : n.name = N) :
    (∀ e, S.elementEntry c n = some e →
      (S.map ((fill span attrs children).run #[]).1).find? N = some e) ∨
      ReportsAt c.nameSpan.start (fill span attrs children) := by
  by_cases hstored : (S.occurrences N attrs pre).findSome? S.entry? = none
  · refine .inl fun e he => ?_
    have hocc : S.elementOccurrence N (c, n) = some (.element c n) := by
      simp [Slot.elementOccurrence, hacc, hN]
    have hsplit : S.occurrences N attrs children = S.occurrences N attrs pre ++
        .element c n :: (classified post).filterMap (S.elementOccurrence N) := by
      simp only [Slot.occurrences, hchildren, classified_append, (classified_named hn).1,
        List.filterMap_append, List.filterMap_cons_some hocc, List.append_assoc]
    rw [(h.firstWins span attrs children).entry #[], hsplit, List.findSome?_append, hstored,
      Option.none_or, List.findSome?_cons]
    simp [Slot.entry?, he]
  · have hkey : elementKey S.accepts (.element c) = some N := by
      rw [elementKey_of_classify hn, if_pos hacc, hN]
    exact .inr (OneMore.reportsAt
      ((h.firstWins span attrs children).laterElement pre c post hchildren hkey hstored))

end Slots

/-! ## The name of a setter -/

/-- Only `ref.Name` reads as the reference attribute `Name`. -/
theorem eq_refName {raw : String} {n : QualifiedName} (hn : QualifiedName.classify raw = .ok n)
    (hrole : n.attributeRole = .referenceAttribute) (hname : n.name = "Name") :
    raw = "ref.Name" := by
  obtain ⟨-, rfl⟩ := classify_eq_ok hn
  have href : n.isReferenceAttributeName = true := by
    unfold QualifiedName.attributeRole at hrole
    split at hrole
    · assumption
    · split_ifs at hrole
  obtain ⟨q, cat, name, b⟩ := n
  simp only [isReferenceAttributeName, Bool.and_eq_true, Option.isNone_iff_eq_none,
    beq_iff_eq] at href
  obtain ⟨⟨rfl, rfl⟩, rfl⟩ := href
  simp only at hname
  subst hname
  rfl

theorem readAttribute_refName {s : Setter} {a : Attribute} {n : QualifiedName}
    (hn : QualifiedName.classify a.name = .ok n) (hrole : n.attributeRole = .referenceAttribute)
    (hname : n.name = "Name") :
    readAttribute s a = pure { s with instanceName := some ⟨a.value, false⟩ } := by
  unfold readAttribute
  rw [classify_of_ok hn, pure_bind]
  dsimp only
  rw [hrole]
  simp [hname]

/-- Any attribute but `ref.Name` leaves the name of the setter alone. -/
theorem readAttribute_instanceName {s : Setter} {a : Attribute} (ha : a.name ≠ "ref.Name") :
    Yields (·.instanceName = s.instanceName) (readAttribute s a) := by
  cases hn : QualifiedName.classify a.name with
  | error e =>
    rw [readAttribute_of_error hn]
    exact Yields.bind Yields.report fun _ _ => Yields.pure rfl
  | ok n =>
    unfold readAttribute
    rw [classify_of_ok hn, pure_bind]
    dsimp only
    rcases attributeRole_cases n with hr | hr | hr | hr | hr <;> rw [hr] <;> dsimp only
    · have hname : n.name ≠ "Name" := fun h => ha (eq_refName hn hr h)
      exact Yields.pure (by simp [hname])
    iterate 3
      split
      · exact Yields.bind Yields.report fun _ _ => Yields.pure rfl
      · exact Yields.pure rfl
    · exact Yields.bind Yields.report fun _ _ => Yields.pure rfl

theorem foldlM_readAttribute_instanceName :
    ∀ (l : List Attribute) (s : Setter), (∀ b ∈ l, b.name ≠ "ref.Name") →
      Yields (·.instanceName = s.instanceName) (l.foldlM readAttribute s)
  | [], _, _ => Yields.pure rfl
  | b :: l, s, h => by
    rw [List.foldlM_cons]
    exact Yields.bind (readAttribute_instanceName (h b List.mem_cons_self)) fun t ht =>
      (foldlM_readAttribute_instanceName l t fun b hb => h b (List.mem_cons_of_mem _ hb)).mono
        fun _ hu => hu.trans ht

theorem propertyStep_instanceName (s : Setter) (c : Element) (n : QualifiedName) :
    Yields (·.instanceName = s.instanceName) (propertyStep s c n) := by
  unfold propertyStep
  split
  · exact Yields.pure rfl
  · split
    · exact Yields.bind Yields.report fun _ _ => Yields.pure rfl
    · refine Yields.bind (Yields.true _) fun values _ => ?_
      split <;> exact Yields.pure rfl

theorem eventStep_instanceName (s : Setter) (c : Element) (n : QualifiedName) :
    Yields (·.instanceName = s.instanceName) (eventStep s c n) := by
  unfold eventStep
  split
  · exact Yields.pure rfl
  · split
    · exact Yields.bind Yields.report fun _ _ => Yields.pure rfl
    · split
      · dsimp only
        split
        · exact Yields.bind Yields.report fun _ _ => Yields.pure rfl
        · exact Yields.pure rfl
      · exact Yields.bind Yields.report fun _ _ => Yields.pure rfl

theorem environmentStep_instanceName (s : Setter) (c : Element) (n : QualifiedName) :
    Yields (·.instanceName = s.instanceName) (environmentStep s c n) := by
  unfold environmentStep
  split
  · exact Yields.pure rfl
  · split
    · exact Yields.bind Yields.report fun _ _ => Yields.pure rfl
    · split
      · exact Yields.pure rfl
      · exact Yields.bind Yields.report fun _ _ => Yields.pure rfl

/-- The loops over the child elements never name the setter. -/
theorem loops_instanceName (l : List (Element × QualifiedName)) (s : Setter) :
    Yields (·.instanceName = s.instanceName) (loops l s) := by
  have hfold : ∀ {step : Setter → Element → QualifiedName → Reporting Setter},
      (∀ s c n, Yields (·.instanceName = s.instanceName) (step s c n)) → ∀ s,
        Yields (·.instanceName = s.instanceName) (l.foldlM (fun s p => step s p.1 p.2) s) :=
    fun hstep s => Yields.foldlM (Q := (·.instanceName = s.instanceName))
      (fun t p ht => (hstep t p.1 p.2).mono fun _ hu => hu.trans ht) l s rfl
  exact Yields.bind (hfold propertyStep_instanceName s) fun t ht =>
    Yields.bind (hfold eventStep_instanceName t) fun u hu =>
      (hfold environmentStep_instanceName u).mono fun _ hv => hv.trans (hu.trans ht)

/-- `ref.Name` names the setter that `fill` gives when no other attribute has its name. -/
theorem fill_instanceName {span : Span} {attrs : List Attribute} {children : List Node}
    {pre post : List Attribute} {a : Attribute} (hattrs : attrs = pre ++ a :: post)
    (hpost : ∀ b ∈ post, b.name ≠ "ref.Name") {n : QualifiedName}
    (hn : QualifiedName.classify a.name = .ok n) (hrole : n.attributeRole = .referenceAttribute)
    (hname : n.name = "Name") :
    ((fill span attrs children).run #[]).1.instanceName = some ⟨a.value, false⟩ := by
  have hattr : (attributesSetter span attrs).instanceName = some ⟨a.value, false⟩ := by
    have hfold : Yields (·.instanceName = some ⟨a.value, false⟩)
        (attrs.foldlM readAttribute { tagPos := span.start }) := by
      simp only [hattrs, List.foldlM_append, List.foldlM_cons]
      refine Yields.bind (Yields.true _) fun t _ => ?_
      rw [readAttribute_refName hn hrole hname, pure_bind]
      exact foldlM_readAttribute_instanceName post _ hpost
    exact hfold #[]
  have hloops := loops_instanceName (classified children) (attributesSetter span attrs) #[]
  rw [fill_value, ← hattr, ← hloops]
  unfold withDefault
  split <;> rfl

/-! ## Parts kept in a setter -/

/-- The attribute `a`, named `n`, is kept in `s`: as its name, or as its own map entry. -/
def Setter.KeepsAttribute (s : Setter) (a : Attribute) (n : QualifiedName) : Prop :=
  match n.attributeRole with
  | .referenceAttribute => n.name = "Name" ∧ s.instanceName = some ⟨a.value, false⟩
  | .environmentAttribute =>
    (Slot.environment.map s).find? n.name = some (Slot.environment.attributeEntry a n)
  | .propertyAttribute =>
    (Slot.properties.map s).find? n.name = some (Slot.properties.attributeEntry a n)
  | .eventAttribute => (Slot.handlers.map s).find? n.name = some (Slot.handlers.attributeEntry a n)
  | _ => False

/-- The child element `c`, named `n`, is kept by the run `m` of `fill`, with its reports. -/
def KeepsElement (m : Reporting Setter) (c : Element) (n : QualifiedName) : Prop :=
  match n.elementRole with
  | .constructor =>
    (∃ p, (m.run #[]).1.properties.find? "" = some p ∧
      Value.ctor (ctorOf c n ((fill c.span c.attributes c.children).run #[]).1) ∈ p.values) ∧
      Within (fill c.span c.attributes c.children) m
  | .propertyElement =>
    (Slot.properties.elementEntry c n).isSome ∧
      (m.run #[]).1.properties.find? n.name = Slot.properties.elementEntry c n ∧
      Within (propertyValues c n) m
  | .eventElement =>
    (Slot.handlers.elementEntry c n).isSome ∧
      (m.run #[]).1.handlers.find? n.name = Slot.handlers.elementEntry c n
  | .environmentElement =>
    (Slot.environment.elementEntry c n).isSome ∧
      (m.run #[]).1.environment.find? n.name = Slot.environment.elementEntry c n
  | _ => False

/-- Every element name lands in one of the four element roles, or in none. -/
theorem elementRole_cases (n : QualifiedName) :
    n.elementRole = .constructor ∧ n.isCtorName = true ∨
      n.elementRole = .propertyElement ∧ n.isPropertyElementName = true ∨
      n.elementRole = .eventElement ∧ n.isEventElementName = true ∨
      n.elementRole = .environmentElement ∧ n.isEnvironmentElementName = true ∨
      n.elementRole = .unrecognized := by
  unfold QualifiedName.elementRole
  split_ifs <;> simp_all

section Accounts

variable {span : Span} {attrs : List Attribute} {children : List Node}

/-- An attribute of a map role keeps its entry under its name, or is reported at its name. -/
theorem Slot.Lawful.keeps_attribute_of_mem {α : Type} {S : Slot α} {a : Attribute}
    {n : QualifiedName} (h : S.Lawful n.name) (ha : a ∈ attrs)
    (hn : QualifiedName.classify a.name = .ok n) (hrole : n.attributeRole = S.role) :
    (S.map ((fill span attrs children).run #[]).1).find? n.name = some (S.attributeEntry a n) ∨
      ReportsAt a.nameSpan.start (fill span attrs children) := by
  obtain ⟨pre, post, hsplit⟩ := List.append_of_mem ha
  exact h.keeps_attribute hsplit (by simp [Slot.attributeOccurrence, hn, hrole])

/-- A child element of a map that gives an entry keeps it, or is reported at its name. -/
theorem Slot.Lawful.keeps_element_of_mem {α : Type} {S : Slot α} {c : Element}
    {n : QualifiedName} (h : S.Lawful n.name) (hc : Node.element c ∈ children)
    (hn : QualifiedName.classify c.name = .ok n) (hacc : S.accepts n = true)
    (hsome : (S.elementEntry c n).isSome) :
    (S.map ((fill span attrs children).run #[]).1).find? n.name = S.elementEntry c n ∨
      ReportsAt c.nameSpan.start (fill span attrs children) := by
  obtain ⟨pre, post, hsplit⟩ := List.append_of_mem hc
  obtain ⟨e, he⟩ := Option.isSome_iff_exists.1 hsome
  rcases h.keeps_element hsplit hn hacc rfl with hk | hk
  · exact .inl ((hk e he).trans he.symm)
  · exact .inr hk

/-- `ref.Name` names the setter when no other attribute has its name. -/
theorem fill_keeps_refName (hnames : (attrs.map (·.name)).Nodup) {pre post : List Attribute}
    {a : Attribute} (hsplit : attrs = pre ++ a :: post) {n : QualifiedName}
    (hn : QualifiedName.classify a.name = .ok n) (hr : n.attributeRole = .referenceAttribute)
    (hname : n.name = "Name") :
    Setter.KeepsAttribute ((fill span attrs children).run #[]).1 a n := by
  -- a second ref.Name would win without a report: the names differ, so there is none
  have hpost : ∀ b ∈ post, b.name ≠ "ref.Name" := by
    intro b hb hbn
    rw [hsplit, List.map_append, List.map_cons, List.nodup_append, List.nodup_cons] at hnames
    exact hnames.2.1.1 (List.mem_map.2 ⟨b, hb, hbn.trans (eq_refName hn hr hname).symm⟩)
  unfold Setter.KeepsAttribute
  rw [hr]
  exact ⟨hname, fill_instanceName hsplit hpost hn hr hname⟩

/-- Each attribute is reported at its name, kept, or a `ref.` attribute other than `ref.Name`. -/
theorem fill_accounts_for_attribute (hnames : (attrs.map (·.name)).Nodup) {a : Attribute}
    (ha : a ∈ attrs) :
    ReportsAt a.nameSpan.start (fill span attrs children) ∨
      ∃ n, QualifiedName.classify a.name = .ok n ∧
        (Setter.KeepsAttribute ((fill span attrs children).run #[]).1 a n ∨
          n.attributeRole = .referenceAttribute ∧ n.name ≠ "Name") := by
  obtain ⟨pre, post, hsplit⟩ := List.append_of_mem ha
  cases hn : QualifiedName.classify a.name with
  | error e =>
    exact .inl ((readAttribute_reportsAt_of_error hn).within (readAttribute_within_fill hsplit))
  | ok n =>
    have hN : n.name ≠ "" := isIdent_ne_empty (classify_eq_ok hn).1.name
    rcases attributeRole_cases n with hr | hr | hr | hr | hr
    · by_cases hname : n.name = "Name"
      · exact .inr ⟨n, rfl, .inl (fill_keeps_refName hnames hsplit hn hr hname)⟩
      · exact .inr ⟨n, rfl, .inr ⟨hr, hname⟩⟩
    · rcases (Slot.environment_lawful n.name).keeps_attribute_of_mem ha hn hr with h | h
      · refine .inr ⟨n, rfl, .inl ?_⟩
        unfold Setter.KeepsAttribute
        rw [hr]
        exact h
      · exact .inl h
    · rcases (Slot.properties_lawful hN).keeps_attribute_of_mem ha hn hr with h | h
      · refine .inr ⟨n, rfl, .inl ?_⟩
        unfold Setter.KeepsAttribute
        rw [hr]
        exact h
      · exact .inl h
    · rcases (Slot.handlers_lawful n.name).keeps_attribute_of_mem ha hn hr with h | h
      · refine .inr ⟨n, rfl, .inl ?_⟩
        unfold Setter.KeepsAttribute
        rw [hr]
        exact h
      · exact .inl h
    · exact .inl ((readAttribute_reportsAt_of_unrecognized hn hr).within
        (readAttribute_within_fill hsplit))

/-- The default content takes every named child with its constructor and reports, within `fill`. -/
theorem ctorChild_within_fill {c : Element} {n : QualifiedName} (hc : Node.element c ∈ children)
    (hn : QualifiedName.classify c.name = .ok n) :
    Within (ctorChild c n) (fill span attrs children) ∧
      ∀ v ∈ ((ctorChild c n).run #[]).1,
        v ∈ ((defaultContent children (classesOf children)).run #[]).1 := by
  obtain ⟨hw, hy⟩ := ctorChild_within_ctorChildren hn hc
  have hdefault : Within (ctorChildren children (classesOf children))
      (defaultContent children (classesOf children)) := by
    rw [defaultContent_eq_map]
    exact Within.map _ _
  refine ⟨hw.trans (hdefault.trans defaultContent_within_fill), fun v hv => ?_⟩
  rw [defaultContent_eq_map]
  exact List.mem_append_right _ (hy #[] v hv)

/-- A constructor child is always kept, with its reports among those of `fill`. -/
theorem fill_keeps_ctor_child {c : Element} {n : QualifiedName} (hc : Node.element c ∈ children)
    (hn : QualifiedName.classify c.name = .ok n) (hr : n.elementRole = .constructor)
    (hctor : n.isCtorName = true) : KeepsElement (fill span attrs children) c n := by
  obtain ⟨hw, hvalues⟩ := @ctorChild_within_fill span attrs _ _ _ hc hn
  have hchild := ctorChild_of_ctorName hn hctor
  have hv := hvalues _ (by rw [hchild]; exact List.mem_singleton.2 rfl)
  have hne : ((defaultContent children (classesOf children)).run #[]).1.isEmpty = false := by
    simpa [List.isEmpty_iff] using List.ne_nil_of_mem hv
  unfold KeepsElement
  rw [hr]
  refine ⟨⟨{ values := _, attPos := span.start }, ?_, hv⟩, ?_⟩
  · rw [fill_value, withDefault, if_neg (by simp [hne])]
    exact KeyMap.find?_insert_self _ _ _
  · exact (hchild ▸ Within.map _ _).trans hw

/-- An `att.X` child is reported, kept with its content read within `fill`, or gives no value. -/
theorem fill_accounts_for_property_element {c : Element} {n : QualifiedName}
    (hc : Node.element c ∈ children) (hn : QualifiedName.classify c.name = .ok n)
    (hr : n.elementRole = .propertyElement) (hatt : n.isPropertyElementName = true) :
    ReportsAt c.nameSpan.start (fill span attrs children) ∨
      KeepsElement (fill span attrs children) c n ∨ ((propertyValues c n).run #[]).1 = [] := by
  obtain ⟨t, ht⟩ := @step_within_fill span attrs _ _ _ _
    (fun _ _ hp => propertyStep_within_loops hp _) hc hn
  rcases propertyStep_reportsAt_or_reads hatt t with hrep | hreads
  · exact .inl (hrep.within ht)
  by_cases hempty : ((propertyValues c n).run #[]).1 = []
  · exact .inr (.inr hempty)
  have hsome : (Slot.properties.elementEntry c n).isSome := by
    simp [Slot.properties, List.isEmpty_iff, hempty]
  have hN : n.name ≠ "" := isIdent_ne_empty (classify_eq_ok hn).1.name
  rcases (Slot.properties_lawful hN).keeps_element_of_mem hc hn hatt hsome with hk | hk
  · refine .inr (.inl ?_)
    unfold KeepsElement
    rw [hr]
    exact ⟨hsome, hk, hreads.trans ht⟩
  · exact .inl hk

/-- An `ev.X` child is reported at its name or tag, or kept. -/
theorem fill_accounts_for_event_element {c : Element} {n : QualifiedName}
    (hc : Node.element c ∈ children) (hn : QualifiedName.classify c.name = .ok n)
    (hr : n.elementRole = .eventElement) (hev : n.isEventElementName = true) :
    ReportsAt c.nameSpan.start (fill span attrs children) ∨
      ReportsAt c.span.start (fill span attrs children) ∨
      KeepsElement (fill span attrs children) c n := by
  cases hs : soleScript c.children with
  | none =>
    obtain ⟨t, ht⟩ := @step_within_fill span attrs _ _ _ _
      (fun _ _ hp => eventStep_within_loops hp _) hc hn
    rcases eventStep_reportsAt hev hs t with hrep | hrep
    · exact .inl (hrep.within ht)
    · exact .inr (.inl (hrep.within ht))
  | some script =>
    have hsome : (Slot.handlers.elementEntry c n).isSome := by simp [Slot.handlers, hs]
    rcases (Slot.handlers_lawful n.name).keeps_element_of_mem hc hn hev hsome with hk | hk
    · refine .inr (.inr ?_)
      unfold KeepsElement
      rw [hr]
      exact ⟨hsome, hk⟩
    · exact .inl hk

/-- An `env.X` child is reported at its name or tag, or kept. -/
theorem fill_accounts_for_environment_element {c : Element} {n : QualifiedName}
    (hc : Node.element c ∈ children) (hn : QualifiedName.classify c.name = .ok n)
    (hr : n.elementRole = .environmentElement) (henv : n.isEnvironmentElementName = true) :
    ReportsAt c.nameSpan.start (fill span attrs children) ∨
      ReportsAt c.span.start (fill span attrs children) ∨
      KeepsElement (fill span attrs children) c n := by
  cases hs : environmentEntry c with
  | none =>
    obtain ⟨t, ht⟩ := @step_within_fill span attrs _ _ _ _
      (fun _ _ hp => environmentStep_within_loops hp _) hc hn
    rcases environmentStep_reportsAt henv hs t with hrep | hrep
    · exact .inl (hrep.within ht)
    · exact .inr (.inl (hrep.within ht))
  | some value =>
    have hsome : (Slot.environment.elementEntry c n).isSome := by simp [Slot.environment, hs]
    rcases (Slot.environment_lawful n.name).keeps_element_of_mem hc hn henv hsome with hk | hk
    · refine .inr (.inr ?_)
      unfold KeepsElement
      rw [hr]
      exact ⟨hsome, hk⟩
    · exact .inl hk

/-- Each child element is reported at its name or tag, kept, or an `att.X` element of no value. -/
theorem fill_accounts_for_element {c : Element} (hc : Node.element c ∈ children) :
    ReportsAt c.nameSpan.start (fill span attrs children) ∨
      ReportsAt c.span.start (fill span attrs children) ∨
      ∃ n, QualifiedName.classify c.name = .ok n ∧
        (KeepsElement (fill span attrs children) c n ∨
          n.elementRole = .propertyElement ∧ ((propertyValues c n).run #[]).1 = []) := by
  cases hn : QualifiedName.classify c.name with
  | error e =>
    exact .inl ((classify_reportsAt_of_error c.nameSpan.start hn).within
      ((classify_within_classifyChildren hc).trans classifyChildren_within_fill))
  | ok n =>
    rcases elementRole_cases n with ⟨hr, hctor⟩ | ⟨hr, hatt⟩ | ⟨hr, hev⟩ | ⟨hr, henv⟩ | hr
    · exact .inr (.inr ⟨n, rfl, .inl (fill_keeps_ctor_child hc hn hr hctor)⟩)
    · rcases fill_accounts_for_property_element hc hn hr hatt with h | h | h
      · exact .inl h
      · exact .inr (.inr ⟨n, rfl, .inl h⟩)
      · exact .inr (.inr ⟨n, rfl, .inr ⟨hr, h⟩⟩)
    · rcases fill_accounts_for_event_element hc hn hr hev with h | h | h
      · exact .inl h
      · exact .inr (.inl h)
      · exact .inr (.inr ⟨n, rfl, .inl h⟩)
    · rcases fill_accounts_for_environment_element hc hn hr henv with h | h | h
      · exact .inl h
      · exact .inr (.inl h)
      · exact .inr (.inr ⟨n, rfl, .inl h⟩)
    · obtain ⟨hw, -⟩ := @ctorChild_within_fill span attrs _ _ _ hc hn
      exact .inl ((ctorChild_reportsAt_of_unrecognized hr).within hw)

end Accounts

/-- Every part of an element is accounted for by `fill`: reported, kept, or one of a `ref.`
attribute other than `ref.Name` and an `att.X` element whose content gives no value. -/
def EveryPartAccounted (span : Span) (attrs : List Attribute) (children : List Node) : Prop :=
  (∀ a ∈ attrs, ReportsAt a.nameSpan.start (fill span attrs children) ∨
    ∃ n, QualifiedName.classify a.name = .ok n ∧
      (Setter.KeepsAttribute ((fill span attrs children).run #[]).1 a n ∨
        n.attributeRole = .referenceAttribute ∧ n.name ≠ "Name")) ∧
  (∀ c, Node.element c ∈ children → ReportsAt c.nameSpan.start (fill span attrs children) ∨
    ReportsAt c.span.start (fill span attrs children) ∨
    ∃ n, QualifiedName.classify c.name = .ok n ∧
      (KeepsElement (fill span attrs children) c n ∨
        n.elementRole = .propertyElement ∧ ((propertyValues c n).run #[]).1 = []))

/-- Nothing of an element whose attribute names differ is lost by `fill` without a report,
but for the two kinds that `EveryPartAccounted` names. -/
theorem fill_accounts_for_every_part (span : Span) (attrs : List Attribute)
    (children : List Node) (hnames : (attrs.map (·.name)).Nodup) :
    EveryPartAccounted span attrs children :=
  ⟨fun _ ha => fill_accounts_for_attribute hnames ha, fun _ hc => fill_accounts_for_element hc⟩

/-- A named button with a caption, a click handler element and an unknown child. -/
theorem fill_accounts_for_every_part_sample :
    let attrs : List Attribute := [{ name := "ref.Name", value := "ok" },
      { name := "Text", value := "OK" }]
    let children : List Node := [.element { name := "ev.Clicked", children := [.text "f();"] },
      .element { name := "Bogus" }]
    (attrs.map (·.name)).Nodup ∧ EveryPartAccounted {} attrs children :=
  ⟨by decide, fill_accounts_for_every_part _ _ _ (by decide)⟩

/-- `fill` accounts for every part of every element of a read tree. -/
theorem readDocument_accounts_for_every_part {t : String} {d : Element}
    (h : readDocument t = .ok d) :
    ∀ e ∈ d.subtrees, EveryPartAccounted e.span e.attributes e.children := fun e he =>
  ⟨fun _ ha => fill_accounts_for_attribute (readDocument_readShape h e he).keys_nodup ha,
    fun _ hc => fill_accounts_for_element hc⟩

/-- The attributes of an `ev.X` element are never read: one of an unknown category is not
reported there, while on the constructor itself it is. -/
theorem ctor_passes_over_attributes_of_event_elements :
    let foo : Attribute := { name := "xx.Foo", value := "1" }
    let clicked : Element :=
      { name := "ev.Clicked", attributes := [foo], children := [.text "f();"] }
    let bare : Element := { clicked with attributes := [] }
    let loaded := (ctor { name := "Button", children := [.element clicked] }).run #[]
    loaded = (ctor { name := "Button", children := [.element bare] }).run #[] ∧ loaded.2 = #[] ∧
      ((ctor { name := "Button", attributes := [foo] }).run #[]).2 =
        #[({}, .unknownAttribute "xx.Foo")] := by
  intro foo clicked bare loaded
  have hbutton : QualifiedName.classify "Button" = .ok { name := "Button" } := by decide
  have hclicked :
      QualifiedName.classify "ev.Clicked" = .ok { category := some "ev", name := "Clicked" } := by
    decide
  have hfoo : QualifiedName.classify "xx.Foo" = .ok { category := some "xx", name := "Foo" } := by
    decide
  -- running the loader leaves closed map operations on literal keys
  refine ⟨?_, ?_, ?_⟩
  all_goals
    simp [loaded, clicked, bare, foo, ctor, fill, classifyChildren, classify, readAttribute,
      defaultContent, ctorChildren, soleText, readProperties, readEvents, readEnvironment, hbutton,
      hclicked, hfoo, attributeRole, elementRole, isCtorName, isReferenceAttributeName,
      isEnvironmentAttributeName, isPropertyAttributeName, isEventAttributeName,
      isPropertyElementName, isEventElementName, isEnvironmentElementName]
  all_goals decide

end Loader

end GuiMarkup
