import GuiMarkup.Proofs.Instance.Unplaced
import GuiMarkup.Proofs.Instance.Filled
import GuiMarkup.Proofs.Instance.Accounted
import GuiMarkup.Proofs.Instance.Reloaded

/-! What each pass of `fill` takes back from the children written for a setter. -/

namespace GuiMarkup

open QualifiedName Markup Loader

/-- What a child element written for a setter stands for. -/
inductive WrittenChild where
  | ctor (c : Ctor)
  | property (kp : String × Property)
  | handler (kh : String × Handler)
  | environment (kv : String × EnvEntry)

namespace WrittenChild

/-- The element written for it. -/
def element : WrittenChild → Element
  | .ctor c => ctorElement c
  | .property kp => propertyElement kp
  | .handler kh => handlerElement kh
  | .environment kv => environmentElement kv

/-- The name that element reads as. -/
def name : WrittenChild → QualifiedName
  | .ctor c => ⟨c.typeNamespace, none, c.typeName, none⟩
  | .property kp => ⟨none, some "att", kp.1, kp.2.binding⟩
  | .handler kh => ⟨none, some "ev", kh.1, kh.2.binding⟩
  | .environment kv => ⟨none, some "env", kv.1, none⟩

/-- The child elements written for a property. -/
def ofProperty (kp : String × Property) : List WrittenChild :=
  if kp.1 == "" then kp.2.values.filterMap fun v => v.asCtor?.map .ctor
  else if Value.isSingleText kp.2.values then [] else [.property kp]

/-- The child elements written for a setter, in order. -/
def ofSetter (s : Setter) : List WrittenChild :=
  s.properties.entries.flatMap ofProperty ++
    (s.handlers.entries.map .handler ++ s.environment.entries.map .environment)

end WrittenChild

/-- A named child element that is, up to positions, the element written for `w`. -/
def ReadsAs (p : Element × QualifiedName) (w : WrittenChild) : Prop :=
  p.1.bare = w.element.bare ∧ p.2 = w.name

/-! ## The names of the written children -/

theorem classified_elements {α : Type} (l : List α) (F : α → Element) (N : α → QualifiedName)
    (h : ∀ x ∈ l, QualifiedName.classify (F x).name = .ok (N x)) :
    classified (l.map fun x => .element (F x)) = l.map fun x => (F x, N x) := by
  induction l with
  | nil => rfl
  | cons x l ih =>
    rw [List.map_cons, (classified_named (h x List.mem_cons_self)).1,
      ih fun y hy => h y (List.mem_cons_of_mem _ hy), List.map_cons]

theorem classified_flatMap {α : Type} (l : List α) (f : α → List Node) :
    classified (l.flatMap f) = l.flatMap fun x => classified (f x) := by
  induction l with
  | nil => rfl
  | cons x l ih => rw [List.flatMap_cons, classified_append, ih, List.flatMap_cons]

theorem classified_contentNode (t : String) (rest : List Node) :
    classified (contentNode t :: rest) = classified rest := by
  unfold contentNode
  split <;> rfl

theorem classify_category {cat k : String} {b : Option String} (hcat : isIdent cat = true)
    (hk : isIdent k = true) (hb : ∀ x ∈ b, isIdent x = true) :
    QualifiedName.classify (withBinding (cat ++ "." ++ k) b) = .ok ⟨none, some cat, k, b⟩ := by
  rw [withBinding_category]
  exact classify_display ⟨by simp, by simpa using hcat, hk, hb⟩

theorem ctorElement_name {c : Ctor} (hc : c.Loaded) : (ctorElement c).name = c.qualifiedName := by
  rw [ctorElement_eq hc, Tag.extend_name]

theorem classify_ctorElement {c : Ctor} (hc : c.Loaded) :
    QualifiedName.classify (ctorElement c).name = .ok (WrittenChild.ctor c).name := by
  rw [ctorElement_name hc, qualifiedName_eq_display]
  exact classify_display (CtorOf.loaded_iff.1 hc).1

theorem propertyElement_name {kp : String × Property} (hshape : Value.Shaped false kp.2.values)
    (hvals : ∀ v ∈ kp.2.values, v.Loaded) :
    (propertyElement kp).name = withBinding ("att." ++ kp.1) kp.2.binding := by
  obtain ⟨attrs, kids, he, -⟩ := emitValues_adds _ kp.2.values hvals hshape.single_or_ctors _
  rw [propertyElement, he, Tag.extend_name]

theorem classified_valueNodes : ∀ {vs : List Value}, (∀ v ∈ vs, v.Loaded) →
    classified (valueNodes vs) =
      (vs.filterMap fun v => v.asCtor?.map WrittenChild.ctor).map fun w => (w.element, w.name)
  | [], _ => rfl
  | .text .. :: vs, h => by
    rw [valueNodes, classified_contentNode,
      classified_valueNodes fun v hv => h v (List.mem_cons_of_mem _ hv)]
    rfl
  | .setter _ :: vs, h => by
    rw [valueNodes, classified_valueNodes fun v hv => h v (List.mem_cons_of_mem _ hv)]
    rfl
  | .ctor c :: vs, h => by
    rw [valueNodes, (classified_named (classify_ctorElement (h _ List.mem_cons_self))).1,
      classified_valueNodes fun v hv => h v (List.mem_cons_of_mem _ hv)]
    rfl

theorem classified_propertyChildren {kp : String × Property}
    (hk : kp.1 = "" ∨ isIdent kp.1 = true ∧ ∀ b ∈ kp.2.binding, isIdent b = true)
    (hshape : Value.Shaped (kp.1 == "") kp.2.values) (hvals : ∀ v ∈ kp.2.values, v.Loaded) :
    classified (propertyChildren kp) =
      (WrittenChild.ofProperty kp).map fun w => (w.element, w.name) := by
  unfold propertyChildren WrittenChild.ofProperty
  split
  · exact classified_valueNodes hvals
  · rename_i hne
    have hk' := hk.resolve_left (by simpa using hne)
    have hnamed : (kp.1 == "") = false := by simpa using hne
    rw [hnamed] at hshape
    split
    · rfl
    · rw [(classified_named (n := (WrittenChild.property kp).name) ?_).1]
      · rfl
      · rw [propertyElement_name hshape hvals]
        simpa [WrittenChild.name] using classify_category (by decide : isIdent "att" = true) hk'.1 hk'.2

/-- The child elements written for a loaded setter, under the names they read as. -/
theorem classified_setterChildren {s : Setter} (hs : s.Loaded) :
    classified (setterChildren s) =
      (WrittenChild.ofSetter s).map fun w => (w.element, w.name) := by
  have hp := hs.plain
  rw [setterChildren, WrittenChild.ofSetter, classified_append, classified_append,
    classified_flatMap, classified_elements _ _ (fun kh => (WrittenChild.handler kh).name),
    classified_elements _ _ (fun kv => (WrittenChild.environment kv).name), List.map_append,
    List.map_append, List.map_flatMap, List.map_map, List.map_map]
  · congr 1
    exact List.flatMap_congr fun kp hkp =>
      classified_propertyChildren (hp.properties kp hkp) (hs.values hkp).1 (hs.values hkp).2
  · intro kv hkv
    simpa [environmentElement_name, WrittenChild.name] using
      classify_display (environmentNames (fun kv hkv => (hp.environment kv hkv).1) kv hkv).1
  · intro kh hkh
    simpa [handlerElement_name, WrittenChild.name] using classify_display
      (handlerNames (fun kh hkh => ⟨(hp.handlers kh hkh).1, (hp.handlers kh hkh).2.1⟩) kh hkh).1

/-- Children that are, up to positions, the written ones are read under the same names. -/
theorem classified_of_bare : ∀ {kids₁ kids₂ : List Node}, kids₁.map Node.bare = kids₂.map Node.bare →
    List.Forall₂ (fun p q => p.1.bare = q.1.bare ∧ p.2 = q.2) (classified kids₁) (classified kids₂)
  | [], [], _ => .nil
  | [], _ :: _, h => by simp at h
  | _ :: _, [], h => by simp at h
  | n₁ :: rest₁, n₂ :: rest₂, h => by
    simp only [List.map_cons, List.cons.injEq] at h
    have ih := classified_of_bare h.2
    cases n₁ with
    | element e₁ =>
      cases n₂ with
      | element e₂ =>
        have he : e₁.bare = e₂.bare := by simpa [Node.bare] using h.1
        have hname : e₁.name = e₂.name := by simpa using congrArg Tag.name he
        cases hc : QualifiedName.classify e₁.name with
        | ok n =>
          rw [(classified_named hc).1, (classified_named (hname ▸ hc)).1]
          exact .cons ⟨he, rfl⟩ ih
        | error e =>
          rw [(classified_unnamed hc).1, (classified_unnamed (hname ▸ hc)).1]
          exact ih
      | text => simp [Node.bare] at h
      | cdata => simp [Node.bare] at h
    | text =>
      cases n₂ with
      | text => exact ih
      | _ => simp [Node.bare] at h
    | cdata =>
      cases n₂ with
      | cdata => exact ih
      | _ => simp [Node.bare] at h

/-- The named children written for a loaded setter read as the written children, one for one. -/
theorem classified_readsAs {s : Setter} (hs : s.Loaded) {kids : List Node}
    (hkids : kids.map Node.bare = (setterChildren s).map Node.bare) :
    List.Forall₂ ReadsAs (classified kids) (WrittenChild.ofSetter s) := by
  have h := classified_of_bare hkids
  rw [classified_setterChildren hs, List.forall₂_map_right_iff] at h
  exact h

/-! ## What the children stand for, read back -/

/-- A constructor that reads back as itself from every element written for it, up to positions. -/
def CtorOf.Rereads (c : Ctor) : Prop :=
  ∀ y : Element, y.bare = (ctorElement c).bare →
    Yields (fun o => o.map CtorOf.bare = some c.bare) (ctor y)

/-- A setter that reads back as itself from everything written for it, up to positions. -/
def SetterOf.Rereads (s : Setter) : Prop :=
  ∀ (span : Span) (attrs : List Attribute) (kids : List Node),
    attrs.map Attribute.bare = (setterAttributes s).map Attribute.bare →
    kids.map Node.bare = (setterChildren s).map Node.bare →
    Yields (fun t => t.bare = s.bare) (fill span attrs kids)

/-- A value whose setter or constructor reads back as itself. -/
def Value.Rereads : Value → Prop
  | .text .. => True
  | .setter s => s.Rereads
  | .ctor c => c.Rereads

/-- What reading a written child back needs: its constructor or values read back as themselves. -/
def WrittenChild.Rereads : WrittenChild → Prop
  | .ctor c => c.Rereads
  | .property kp => ∀ y : Element, y.bare = (propertyElement kp).bare →
      Yields (fun vs => vs.map Value.bare = kp.2.values.map Value.bare)
        (propertyValues y (WrittenChild.property kp).name)
  | .handler _ => True
  | .environment _ => True

/-- The default content a written child gives back, up to positions. -/
def WrittenChild.ctorValue? : WrittenChild → Option Value
  | .ctor c => some (.ctor c.bare)
  | _ => none

theorem Markup.Tag.bare_eq_extend {y : Element} {name : String} {A : List Attribute}
    {K : List Node} (h : y.bare = (({ name } : Element).extend A K).bare) :
    y.name = name ∧ y.attributes.map Attribute.bare = A.map Attribute.bare ∧
      y.children.map Node.bare = K.map Node.bare := by
  rw [Tag.bare_eq, Tag.bare_eq] at h
  simp only [Tag.extend, List.nil_append, Tag.mk.injEq] at h
  exact ⟨h.1, h.2.2.2.1, h.2.2.2.2⟩

@[simp] theorem Markup.Node.isContent_bare (n : Node) : n.bare.isContent = n.isContent := by
  cases n <;> rfl

/-- Children without text or CDATA have no sole text. -/
theorem soleText_of_elements : ∀ {kids : List Node}, (∀ n ∈ kids, n.isContent = false) →
    soleText kids = []
  | [], _ => rfl
  | [.element _], _ => rfl
  | [.text ..], h => by simp [Node.isContent, Node.isText] at h
  | [.cdata ..], h => by simp [Node.isContent, Node.isCData] at h
  | n :: _ :: _, _ => by cases n <;> rfl

theorem isContent_of_bare {kids W : List Node} (h : kids.map Node.bare = W.map Node.bare)
    (hW : ∀ n ∈ W, n.isContent = false) : ∀ n ∈ kids, n.isContent = false := by
  intro n hn
  obtain ⟨w, hw, hwn⟩ := List.mem_map.1 (h ▸ List.mem_map_of_mem hn : n.bare ∈ W.map Node.bare)
  rw [← Node.isContent_bare, ← hwn, Node.isContent_bare]
  exact hW w hw

theorem isContent_valueNodes : ∀ {vs : List Value}, (∀ v ∈ vs, v.asCtor?.isSome) →
    ∀ n ∈ valueNodes vs, n.isContent = false
  | [], _ => by simp [valueNodes]
  | v :: vs, h => by
    obtain ⟨c, rfl⟩ := Value.eq_ctor_of_asCtor (h v List.mem_cons_self)
    simpa [valueNodes] using isContent_valueNodes fun v hv => h v (List.mem_cons_of_mem _ hv)

/-- The default content that named child elements give, in order. -/
def ctorsOf : List (Element × QualifiedName) → Reporting (List Value)
  | [] => pure []
  | p :: l => do
    let here ← ctorChild p.1 p.2
    let more ← ctorsOf l
    pure (here ++ more)

theorem ctorChildren_classesOf : ∀ kids : List Node,
    ctorChildren kids (classesOf kids) = ctorsOf (classified kids)
  | [] => by
    rw [ctorChildren]
    rfl
  | .element c :: rest => by
    cases hc : QualifiedName.classify c.name with
    | ok n =>
      rw [(classified_named hc).2, (classified_named hc).1, ctorChildren_named, ctorsOf,
        ctorChildren_classesOf rest]
    | error e =>
      rw [(classified_unnamed hc).2, (classified_unnamed hc).1, ctorChildren]
      exact ctorChildren_classesOf rest
  | .text .. :: rest => by
    rw [classesOf_text, ctorChildren]
    exact ctorChildren_classesOf rest
  | .cdata .. :: rest => by
    rw [classesOf_cdata, ctorChildren]
    exact ctorChildren_classesOf rest

/-- A written child gives back its constructor, if it stands for one, and nothing else. -/
theorem ctorChild_written {w : WrittenChild} (hw : w.Rereads) {p : Element × QualifiedName}
    (hp : ReadsAs p w) :
    Yields (fun here => here.map Value.bare = w.ctorValue?.toList) (ctorChild p.1 p.2) := by
  obtain ⟨hbare, hname⟩ := hp
  rw [hname]
  cases w with
  | ctor c =>
    unfold ctorChild
    rw [if_pos (by simp [WrittenChild.name, isCtorName])]
    refine Yields.bind (hw p.1 hbare) fun o ho => ?_
    cases o with
    | none => simp at ho
    | some c' =>
      simp only [Option.map_some, Option.some.injEq] at ho
      exact Yields.pure (by simp [ho, WrittenChild.ctorValue?])
  | property kp =>
    simp only [ctorChild, WrittenChild.name, isCtorName, elementRole, isPropertyElementName]
    exact Yields.pure rfl
  | handler kh =>
    simp only [ctorChild, WrittenChild.name, isCtorName, elementRole, isPropertyElementName,
      isEventElementName]
    exact Yields.pure rfl
  | environment kv =>
    simp only [ctorChild, WrittenChild.name, isCtorName, elementRole, isPropertyElementName,
      isEventElementName, isEnvironmentElementName, isEnvironmentAttributeName]
    exact Yields.pure rfl

theorem ctorsOf_written {l : List (Element × QualifiedName)} {ws : List WrittenChild}
    (hl : List.Forall₂ ReadsAs l ws) (hre : ∀ w ∈ ws, w.Rereads) :
    Yields (fun vs => vs.map Value.bare = ws.filterMap WrittenChild.ctorValue?) (ctorsOf l) := by
  induction hl with
  | nil => exact Yields.pure rfl
  | @cons p w l ws hp _ ih =>
    rw [ctorsOf]
    refine Yields.bind (ctorChild_written (hre w List.mem_cons_self) hp) fun here hh =>
      Yields.bind (ih fun w' hw' => hre w' (List.mem_cons_of_mem _ hw')) fun more hm =>
        Yields.pure ?_
    rw [List.map_append, hh, hm]
    cases w <;> rfl

theorem ctorValues_of_ctors : ∀ {vs : List Value}, (∀ v ∈ vs, v.asCtor?.isSome) →
    (vs.filterMap fun v => v.asCtor?.map WrittenChild.ctor).filterMap WrittenChild.ctorValue? =
      vs.map Value.bare
  | [], _ => rfl
  | v :: vs, h => by
    obtain ⟨c, rfl⟩ := Value.eq_ctor_of_asCtor (h v List.mem_cons_self)
    rw [List.map_cons, Value.bare_ctor, ← ctorValues_of_ctors fun v hv => h v (List.mem_cons_of_mem _ hv)]
    rfl

/-- The `att.` element of a named property reads back as its values when they read back. -/
theorem propertyValues_rereads {kp : String × Property} (hshape : Value.Shaped false kp.2.values)
    (hvals : ∀ v ∈ kp.2.values, v.Loaded) (hsingle : Value.isSingleText kp.2.values = false)
    (hset : kp.2.binding = some setBinding ↔ ∃ t, kp.2.values = [.setter t])
    (hre : ∀ v ∈ kp.2.values, v.Rereads) : (WrittenChild.property kp).Rereads := by
  intro y hy
  obtain ⟨k, b, values, pos⟩ := kp
  rcases hshape with ⟨t, tp, rfl⟩ | ⟨-, ns, rfl⟩ | ⟨hne, hctors⟩
  · simp [Value.isSingleText] at hsingle
  · have hb : b = some setBinding := hset.2 ⟨ns, rfl⟩
    have hns : ns.Loaded := hvals _ List.mem_cons_self
    have hnsre : ns.Rereads := hre _ List.mem_cons_self
    rw [propertyElement_setter hns] at hy
    obtain ⟨-, hattrs, hkids⟩ := Tag.bare_eq_extend hy
    unfold propertyValues
    rw [if_pos (by simp [WrittenChild.name, hb])]
    exact Yields.bind (hnsre y.span y.attributes y.children hattrs hkids) fun t ht =>
      Yields.pure (by simp [ht])
  · have hb : (b == some setBinding) = false := by
      rw [beq_eq_false_iff_ne]
      rintro hb
      obtain ⟨t, ht⟩ := hset.1 hb
      subst ht
      simp [Value.asCtor?] at hctors
    have hloaded : ∀ v ∈ values, v.asCtor?.isSome ∧ v.Loaded := fun v hv => ⟨hctors v hv, hvals v hv⟩
    rw [propertyElement_ctors hloaded] at hy
    obtain ⟨-, -, hkids⟩ := Tag.bare_eq_extend hy
    have hfa := classified_of_bare hkids
    rw [classified_valueNodes hvals, List.forall₂_map_right_iff] at hfa
    unfold propertyValues
    rw [if_neg (by simp [WrittenChild.name, hb])]
    refine Yields.bind (classifyChildren_classesOf _) fun classes hcl => ?_
    subst hcl
    rw [defaultContent_eq_map, soleText_of_elements (isContent_of_bare hkids
      (isContent_valueNodes hctors)), ctorChildren_classesOf, map_eq_pure_bind]
    refine Yields.bind (ctorsOf_written hfa ?_) fun vs hvs => Yields.pure ?_
    · intro w hw
      obtain ⟨v, hv, hvw⟩ := List.mem_filterMap.1 hw
      obtain ⟨c, rfl⟩ := Value.eq_ctor_of_asCtor (hctors v hv)
      simp only [Value.asCtor?, Option.map_some, Option.some.injEq] at hvw
      subst hvw
      exact hre _ hv
    · simpa [hvs] using ctorValues_of_ctors hctors

/-! ## The attributes -/

/-- The entry an attribute puts into the map: none for another role or a name that does not read. -/
def Loader.Slot.attributePut {α : Type} (S : Slot α) (a : Attribute) : Option (String × α) :=
  match QualifiedName.classify a.name with
  | .ok n => if n.attributeRole = S.role then some (n.name, S.attributeEntry a n) else none
  | .error _ => none

/-- The properties of a setter written as attributes: named ones of one text. -/
def textEntries (s : Setter) : List (String × Property) :=
  (s.properties.entries.filter (·.1 != "")).filter (Value.isSingleText ·.2.values)

/-- The properties of a setter written as `att.` elements. -/
def elementEntries (s : Setter) : List (String × Property) :=
  (s.properties.entries.filter (·.1 != "")).filter (!Value.isSingleText ·.2.values)

/-- The default content of a setter, as its entry. -/
def defaultEntries (s : Setter) : List (String × Property) :=
  s.properties.entries.filter (·.1 == "")

/-- Every property is written one of three ways. -/
theorem entries_perm_parts (s : Setter) :
    s.properties.entries.Perm (defaultEntries s ++ (textEntries s ++ elementEntries s)) :=
  (List.filter_append_perm (·.1 == "") _).symm.trans
    ((List.filter_append_perm (fun kp : String × Property => Value.isSingleText kp.2.values)
      _).symm.append_left _)

theorem textAttribute?_eq_some {kp : String × Property} {a : Attribute}
    (h : textAttribute? kp = some a) : kp.1 ≠ "" ∧ ∃ t fs pos, kp.2.values = [.text t fs pos] ∧
      a = { name := withBinding kp.1 kp.2.binding, value := t } := by
  unfold textAttribute? at h
  split at h
  · cases h
  · rename_i hk
    split at h
    · rename_i t fs pos hv
      cases h
      exact ⟨by simpa using hk, t, fs, pos, hv, rfl⟩
    · cases h

theorem textAttribute?_isSome (kp : String × Property) :
    (textAttribute? kp).isSome = (kp.1 != "" && Value.isSingleText kp.2.values) := by
  obtain ⟨k, b, values, pos⟩ := kp
  by_cases hk : k = ""
  · simp [textAttribute?, hk]
  · rcases values with _ | ⟨v, _ | ⟨w, rest⟩⟩
    · simp [textAttribute?, hk, Value.isSingleText]
    · cases v <;> simp [textAttribute?, hk, Value.isSingleText]
    · simp [textAttribute?, hk, Value.isSingleText]

/-- What a property attribute puts in, without positions. -/
def textPut (a : Attribute) : Option (String × Property) :=
  match QualifiedName.classify a.name with
  | .ok n =>
    if n.attributeRole = .propertyAttribute then
      some (n.name, { binding := n.binding, values := [.text a.value false {}] })
    else none
  | .error _ => none

theorem attributePut_bare (a : Attribute) :
    (Slot.properties.attributePut a).map (fun kp => (kp.1, kp.2.bare)) = textPut a.bare := by
  unfold Slot.attributePut textPut
  simp only [Attribute.bare]
  cases QualifiedName.classify a.name with
  | ok n => split <;> simp_all [Slot.properties, PropertyOf.bare]
  | error e => rfl

theorem textAttribute?_bind_textPut {kp : String × Property} (hvals : ∀ v ∈ kp.2.values, v.Loaded)
    (hk : kp.1 = "" ∨ isIdent kp.1 = true ∧ ∀ b ∈ kp.2.binding, isIdent b = true) :
    (textAttribute? kp).bind (fun a => textPut a.bare) =
      if kp.1 != "" && Value.isSingleText kp.2.values then some (kp.1, kp.2.bare) else none := by
  cases ha : textAttribute? kp with
  | none =>
    have h := textAttribute?_isSome kp
    rw [ha] at h
    rw [Option.bind_none, ← h]
    rfl
  | some a =>
    obtain ⟨h0, t, fs, pos, hv, rfl⟩ := textAttribute?_eq_some ha
    have hk' := hk.resolve_left h0
    have hfs : fs = false := hvals (.text t fs pos) (by rw [hv]; exact List.mem_singleton_self _)
    have hq := withBinding_wellFormed hk'.1 hk'.2
    subst hfs
    simp [textPut, Attribute.bare, withBinding_eq_display, classify_display hq, attributeRole,
      isReferenceAttributeName, isEnvironmentAttributeName, isPropertyAttributeName, h0, hv,
      Value.isSingleText, PropertyOf.bare]

/-- An attribute of a property puts its entry in when its name is new. -/
theorem readAttribute_puts {a : Attribute} {n : QualifiedName}
    (hn : QualifiedName.classify a.name = .ok n) (hrole : n.attributeRole = .propertyAttribute)
    (t : Setter) :
    (Slot.properties.attributePut a = none → Yields (· = t) (readAttribute t a)) ∧
      ∀ kv, Slot.properties.attributePut a = some kv →
        (Slot.properties.map t).contains kv.1 = false →
        Yields (· = Slot.properties.put t kv.1 kv.2) (readAttribute t a) := by
  have hput : Slot.properties.attributePut a = some (n.name, Slot.properties.attributeEntry a n) := by
    simp [Slot.attributePut, hn, hrole, Slot.properties]
  refine ⟨fun h => by simp [hput] at h, fun kv hkv hc => ?_⟩
  rw [hput, Option.some.injEq] at hkv
  subst hkv
  rw [readAttribute_property hn hrole, if_neg (by simpa [Slot.properties] using hc)]
  exact Yields.pure rfl

theorem classify_reference {x : String} (hx : isIdent x = true) :
    QualifiedName.classify ("ref." ++ x) = .ok ⟨none, some "ref", x, none⟩ := by
  simpa [reference_display] using classify_display (reference_wellFormed hx)

/-- The attribute written for a property of one text classifies as the property's name. -/
theorem classify_textAttribute {s : Setter} (hp : s.Plain) {kp : String × Property}
    (hkp : kp ∈ s.properties.entries) {a : Attribute} (ha : textAttribute? kp = some a) :
    QualifiedName.classify a.name = .ok ⟨none, none, kp.1, kp.2.binding⟩ := by
  obtain ⟨h0, t, fs, tpos, -, rfl⟩ := textAttribute?_eq_some ha
  have hk' := (hp.properties kp hkp).resolve_left h0
  rw [withBinding_eq_display]
  exact classify_display (withBinding_wellFormed hk'.1 hk'.2)

/-- The `ref.Name` written for a setter names it again. -/
theorem readAttributes_name {s : Setter} (hs : s.Plain) {A : List Attribute}
    (hA : A.map Attribute.bare = (nameAttribute s).toList.map Attribute.bare) (pos : Pos) :
    A.foldlM readAttribute { tagPos := pos } =
      pure { tagPos := pos, instanceName := s.instanceName } := by
  cases hname : s.instanceName with
  | none =>
    rw [nameAttribute, hname] at hA
    rw [List.map_eq_nil_iff.1 hA]
    rfl
  | some n =>
    rw [nameAttribute, hname] at hA
    obtain ⟨a, rfl, ha⟩ := List.map_eq_singleton_iff.1 hA
    have hc : QualifiedName.classify a.name = .ok ⟨none, some "ref", "Name", none⟩ := by
      rw [show a.name = "ref.Name" from congrArg Attribute.name ha]
      simpa using classify_reference (x := "Name") (by decide)
    have hv : a.value = n.name := congrArg Attribute.value ha
    have hfs : n.fromStyle = false := hs.instanceName n (by simp [hname])
    simp only [List.foldlM_cons, List.foldlM_nil, bind_pure]
    unfold Loader.readAttribute
    rw [classify_of_ok hc, pure_bind]
    simp [attributeRole, isReferenceAttributeName, hv, ← hfs]

/-- The attributes written for a setter name it and put back its properties of one text. -/
theorem readAttributes_written {s : Setter} (hs : s.Loaded) {attrs : List Attribute}
    (hattrs : attrs.map Attribute.bare = (setterAttributes s).map Attribute.bare) (pos : Pos) :
    ∃ T : List (String × Property),
      (T.map fun kp => (kp.1, kp.2.bare)) = (textEntries s).map (fun kp => (kp.1, kp.2.bare)) ∧
      Yields (· = T.foldl (fun t kv => Slot.properties.put t kv.1 kv.2)
        { tagPos := pos, instanceName := s.instanceName }) (attrs.foldlM readAttribute { tagPos := pos }) := by
  have hp := hs.plain
  rw [setterAttributes, List.map_append] at hattrs
  obtain ⟨A₀, A₁, rfl, hA₀, hA₁⟩ := List.map_eq_append_iff.1 hattrs
  have hread : ∀ a ∈ A₁, ∃ n, QualifiedName.classify a.name = .ok n ∧
      n.attributeRole = .propertyAttribute := by
    intro a ha
    obtain ⟨a₀, ha₀, hbare⟩ := List.mem_map.1 (hA₁ ▸ List.mem_map_of_mem ha :
      a.bare ∈ (s.properties.entries.filterMap textAttribute?).map Attribute.bare)
    obtain ⟨kp, hkp, hkpa⟩ := List.mem_filterMap.1 ha₀
    refine ⟨_, (congrArg Attribute.name hbare) ▸ classify_textAttribute hp hkp hkpa, ?_⟩
    simp [attributeRole, isReferenceAttributeName, isEnvironmentAttributeName,
      isPropertyAttributeName]
  have hentries : ((A₁.filterMap Slot.properties.attributePut).map fun kp => (kp.1, kp.2.bare)) =
      (textEntries s).map (fun kp => (kp.1, kp.2.bare)) := by
    rw [List.map_filterMap, List.filterMap_congr fun a _ => attributePut_bare a]
    show List.filterMap (textPut ∘ Attribute.bare) A₁ = _
    rw [← List.filterMap_map, hA₁, List.filterMap_map, List.filterMap_filterMap, textEntries,
      ← List.filterMap_eq_map', List.filterMap_filter, List.filterMap_filter]
    refine List.filterMap_congr fun kp hkp =>
      (textAttribute?_bind_textPut (hs.values hkp).2 (hp.properties kp hkp)).trans ?_
    cases (kp.1 != "") <;> cases Value.isSingleText kp.2.values <;> simp
  refine ⟨_, hentries, ?_⟩
  rw [List.foldlM_append, readAttributes_name hp hA₀, pure_bind]
  refine Slot.properties.foldlM_puts _ A₁ _ (fun a ha t => ?_) ?_
  · obtain ⟨n, hn, hrole⟩ := hread a ha
    exact readAttribute_puts hn hrole t
  · have hnone : (Slot.properties.map
        ({ tagPos := pos, instanceName := s.instanceName } : Setter)).entries = [] := rfl
    rw [KeyMap.keys_eq_of_map hentries, hnone, List.map_nil, List.append_nil]
    exact hp.properties_nodup.sublist ((List.filter_sublist.trans List.filter_sublist).map _)

/-! ## The default content -/

/-- Default content of one text stands beside no handler and no environment variable. -/
def SetterOf.TextAlone (s : Setter) : Prop :=
  ∀ p ∈ s.properties.find? "", Value.isSingleText p.values = true →
    s.handlers.entries = [] ∧ s.environment.entries = []

/-- The default content as `fill` puts it in, under the empty name. -/
def defaultEntry (pos : Pos) (vs : List Value) : List (String × Property) :=
  if vs.isEmpty then [] else [("", { values := vs, attPos := pos })]

theorem withDefault_entries {pos : Pos} {vs : List Value} {t : Setter}
    (ht : t.properties.contains "" = false) :
    (withDefault pos vs t).properties.entries.Perm (defaultEntry pos vs ++ t.properties.entries) := by
  unfold withDefault defaultEntry
  split
  · exact .refl _
  · exact KeyMap.entries_insert_perm ht

theorem defaultEntry_bare {pos : Pos} {vs : List Value} {p : Property}
    (hvs : vs.map Value.bare = p.values.map Value.bare) (hne : p.values ≠ [])
    (hb : p.binding = none) :
    (defaultEntry pos vs).map (fun kp => (kp.1, kp.2.bare)) = [("", p.bare)] := by
  have hvne : vs.isEmpty = false := by
    rw [List.isEmpty_eq_false_iff]
    rintro rfl
    exact hne (List.map_eq_nil_iff.1 hvs.symm)
  obtain ⟨b, values, attPos⟩ := p
  simp only at hb hvs
  simp [defaultEntry, hvne, PropertyOf.bare, hvs, hb]

/-- In a map that holds each name once, the entries under a name are what it finds. -/
theorem KeyMap.filter_key {α : Type} {m : KeyMap α} (hnodup : (m.entries.map Prod.fst).Nodup)
    (k : String) : m.entries.filter (·.1 == k) = ((m.find? k).map fun v => (k, v)).toList := by
  obtain ⟨entries⟩ := m
  induction entries with
  | nil => rfl
  | cons x rest ih =>
    simp only [List.map_cons, List.nodup_cons] at hnodup
    by_cases hx : x.1 = k
    · have hrest : rest.filter (·.1 == k) = [] := List.filter_eq_nil_iff.2 fun y hy hyk =>
        hnodup.1 (hx ▸ (beq_iff_eq.1 hyk) ▸ List.mem_map_of_mem hy)
      obtain ⟨k', v⟩ := x
      simp only at hx
      subst hx
      simp [KeyMap.find?, hrest]
    · simpa [KeyMap.find?, List.filter_cons, hx] using ih hnodup.2

theorem defaultEntries_eq {s : Setter} (hs : s.Plain) :
    defaultEntries s = ((s.properties.find? "").map fun p => ("", p)).toList :=
  KeyMap.filter_key hs.properties_nodup ""

theorem flatMap_filter_of_nil {α β : Type} {f : α → List β} {p : α → Bool} :
    ∀ {l : List α}, (∀ x ∈ l, p x = false → f x = []) → l.flatMap f = (l.filter p).flatMap f
  | [], _ => rfl
  | x :: l, h => by
    have ih := flatMap_filter_of_nil fun y hy => h y (List.mem_cons_of_mem _ hy)
    cases hx : p x
    · rw [List.flatMap_cons, h x List.mem_cons_self hx, List.nil_append, ih,
        List.filter_cons_of_neg (by simp [hx])]
    · rw [List.flatMap_cons, ih, List.filter_cons_of_pos hx, List.flatMap_cons]

/-- Only the default content gives constructors back. -/
theorem ofSetter_ctorValues (s : Setter) :
    (WrittenChild.ofSetter s).filterMap WrittenChild.ctorValue? =
      (defaultEntries s).flatMap fun kp =>
        (WrittenChild.ofProperty kp).filterMap WrittenChild.ctorValue? := by
  rw [WrittenChild.ofSetter, List.filterMap_append, List.filterMap_append, List.filterMap_map,
    List.filterMap_map, List.filterMap_flatMap, defaultEntries]
  rw [flatMap_filter_of_nil (p := (·.1 == "")) fun kp _ hk => ?_]
  · simp [Function.comp_def, WrittenChild.ctorValue?]
  · unfold WrittenChild.ofProperty
    rw [if_neg (by simp [hk])]
    split <;> rfl

/-- Without default content of one text, nothing written for a setter is text or CDATA. -/
theorem setterChildren_isContent {s : Setter} (hs : s.Loaded)
    (h : ∀ p ∈ s.properties.find? "", Value.isSingleText p.values = false) :
    ∀ n ∈ setterChildren s, n.isContent = false := by
  intro n hn
  simp only [setterChildren, List.mem_append, List.mem_flatMap, List.mem_map] at hn
  rcases hn with ⟨kp, hkp, hn⟩ | ⟨kh, -, rfl⟩ | ⟨kv, -, rfl⟩
  · unfold propertyChildren at hn
    split at hn
    · rename_i hk
      have hk' : kp.1 = "" := by simpa using hk
      have hfind : s.properties.find? "" = some kp.2 :=
        KeyMap.find?_eq_some_of_mem hs.plain.properties_nodup (hk' ▸ hkp)
      obtain ⟨hshape, -⟩ := hs.values hkp
      rcases hshape with ⟨t, tp, hv⟩ | ⟨hd, -⟩ | ⟨-, hctors⟩
      · have := h kp.2 (by simp [hfind])
        simp [hv, Value.isSingleText] at this
      · simp [hk] at hd
      · exact isContent_valueNodes hctors n hn
    · split at hn
      · cases hn
      · rw [List.mem_singleton] at hn
        simp [hn]
  · simp
  · simp

theorem contentNode_read {n : Node} {t : String} (h : n.bare = (contentNode t).bare) :
    classified [n] = [] ∧ ∃ x, soleText [n] = [.text t false x] := by
  unfold contentNode at h
  split at h <;> cases n <;> simp [Node.bare] at h <;> subst h <;> exact ⟨rfl, _, rfl⟩

/-- Default content of one text, beside texts only, is written as the only child. -/
theorem setterChildren_soleText {s : Setter} (hp : s.Plain) {p : Property} {t : String}
    {fs : Bool} {tp : Pos} (hfind : s.properties.find? "" = some p)
    (hv : p.values = [.text t fs tp])
    (hall : ∀ kp ∈ s.properties.entries, Value.isSingleText kp.2.values = true)
    (hH : s.handlers.entries = []) (hE : s.environment.entries = []) :
    setterChildren s = [contentNode t] := by
  have hD : defaultEntries s = [("", p)] := by rw [defaultEntries_eq hp, hfind]; rfl
  rw [setterChildren, hH, hE, List.map_nil, List.map_nil, List.append_nil,
    flatMap_filter_of_nil (p := (·.1 == "")) fun kp hkp hk => ?_]
  · rw [show s.properties.entries.filter (·.1 == "") = [("", p)] from hD]
    simp [propertyChildren, hv, valueNodes]
  · simp [propertyChildren, hk, hall kp hkp]

/-- The default content written for a setter reads back as itself, up to positions. -/
theorem defaultContent_written {s : Setter} (hs : s.Loaded) (hf : s.Filled)
    (halone : s.TextAlone) (hre : ∀ w ∈ WrittenChild.ofSetter s, w.Rereads) {kids : List Node}
    (hkids : kids.map Node.bare = (setterChildren s).map Node.bare) (pos : Pos) :
    Yields (fun vs => (defaultEntry pos vs).map (fun kp => (kp.1, kp.2.bare)) =
        (defaultEntries s).map fun kp => (kp.1, kp.2.bare))
      (defaultContent kids (classesOf kids)) := by
  have hp := hs.plain
  rw [defaultContent_eq_map, ctorChildren_classesOf, map_eq_pure_bind]
  cases hfind : s.properties.find? "" with
  | none =>
    have hD : defaultEntries s = [] := by rw [defaultEntries_eq hp, hfind]; rfl
    have hsole := soleText_of_elements (isContent_of_bare hkids
      (setterChildren_isContent hs (by simp [hfind])))
    refine Yields.bind (ctorsOf_written (classified_readsAs hs hkids) hre) fun more hmore =>
      Yields.pure ?_
    rw [ofSetter_ctorValues, hD, List.flatMap_nil, List.map_eq_nil_iff] at hmore
    simp [hsole, hmore, defaultEntry, hD]
  | some p =>
    have hD : defaultEntries s = [("", p)] := by rw [defaultEntries_eq hp, hfind]; rfl
    have hmem : ("", p) ∈ s.properties.entries := KeyMap.mem_of_find?_eq_some hfind
    have hunbound : p.binding = none := hf.unbound p (by simp [hfind])
    obtain ⟨hshape, hvals⟩ := hs.values hmem
    dsimp only at hshape hvals
    rw [hD]
    rcases hshape with ⟨t, tp, hv⟩ | ⟨hd, -⟩ | ⟨hne, hctors⟩
    · have hsingle : Value.isSingleText p.values = true := by rw [hv]; rfl
      have hall := hf.textAlone p (by simp [hfind]) hsingle
      obtain ⟨hH, hE⟩ := halone p (by simp [hfind]) hsingle
      rw [setterChildren_soleText hp hfind hv hall hH hE] at hkids
      obtain ⟨n, rfl, hn⟩ := List.map_eq_singleton_iff.1 hkids
      obtain ⟨hcl, x, hsole⟩ := contentNode_read hn
      rw [hcl, hsole]
      refine Yields.pure (defaultEntry_bare ?_ (by simp [hv]) hunbound)
      simp [hv]
    · cases hd
    · have hsole := soleText_of_elements (isContent_of_bare hkids
        (setterChildren_isContent hs (by simp [hfind, Value.isSingleText_of_ctors hctors])))
      refine Yields.bind (ctorsOf_written (classified_readsAs hs hkids) hre) fun more hmore =>
        Yields.pure ?_
      rw [ofSetter_ctorValues, hD] at hmore
      rw [hsole, List.nil_append]
      refine defaultEntry_bare ?_ hne hunbound
      simpa [WrittenChild.ofProperty, ctorValues_of_ctors hctors] using hmore

/-! ## The loops -/

namespace WrittenChild

/-- The property a written child puts back, up to positions. -/
def propertyEntry? : WrittenChild → Option (String × Property)
  | .property kp => some (kp.1, kp.2.bare)
  | _ => none

/-- The handler a written child puts back, up to positions. -/
def handlerEntry? : WrittenChild → Option (String × Handler)
  | .handler kh => some (kh.1, kh.2.bare)
  | _ => none

/-- The environment variable a written child puts back, up to positions. -/
def environmentEntry? : WrittenChild → Option (String × EnvEntry)
  | .environment kv => some (kv.1, kv.2.bare)
  | _ => none

theorem ctors_filterMap {β : Type} {f : WrittenChild → Option β} (hf : ∀ c, f (.ctor c) = none)
    (vs : List Value) : (vs.filterMap fun v => v.asCtor?.map WrittenChild.ctor).filterMap f = [] := by
  rw [List.filterMap_eq_nil_iff]
  intro w hw
  obtain ⟨v, -, hvw⟩ := List.mem_filterMap.1 hw
  obtain ⟨c, -, rfl⟩ := Option.map_eq_some_iff.1 hvw
  exact hf c

theorem flatMap_ofProperty_properties : ∀ l : List (String × Property),
    (l.flatMap ofProperty).filterMap propertyEntry? =
      ((l.filter (·.1 != "")).filter (!Value.isSingleText ·.2.values)).map
        fun kp => (kp.1, kp.2.bare)
  | [] => rfl
  | kp :: l => by
    rw [List.flatMap_cons, List.filterMap_append, flatMap_ofProperty_properties l]
    unfold ofProperty
    by_cases hk : kp.1 = ""
    · simp [hk, ctors_filterMap (f := propertyEntry?) fun _ => rfl]
    · cases hsingle : Value.isSingleText kp.2.values <;>
        simp [hk, hsingle, propertyEntry?]

theorem ofProperty_filterMap {β : Type} {f : WrittenChild → Option β}
    (hc : ∀ c, f (.ctor c) = none) (hp : ∀ kp, f (.property kp) = none)
    (kp : String × Property) : (ofProperty kp).filterMap f = [] := by
  unfold ofProperty
  split
  · exact ctors_filterMap hc _
  · split
    · rfl
    · simp [hp]

theorem ofSetter_properties (s : Setter) :
    (ofSetter s).filterMap propertyEntry? =
      (elementEntries s).map fun kp => (kp.1, kp.2.bare) := by
  rw [ofSetter, List.filterMap_append, List.filterMap_append, flatMap_ofProperty_properties,
    List.filterMap_map, List.filterMap_map]
  simp [Function.comp_def, propertyEntry?, elementEntries]

theorem ofSetter_handlers (s : Setter) :
    (ofSetter s).filterMap handlerEntry? = s.handlers.entries.map fun kh => (kh.1, kh.2.bare) := by
  rw [ofSetter, List.filterMap_append, List.filterMap_append, List.filterMap_flatMap,
    List.filterMap_map, List.filterMap_map]
  simp [Function.comp_def, handlerEntry?,
    ofProperty_filterMap (f := handlerEntry?) (fun _ => rfl) (fun _ => rfl)]

theorem ofSetter_environment (s : Setter) :
    (ofSetter s).filterMap environmentEntry? =
      s.environment.entries.map fun kv => (kv.1, kv.2.bare) := by
  rw [ofSetter, List.filterMap_append, List.filterMap_append, List.filterMap_flatMap,
    List.filterMap_map, List.filterMap_map]
  simp [Function.comp_def, environmentEntry?,
    ofProperty_filterMap (f := environmentEntry?) (fun _ => rfl) (fun _ => rfl)]

theorem property_mem_ofSetter {s : Setter} {kp : String × Property}
    (h : WrittenChild.property kp ∈ ofSetter s) :
    kp ∈ s.properties.entries ∧ kp.1 ≠ "" ∧ Value.isSingleText kp.2.values = false := by
  simp only [ofSetter, List.mem_append, List.mem_flatMap, List.mem_map, reduceCtorEq, and_false,
    exists_false, or_false] at h
  obtain ⟨kp', hkp', hmem⟩ := h
  unfold ofProperty at hmem
  split at hmem
  · simp at hmem
  · rename_i hk
    split at hmem
    · cases hmem
    · rename_i hsingle
      rw [List.mem_singleton, property.injEq] at hmem
      subst hmem
      exact ⟨hkp', by simpa using hk, by simpa using hsingle⟩

theorem ctor_mem_ofSetter {s : Setter} {c : Ctor} (h : WrittenChild.ctor c ∈ ofSetter s) :
    ∃ kp ∈ s.properties.entries, Value.ctor c ∈ kp.2.values := by
  simp only [ofSetter, List.mem_append, List.mem_flatMap, List.mem_map, reduceCtorEq, and_false,
    exists_false, or_false] at h
  obtain ⟨kp, hkp, hmem⟩ := h
  unfold ofProperty at hmem
  split at hmem
  · obtain ⟨v, hv, hvc⟩ := List.mem_filterMap.1 hmem
    obtain ⟨c', hc', hc⟩ := Option.map_eq_some_iff.1 hvc
    cases v <;> simp [Value.asCtor?] at hc'
    subst hc'
    cases hc
    exact ⟨kp, hkp, hv⟩
  · split at hmem <;> simp at hmem

theorem handler_mem_ofSetter {s : Setter} {kh : String × Handler}
    (h : WrittenChild.handler kh ∈ ofSetter s) : kh ∈ s.handlers.entries := by
  simp only [ofSetter, List.mem_append, List.mem_flatMap, List.mem_map, handler.injEq,
    exists_eq_right, reduceCtorEq, and_false, exists_false, or_false] at h
  rcases h with ⟨kp, -, hmem⟩ | h
  · unfold ofProperty at hmem
    split at hmem
    · simp at hmem
    · split at hmem <;> simp at hmem
  · exact h

theorem environment_mem_ofSetter {s : Setter} {kv : String × EnvEntry}
    (h : WrittenChild.environment kv ∈ ofSetter s) : kv ∈ s.environment.entries := by
  simp only [ofSetter, List.mem_append, List.mem_flatMap, List.mem_map, environment.injEq,
    exists_eq_right, reduceCtorEq, and_false, exists_false, false_or] at h
  rcases h with ⟨kp, -, hmem⟩ | h
  · unfold ofProperty at hmem
    split at hmem
    · simp at hmem
    · split at hmem <;> simp at hmem
  · exact h

end WrittenChild

/-- An `att.` element read as a written property puts that property back. -/
theorem elementPut_properties {w : WrittenChild} (hw : w.Rereads)
    (hne : ∀ kp, w = .property kp → kp.2.values ≠ []) {p : Element × QualifiedName}
    (hp : ReadsAs p w) :
    (Slot.properties.elementPut p).map (fun kp => (kp.1, kp.2.bare)) = w.propertyEntry? := by
  obtain ⟨hbare, hname⟩ := hp
  unfold Slot.elementPut
  rw [hname]
  cases w with
  | property kp =>
    have hv : ((propertyValues p.1 (WrittenChild.property kp).name).run #[]).1.map Value.bare =
        kp.2.values.map Value.bare := hw p.1 hbare #[]
    have hvne : ((propertyValues p.1 (WrittenChild.property kp).name).run #[]).1.isEmpty = false := by
      rw [List.isEmpty_eq_false_iff]
      intro h
      rw [h, List.map_nil] at hv
      exact hne kp rfl (List.map_eq_nil_iff.1 hv.symm)
    simp only [WrittenChild.name, List.isEmpty_eq_false_iff] at hv hvne
    simp [Slot.properties, WrittenChild.name, isPropertyElementName, hvne, PropertyOf.bare, hv,
      WrittenChild.propertyEntry?]
  | ctor c => simp [Slot.properties, WrittenChild.name, isPropertyElementName, WrittenChild.propertyEntry?]
  | handler kh => simp [Slot.properties, WrittenChild.name, isPropertyElementName, WrittenChild.propertyEntry?]
  | environment kv =>
    simp [Slot.properties, WrittenChild.name, isPropertyElementName, WrittenChild.propertyEntry?]

/-- An `ev.` element read as a written handler puts that handler back. -/
theorem elementPut_handlers {w : WrittenChild}
    (hstyle : ∀ kh, w = .handler kh → kh.2.fromStyle = false) {p : Element × QualifiedName}
    (hp : ReadsAs p w) :
    (Slot.handlers.elementPut p).map (fun kh => (kh.1, kh.2.bare)) = w.handlerEntry? := by
  obtain ⟨hbare, hname⟩ := hp
  unfold Slot.elementPut
  rw [hname]
  cases w with
  | handler kh =>
    have hfs := hstyle kh rfl
    obtain ⟨k, b, script, fs, attPos, valuePos⟩ := kh
    simp only at hfs
    subst hfs
    rw [WrittenChild.element, handlerElement, Tag.push_eq] at hbare
    obtain ⟨-, -, hkids⟩ := Tag.bare_eq_extend hbare
    simp only [List.map_cons, List.map_nil, List.map_eq_singleton_iff] at hkids
    obtain ⟨n, hn, hnb⟩ := hkids
    cases n <;> simp [Node.bare] at hnb
    subst hnb
    simp [Slot.handlers, WrittenChild.name, isEventElementName, hn, soleScript, Handler.bare,
      WrittenChild.handlerEntry?]
  | ctor c => simp [Slot.handlers, WrittenChild.name, isEventElementName, WrittenChild.handlerEntry?]
  | property kp =>
    simp [Slot.handlers, WrittenChild.name, isEventElementName, WrittenChild.handlerEntry?]
  | environment kv =>
    simp [Slot.handlers, WrittenChild.name, isEventElementName, WrittenChild.handlerEntry?]

/-- An `env.` element read as a written environment variable puts that variable back. -/
theorem elementPut_environment {w : WrittenChild}
    (hstyle : ∀ kv, w = .environment kv → kv.2.fromStyle = false) {p : Element × QualifiedName}
    (hp : ReadsAs p w) :
    (Slot.environment.elementPut p).map (fun kv => (kv.1, kv.2.bare)) = w.environmentEntry? := by
  obtain ⟨hbare, hname⟩ := hp
  unfold Slot.elementPut
  rw [hname]
  cases w with
  | environment kv =>
    have hfs := hstyle kv rfl
    obtain ⟨k, value, fs, attPos, valuePos⟩ := kv
    simp only at hfs
    subst hfs
    rw [WrittenChild.element, environmentElement, Tag.pushContent_eq_contentNode] at hbare
    obtain ⟨-, -, hkids⟩ := Tag.bare_eq_extend hbare
    simp only [List.map_cons, List.map_nil, List.map_eq_singleton_iff] at hkids
    obtain ⟨n, hn, hnb⟩ := hkids
    unfold contentNode at hnb
    split at hnb <;> cases n <;> simp [Node.bare] at hnb <;> subst hnb <;>
      simp [Slot.environment, WrittenChild.name, isEnvironmentElementName,
        isEnvironmentAttributeName, hn, environmentEntry, soleScript, EnvEntry.bare,
        WrittenChild.environmentEntry?]
  | ctor c =>
    simp [Slot.environment, WrittenChild.name, isEnvironmentElementName,
      isEnvironmentAttributeName, WrittenChild.environmentEntry?]
  | property kp =>
    simp [Slot.environment, WrittenChild.name, isEnvironmentElementName,
      isEnvironmentAttributeName, WrittenChild.environmentEntry?]
  | handler kh =>
    simp [Slot.environment, WrittenChild.name, isEnvironmentElementName,
      isEnvironmentAttributeName, WrittenChild.environmentEntry?]

/-- The loops over the children written for a setter put back its entries and nothing else. -/
theorem loops_written {s : Setter} (hs : s.Loaded) (hre : ∀ w ∈ WrittenChild.ofSetter s, w.Rereads)
    {kids : List Node} (hkids : kids.map Node.bare = (setterChildren s).map Node.bare) {t : Setter}
    (hnodup : ((elementEntries s).map Prod.fst ++ t.properties.entries.map Prod.fst).Nodup)
    (hh : t.handlers = {}) (he : t.environment = {}) :
    Yields (fun u => u.instanceName = t.instanceName ∧ u.fromStyle = t.fromStyle ∧
      (u.properties.entries.map fun kp => (kp.1, kp.2.bare)).Perm
        ((elementEntries s).map (fun kp => (kp.1, kp.2.bare)) ++
          t.properties.entries.map fun kp => (kp.1, kp.2.bare)) ∧
      (u.handlers.entries.map fun kh => (kh.1, kh.2.bare)).Perm
        (s.handlers.entries.map fun kh => (kh.1, kh.2.bare)) ∧
      (u.environment.entries.map fun kv => (kv.1, kv.2.bare)).Perm
        (s.environment.entries.map fun kv => (kv.1, kv.2.bare)))
      (loops (classified kids) t) := by
  have hp := hs.plain
  have hfa := forall₂_and_mem (classified_readsAs hs hkids) fun w hw => And.intro hw (hre w hw)
  have hP : ((classified kids).filterMap Slot.properties.elementPut).map
      (fun kp => (kp.1, kp.2.bare)) = (elementEntries s).map fun kp => (kp.1, kp.2.bare) := by
    rw [forall₂_filterMap_map (fun p w h => elementPut_properties h.2.2
      (fun kp hkp => (hs.values (WrittenChild.property_mem_ofSetter (hkp ▸ h.2.1)).1).1.ne_nil) h.1)
      hfa,
      WrittenChild.ofSetter_properties]
  have hH : ((classified kids).filterMap Slot.handlers.elementPut).map
      (fun kh => (kh.1, kh.2.bare)) = s.handlers.entries.map fun kh => (kh.1, kh.2.bare) := by
    rw [forall₂_filterMap_map (fun p w h => elementPut_handlers
      (fun kh hkh => (hp.handlers kh (WrittenChild.handler_mem_ofSetter (hkh ▸ h.2.1))).2.2) h.1) hfa,
      WrittenChild.ofSetter_handlers]
  have hV : ((classified kids).filterMap Slot.environment.elementPut).map
      (fun kv => (kv.1, kv.2.bare)) = s.environment.entries.map fun kv => (kv.1, kv.2.bare) := by
    rw [forall₂_filterMap_map (fun p w h => elementPut_environment
      (fun kv hkv => (hp.environment kv (WrittenChild.environment_mem_ofSetter (hkv ▸ h.2.1))).2) h.1)
      hfa, WrittenChild.ofSetter_environment]
  have hPkeys := KeyMap.keys_eq_of_map hP
  have hHkeys := KeyMap.keys_eq_of_map hH
  have hVkeys := KeyMap.keys_eq_of_map hV
  unfold loops
  refine Yields.bind (propertyStep_steps.foldlM _ t (by rw [hPkeys]; exact hnodup)) fun t₁ ht₁ => ?_
  subst ht₁
  rw [Slot.properties_foldl_put]
  refine Yields.bind (eventStep_steps.foldlM _ _ ?_) fun t₂ ht₂ => ?_
  · rw [hHkeys]
    simpa [Slot.handlers, hh] using hp.handlers_nodup
  subst ht₂
  rw [Slot.handlers_foldl_put]
  refine (environmentStep_steps.foldlM _ _ ?_).mono fun u hu => ?_
  · rw [hVkeys]
    simpa [Slot.environment, he] using hp.environment_nodup
  subst hu
  rw [Slot.environment_foldl_put]
  refine ⟨rfl, rfl, ?_, ?_, ?_⟩
  · rw [← hP]
    exact KeyMap.foldl_insert_map_perm _ _ _ (by rw [hPkeys]; exact hnodup)
  · simpa [hh, hH] using KeyMap.foldl_insert_map_perm Handler.bare
      ((classified kids).filterMap Slot.handlers.elementPut) {} (by simpa [hHkeys] using hp.handlers_nodup)
  · simpa [he, hV] using KeyMap.foldl_insert_map_perm EnvEntry.bare
      ((classified kids).filterMap Slot.environment.elementPut) {}
        (by simpa [hVkeys] using hp.environment_nodup)

end GuiMarkup
