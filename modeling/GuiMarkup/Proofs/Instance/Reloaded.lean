import GuiMarkup.Proofs.Instance.Written
import GuiMarkup.Proofs.Instance.Quiet

/-! The element written for a loaded constructor, and every rereading of it, fills
quietly. -/

namespace GuiMarkup

open QualifiedName Markup

namespace Loader

/-! ## Keys of written names -/

theorem attributeKey_display {q : QualifiedName} (hq : q.WellFormed) (role : Role)
    {a : Attribute} (ha : a.name = q.display) :
    attributeKey role a = if q.attributeRole = role then some q.name else none :=
  attributeKey_of_classify (ha ▸ classify_display hq)

theorem elementKey_display {q : QualifiedName} (hq : q.WellFormed) (p : QualifiedName → Bool)
    {E : Element} (hE : E.name = q.display) :
    elementKey p (.element E) = if p q then some q.name else none :=
  elementKey_of_classify (hE ▸ classify_display hq)

/-- A constructor name is in no other element role. -/
theorem isCtorName_roles {n : QualifiedName} (h : n.isCtorName = true) :
    n.isPropertyElementName = false ∧ n.isEventElementName = false ∧
      n.isEnvironmentElementName = false := by
  simp only [isCtorName, Bool.and_eq_true, Option.isNone_iff_eq_none] at h
  simp [isPropertyElementName, isEventElementName, isEnvironmentElementName,
    isEnvironmentAttributeName, h.1]

/-! ## Children for the loader -/

/-- What loading needs of one child element read as `n`, beside the keys it puts in. -/
structure ChildQuiet (c : Element) (n : QualifiedName) : Prop where
  role : n.elementRole ≠ .unrecognized
  ctor : n.isCtorName = true → FillsQuietly c.attributes c.children
  nested : n.isPropertyElementName = true → n.binding = some setBinding →
    FillsQuietly c.attributes c.children
  values : n.isPropertyElementName = true → n.binding ≠ some setBinding →
    ContentQuiet c.children
  event : n.isEventElementName = true → ∃ t sp, c.children = [.cdata t sp]
  environment : n.isEnvironmentElementName = true →
    c.children = [] ∨ (soleScript c.children).isSome

/-- Children each of whose elements reads as a name it is quiet for. -/
def KidsQuiet (kids : List Node) : Prop :=
  ∀ c, Node.element c ∈ kids → ∃ n, QualifiedName.classify c.name = .ok n ∧ ChildQuiet c n

namespace KidsQuiet

theorem nil : KidsQuiet [] := by simp [KidsQuiet]

theorem append {k₁ k₂ : List Node} (h₁ : KidsQuiet k₁) (h₂ : KidsQuiet k₂) :
    KidsQuiet (k₁ ++ k₂) := fun c hc =>
  (List.mem_append.1 hc).elim (h₁ c) (h₂ c)

theorem content {kids : List Node} (h : KidsQuiet kids) : ContentQuiet kids := by
  refine ⟨fun c hc => ?_, fun c n hc hn hctor => ?_⟩
  · obtain ⟨n, hn, hq⟩ := h c hc
    exact ⟨n, hn, hq.role⟩
  · obtain ⟨m, hm, hq⟩ := h c hc
    rw [hn] at hm
    cases hm
    exact hq.ctor hctor

/-- Quiet children beside known attributes whose keys stay apart fill quietly. -/
theorem fills {attrs : List Attribute} {kids : List Node} (h : KidsQuiet kids)
    (ha : AttributesKnown attrs) (hkeys : KeysApart attrs kids) : FillsQuietly attrs kids := by
  have hone : ∀ c n, Node.element c ∈ kids → QualifiedName.classify c.name = .ok n →
      ChildQuiet c n := fun c n hc hn => by
    obtain ⟨m, hm, hq⟩ := h c hc
    rw [hn] at hm
    cases hm
    exact hq
  exact ⟨ha, hkeys, h.content, fun c n hc hn => ⟨(hone c n hc hn).event,
    (hone c n hc hn).environment⟩, fun c n hc hn => (hone c n hc hn).nested,
    fun c n hc hn => (hone c n hc hn).values⟩

end KidsQuiet

theorem FillsQuietly.kidsQuiet {attrs : List Attribute} {kids : List Node}
    (h : FillsQuietly attrs kids) : KidsQuiet kids := by
  obtain ⟨-, -, hcontent, hscripts, hnested, hvalues⟩ := h
  intro c hc
  obtain ⟨n, hn, hrole⟩ := hcontent.roles c hc
  exact ⟨n, hn, ⟨hrole, hcontent.ctors c n hc hn, hnested c n hc hn, hvalues c n hc hn,
    (hscripts c n hc hn).1, (hscripts c n hc hn).2⟩⟩

theorem FillsQuietly.attributesKnown {attrs : List Attribute} {kids : List Node}
    (h : FillsQuietly attrs kids) : AttributesKnown attrs := by
  obtain ⟨ha, -⟩ := h
  exact ha

theorem FillsQuietly.keysApart {attrs : List Attribute} {kids : List Node}
    (h : FillsQuietly attrs kids) : KeysApart attrs kids := by
  obtain ⟨-, hkeys, -⟩ := h
  exact hkeys

/-- A reference attribute such as `ref.Style` puts nothing into a setter. -/
theorem FillsQuietly.cons_reference {attrs : List Attribute} {kids : List Node} {x : String}
    (hx : isIdent x = true) (value : String) (h : FillsQuietly attrs kids) :
    FillsQuietly ({ name := "ref." ++ x, value } :: attrs) kids := by
  have hq := reference_wellFormed hx
  have hkey : ∀ role, role ≠ .referenceAttribute →
      attributeKey role { name := "ref." ++ x, value } = none := fun role hrole => by
    rw [attributeKey_display hq role (reference_display x).symm, if_neg]
    simpa [QualifiedName.attributeRole, isReferenceAttributeName] using hrole.symm
  obtain ⟨hp, hh, he⟩ := h.keysApart
  refine h.kidsQuiet.fills (fun a ha => ?_) ⟨?_, ?_, ?_⟩
  · rcases List.mem_cons.1 ha with rfl | ha
    · exact ⟨_, (reference_display x) ▸ classify_display hq, by
        simp [QualifiedName.attributeRole, isReferenceAttributeName]⟩
    · exact h.attributesKnown a ha
  · rwa [filterMap_cons_toList, hkey _ (by decide), Option.toList_none, List.nil_append]
  · rwa [filterMap_cons_toList, hkey _ (by decide), Option.toList_none, List.nil_append]
  · rwa [filterMap_cons_toList, hkey _ (by decide), Option.toList_none, List.nil_append]

/-! ## Written children -/

theorem mem_map_bare_element {c : Element} {kids : List Node}
    (h : Node.element c ∈ kids.map Node.bare) : ∃ E, Node.element E ∈ kids ∧ c = E.bare := by
  obtain ⟨n, hn, hbare⟩ := List.mem_map.1 h
  cases n with
  | element E => exact ⟨E, hn, (Node.element.inj hbare).symm⟩
  | text _ _ => simp [Node.bare] at hbare
  | cdata _ _ => simp [Node.bare] at hbare

/-- The keys of elements written under well-formed names. -/
theorem filterMap_elementKey_map {α : Type} (l : List α) (f : α → Element)
    (q : α → QualifiedName) (hq : ∀ x ∈ l, (q x).WellFormed ∧ (f x).name = (q x).display)
    (p : QualifiedName → Bool) :
    (l.map fun x => Node.element (f x)).filterMap (elementKey p) =
      l.filterMap fun x => if p (q x) then some (q x).name else none := by
  rw [List.filterMap_map]
  exact List.filterMap_congr fun x hx => elementKey_display (hq x hx).1 p (hq x hx).2

/-- Default content as written: texts, CDATA sections and constructors that fill quietly. -/
def CtorKids (kids : List Node) : Prop :=
  ∀ n ∈ kids, n.isContent = true ∨ ∃ E, n = .element E ∧
    (∃ q, QualifiedName.classify E.name = .ok q ∧ q.isCtorName = true) ∧
    FillsQuietly (E.attributes.map Attribute.bare) (E.children.map Node.bare)

namespace CtorKids

variable {kids : List Node}

theorem append {k₁ k₂ : List Node} (h₁ : CtorKids k₁) (h₂ : CtorKids k₂) : CtorKids (k₁ ++ k₂) :=
  fun n hn => (List.mem_append.1 hn).elim (h₁ n) (h₂ n)

theorem kidsQuiet (h : CtorKids kids) : KidsQuiet (kids.map Node.bare) := by
  intro c hc
  obtain ⟨E, hE, rfl⟩ := mem_map_bare_element hc
  rcases h _ hE with hcontent | ⟨E', heq, ⟨q, hq, hctor⟩, hfill⟩
  · simp [Node.isContent, Node.isText, Node.isCData] at hcontent
  obtain rfl := Node.element.inj heq
  obtain ⟨hprop, hevent, henv⟩ := isCtorName_roles hctor
  refine ⟨q, by simpa using hq, ⟨by simp [QualifiedName.elementRole, hctor], fun _ => by simpa using hfill,
    ?_, ?_, ?_, ?_⟩⟩ <;> simp [hprop, hevent, henv]

/-- Written default content puts nothing into the maps of a setter. -/
theorem keys (h : CtorKids kids) {p : QualifiedName → Bool}
    (hp : ∀ q : QualifiedName, q.isCtorName = true → p q = false) :
    kids.filterMap (elementKey p) = [] := by
  refine List.filterMap_eq_nil_iff.2 fun n hn => ?_
  rcases h n hn with hcontent | ⟨E, rfl, ⟨q, hq, hctor⟩, -⟩
  · cases n <;> simp_all [Node.isContent, Node.isText, Node.isCData, elementKey]
  · rw [elementKey_of_classify hq, hp q hctor]
    rfl

theorem fills (h : CtorKids kids) : FillsQuietly [] (kids.map Node.bare) := by
  refine h.kidsQuiet.fills (by simp [AttributesKnown]) ⟨?_, ?_, ?_⟩ <;>
    simp only [List.filterMap_nil, List.nil_append, filterMap_elementKey_bare] <;>
    rw [h.keys fun q hq => by simp [isCtorName_roles hq]] <;> exact List.nodup_nil

end CtorKids

/-- What writing properties adds: children quiet for the loader that put each name in once. -/
structure PropertiesBack (es : List (String × Property)) (attrs : List Attribute)
    (kids : List Node) : Prop where
  attributes : ∀ a ∈ attrs, ∃ q : QualifiedName, q.WellFormed ∧ a.name = q.display ∧
    q.attributeRole = .propertyAttribute
  quiet : KidsQuiet (kids.map Node.bare)
  keys : (attrs.filterMap (attributeKey .propertyAttribute) ++
    kids.filterMap (elementKey isPropertyElementName)).Nodup
  within : ∀ k ∈ attrs.filterMap (attributeKey .propertyAttribute) ++
    kids.filterMap (elementKey isPropertyElementName), k ∈ es.map Prod.fst
  handlers : kids.filterMap (elementKey isEventElementName) = []
  environment : kids.filterMap (elementKey isEnvironmentElementName) = []

namespace PropertiesBack

theorem nil : PropertiesBack [] [] [] :=
  ⟨by simp, KidsQuiet.nil, by simp, by simp, rfl, rfl⟩

/-- Property attributes go into no other map. -/
theorem attributeKey_eq_none {es : List (String × Property)} {attrs : List Attribute}
    {kids : List Node} (h : PropertiesBack es attrs kids) {role : Role}
    (hrole : role ≠ .propertyAttribute) : attrs.filterMap (attributeKey role) = [] := by
  refine List.filterMap_eq_nil_iff.2 fun a ha => ?_
  obtain ⟨q, hq, hname, hprop⟩ := h.attributes a ha
  rw [attributeKey_display hq role hname, hprop, if_neg (Ne.symm hrole)]

/-- Properties are written one after another, each under its own name. -/
theorem cons {kp : String × Property} {rest : List (String × Property)}
    {attrs₁ attrs₂ : List Attribute} {kids₁ kids₂ : List Node} (hnew : kp.1 ∉ rest.map Prod.fst)
    (h₁ : PropertiesBack [kp] attrs₁ kids₁) (h₂ : PropertiesBack rest attrs₂ kids₂) :
    PropertiesBack (kp :: rest) (attrs₁ ++ attrs₂) (kids₁ ++ kids₂) where
  attributes a ha := (List.mem_append.1 ha).elim (h₁.attributes a) (h₂.attributes a)
  quiet := by simpa using h₁.quiet.append h₂.quiet
  keys := by
    simp only [List.filterMap_append]
    have hperm : (attrs₁.filterMap (attributeKey .propertyAttribute) ++
        attrs₂.filterMap (attributeKey .propertyAttribute) ++
        (kids₁.filterMap (elementKey isPropertyElementName) ++
          kids₂.filterMap (elementKey isPropertyElementName))).Perm
        ((attrs₁.filterMap (attributeKey .propertyAttribute) ++
          kids₁.filterMap (elementKey isPropertyElementName)) ++
        (attrs₂.filterMap (attributeKey .propertyAttribute) ++
          kids₂.filterMap (elementKey isPropertyElementName))) := by
      simp only [List.append_assoc]
      exact List.Perm.append_left _ (List.perm_append_comm_assoc _ _ _)
    rw [hperm.nodup_iff, List.nodup_append]
    refine ⟨h₁.keys, h₂.keys, fun k hk k' hk' heq => ?_⟩
    have hk₁ := h₁.within k hk
    simp only [List.map_cons, List.map_nil, List.mem_singleton] at hk₁
    exact hnew (hk₁ ▸ heq ▸ h₂.within k' hk')
  within k hk := by
    simp only [List.filterMap_append, List.mem_append] at hk
    rcases hk with (hk | hk) | hk | hk
    · exact List.mem_cons.2 (.inl (by simpa using h₁.within k (List.mem_append_left _ hk)))
    · exact List.mem_cons_of_mem _ (h₂.within k (List.mem_append_left _ hk))
    · exact List.mem_cons.2 (.inl (by simpa using h₁.within k (List.mem_append_right _ hk)))
    · exact List.mem_cons_of_mem _ (h₂.within k (List.mem_append_right _ hk))
  handlers := by simp [List.filterMap_append, h₁.handlers, h₂.handlers]
  environment := by simp [List.filterMap_append, h₁.environment, h₂.environment]

end PropertiesBack

/-! ## Elements of handlers and environment variables -/

theorem handlerElement_name (kh : String × Handler) :
    (handlerElement kh).name = QualifiedName.display ⟨none, some "ev", kh.1, kh.2.binding⟩ := by
  simpa [handlerElement, Tag.push_eq] using withBinding_category "ev" kh.1 kh.2.binding

/-- A handler is written as an `ev.` element of one CDATA section. -/
theorem handlerElement_childQuiet (kh : String × Handler) :
    ChildQuiet (handlerElement kh).bare ⟨none, some "ev", kh.1, kh.2.binding⟩ where
  role := by simp [QualifiedName.elementRole, isCtorName, isPropertyElementName, isEventElementName]
  ctor h := by simp [isCtorName] at h
  nested h := by simp [isPropertyElementName] at h
  values h := by simp [isPropertyElementName] at h
  event _ := ⟨kh.2.script, {}, by simp [handlerElement, Tag.push, Node.bare]⟩
  environment h := by simp [isEnvironmentElementName, isEnvironmentAttributeName] at h

theorem environmentElement_name (kv : String × EnvEntry) :
    (environmentElement kv).name = QualifiedName.display ⟨none, some "env", kv.1, none⟩ := by
  obtain ⟨n, hn, -, -⟩ := Tag.pushContent_eq ({ name := "env." ++ kv.1 } : Element) kv.2.value
  simpa [environmentElement, hn, withBinding] using withBinding_category "env" kv.1 none

/-- An environment variable is written as an `env.` element of one text or CDATA section. -/
theorem environmentElement_childQuiet (kv : String × EnvEntry) :
    ChildQuiet (environmentElement kv).bare ⟨none, some "env", kv.1, none⟩ where
  role := by
    simp [QualifiedName.elementRole, isCtorName, isPropertyElementName, isEventElementName,
      isEnvironmentElementName, isEnvironmentAttributeName]
  ctor h := by simp [isCtorName] at h
  nested h := by simp [isPropertyElementName] at h
  values h := by simp [isPropertyElementName] at h
  event h := by simp [isEventElementName] at h
  environment _ := by
    obtain ⟨n, hn, -, hc⟩ := Tag.pushContent_eq ({ name := "env." ++ kv.1 } : Element) kv.2.value
    right
    rw [environmentElement, hn]
    cases n <;> simp_all [Tag.extend, Node.bare, soleScript, Node.isContent, Node.isText,
      Node.isCData]

theorem handlerNames {hs : List (String × Handler)}
    (h : ∀ kh ∈ hs, isIdent kh.1 = true ∧ (∀ b ∈ kh.2.binding, isIdent b = true)) :
    ∀ kh ∈ hs, (QualifiedName.mk none (some "ev") kh.1 kh.2.binding).WellFormed ∧
      (handlerElement kh).name = QualifiedName.display ⟨none, some "ev", kh.1, kh.2.binding⟩ :=
  fun kh hkh => ⟨⟨by simp, by simp [isIdent]; decide, (h kh hkh).1, (h kh hkh).2⟩,
    handlerElement_name kh⟩

theorem environmentNames {vs : List (String × EnvEntry)} (h : ∀ kv ∈ vs, isIdent kv.1 = true) :
    ∀ kv ∈ vs, (QualifiedName.mk none (some "env") kv.1 none).WellFormed ∧
      (environmentElement kv).name = QualifiedName.display ⟨none, some "env", kv.1, none⟩ :=
  fun kv hkv => ⟨⟨by simp, by simp [isIdent]; decide, h kv hkv, by simp⟩,
    environmentElement_name kv⟩

/-! ## Properties written one by one -/

/-- Default content written alone: texts and constructors, under no name of a map. -/
theorem PropertiesBack.default {kp : String × Property} {kids : List Node}
    (hkids : CtorKids kids) : PropertiesBack [kp] [] kids where
  attributes := by simp
  quiet := hkids.kidsQuiet
  keys := by
    rw [hkids.keys fun q hq => by simp [isCtorName_roles hq]]
    simp
  within k hk' := by
    rw [hkids.keys fun q hq => by simp [isCtorName_roles hq]] at hk'
    simp at hk'
  handlers := hkids.keys fun q hq => by simp [isCtorName_roles hq]
  environment := hkids.keys fun q hq => by simp [isCtorName_roles hq]

/-- A named property of one text written as the attribute `name[-binding]`. -/
theorem PropertiesBack.attribute {kp : String × Property} (hk : isIdent kp.1 = true)
    (hb : ∀ x ∈ kp.2.binding, isIdent x = true) (t : String) :
    PropertiesBack [kp] [{ name := withBinding kp.1 kp.2.binding, value := t }] [] := by
  have hq := withBinding_wellFormed hk hb
  have hrole : QualifiedName.attributeRole ⟨none, none, kp.1, kp.2.binding⟩ = .propertyAttribute := by
    simp [QualifiedName.attributeRole, isReferenceAttributeName, isEnvironmentAttributeName,
      isPropertyAttributeName]
  have hkey := attributeKey_display hq .propertyAttribute
    (a := { name := withBinding kp.1 kp.2.binding, value := t }) (withBinding_eq_display _ _)
  rw [hrole, if_pos rfl] at hkey
  refine ⟨?_, KidsQuiet.nil, ?_, ?_, rfl, rfl⟩
  · simp only [List.mem_singleton]
    rintro a rfl
    exact ⟨_, hq, withBinding_eq_display _ _, hrole⟩
  · simp [hkey]
  · simp [hkey]

/-- A named property of anything else written as an `att.` element around its values. -/
theorem PropertiesBack.element {kp : String × Property} (hk : isIdent kp.1 = true)
    (hb : ∀ x ∈ kp.2.binding, isIdent x = true) {E : Element}
    (hname : E.name = withBinding ("att." ++ kp.1) kp.2.binding)
    (hfill : FillsQuietly (E.attributes.map Attribute.bare) (E.children.map Node.bare)) :
    PropertiesBack [kp] [] [.element E] := by
  have hq : (QualifiedName.mk none (some "att") kp.1 kp.2.binding).WellFormed :=
    ⟨by simp, by simp [isIdent]; decide, hk, hb⟩
  have hname' : E.name = QualifiedName.display ⟨none, some "att", kp.1, kp.2.binding⟩ :=
    hname.trans (by simpa using withBinding_category "att" kp.1 kp.2.binding)
  have hkey : ∀ p, elementKey p (.element E) =
      if p ⟨none, some "att", kp.1, kp.2.binding⟩ then some kp.1 else none :=
    fun p => elementKey_display hq p hname'
  refine ⟨by simp, ?_, ?_, ?_, ?_, ?_⟩
  · intro c hc
    simp only [List.map_cons, List.map_nil, List.mem_singleton, Node.bare,
      Node.element.injEq] at hc
    subst hc
    refine ⟨_, by simpa [hname'] using classify_display hq, ⟨?_, ?_, ?_, ?_, ?_, ?_⟩⟩
    · simp [QualifiedName.elementRole, isCtorName, isPropertyElementName]
    · simp [isCtorName]
    · exact fun _ _ => by simpa using hfill
    · exact fun _ _ => by simpa using hfill.kidsQuiet.content
    · simp [isEventElementName]
    · simp [isEnvironmentElementName, isEnvironmentAttributeName]
  · simp [hkey, isPropertyElementName]
  · simp [hkey, isPropertyElementName]
  · simp [hkey, isEventElementName]
  · simp [hkey, isEnvironmentElementName, isEnvironmentAttributeName]

/-! ## What writing a loaded value gives the loader -/

theorem CtorKids.single_content {n : Node} (h : n.isContent = true) : CtorKids [n] := by
  simp [CtorKids, h]

theorem CtorKids.nil : CtorKids [] := by simp [CtorKids]

mutual

theorem Value.emitInto_fills : ∀ (v : Value), v.Loaded → ∀ e, ∃ attrs kids,
    v.emitInto e = e.extend attrs kids ∧
      FillsQuietly (attrs.map Attribute.bare) (kids.map Node.bare) ∧
      (v.isText = true ∨ v.asCtor?.isSome = true → attrs = [] ∧ CtorKids kids)
  | .text t fromStyle pos, hv, e => by
    obtain ⟨n, hn, -, hc⟩ := Tag.pushContent_eq e t
    have hkids := CtorKids.single_content hc
    refine ⟨[], [n], ?_, hkids.fills, fun _ => ⟨rfl, hkids⟩⟩
    have hfs : fromStyle = false := hv
    rw [Value.emitInto, hfs, if_neg Bool.false_ne_true, hn]
  | .setter s, hv, e => by
    obtain ⟨attrs, kids, he, hfill⟩ := emitSetter_fills s hv e
    exact ⟨attrs, kids, he, hfill, by simp [Value.isText, Value.asCtor?]⟩
  | .ctor c, hv, e => by
    obtain ⟨E, he, hname, hfill⟩ := emitCtor_fills c hv e
    have hkids : CtorKids [.element E] := by
      simp only [CtorKids, List.mem_singleton, forall_eq]
      exact .inr ⟨E, rfl, hname, hfill⟩
    exact ⟨[], [.element E], he, hkids.fills, fun _ => ⟨rfl, hkids⟩⟩

theorem emitSetter_fills : ∀ (s : Setter), s.Loaded → ∀ e, ∃ attrs kids,
    emitSetter s e = e.extend attrs kids ∧
      FillsQuietly (attrs.map Attribute.bare) (kids.map Node.bare)
  | s, hs, e => by
    have hp := hs.plain
    obtain ⟨attrs, kids, hE, hback⟩ := emitProperties_fills s.properties.entries
      (fun kp hkp => ⟨hp.properties kp hkp, hs.values hkp⟩) hp.properties_nodup
      (e.extend (nameAttribute s).toList [])
    have hhandlers := handlerNames fun kh hkh => ⟨(hp.handlers kh hkh).1, (hp.handlers kh hkh).2.1⟩
    have henv := environmentNames fun kv hkv => (hp.environment kv hkv).1
    let all := kids ++ (s.handlers.entries.map (fun kh => .element (handlerElement kh)) ++
      s.environment.entries.map (fun kv => .element (environmentElement kv)))
    refine ⟨(nameAttribute s).toList ++ attrs, all, ?_, ?_⟩
    · simp only [emitSetter_eq_extend hp, hE, Tag.extend_extend, List.append_nil, List.nil_append,
        all]
    have hfill : FillsQuietly (attrs.map Attribute.bare) (all.map Node.bare) := by
      refine KidsQuiet.fills ?_ ?_ ⟨?_, ?_, ?_⟩
      · simp only [all, List.map_append, List.map_map]
        refine hback.quiet.append (KidsQuiet.append ?_ ?_)
        · intro c hc
          obtain ⟨kh, hkh, rfl⟩ : ∃ kh ∈ s.handlers.entries, c = (handlerElement kh).bare := by
            simpa [Node.bare, eq_comm] using hc
          exact ⟨_, by simpa [(hhandlers kh hkh).2] using classify_display (hhandlers kh hkh).1,
            handlerElement_childQuiet kh⟩
        · intro c hc
          obtain ⟨kv, hkv, rfl⟩ : ∃ kv ∈ s.environment.entries,
              c = (environmentElement kv).bare := by
            simpa [Node.bare, eq_comm] using hc
          exact ⟨_, by simpa [(henv kv hkv).2] using classify_display (henv kv hkv).1,
            environmentElement_childQuiet kv⟩
      · intro a ha
        obtain ⟨a', ha', rfl⟩ := List.mem_map.1 ha
        obtain ⟨q, hq, hname, hrole⟩ := hback.attributes a' ha'
        exact ⟨q, hname ▸ classify_display hq, by simp [hrole]⟩
      · simp only [filterMap_attributeKey_bare, filterMap_elementKey_bare, all,
          List.filterMap_append, filterMap_elementKey_map _ _ _ hhandlers,
          filterMap_elementKey_map _ _ _ henv]
        simpa [isPropertyElementName] using hback.keys
      · simp only [filterMap_attributeKey_bare, filterMap_elementKey_bare, all,
          List.filterMap_append, filterMap_elementKey_map _ _ _ hhandlers,
          filterMap_elementKey_map _ _ _ henv, hback.attributeKey_eq_none (by decide : Role.eventAttribute ≠ _),
          hback.handlers]
        simpa [isEventElementName, isEnvironmentElementName, isEnvironmentAttributeName,
          List.filterMap_eq_map] using hp.handlers_nodup
      · simp only [filterMap_attributeKey_bare, filterMap_elementKey_bare, all,
          List.filterMap_append, filterMap_elementKey_map _ _ _ hhandlers,
          filterMap_elementKey_map _ _ _ henv,
          hback.attributeKey_eq_none (by decide : Role.environmentAttribute ≠ _),
          hback.environment]
        simpa [isEventElementName, isEnvironmentElementName, isEnvironmentAttributeName,
          List.filterMap_eq_map] using hp.environment_nodup
    cases hname : nameAttribute s with
    | none => simpa using hfill
    | some a =>
      obtain ⟨n, -, rfl⟩ : ∃ n, s.instanceName = some n ∧ { name := "ref.Name", value := n.name } = a := by
        simpa [nameAttribute] using hname
      simpa [Attribute.bare] using hfill.cons_reference (x := "Name") (by decide) n.name

theorem emitProperties_fills : ∀ (es : List (String × Property)),
    (∀ kp ∈ es, (kp.1 = "" ∨ isIdent kp.1 = true ∧ ∀ x ∈ kp.2.binding, isIdent x = true) ∧
      Value.Shaped (kp.1 == "") kp.2.values ∧ ∀ v ∈ kp.2.values, v.Loaded) →
    (es.map Prod.fst).Nodup → ∀ e, ∃ attrs kids,
      emitProperties es e = e.extend attrs kids ∧ PropertiesBack es attrs kids
  | [], _, _, e => ⟨[], [], by simp [emitProperties], .nil⟩
  | (k, ⟨b, values, pos⟩) :: rest, hes, hnodup, e => by
    have hk : k = "" ∨ isIdent k = true ∧ ∀ x ∈ b, isIdent x = true := (hes _ List.mem_cons_self).1
    have hshape : Value.Shaped (k == "") values := (hes _ List.mem_cons_self).2.1
    have hvals : ∀ v ∈ values, v.Loaded := (hes _ List.mem_cons_self).2.2
    have hkept : values.filter (fun v => !v.fromStyle) = values :=
      List.filter_eq_self.2 fun v hv => by simp [(hvals v hv).fromStyle]
    simp only [List.map_cons, List.nodup_cons] at hnodup
    rw [emitProperties]
    dsimp only
    rw [hkept, if_neg (by simpa using hshape.ne_nil)]
    suffices key : ∀ e₁ attrs₁ kids₁, e₁ = e.extend attrs₁ kids₁ →
        PropertiesBack [(k, ⟨b, values, pos⟩)] attrs₁ kids₁ → ∃ attrs kids,
          emitProperties rest e₁ = e.extend attrs kids ∧
          PropertiesBack ((k, ⟨b, values, pos⟩) :: rest) attrs kids by
      split
      · rcases hshape with ⟨t, tpos, rfl⟩ | ⟨hd, -⟩ | ⟨-, hctors⟩
        · obtain ⟨n, hn, -, hc⟩ := Tag.pushContent_eq e t
          exact key _ [] [n] (by simp [emitValues, Value.emitInto, hn])
            (.default (.single_content hc))
        · rename_i hdefault
          simp [hdefault] at hd
        · obtain ⟨attrs, kids, he, -, hctor⟩ := emitValues_fills false values hvals (.inr hctors) e
          obtain ⟨rfl, hkids⟩ := hctor fun v hv => .inr (hctors v hv)
          exact key _ [] kids he (.default hkids)
      · rename_i hnamed
        have hk' : isIdent k = true ∧ ∀ x ∈ b, isIdent x = true :=
          hk.resolve_left (by simpa using hnamed)
        split
        · rename_i t _ _
          exact key _ _ [] (Tag.pushAttribute_eq _ _ _) (.attribute hk'.1 hk'.2 t)
        · obtain ⟨attrs, kids, he, hfill, -⟩ := emitValues_fills (values.any (!·.isText)) values
            hvals hshape.single_or_ctors { name := withBinding ("att." ++ k) b }
          refine key _ [] [.element _] (by rw [he, Tag.push_eq])
            (.element hk'.1 hk'.2 (by simp) (by simpa [Tag.extend] using hfill))
    intro e₁ attrs₁ kids₁ he₁ hback₁
    obtain ⟨attrs₂, kids₂, he₂, hback₂⟩ :=
      emitProperties_fills rest (fun kp h => hes kp (List.mem_cons_of_mem _ h)) hnodup.2 e₁
    exact ⟨attrs₁ ++ attrs₂, kids₁ ++ kids₂, by rw [he₂, he₁, Tag.extend_extend],
      .cons hnodup.1 hback₁ hback₂⟩

theorem emitValues_fills : ∀ (d : Bool) (vs : List Value), (∀ v ∈ vs, v.Loaded) →
    (vs.length ≤ 1 ∨ ∀ v ∈ vs, v.asCtor?.isSome) → ∀ e, ∃ attrs kids,
      emitValues d vs e = e.extend attrs kids ∧
        FillsQuietly (attrs.map Attribute.bare) (kids.map Node.bare) ∧
        ((∀ v ∈ vs, v.isText = true ∨ v.asCtor?.isSome = true) → attrs = [] ∧ CtorKids kids)
  | d, [], _, _, e => ⟨[], [], by simp [emitValues], CtorKids.nil.fills,
      fun _ => ⟨rfl, .nil⟩⟩
  | d, [v], hvs, _, e => by
    rw [emitValues, emitValues]
    split
    · exact ⟨[], [], by simp, CtorKids.nil.fills, fun _ => ⟨rfl, .nil⟩⟩
    · obtain ⟨attrs, kids, he, hfill, hctor⟩ := Value.emitInto_fills v (hvs v (by simp)) e
      exact ⟨attrs, kids, he, hfill, fun h => hctor (h v (by simp))⟩
  | d, v :: w :: ws, hvs, hshape, e => by
    have hctors : ∀ u ∈ v :: w :: ws, u.asCtor?.isSome := hshape.resolve_left (by simp)
    have hv := hctors v List.mem_cons_self
    obtain ⟨attrs₁, kids₁, he₁, -, hctor₁⟩ := Value.emitInto_fills v (hvs v (by simp)) e
    obtain ⟨rfl, hkids₁⟩ := hctor₁ (.inr hv)
    obtain ⟨attrs₂, kids₂, he₂, -, hctor₂⟩ := emitValues_fills d (w :: ws)
      (fun u hu => hvs u (List.mem_cons_of_mem _ hu))
      (.inr fun u hu => hctors u (List.mem_cons_of_mem _ hu)) (e.extend [] kids₁)
    obtain ⟨rfl, hkids₂⟩ := hctor₂ fun u hu => .inr (hctors u (List.mem_cons_of_mem _ hu))
    refine ⟨[], kids₁ ++ kids₂, ?_, (hkids₁.append hkids₂).fills,
      fun _ => ⟨rfl, hkids₁.append hkids₂⟩⟩
    rw [emitValues, Value.isText_of_asCtor hv, Bool.and_false, if_neg Bool.false_ne_true, he₁,
      he₂, Tag.extend_extend]
    rfl

theorem emitCtor_fills : ∀ (c : Ctor), c.Loaded → ∀ e, ∃ E,
    emitCtor c e = e.extend [] [.element E] ∧
      (∃ q, QualifiedName.classify E.name = .ok q ∧ q.isCtorName = true) ∧
      FillsQuietly (E.attributes.map Attribute.bare) (E.children.map Node.bare)
  | c, hc, e => by
    obtain ⟨hname, hs⟩ := CtorOf.loaded_iff.1 hc
    obtain ⟨attrs, kids, hE, hfill⟩ := emitSetter_fills c.setter hs
      (({ name := c.qualifiedName } : Element).extend (styleAttribute c).toList [])
    refine ⟨_, by rw [emitCtor_eq_push hs.plain.fromStyle, Tag.push_eq], ?_, ?_⟩
    · rw [hE]
      exact ⟨_, by simpa [qualifiedName_eq_display] using classify_display hname,
        by simp [isCtorName]⟩
    · rw [hE]
      cases hst : c.styleName with
      | none => simpa [styleAttribute, hst, Tag.extend] using hfill
      | some st =>
        simpa [styleAttribute, hst, Tag.extend, Attribute.bare] using
          hfill.cons_reference (x := "Style") (by decide) st

end

end Loader

end GuiMarkup
