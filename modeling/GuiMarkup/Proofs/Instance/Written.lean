import GuiMarkup.Instance.Emit
import GuiMarkup.Proofs.Instance.Loaded
import GuiMarkup.Proofs.Markup.Built

/-! What writing a loaded constructor adds to an element; every element it writes reads
back as itself (`Tag.Rereadable`). -/

namespace GuiMarkup

open QualifiedName Markup Text

/-! ## Names that writing puts in tags -/

/-- A text that writing a well-formed name gives. -/
def WrittenName (s : String) : Prop :=
  ∃ q : QualifiedName, q.WellFormed ∧ q.display = s

/-- A written name is a markup name. -/
theorem WrittenName.isMarkupName {s : String} (h : WrittenName s) : isMarkupName s = true := by
  obtain ⟨q, hq, rfl⟩ := h
  obtain ⟨c, rest, hcs, hc⟩ := display_head hq
  have hchars := isNameChar_display hq
  rw [hcs] at hchars
  simp only [Markup.isMarkupName, hcs, hc, Bool.true_and, List.all_eq_true]
  exact fun d hd => hchars d (.tail _ hd)

theorem WrittenName.of_wellFormed {q : QualifiedName} (hq : q.WellFormed) :
    WrittenName q.display :=
  ⟨q, hq, rfl⟩

/-! ## The names of written values -/

theorem withBinding_eq_display (k : String) (b : Option String) :
    withBinding k b = QualifiedName.display ⟨none, none, k, b⟩ := by
  cases b <;> simp [withBinding, QualifiedName.display, String.append_assoc]

theorem qualifiedName_eq_display (c : Ctor) :
    c.qualifiedName = QualifiedName.display ⟨c.typeNamespace, none, c.typeName, none⟩ := by
  cases h : c.typeNamespace <;>
    simp [CtorOf.qualifiedName, QualifiedName.display, h, String.append_assoc]

theorem display_ne_of_category {m n : QualifiedName} (hm : m.WellFormed) (hn : n.WellFormed)
    (h : m.category ≠ n.category) : m.display ≠ n.display :=
  fun he => h (congrArg QualifiedName.category (display_injective hm hn he))

theorem withBinding_category (c k : String) (b : Option String) :
    withBinding (c ++ "." ++ k) b = QualifiedName.display ⟨none, some c, k, b⟩ := by
  cases b <;> simp [withBinding, QualifiedName.display, String.append_assoc]

section Identifiers

variable {k : String} {b : Option String} (hk : isIdent k = true) (hb : ∀ x ∈ b, isIdent x = true)
include hk hb

theorem withBinding_wellFormed : QualifiedName.WellFormed ⟨none, none, k, b⟩ :=
  ⟨by simp, by simp, hk, hb⟩

theorem withBinding_written : WrittenName (withBinding k b) :=
  withBinding_eq_display k b ▸ .of_wellFormed (withBinding_wellFormed hk hb)

/-- A property attribute is never a categorised attribute such as `ref.Name`. -/
theorem withBinding_ne_categorized {q : QualifiedName} (hq : q.WellFormed)
    (hc : q.category.isSome) : withBinding k b ≠ q.display := by
  rw [withBinding_eq_display]
  refine display_ne_of_category (withBinding_wellFormed hk hb) hq fun h => ?_
  simp [← h] at hc

theorem withBinding_inj {k' : String} {b' : Option String} (hk' : isIdent k' = true)
    (hb' : ∀ x ∈ b', isIdent x = true) (h : withBinding k b = withBinding k' b') : k = k' := by
  rw [withBinding_eq_display, withBinding_eq_display] at h
  exact congrArg QualifiedName.name
    (display_injective (withBinding_wellFormed hk hb) (withBinding_wellFormed hk' hb') h)

end Identifiers

theorem reference_wellFormed {x : String} (hx : isIdent x = true) :
    QualifiedName.WellFormed ⟨none, some "ref", x, none⟩ :=
  ⟨by simp, by simp [isIdent]; decide, hx, by simp⟩

theorem reference_display (x : String) :
    QualifiedName.display ⟨none, some "ref", x, none⟩ = "ref." ++ x := by
  simp [QualifiedName.display]

/-- A reference attribute is written, and differs from every property attribute. -/
theorem reference_written {x : String} (hx : isIdent x = true) : WrittenName ("ref." ++ x) :=
  reference_display x ▸ .of_wellFormed (reference_wellFormed hx)

theorem withBinding_ne_reference {k x : String} {b : Option String} (hk : isIdent k = true)
    (hb : ∀ y ∈ b, isIdent y = true) (hx : isIdent x = true) : withBinding k b ≠ "ref." ++ x :=
  reference_display x ▸ withBinding_ne_categorized hk hb (reference_wellFormed hx) rfl

/-- A written name in a category, such as `att.Text` or `ev.Clicked`. -/
def CategorizedName (name : String) : Prop :=
  ∃ q : QualifiedName, q.WellFormed ∧ q.category.isSome ∧ q.display = name

theorem CategorizedName.of_category {c k : String} {b : Option String} (hc : isIdent c = true)
    (hk : isIdent k = true) (hb : ∀ x ∈ b, isIdent x = true) :
    CategorizedName (withBinding (c ++ "." ++ k) b) :=
  ⟨⟨none, some c, k, b⟩, ⟨by simp, by simpa using hc, hk, hb⟩, rfl,
    (withBinding_category c k b).symm⟩

theorem CategorizedName.written {name : String} (h : CategorizedName name) : WrittenName name :=
  h.imp fun _ hq => ⟨hq.1, hq.2.2⟩

/-! ## Elements that read back -/

/-- Whether a child is text or CDATA: two such neighbours would be read as one. -/
def Markup.Node.isContent (n : Node) : Bool := n.isText || n.isCData

/-- A child that reads back as written. -/
def Markup.Node.Rewrites : Node → Prop
  | .text content _ => content.toList ≠ [] ∧ trim content.toList = content.toList
  | .cdata .. => True
  | .element e => ∀ c ∈ e.subtrees, c.Rereadable

/-- Children with at most one text or CDATA section are apart from their neighbours. -/
theorem isChain_apart : ∀ {ns : List Node}, ns.countP Node.isContent ≤ 1 →
    ns.IsChain Node.Apart
  | [], _ => .nil
  | [_], _ => .singleton _
  | a :: b :: rest, h => by
    rw [List.countP_cons, List.countP_cons] at h
    refine List.isChain_cons_cons.2 ⟨?_, isChain_apart ?_⟩
    · constructor <;> rintro ⟨ha, hb⟩ <;> simp [Node.isContent, ha, hb] at h
    · rw [List.countP_cons]
      omega

theorem Tag.rereadable_of_written {e : Element} (hname : WrittenName e.name)
    (hattrs : ∀ a ∈ e.attributes, WrittenName a.name)
    (hnodup : (e.attributes.map (·.name)).Nodup) (hkids : ∀ n ∈ e.children, n.Rewrites)
    (hcontent : e.children.countP Node.isContent ≤ 1) : ∀ c ∈ e.subtrees, c.Rereadable := by
  have hself : e.Rereadable :=
    Tag.Writable.rereadable ⟨hname.isMarkupName, fun a ha => (hattrs a ha).isMarkupName, hnodup,
      isChain_apart hcontent⟩ fun _ _ hmem => hkids _ hmem
  intro c hc
  rw [Tag.subtrees_eq, List.mem_cons, List.mem_flatMap] at hc
  rcases hc with rfl | ⟨n, hn, hc⟩
  · exact hself
  · cases n with
    | element e' => exact hkids _ hn c hc
    | text _ _ => simp [Node.subtrees] at hc
    | cdata _ _ => simp [Node.subtrees] at hc

/-! ## Adding to an element -/

/-- An element with attributes and children added at the end. -/
def Markup.Tag.extend (e : Element) (attrs : List Attribute) (kids : List Node) : Element :=
  { e with attributes := e.attributes ++ attrs, children := e.children ++ kids }

namespace Markup.Tag

@[simp] theorem extend_nil (e : Element) : e.extend [] [] = e := by
  simp [extend]

@[simp] theorem extend_extend (e : Element) (attrs kids attrs' kids') :
    (e.extend attrs kids).extend attrs' kids' = e.extend (attrs ++ attrs') (kids ++ kids') := by
  simp [extend]

@[simp] theorem extend_name (e : Element) (attrs kids) : (e.extend attrs kids).name = e.name := rfl

theorem push_eq (e : Element) (n : Node) : e.push n = e.extend [] [n] := by
  simp [push, extend]

theorem pushAttribute_eq (e : Element) (name value : String) :
    e.pushAttribute name value = e.extend [{ name, value }] [] := by
  simp [pushAttribute, extend]

/-- Written text becomes one child that reads back as written. -/
theorem pushContent_eq (e : Element) (t : String) :
    ∃ n, e.pushContent t = e.extend [] [n] ∧ n.Rewrites ∧ n.isContent = true := by
  unfold pushContent
  split
  · exact ⟨_, push_eq _ _, trivial, rfl⟩
  · rename_i h
    simp only [Bool.or_eq_true, String.isEmpty_iff, bne_iff_ne, ne_eq, not_or, not_not] at h
    refine ⟨_, push_eq _ _, ⟨?_, ?_⟩, rfl⟩
    · simpa using h.1
    · have := congrArg String.toList h.2
      simpa [trimText] using this

/-- A fold that pushes one child per item adds the children in order. -/
theorem foldl_push {α : Type} (f : Element → α → Element) (g : α → Node) :
    ∀ (l : List α), (∀ e, ∀ x ∈ l, f e x = e.push (g x)) →
      ∀ e, l.foldl f e = e.extend [] (l.map g)
  | [], _, e => by simp
  | x :: l, hf, e => by
    rw [List.foldl_cons, hf e x List.mem_cons_self,
      foldl_push f g l (fun e y hy => hf e y (List.mem_cons_of_mem _ hy)), push_eq, extend_extend]
    simp

end Markup.Tag

/-- An element of a written name reads back when its children do and at most one is content. -/
theorem rewrites_of_written {name : String} (hname : WrittenName name) {attrs : List Attribute}
    {kids : List Node} (hattrs : ∀ a ∈ attrs, WrittenName a.name)
    (hnodup : (attrs.map (·.name)).Nodup) (hkids : ∀ n ∈ kids, n.Rewrites)
    (hcontent : kids.countP Node.isContent ≤ 1) :
    (Node.element (({ name } : Element).extend attrs kids)).Rewrites :=
  Tag.rereadable_of_written hname (by simpa [Tag.extend] using hattrs)
    (by simpa [Tag.extend] using hnodup) (by simpa [Tag.extend] using hkids)
    (by simpa [Tag.extend] using hcontent)

@[simp] theorem Markup.Node.isContent_element (E : Element) : (Node.element E).isContent = false :=
  rfl

theorem countP_content_elements {α : Type} (l : List α) (f : α → Element) :
    (l.map fun x => Node.element (f x)).countP Node.isContent = 0 := by
  simp [List.countP_eq_zero]

/-! ## How a value is laid out -/

/-- Values that a named property is written with as one attribute. -/
def Value.isSingleText : List Value → Bool
  | [.text _ _ _] => true
  | _ => false

/-- The `ref.Name` attribute a setter is written with. -/
def nameAttribute (s : Setter) : Option Attribute :=
  s.instanceName.map fun n => { name := "ref.Name", value := n.name }

/-- The `ref.Style` attribute a constructor is written with. -/
def styleAttribute (c : Ctor) : Option Attribute :=
  c.styleName.map fun st => { name := "ref.Style", value := st }

/-- The element written for an event handler. -/
def handlerElement (kh : String × Handler) : Element :=
  ({ name := withBinding ("ev." ++ kh.1) kh.2.binding } : Element).push (.cdata kh.2.script)

/-- The element written for an environment variable. -/
def environmentElement (kv : String × EnvEntry) : Element :=
  ({ name := "env." ++ kv.1 } : Element).pushContent kv.2.value

/-- A setter of no style content is written as its name, properties, handlers and environment. -/
theorem emitSetter_eq_extend {s : Setter} (hs : s.Plain) (e : Element) :
    emitSetter s e =
      (emitProperties s.properties.entries (e.extend (nameAttribute s).toList [])).extend []
        (s.handlers.entries.map (fun kh => .element (handlerElement kh)) ++
          s.environment.entries.map (fun kv => .element (environmentElement kv))) := by
  rw [emitSetter, if_neg (by simp [hs.fromStyle])]
  dsimp only
  rw [Tag.foldl_push _ (fun kv => .element (environmentElement kv)) _ ?env,
    Tag.foldl_push _ (fun kh => .element (handlerElement kh)) _ ?handlers, Tag.extend_extend]
  case env =>
    rintro e ⟨k, v⟩ hkv
    have hv : v.fromStyle = false := (hs.environment _ hkv).2
    rw [if_neg (by simp [hv])]
    rfl
  case handlers =>
    rintro e ⟨k, h⟩ hkh
    have hh : h.fromStyle = false := (hs.handlers _ hkh).2.2
    rw [if_neg (by simp [hh])]
    rfl
  congr 2
  split
  · rename_i n hn
    have hstyle : n.fromStyle = false := hs.instanceName n (by simp [hn])
    simp [hstyle, hn, nameAttribute, Tag.pushAttribute_eq]
  · rename_i hn
    simp [hn, nameAttribute]

/-- A constructor of no style content is one element: its `ref.Style`, then its setter. -/
theorem emitCtor_eq_push {c : Ctor} (hs : c.setter.fromStyle = false) (e : Element) :
    emitCtor c e = e.push (.element (emitSetter c.setter
      (({ name := c.qualifiedName } : Element).extend (styleAttribute c).toList []))) := by
  rw [emitCtor, if_neg (by simp [hs])]
  dsimp only
  congr 3
  split
  · rename_i st hst
    simp [hst, styleAttribute, Tag.pushAttribute_eq]
  · rename_i hst
    simp [hst, styleAttribute]

theorem handlerElement_categorized {kh : String × Handler} (hk : isIdent kh.1 = true)
    (hb : ∀ x ∈ kh.2.binding, isIdent x = true) : CategorizedName (handlerElement kh).name := by
  simpa [handlerElement, Tag.push_eq] using
    CategorizedName.of_category (c := "ev") (by decide) hk hb

theorem environmentElement_categorized {kv : String × EnvEntry} (hk : isIdent kv.1 = true) :
    CategorizedName (environmentElement kv).name := by
  obtain ⟨n, hn, -⟩ := Tag.pushContent_eq ({ name := "env." ++ kv.1 } : Element) kv.2.value
  simpa [environmentElement, hn, withBinding] using
    CategorizedName.of_category (c := "env") (b := none) (by decide) hk (by simp)

theorem handlerElement_rewrites {kh : String × Handler} (hk : isIdent kh.1 = true)
    (hb : ∀ x ∈ kh.2.binding, isIdent x = true) : (Node.element (handlerElement kh)).Rewrites := by
  have hname := (handlerElement_categorized hk hb).written
  rw [handlerElement, Tag.push_eq] at hname ⊢
  exact rewrites_of_written (by simpa using hname) (by simp) (by simp) (by simp [Node.Rewrites])
    List.countP_le_length

theorem environmentElement_rewrites {kv : String × EnvEntry} (hk : isIdent kv.1 = true) :
    (Node.element (environmentElement kv)).Rewrites := by
  have hname := (environmentElement_categorized hk).written
  obtain ⟨n, hn, hrw, -⟩ := Tag.pushContent_eq ({ name := "env." ++ kv.1 } : Element) kv.2.value
  rw [environmentElement, hn] at hname ⊢
  exact rewrites_of_written (by simpa using hname) (by simp) (by simp) (by simpa using hrw)
    List.countP_le_length

/-! ## What writing a loaded value adds -/

theorem Value.Loaded.fromStyle {v : Value} (hv : v.Loaded) : v.fromStyle = false := by
  cases v with
  | text t fromStyle pos => exact hv
  | setter s => exact (SetterOf.Loaded.plain hv).fromStyle
  | ctor c => exact (CtorOf.loaded_iff.1 hv).2.plain.fromStyle

theorem countP_empty_le_one {es : List (String × Property)} (h : (es.map Prod.fst).Nodup) :
    es.countP (·.1 == "") ≤ 1 := by
  have := List.nodup_iff_count_le_one.1 h ""
  rwa [List.count_eq_countP, List.countP_map] at this

/-- What writing a loaded value adds to an element. -/
structure Adds (attrs : List Attribute) (kids : List Node) : Prop where
  written : ∀ a ∈ attrs, WrittenName a.name
  not_style : ∀ a ∈ attrs, a.name ≠ "ref.Style"
  nodup : (attrs.map (·.name)).Nodup
  rewrites : ∀ n ∈ kids, n.Rewrites
  content : kids.countP Node.isContent ≤ 1

theorem Adds.children {kids : List Node} (hkids : ∀ n ∈ kids, n.Rewrites)
    (hcontent : kids.countP Node.isContent ≤ 1) : Adds [] kids :=
  ⟨by simp, by simp, by simp, hkids, hcontent⟩

/-- What writing loaded properties adds to an element. -/
structure PropertiesAdd (es : List (String × Property)) (attrs : List Attribute)
    (kids : List Node) : Prop where
  named : ∀ a ∈ attrs, ∃ kp ∈ es, isIdent kp.1 = true ∧ (∀ x ∈ kp.2.binding, isIdent x = true) ∧
    a.name = withBinding kp.1 kp.2.binding
  nodup : (attrs.map (·.name)).Nodup
  rewrites : ∀ n ∈ kids, n.Rewrites
  content : kids.countP Node.isContent ≤ es.countP (·.1 == "")
  elements : ∀ E, Node.element E ∈ kids →
    CategorizedName E.name ∨ ∃ kp ∈ es, kp.1 = "" ∧ ∀ v ∈ kp.2.values, v.asCtor?.isSome
  named_child : ∀ kp ∈ es, kp.1 ≠ "" → Value.isSingleText kp.2.values = false →
    ∃ E, Node.element E ∈ kids

namespace PropertiesAdd

theorem nil : PropertiesAdd [] [] [] :=
  ⟨by simp, by simp, by simp, by simp, by simp, by simp⟩

/-- Properties are written one after another, each under its own name. -/
theorem cons {kp : String × Property} {rest : List (String × Property)}
    {attrs₁ attrs₂ : List Attribute} {kids₁ kids₂ : List Node} (hnew : kp.1 ∉ rest.map Prod.fst)
    (h₁ : PropertiesAdd [kp] attrs₁ kids₁) (h₂ : PropertiesAdd rest attrs₂ kids₂) :
    PropertiesAdd (kp :: rest) (attrs₁ ++ attrs₂) (kids₁ ++ kids₂) where
  named a ha := by
    rcases List.mem_append.1 ha with ha | ha
    · obtain ⟨kp', hkp', h⟩ := h₁.named a ha
      exact ⟨kp', List.mem_singleton.1 hkp' ▸ List.mem_cons_self, h⟩
    · obtain ⟨kp', hkp', h⟩ := h₂.named a ha
      exact ⟨kp', List.mem_cons_of_mem _ hkp', h⟩
  nodup := by
    rw [List.map_append, List.nodup_append]
    refine ⟨h₁.nodup, h₂.nodup, ?_⟩
    simp only [List.mem_map]
    rintro _ ⟨a, ha, rfl⟩ _ ⟨a', ha', rfl⟩ heq
    obtain ⟨kp₁, hkp₁, hk₁, hb₁, hname₁⟩ := h₁.named a ha
    obtain ⟨kp₂, hkp₂, hk₂, hb₂, hname₂⟩ := h₂.named a' ha'
    rw [List.mem_singleton] at hkp₁
    subst kp₁
    have hkey : kp.1 = kp₂.1 := withBinding_inj hk₁ hb₁ hk₂ hb₂ (hname₁ ▸ hname₂ ▸ heq)
    exact hnew (hkey ▸ List.mem_map_of_mem hkp₂)
  rewrites n hn := (List.mem_append.1 hn).elim (h₁.rewrites n) (h₂.rewrites n)
  content := by
    have := h₁.content
    have := h₂.content
    simp only [List.countP_append, List.countP_cons, List.countP_nil] at *
    omega
  elements E hE := by
    rcases List.mem_append.1 hE with hE | hE
    · exact (h₁.elements E hE).imp_right fun ⟨kp', hkp', h⟩ =>
        ⟨kp', List.mem_singleton.1 hkp' ▸ List.mem_cons_self, h⟩
    · exact (h₂.elements E hE).imp_right fun ⟨kp', hkp', h⟩ => ⟨kp', List.mem_cons_of_mem _ hkp', h⟩
  named_child kp' hkp' hk htext := by
    rcases List.mem_cons.1 hkp' with rfl | hkp'
    · obtain ⟨E, hE⟩ := h₁.named_child kp' (by simp) hk htext
      exact ⟨E, List.mem_append_left _ hE⟩
    · obtain ⟨E, hE⟩ := h₂.named_child kp' hkp' hk htext
      exact ⟨E, List.mem_append_right _ hE⟩

end PropertiesAdd

namespace Value.Shaped

variable {d : Bool} {vs : List Value}

theorem ne_nil (h : Value.Shaped d vs) : vs ≠ [] := by
  rcases h with ⟨t, pos, rfl⟩ | ⟨-, s, rfl⟩ | ⟨hne, -⟩
  · simp
  · simp
  · exact hne

theorem single_or_ctors (h : Value.Shaped d vs) :
    vs.length ≤ 1 ∨ ∀ v ∈ vs, v.asCtor?.isSome := by
  rcases h with ⟨t, pos, rfl⟩ | ⟨-, s, rfl⟩ | ⟨-, h⟩
  · simp
  · simp
  · exact .inr h

end Value.Shaped

theorem Value.isText_of_asCtor {v : Value} (h : v.asCtor?.isSome) : v.isText = false := by
  cases v <;> simp_all [Value.asCtor?, Value.isText]

mutual

theorem Value.emitInto_adds : ∀ (v : Value), v.Loaded → ∀ e, ∃ attrs kids,
    v.emitInto e = e.extend attrs kids ∧ Adds attrs kids ∧
      (v.asCtor?.isSome → attrs = [] ∧ kids.countP Node.isContent = 0)
  | .text t fromStyle pos, hv, e => by
    obtain ⟨n, hn, hrw, -⟩ := Tag.pushContent_eq e t
    refine ⟨[], [n], ?_, .children (by simpa using hrw) List.countP_le_length,
      by simp [Value.asCtor?]⟩
    have hfs : fromStyle = false := hv
    rw [Value.emitInto, hfs, if_neg Bool.false_ne_true, hn]
  | .setter s, hv, e => by
    obtain ⟨attrs, kids, he, hadds⟩ := emitSetter_adds s hv e
    exact ⟨attrs, kids, he, hadds, by simp [Value.asCtor?]⟩
  | .ctor c, hv, e => by
    obtain ⟨E, he, hE⟩ := emitCtor_adds c hv e
    exact ⟨[], [.element E], he, .children (by simpa using hE) List.countP_le_length,
      fun _ => ⟨rfl, by simp⟩⟩

theorem emitSetter_adds : ∀ (s : Setter), s.Loaded → ∀ e, ∃ attrs kids,
    emitSetter s e = e.extend attrs kids ∧ Adds attrs kids
  | s, hs, e => by
    have hp := hs.plain
    obtain ⟨attrs, kids, hE, hadd⟩ := emitProperties_adds s.properties.entries
      (fun kp hkp => ⟨hp.properties kp hkp, hs.values hkp⟩) hp.properties_nodup
      (e.extend (nameAttribute s).toList [])
    refine ⟨(nameAttribute s).toList ++ attrs, kids ++
      (s.handlers.entries.map (fun kh => .element (handlerElement kh)) ++
        s.environment.entries.map (fun kv => .element (environmentElement kv))), ?_,
      ⟨?_, ?_, ?_, ?_, ?_⟩⟩
    · simp only [emitSetter_eq_extend hp, hE, Tag.extend_extend, List.append_nil, List.nil_append]
    · simp only [List.mem_append, Option.mem_toList, nameAttribute, Option.map_eq_some_iff]
      rintro a (⟨n, -, rfl⟩ | ha)
      · simpa using reference_written (x := "Name") (by decide)
      · obtain ⟨kp, -, hk, hb, ha'⟩ := hadd.named a ha
        exact ha' ▸ withBinding_written hk hb
    · simp only [List.mem_append, Option.mem_toList, nameAttribute, Option.map_eq_some_iff]
      rintro a (⟨n, -, rfl⟩ | ha)
      · simp
      · obtain ⟨kp, -, hk, hb, ha'⟩ := hadd.named a ha
        rw [ha']
        simpa using withBinding_ne_reference hk hb (x := "Style") (by decide)
    · rw [List.map_append, List.nodup_append]
      refine ⟨by cases h : nameAttribute s <;> simp, hadd.nodup, ?_⟩
      simp only [List.mem_map, Option.mem_toList, nameAttribute, Option.map_eq_some_iff]
      rintro _ ⟨a, ⟨n, -, rfl⟩, rfl⟩ _ ⟨a', ha', rfl⟩ heq
      obtain ⟨kp, -, hk, hb, hname⟩ := hadd.named a' ha'
      have hne := withBinding_ne_reference hk hb (x := "Name") (by decide)
      rw [← hname, ← heq] at hne
      exact hne rfl
    · simp only [List.mem_append, List.mem_map]
      rintro n (hn | ⟨kh, hkh, rfl⟩ | ⟨kv, hkv, rfl⟩)
      · exact hadd.rewrites n hn
      · exact handlerElement_rewrites (hp.handlers kh hkh).1 (hp.handlers kh hkh).2.1
      · exact environmentElement_rewrites (hp.environment kv hkv).1
    · have hkids := hadd.content
      have hdefault := countP_empty_le_one hp.properties_nodup
      simp only [List.countP_append, countP_content_elements, Nat.add_zero]
      exact hkids.trans hdefault

theorem emitProperties_adds : ∀ (es : List (String × Property)),
    (∀ kp ∈ es, (kp.1 = "" ∨ isIdent kp.1 = true ∧ ∀ x ∈ kp.2.binding, isIdent x = true) ∧
      Value.Shaped (kp.1 == "") kp.2.values ∧ ∀ v ∈ kp.2.values, v.Loaded) →
    (es.map Prod.fst).Nodup → ∀ e, ∃ attrs kids,
      emitProperties es e = e.extend attrs kids ∧ PropertiesAdd es attrs kids
  | [], _, _, e => ⟨[], [], by simp [emitProperties], .nil⟩
  | (k, ⟨b, values, pos⟩) :: rest, hes, hnodup, e => by
    have hk : k = "" ∨ isIdent k = true ∧ ∀ x ∈ b, isIdent x = true := (hes _ List.mem_cons_self).1
    have hshape : Value.Shaped (k == "") values := (hes _ List.mem_cons_self).2.1
    have hvals : ∀ v ∈ values, v.Loaded := (hes _ List.mem_cons_self).2.2
    have hkept : values.filter (fun v => !v.fromStyle) = values :=
      List.filter_eq_self.2 fun v hv => by simp [(hvals v hv).fromStyle]
    simp only [List.map_cons, List.nodup_cons] at hnodup
    rw [emitProperties]
    dsimp only
    rw [hkept, if_neg (by simpa using hshape.ne_nil)]
    suffices key : ∀ e₁ attrs₁ kids₁, e₁ = e.extend attrs₁ kids₁ →
        PropertiesAdd [(k, ⟨b, values, pos⟩)] attrs₁ kids₁ → ∃ attrs kids,
          emitProperties rest e₁ = e.extend attrs kids ∧
          PropertiesAdd ((k, ⟨b, values, pos⟩) :: rest) attrs kids by
      split
      · rename_i hdefault
        have hk0 : k = "" := by simpa using hdefault
        rcases hshape with ⟨t, tpos, rfl⟩ | ⟨hd, -⟩ | ⟨-, hctors⟩
        · obtain ⟨n, hn, hrw, hc⟩ := Tag.pushContent_eq e t
          refine key _ [] [n] (by simp [emitValues, Value.emitInto, hn])
            ⟨by simp, by simp, by simpa using hrw, by simp [hc, hk0], ?_, ?_⟩
          · intro E hE
            rw [List.mem_singleton] at hE
            simp [← hE] at hc
          · exact fun kp hkp hne _ => (hne (List.mem_singleton.1 hkp ▸ hk0)).elim
        · simp [hdefault] at hd
        · obtain ⟨attrs, kids, he, hadds, hctor⟩ :=
            emitValues_adds false values hvals (.inr hctors) e
          obtain ⟨rfl, hcount⟩ := hctor hctors
          exact key _ [] kids he ⟨by simp, by simp, hadds.rewrites, by simp [hcount],
            fun _ _ => .inr ⟨_, List.mem_singleton_self _, hk0, hctors⟩,
            fun kp hkp hne _ => (hne (List.mem_singleton.1 hkp ▸ hk0)).elim⟩
      · rename_i hnamed
        have hk' : isIdent k = true ∧ ∀ x ∈ b, isIdent x = true :=
          hk.resolve_left (by simpa using hnamed)
        split
        · rename_i t _ _
          refine key _ [{ name := withBinding k b, value := t }] [] (Tag.pushAttribute_eq _ _ _)
            ⟨by simpa using hk', by simp, by simp, by simp, by simp, ?_⟩
          intro kp hkp _ htext
          simp [List.mem_singleton.1 hkp, Value.isSingleText] at htext
        · obtain ⟨attrs, kids, he, hadds, -⟩ := emitValues_adds (values.any (!·.isText)) values
            hvals hshape.single_or_ctors { name := withBinding ("att." ++ k) b }
          have hcat : CategorizedName (withBinding ("att." ++ k) b) := by
            simpa using CategorizedName.of_category (c := "att") (by decide) hk'.1 hk'.2
          have hE := rewrites_of_written hcat.written hadds.written hadds.nodup hadds.rewrites
            hadds.content
          refine key _ [] [.element _] (by rw [he, Tag.push_eq])
            ⟨by simp, by simp, by simpa using hE, by simp, ?_,
              fun _ _ _ _ => ⟨_, List.mem_singleton_self _⟩⟩
          intro E hE
          obtain rfl := Node.element.inj (List.mem_singleton.1 hE)
          exact .inl (by simpa using hcat)
    intro e₁ attrs₁ kids₁ he₁ hadd₁
    obtain ⟨attrs₂, kids₂, he₂, hadd₂⟩ :=
      emitProperties_adds rest (fun kp h => hes kp (List.mem_cons_of_mem _ h)) hnodup.2 e₁
    exact ⟨attrs₁ ++ attrs₂, kids₁ ++ kids₂, by rw [he₂, he₁, Tag.extend_extend],
      .cons hnodup.1 hadd₁ hadd₂⟩

theorem emitValues_adds : ∀ (d : Bool) (vs : List Value), (∀ v ∈ vs, v.Loaded) →
    (vs.length ≤ 1 ∨ ∀ v ∈ vs, v.asCtor?.isSome) → ∀ e, ∃ attrs kids,
      emitValues d vs e = e.extend attrs kids ∧ Adds attrs kids ∧
        ((∀ v ∈ vs, v.asCtor?.isSome) → attrs = [] ∧ kids.countP Node.isContent = 0)
  | d, [], _, _, e => ⟨[], [], by simp [emitValues], .children (by simp) (by simp),
      fun _ => ⟨rfl, by simp⟩⟩
  | d, [v], hvs, _, e => by
    rw [emitValues, emitValues]
    split
    · exact ⟨[], [], by simp, .children (by simp) (by simp), fun _ => ⟨rfl, by simp⟩⟩
    · obtain ⟨attrs, kids, he, hadds, hctor⟩ := Value.emitInto_adds v (hvs v (by simp)) e
      exact ⟨attrs, kids, he, hadds, fun h => hctor (h v (by simp))⟩
  | d, v :: w :: ws, hvs, hshape, e => by
    have hctors : ∀ u ∈ v :: w :: ws, u.asCtor?.isSome := hshape.resolve_left (by simp)
    have hv := hctors v List.mem_cons_self
    obtain ⟨attrs₁, kids₁, he₁, hadds₁, hctor₁⟩ := Value.emitInto_adds v (hvs v (by simp)) e
    obtain ⟨rfl, hcount₁⟩ := hctor₁ hv
    obtain ⟨attrs₂, kids₂, he₂, hadds₂, hctor₂⟩ := emitValues_adds d (w :: ws)
      (fun u hu => hvs u (List.mem_cons_of_mem _ hu))
      (.inr fun u hu => hctors u (List.mem_cons_of_mem _ hu)) (e.extend [] kids₁)
    obtain ⟨rfl, hcount₂⟩ := hctor₂ fun u hu => hctors u (List.mem_cons_of_mem _ hu)
    have hcount : (kids₁ ++ kids₂).countP Node.isContent = 0 := by simp [hcount₁, hcount₂]
    refine ⟨[], kids₁ ++ kids₂, ?_, .children ?_ (by omega), fun _ => ⟨rfl, hcount⟩⟩
    · rw [emitValues, Value.isText_of_asCtor hv, Bool.and_false, if_neg Bool.false_ne_true, he₁,
        he₂, Tag.extend_extend]
      rfl
    · simpa [or_imp, forall_and] using ⟨hadds₁.rewrites, hadds₂.rewrites⟩

theorem emitCtor_adds : ∀ (c : Ctor), c.Loaded → ∀ e, ∃ E,
    emitCtor c e = e.extend [] [.element E] ∧ (Node.element E).Rewrites
  | c, hc, e => by
    obtain ⟨hname, hs⟩ := CtorOf.loaded_iff.1 hc
    obtain ⟨attrs, kids, hE, hadds⟩ := emitSetter_adds c.setter hs
      (({ name := c.qualifiedName } : Element).extend (styleAttribute c).toList [])
    refine ⟨_, by rw [emitCtor_eq_push hs.plain.fromStyle, Tag.push_eq], ?_⟩
    have hstyle : WrittenName "ref.Style" := by
      simpa using reference_written (x := "Style") (by decide)
    rw [hE, Tag.extend_extend]
    refine rewrites_of_written (qualifiedName_eq_display _ ▸ .of_wellFormed hname) ?_ ?_
      (by simpa using hadds.rewrites) (by simpa using hadds.content)
    · simp only [List.mem_append, Option.mem_toList, styleAttribute, Option.map_eq_some_iff]
      rintro a (⟨st, -, rfl⟩ | ha)
      · exact hstyle
      · exact hadds.written a ha
    · rw [List.map_append, List.nodup_append]
      refine ⟨by cases h : styleAttribute c <;> simp, hadds.nodup, ?_⟩
      simp only [List.mem_map, Option.mem_toList, styleAttribute, Option.map_eq_some_iff]
      rintro _ ⟨a, ⟨st, -, rfl⟩, rfl⟩ _ ⟨a', ha', rfl⟩ heq
      exact hadds.not_style a' ha' heq.symm

end

end GuiMarkup
