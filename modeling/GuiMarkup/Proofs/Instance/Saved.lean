import GuiMarkup.Proofs.Instance.Header
import GuiMarkup.Proofs.Instance.Reloaded

/-! Saved documents load back with the same header when their namespace aliases hold no
quote and no `>`. -/

namespace GuiMarkup

open Markup Text Loader

namespace Loader

/-- An empty element with a constructor name loads to that constructor with an empty setter. -/
theorem ctor_leaf {x : Element} {n : QualifiedName} (hn : QualifiedName.classify x.name = .ok n)
    (hctor : n.isCtorName = true) (hattrs : x.attributes = []) (hkids : x.children = []) :
    ctor x = pure (some
      { typeNamespace := n.qualifier, typeName := n.name, setter := { tagPos := x.span.start } }) := by
  obtain ⟨name, nameSpan, span, attrs, children⟩ := x
  simp only at hn hattrs hkids
  subst hattrs hkids
  rw [ctor]
  simp [Loader.classify, hn, hctor, fill, classifyChildren, defaultContent, ctorChildren,
    readProperties, readEvents, readEnvironment, soleText, styleOf]

end Loader

namespace Document

/-! ## What saving writes -/

/-- The name of the attribute that declares an alias: `xmlns` for the empty alias. -/
def aliasName (key : String) : String :=
  if key.isEmpty then "xmlns" else "xmlns:" ++ key

/-- The attribute that declares an alias and its patterns. -/
def namespaceAttribute (x : String × NamespaceDecl) : Attribute :=
  { name := aliasName x.1, value := ";".intercalate (x.2.patterns.map NamespacePattern.print) }

/-- The attributes of a saved document. -/
def savedAttributes (d : Document) : List Attribute :=
  [{ name := "ref.CodeBehind", value := if d.codeBehind then "true" else "false" },
    { name := "ref.Class", value := d.className }] ++
    d.namespaces.entries.map namespaceAttribute ++
    if d.stylePaths.isEmpty then [] else [{ name := "ref.Styles", value := ";".intercalate d.stylePaths }]

/-- The element a parameter is saved as. -/
def parameterElement (p : Parameter) : Element :=
  (({ name := "ref.Parameter" } : Element).pushAttribute "Name" p.name).pushAttribute "Class"
    p.className

/-- The element a member script is saved as. -/
def membersElement (script : String) : Element :=
  ({ name := "ref.Members" } : Element).push (.cdata script)

/-- The children of a saved document before its root. -/
def savedChildren (d : Document) : List Node :=
  d.parameters.map (fun p => .element (parameterElement p)) ++
    if d.memberScript.isEmpty then [] else [.element (membersElement d.memberScript)]

theorem foldl_pushAttribute {α : Type} (f : Element → α → Element) (g : α → Attribute) :
    ∀ (l : List α), (∀ e, ∀ x ∈ l, f e x = e.pushAttribute (g x).name (g x).value) →
      ∀ e, l.foldl f e = e.extend (l.map fun x => { name := (g x).name, value := (g x).value }) []
  | [], _, e => by simp
  | x :: l, hf, e => by
    rw [List.foldl_cons, hf e x List.mem_cons_self,
      foldl_pushAttribute f g l (fun e y hy => hf e y (List.mem_cons_of_mem _ hy)),
      Tag.pushAttribute_eq, Tag.extend_extend]
    simp

theorem save_eq (d : Document) :
    d.save = emitCtor d.root
      (({ name := "Instance" } : Element).extend (savedAttributes d) (savedChildren d)) := by
  have hps : ∀ e : Element, d.parameters.foldl (fun e p => e.push (.element (parameterElement p))) e =
      e.extend [] (d.parameters.map fun p => .element (parameterElement p)) :=
    Tag.foldl_push _ _ _ (fun _ _ _ => rfl)
  have hattrs : (d.namespaces.entries.map fun x =>
      ({ name := (namespaceAttribute x).name, value := (namespaceAttribute x).value } : Attribute)) =
      d.namespaces.entries.map namespaceAttribute := rfl
  simp only [save, parameterElement] at hps ⊢
  rw [List.foldl_ext _ (fun e x => e.pushAttribute (namespaceAttribute x).name
      (namespaceAttribute x).value) _ (l := d.namespaces.entries),
    foldl_pushAttribute _ namespaceAttribute _ (fun e x _ => rfl), hattrs, hps]
  · by_cases hs : d.stylePaths.isEmpty <;> by_cases hm : d.memberScript.isEmpty <;>
      simp [hs, hm, savedAttributes, savedChildren, parameterElement, membersElement, Tag.push_eq,
        Tag.pushAttribute_eq]
  · rintro e ⟨key, info⟩ -
    rfl

/-- A saved document is its header element with the root written last. -/
theorem save_shape {d : Document} (hroot : d.root.Loaded) : ∃ E : Element,
    d.save = ({ name := "Instance" } : Element).extend (savedAttributes d)
      (savedChildren d ++ [.element E]) ∧
    (Node.element E).Rewrites ∧
    (∃ q, QualifiedName.classify E.name = .ok q ∧ q.isCtorName = true) ∧
    FillsQuietly (E.attributes.map Attribute.bare) (E.children.map Node.bare) := by
  obtain ⟨E, hE, hrw⟩ := emitCtor_adds d.root hroot
    (({ name := "Instance" } : Element).extend (savedAttributes d) (savedChildren d))
  obtain ⟨E', hE', hq, hfill⟩ := emitCtor_fills d.root hroot
    (({ name := "Instance" } : Element).extend (savedAttributes d) (savedChildren d))
  have hsame : E = E' := by
    rw [hE] at hE'
    simpa [Tag.extend] using congrArg Tag.children hE'
  subst hsame
  refine ⟨E, ?_, hrw, hq, hfill⟩
  rw [save_eq, hE, Tag.extend_extend]
  simp

/-! ## Names that read back -/

theorem aliasName_head (key : String) : (aliasName key).toList.head? = some 'x' := by
  unfold aliasName
  split <;> simp

theorem aliasName_ne {key s : String} (hs : s.toList.head? ≠ some 'x') : aliasName key ≠ s :=
  fun h => hs (h ▸ aliasName_head key)

theorem aliasName_injective : Function.Injective aliasName := by
  intro k k' h
  unfold aliasName at h
  by_cases hk : k.isEmpty <;> by_cases hk' : k'.isEmpty <;>
    simp only [hk, hk', if_true, if_false, Bool.false_eq_true] at h
  · rw [String.isEmpty_iff] at hk hk'
    rw [hk, hk']
  · have := congrArg String.toList h
    simp at this
  · have := congrArg String.toList h
    simp at this
  · exact (String.append_right_inj _).1 h

theorem declaredAlias_aliasName (key : String) : declaredAlias (aliasName key) = some key := by
  unfold aliasName
  split
  · rename_i hk
    rw [String.isEmpty_iff.1 hk]
    rfl
  · exact declaredAlias_prefixed key

/-- A name that does not start with `x` declares no alias. -/
theorem declaredAlias_of_head {name : String} (h : name.toList.head? ≠ some 'x') :
    declaredAlias name = none := by
  unfold declaredAlias
  rw [if_neg, if_neg]
  · intro hstarts
    rw [String.isPrefixOf, String.startsWith_string_iff] at hstarts
    obtain ⟨rest, hrest⟩ := hstarts
    exact h (by rw [← hrest]; rfl)
  · intro hx
    rw [beq_iff_eq.1 hx] at h
    exact h rfl

/-- A key that the tag reader takes whole and that holds no quote and no `>`. -/
def PlainKey (name : String) : Prop :=
  KeyShape name.toList ∧ ∀ c ∈ name.toList, c ≠ '>' ∧ c ≠ '"' ∧ c ≠ '\''

theorem plainKey_of_isMarkupName {name : String} (h : isMarkupName name = true) :
    PlainKey name :=
  ⟨keyShape_of_isMarkupName h, fun c hc =>
    have h := plain_of_isMarkupName h c hc
    ⟨h.2.1, h.2.2.1, h.2.2.2.1⟩⟩

/-- An alias from a read tag is written as the same key, which reads back without quotes and `>`. -/
theorem plainKey_aliasName {key : String} {root : Element} (hroot : root.ReadShape)
    (hkey : key = "" ∨ ∃ a ∈ root.attributes, a.name = "xmlns:" ++ key)
    (hplain : ∀ c ∈ key.toList, c ≠ '>' ∧ c ≠ '"' ∧ c ≠ '\'') : PlainKey (aliasName key) := by
  rcases hkey with rfl | ⟨a, ha, hname⟩
  · exact plainKey_of_isMarkupName (by decide)
  · by_cases hk : key.isEmpty
    · rw [String.isEmpty_iff.1 hk]
      exact plainKey_of_isMarkupName (by decide)
    · have hhead : ∀ c ∈ "xmlns:".toList, c ≠ '>' ∧ c ≠ '"' ∧ c ≠ '\'' := by simp
      rw [aliasName, if_neg hk, ← hname]
      refine ⟨hroot.keys_shape a ha, fun c hc => ?_⟩
      rw [hname, String.toList_append, List.mem_append] at hc
      exact hc.elim (hhead c) (hplain c)

/-! ## Documents that saving writes back -/

/-- What saving asks of a document so that its text reads back. -/
structure Savable (d : Document) : Prop where
  root : d.root.Loaded
  stylePaths : ∀ s ∈ d.stylePaths, Entry ';' s.toList
  sorted : d.namespaces.Sorted
  blank : "" ∈ d.namespaces.entries.map Prod.fst
  aliases : ∀ k ∈ d.namespaces.entries.map Prod.fst, PlainKey (aliasName k)
  patterns : ∀ x ∈ d.namespaces.entries, ∀ p ∈ x.2.patterns, p.Read

theorem savedAttributes_names (d : Document) :
    (savedAttributes d).map (·.name) = "ref.CodeBehind" :: "ref.Class" ::
      ((d.namespaces.entries.map Prod.fst).map aliasName ++
        if d.stylePaths.isEmpty then [] else ["ref.Styles"]) := by
  unfold savedAttributes
  by_cases hs : d.stylePaths.isEmpty <;>
    simp only [hs, ↓reduceIte, List.map_append, List.map_cons, List.map_nil, List.map_map,
      List.cons_append, List.nil_append] <;> rfl

/-! ## The saved text reads back -/

/-- The elements below a child that reads back read back. -/
theorem rereadable_of_rewrites {n : Node} (h : n.Rewrites) : ∀ c ∈ n.subtrees, c.Rereadable := by
  cases n with
  | element e => exact h
  | text _ _ => simp [Node.subtrees]
  | cdata _ _ => simp [Node.subtrees]

/-- An element that writing accepts, with at most CDATA below it, reads back. -/
theorem rewrites_of_writable {e : Element} (hw : e.Writable)
    (hkids : ∀ n ∈ e.children, n.isCData = true) : (Node.element e).Rewrites := by
  have htexts : ∀ content span, Node.text content span ∈ e.children →
      content.toList ≠ [] ∧ trim content.toList = content.toList :=
    fun content span h => absurd (hkids _ h) (by simp [Node.isCData])
  intro c hc
  rw [Tag.subtrees_eq, List.mem_cons, List.mem_flatMap] at hc
  rcases hc with rfl | ⟨n, hn, hc⟩
  · exact hw.rereadable htexts
  · cases n with
    | element _ => simp [Node.isCData] at hkids; exact absurd (hkids _ hn) (by simp)
    | text _ _ => simp [Node.subtrees] at hc
    | cdata _ _ => simp [Node.subtrees] at hc

theorem savedChildren_rewrites (d : Document) :
    ∀ n ∈ savedChildren d, n.Rewrites ∧ n.isContent = false := by
  intro n hn
  simp only [savedChildren, List.mem_append, List.mem_map] at hn
  rcases hn with ⟨p, -, rfl⟩ | hn
  · refine ⟨rewrites_of_writable ⟨show isMarkupName "ref.Parameter" = true by decide, ?_, ?_, ?_⟩
      (by simp [parameterElement, Tag.pushAttribute]), rfl⟩
    · intro a ha
      simp only [parameterElement, Tag.pushAttribute, List.nil_append, List.cons_append,
        List.mem_cons, List.not_mem_nil, or_false] at ha
      rcases ha with rfl | rfl
      · exact show isMarkupName "Name" = true by decide
      · exact show isMarkupName "Class" = true by decide
    · simp [parameterElement, Tag.pushAttribute]
    · simp [parameterElement, Tag.pushAttribute]
  · split at hn
    · cases hn
    · rw [List.mem_singleton] at hn
      subst hn
      refine ⟨rewrites_of_writable ⟨show isMarkupName "ref.Members" = true by decide, ?_, ?_, ?_⟩
        ?_, rfl⟩ <;>
        simp [membersElement, Tag.push, Node.isCData]

/-! ## Reading the header back -/

/-- Two documents of the same header, positions and the root aside. -/
structure SameHeader (d' d : Document) : Prop where
  codeBehind : d'.codeBehind = d.codeBehind
  className : d'.className = d.className
  stylePaths : d'.stylePaths = d.stylePaths
  parameters : d'.parameters.map (fun p => (p.name, p.className)) =
    d.parameters.map (fun p => (p.name, p.className))
  memberScript : d'.memberScript = d.memberScript
  namespaces : ∀ k, (d'.namespaces.find? k).map (·.patterns) = (d.namespaces.find? k).map (·.patterns)

/-- What an element finds under a name depends on the names and values of its attributes only. -/
theorem attribute?_map_bare {e : Element} {attrs : List Attribute}
    (h : e.attributes.map Attribute.bare = attrs.map Attribute.bare) (name : String) :
    (e.attribute? name).map Attribute.bare = (attrs.find? (·.name == name)).map Attribute.bare := by
  have hfind : ∀ l : List Attribute,
      (l.find? (·.name == name)).map Attribute.bare = (l.map Attribute.bare).find? (·.name == name) :=
    fun l => by rw [List.find?_map]; rfl
  rw [Tag.attribute?, hfind, h, ← hfind]

theorem value_of_map_bare {o o' : Option Attribute} (h : o.map Attribute.bare = o'.map Attribute.bare) :
    o.map (·.value) = o'.map (·.value) := by
  have := congrArg (Option.map (·.value)) h
  simpa [Option.map_map, Function.comp_def, Attribute.bare] using this

/-- Saving writes attributes without stretches. -/
theorem savedAttributes_bare (d : Document) :
    (savedAttributes d).map Attribute.bare = savedAttributes d := by
  conv_rhs => rw [← List.map_id (savedAttributes d)]
  apply List.map_congr_left
  intro a ha
  simp only [savedAttributes, List.cons_append, List.nil_append, List.mem_cons, List.mem_append,
    List.mem_map] at ha
  rcases ha with rfl | rfl | (⟨x, -, rfl⟩ | ha)
  · rfl
  · rfl
  · rfl
  · split at ha
    · cases ha
    · rw [List.mem_singleton.1 ha]
      rfl

theorem find?_savedAttributes_codeBehind (d : Document) :
    ((savedAttributes d).find? (·.name == "ref.CodeBehind")).map (·.value) =
      some (if d.codeBehind then "true" else "false") := by
  simp [savedAttributes]

theorem find?_savedAttributes_class (d : Document) :
    ((savedAttributes d).find? (·.name == "ref.Class")).map (·.value) = some d.className := by
  simp [savedAttributes]

theorem find?_savedAttributes_styles (d : Document) :
    ((savedAttributes d).find? (·.name == "ref.Styles")).map (·.value) =
      if d.stylePaths.isEmpty then none else some (";".intercalate d.stylePaths) := by
  have hns : (d.namespaces.entries.map namespaceAttribute).find? (·.name == "ref.Styles") = none := by
    rw [List.find?_eq_none]
    intro a ha
    obtain ⟨x, -, rfl⟩ := List.mem_map.1 ha
    have hne : aliasName x.1 ≠ "ref.Styles" := aliasName_ne (by decide)
    simpa [namespaceAttribute] using hne
  unfold savedAttributes
  by_cases hs : d.stylePaths.isEmpty <;> simp [hs, List.find?_append, hns]

/-! ## Loading the children back -/

/-- Children that are elements up to their stretches are elements. -/
theorem elements_of_bare : ∀ {cs : List Node} {xs : List Element},
    cs.map Node.bare = xs.map (fun x => Node.element x.bare) →
      ∃ ys : List Element, cs = ys.map .element ∧ ys.map Tag.bare = xs.map Tag.bare
  | [], [], _ => ⟨[], rfl, rfl⟩
  | c :: cs, x :: xs, h => by
    simp only [List.map_cons, List.cons.injEq] at h
    obtain ⟨ys, rfl, hys⟩ := elements_of_bare h.2
    cases c with
    | element y =>
      simp only [Node.bare, Node.element.injEq] at h
      exact ⟨y :: ys, rfl, by rw [List.map_cons, List.map_cons, h.1, hys]⟩
    | text _ _ => simp [Node.bare] at h
    | cdata _ _ => simp [Node.bare] at h
  | [], _ :: _, h => by simp at h
  | _ :: _, [], h => by simp at h

theorem elements_of_children {e : Element} {ys : List Element} (h : e.children = ys.map .element) :
    e.elements = ys := by
  rw [Tag.elements, h, List.filterMap_map]
  simp

/-- A saved parameter is read back with its name and class. -/
theorem readChild_parameter (dd : Document) (found : Option Ctor) {x : Element} {p : Parameter}
    (hx : x.bare = (parameterElement p).bare) :
    ∃ q : Parameter, (q.name, q.className) = (p.name, p.className) ∧
      readChild (dd, found) x = pure ({ dd with parameters := dd.parameters ++ [q] }, found) := by
  have hname : x.name = "ref.Parameter" := by
    simpa [parameterElement, Tag.pushAttribute] using congrArg Tag.name hx
  have hattrs : x.attributes.map Attribute.bare =
      (parameterElement p).attributes.map Attribute.bare := by
    simpa using congrArg Tag.attributes hx
  have hN : (x.attribute? "Name").map (·.value) = some p.name := by
    rw [value_of_map_bare (attribute?_map_bare hattrs "Name")]
    simp [parameterElement, Tag.pushAttribute]
  have hC : (x.attribute? "Class").map (·.value) = some p.className := by
    rw [value_of_map_bare (attribute?_map_bare hattrs "Class")]
    simp [parameterElement, Tag.pushAttribute]
  obtain ⟨a, ha, hav⟩ := Option.map_eq_some_iff.1 hN
  obtain ⟨b, hb, hbv⟩ := Option.map_eq_some_iff.1 hC
  refine ⟨⟨a.value, b.value, x.span.start⟩, by simp [hav, hbv], ?_⟩
  simp [readChild, hname, ha, hb]

theorem foldlM_readChild_parameters (found : Option Ctor) :
    ∀ (ps : List Parameter) (xs : List Element) (dd : Document),
      xs.map Tag.bare = ps.map (fun p => (parameterElement p).bare) →
      ∃ qs : List Parameter, qs.map (fun p => (p.name, p.className)) =
          ps.map (fun p => (p.name, p.className)) ∧
        xs.foldlM readChild (dd, found) = pure ({ dd with parameters := dd.parameters ++ qs }, found)
  | [], [], dd, _ => ⟨[], rfl, by simp⟩
  | p :: ps, x :: xs, dd, h => by
    simp only [List.map_cons, List.cons.injEq] at h
    obtain ⟨q, hq, hstep⟩ := readChild_parameter dd found h.1
    obtain ⟨qs, hqs, hrest⟩ :=
      foldlM_readChild_parameters found ps xs { dd with parameters := dd.parameters ++ [q] } h.2
    refine ⟨q :: qs, by simp [hq, hqs], ?_⟩
    rw [List.foldlM_cons, hstep, pure_bind, hrest]
    simp
  | [], _ :: _, _, h => by simp at h
  | _ :: _, [], _, h => by simp at h

/-- A saved member script is read back. -/
theorem readChild_members (dd : Document) (found : Option Ctor) {x : Element} {script : String}
    (hx : x.bare = (membersElement script).bare) :
    ∃ pos, readChild (dd, found) x =
      pure ({ dd with memberScript := script, memberPos := pos }, found) := by
  have hname : x.name = "ref.Members" := by
    simpa [membersElement, Tag.push] using congrArg Tag.name hx
  have hkids : x.children.map Node.bare = [.cdata script] := by
    simpa [membersElement, Tag.push, Node.bare] using congrArg Tag.children hx
  obtain ⟨n, hn, hbare⟩ := List.map_eq_singleton_iff.1 hkids
  cases n with
  | cdata s sp =>
    simp only [Node.bare, Node.cdata.injEq, and_true] at hbare
    subst hbare
    exact ⟨sp.start.shift cdataOpenerLength, by simp [readChild, hname, hn]⟩
  | text _ _ => simp [Node.bare] at hbare
  | element _ => simp [Node.bare] at hbare

theorem foldlM_readChild_members (dd : Document) (found : Option Ctor) {script : String}
    {ms : List Element}
    (hms : ms.map Tag.bare = if script.isEmpty then [] else [(membersElement script).bare])
    (hdd : dd.memberScript = "") :
    ∃ pos, ms.foldlM readChild (dd, found) =
      pure ({ dd with memberScript := script, memberPos := pos }, found) := by
  by_cases hs : script.isEmpty
  · rw [if_pos hs, List.map_eq_nil_iff] at hms
    subst hms
    rw [String.isEmpty_iff.1 hs, ← hdd]
    exact ⟨dd.memberPos, rfl⟩
  · rw [if_neg hs] at hms
    obtain ⟨x, rfl, hx⟩ := List.map_eq_singleton_iff.1 hms
    obtain ⟨pos, hstep⟩ := readChild_members dd found hx
    exact ⟨pos, by simp [hstep]⟩

/-- A constructor name is no name of a header element. -/
theorem header_names_ne {name : String} {q : QualifiedName}
    (hq : QualifiedName.classify name = .ok q) (hctor : q.isCtorName = true) :
    name ≠ "ref.Parameter" ∧ name ≠ "ref.Members" := by
  have hP : (QualifiedName.classify "ref.Parameter").toOption.map QualifiedName.isCtorName =
      some false := by decide
  have hM : (QualifiedName.classify "ref.Members").toOption.map QualifiedName.isCtorName =
      some false := by decide
  constructor <;> rintro rfl
  · simp [hq, hctor, Except.toOption] at hP
  · simp [hq, hctor, Except.toOption] at hM

/-- The first child that is no header element loads as the root. -/
theorem readChild_ctor (dd : Document) {x : Element} (hp : x.name ≠ "ref.Parameter")
    (hm : x.name ≠ "ref.Members") :
    readChild (dd, none) x = Loader.ctor x >>= fun c => pure (dd, c) := by
  simp [readChild, hp, hm]

/-- A text whose root loads with no report parses to that document with no diagnostics. -/
theorem parse_eq_of_load {resource text : String} {root : Element} {d' : Document}
    (hread : readDocument text = .ok root) (hload : (load root).run #[] = (some d', #[])) :
    Document.parse resource text = .ok (some d', []) := by
  simp only [Document.parse, hread]
  rw [show (Except.ok root : Except ReadError Element) = pure root from rfl, pure_bind]
  simp only [Reporting.runIn, StateT.run_bind, hload]
  rfl

/-- An `<Instance>` whose one child is an empty constructor element loads without diagnostics. -/
theorem parse_leaf {resource text : String} {root x : Element} {n : QualifiedName}
    (hread : readDocument text = .ok root) (hname : root.name = "Instance")
    (helems : root.elements = [x]) (hn : QualifiedName.classify x.name = .ok n)
    (hctor : n.isCtorName = true) (hattrs : x.attributes = []) (hkids : x.children = []) :
    Document.parse resource text = .ok (some { header root default with
      root := { typeNamespace := n.qualifier, typeName := n.name,
                setter := { tagPos := x.span.start } } }, []) := by
  obtain ⟨hP, hM⟩ := header_names_ne hn hctor
  apply parse_eq_of_load hread
  simp [load, hname, helems, readChild_ctor _ hP hM, ctor_leaf hn hctor hattrs hkids]
  rfl

/-! ## What loading keeps of the header -/

/-- What reading the children keeps of a header, and a loaded root once one is found. -/
def Keeps (h : Document) (s : Document × Option Ctor) : Prop :=
  s.1.namespaces = h.namespaces ∧ s.1.stylePaths = h.stylePaths ∧ ∀ c ∈ s.2, c.Loaded

theorem ctor_yields_loaded (x : Element) : Yields (fun o => ∀ c ∈ o, c.Loaded) (ctor x) :=
  fun log _ hc => ctor_loaded x log hc

theorem readChild_keeps {h : Document} {s : Document × Option Ctor} (hs : Keeps h s)
    (e : Element) : Yields (Keeps h) (readChild s e) := by
  obtain ⟨dd, found⟩ := s
  obtain ⟨hns, hstyles, hfound⟩ := hs
  have hkeep : Keeps h (dd, found) := ⟨hns, hstyles, hfound⟩
  dsimp only [readChild]
  split
  · split
    · exact Yields.pure hkeep
    · exact Yields.bind Yields.report fun _ _ => Yields.pure hkeep
  · split
    · split
      · exact Yields.pure hkeep
      · exact Yields.bind Yields.report fun _ _ => Yields.pure hkeep
    · split
      · refine Yields.bind (ctor_yields_loaded e) fun o ho => Yields.pure ?_
        exact ⟨hns, hstyles, ho⟩
      · exact Yields.pure hkeep

/-- A document that loading gives keeps its namespaces and style paths and has a loaded root. -/
theorem load_keeps (root : Element) :
    Yields (fun o => ∀ d ∈ o, d.namespaces = namespacesOf root ∧
      d.stylePaths = (header root default).stylePaths ∧ d.root.Loaded) (load root) := by
  unfold load
  split
  · exact Yields.pure fun _ h => by cases h
  · have hinit : Keeps (header root default) (header root default, none) :=
      ⟨rfl, rfl, fun _ h => by cases h⟩
    refine Yields.bind (Yields.foldlM (fun s e hs => readChild_keeps hs e) root.elements _ hinit)
      fun s hs => Yields.pure ?_
    obtain ⟨dd, found⟩ := s
    obtain ⟨hns, hstyles, hfound⟩ := hs
    intro d hd
    obtain ⟨c, hc, rfl⟩ := Option.map_eq_some_iff.1 hd
    exact ⟨hns.trans (by simp [header_eq]), hstyles, hfound c hc⟩

/-- A text that parses to a document has a root element that loads to it. -/
theorem load_of_parse {resource text : String} {d : Document} {diags : List Diagnostic}
    (hparse : Document.parse resource text = .ok (some d, diags)) :
    ∃ root, readDocument text = .ok root ∧ ((load root).run #[]).1 = some d := by
  cases hread : readDocument text with
  | error err =>
    simp only [Document.parse, hread] at hparse
    cases hparse
  | ok root =>
    refine ⟨root, rfl, ?_⟩
    simp only [Document.parse, hread] at hparse
    rw [show (Except.ok root : Except ReadError Element) = pure root from rfl, pure_bind] at hparse
    simp only [Reporting.runIn, StateT.run_bind] at hparse
    have hpair := Except.ok.inj hparse
    generalize (load root).run #[] = p at hpair ⊢
    obtain ⟨o, log⟩ := p
    cases o with
    | none =>
      have hnone : (none : Option Document) = some d := congrArg Prod.fst hpair
      cases hnone
    | some x =>
      have hsome : some x = some d := congrArg Prod.fst hpair
      exact hsome

section Savable

variable {d : Document} (hd : d.Savable)
include hd

theorem savedAttributes_plainKey : ∀ a ∈ savedAttributes d, PlainKey a.name := by
  intro a ha
  simp only [savedAttributes, List.cons_append, List.nil_append, List.mem_cons, List.mem_append,
    List.mem_map] at ha
  rcases ha with rfl | rfl | (⟨x, hx, rfl⟩ | ha)
  · exact show PlainKey "ref.CodeBehind" from plainKey_of_isMarkupName (by decide)
  · exact show PlainKey "ref.Class" from plainKey_of_isMarkupName (by decide)
  · exact hd.aliases x.1 (List.mem_map_of_mem hx)
  · split at ha
    · cases ha
    · rw [List.mem_singleton] at ha
      subst ha
      exact show PlainKey "ref.Styles" from plainKey_of_isMarkupName (by decide)

theorem savedAttributes_nodup : ((savedAttributes d).map (·.name)).Nodup := by
  have hkeys := hd.sorted.nodup.map aliasName_injective
  -- every alias is written under a name that starts with `x`, unlike the other keys
  have hnot : ∀ s : String, s.toList.head? ≠ some 'x' →
      s ∉ (d.namespaces.entries.map Prod.fst).map aliasName := by
    intro s hs hmem
    obtain ⟨k, -, hk⟩ := List.mem_map.1 hmem
    exact aliasName_ne hs hk
  have hCB := hnot "ref.CodeBehind" (by decide)
  have hC := hnot "ref.Class" (by decide)
  have hS := hnot "ref.Styles" (by decide)
  rw [savedAttributes_names]
  split
  · rw [List.append_nil, List.nodup_cons, List.nodup_cons, List.mem_cons, not_or]
    exact ⟨⟨by decide, hCB⟩, hC, hkeys⟩
  · rw [List.nodup_cons, List.nodup_cons, List.nodup_append]
    simp only [List.mem_cons, List.mem_append, List.not_mem_nil, or_false, not_or]
    refine ⟨⟨by decide, hCB, by decide⟩, ⟨hC, by decide⟩, hkeys, List.nodup_singleton _, ?_⟩
    rintro a ha b rfl rfl
    exact hS ha

/-- The `<Instance>` tag of a saved document reads back as itself. -/
theorem savedTag_rereadable {kids : List Node} (hkids : ∀ n ∈ kids, n.isContent = false)
    (hne : kids ≠ []) :
    (({ name := "Instance" } : Element).extend (savedAttributes d) kids).Rereadable := by
  have hI : TagReadable ({ name := "Instance" } : Element) :=
    TagReadable.of_markupNames (by decide) (by simp) (by simp)
  have hattrs : savedAttributes d ≠ [] := by simp [savedAttributes]
  refine ⟨⟨hI.name_space, hI.name_passes, hI.name_start, ?_, ?_, ?_⟩, ?_, ?_, ?_, ?_⟩
  · exact fun a ha => (savedAttributes_plainKey hd a (by simpa [Tag.extend] using ha)).1
  · exact fun a ha => (savedAttributes_plainKey hd a (by simpa [Tag.extend] using ha)).2
  · simpa [Tag.extend] using savedAttributes_nodup hd
  · intro h
    exact absurd (by simpa [Tag.extend] using h) hne
  · intro _
    rw [tagText_toList, List.getLast?_append]
    simp [Tag.extend, getLast?_flatMap_writtenAttribute hattrs]
  · have hzero : kids.countP Node.isContent = 0 :=
      List.countP_eq_zero.2 fun n hn => by simp [hkids n hn]
    exact isChain_apart (by simp [Tag.extend, hzero])
  · intro content span h
    have := hkids _ (by simpa [Tag.extend] using h)
    simp [Node.isContent, Node.isText] at this

/-- Every element of a saved document reads back. -/
theorem save_subtrees_rereadable : ∀ c ∈ d.save.subtrees, c.Rereadable := by
  obtain ⟨E, hsave, hE, -, -⟩ := save_shape hd.root
  have hkids : ∀ n ∈ savedChildren d ++ [.element E], n.Rewrites ∧ n.isContent = false := by
    intro n hn
    rcases List.mem_append.1 hn with hn | hn
    · exact savedChildren_rewrites d n hn
    · rw [List.mem_singleton.1 hn]
      exact ⟨hE, rfl⟩
  intro c hc
  rw [hsave, Tag.subtrees_eq, List.mem_cons, List.mem_flatMap] at hc
  rcases hc with rfl | ⟨n, hn, hc⟩
  · exact savedTag_rereadable hd (fun n hn => (hkids n hn).2) (by simp)
  · exact rereadable_of_rewrites (hkids n (by simpa [Tag.extend] using hn)).1 c hc

theorem xmlns_savedAttributes : ((savedAttributes d).find? (·.name == "xmlns")).isSome = true := by
  obtain ⟨x, hx, hk⟩ := List.mem_map.1 hd.blank
  rw [List.find?_isSome]
  refine ⟨namespaceAttribute x, ?_, ?_⟩
  · simp only [savedAttributes, List.cons_append, List.nil_append, List.mem_cons, List.mem_append,
      List.mem_map]
    exact .inr (.inr (.inl ⟨x, hx, rfl⟩))
  · simp [namespaceAttribute, aliasName, hk]

/-- The declarations of the saved attributes are the aliases with their written patterns. -/
theorem declarations_reread {e' : Element}
    (he : e'.attributes.map Attribute.bare = savedAttributes d) :
    (declarations e').map (fun x => (x.1, x.2.2)) =
      d.namespaces.entries.map fun x =>
        (x.1, ";".intercalate (x.2.patterns.map NamespacePattern.print)) := by
  have hbare : e'.attributes.map Attribute.bare = (savedAttributes d).map Attribute.bare := by
    rw [he, savedAttributes_bare]
  have hxmlns : (e'.attribute? "xmlns").isSome = true := by
    have := congrArg Option.isSome (attribute?_map_bare hbare "xmlns")
    rw [Option.isSome_map, Option.isSome_map] at this
    rw [this]
    exact xmlns_savedAttributes hd
  have hread : (declarations e').map (fun x => (x.1, x.2.2)) = (savedAttributes d).filterMap
      fun a => (declaredAlias a.name).map fun key => (key, a.value) := by
    rw [declarations, if_pos hxmlns, List.map_filterMap, ← he, List.filterMap_map]
    congr 1
    funext a
    simp [Attribute.bare, Function.comp_def]
  have hns : (d.namespaces.entries.map namespaceAttribute).filterMap
      (fun a => (declaredAlias a.name).map fun key => (key, a.value)) =
      d.namespaces.entries.map fun x =>
        (x.1, ";".intercalate (x.2.patterns.map NamespacePattern.print)) := by
    rw [List.filterMap_map, ← List.filterMap_eq_map]
    congr 1
    funext x
    simp [namespaceAttribute, declaredAlias_aliasName]
  rw [hread]
  unfold savedAttributes
  have hCB : declaredAlias "ref.CodeBehind" = none := declaredAlias_of_head (by decide)
  have hC : declaredAlias "ref.Class" = none := declaredAlias_of_head (by decide)
  have hS : declaredAlias "ref.Styles" = none := declaredAlias_of_head (by decide)
  by_cases hs : d.stylePaths.isEmpty <;>
    simp [hs, List.filterMap_append, hns, hCB, hC, hS]

/-- Reading the saved attributes back declares every alias with the patterns it had. -/
theorem namespacesOf_reread {e' : Element}
    (he : e'.attributes.map Attribute.bare = savedAttributes d) (k : String) :
    ((namespacesOf e').find? k).map (·.patterns) = (d.namespaces.find? k).map (·.patterns) := by
  have hdecl := declarations_reread hd he
  have hkeys : (declarations e').map Prod.fst = d.namespaces.entries.map Prod.fst := by
    simpa [List.map_map, Function.comp_def] using congrArg (List.map Prod.fst) hdecl
  have hnodup : ((declarations e').map Prod.fst).Nodup := hkeys ▸ hd.sorted.nodup
  rw [namespacesOf_eq]
  by_cases hk : k ∈ d.namespaces.entries.map Prod.fst
  · obtain ⟨⟨k, info⟩, hmem, rfl⟩ := List.mem_map.1 hk
    have hwritten : (k, ";".intercalate (info.patterns.map NamespacePattern.print)) ∈
        (declarations e').map (fun x => (x.1, x.2.2)) := by
      rw [hdecl]
      exact List.mem_map_of_mem hmem
    obtain ⟨⟨k', pos, v⟩, hdecl', heq⟩ := List.mem_map.1 hwritten
    simp only [Prod.mk.injEq] at heq
    obtain ⟨rfl, rfl⟩ := heq
    rw [patterns_foldl_declare_of_sole hnodup hdecl' rfl,
      KeyMap.find?_eq_some_of_mem hd.sorted.nodup hmem,
      NamespacePattern.parse_entries_print (hd.patterns _ hmem)]
    rfl
  · rw [find?_foldl_declare_of_not_mem (hkeys ▸ hk), KeyMap.find?_eq_none_iff.2 hk]
    rfl

/-- The header read back from the saved attributes is that of the document. -/
theorem sameHeader_reread {e' : Element}
    (he : e'.attributes.map Attribute.bare = savedAttributes d) {ps : List Parameter}
    (hps : ps.map (fun p => (p.name, p.className)) = d.parameters.map (fun p => (p.name, p.className)))
    (pos : Pos) (c : Ctor) :
    SameHeader { header e' default with
      parameters := ps, memberScript := d.memberScript, memberPos := pos, root := c } d := by
  have hvalue : ∀ n, (e'.attribute? n).map (·.value) =
      ((savedAttributes d).find? (·.name == n)).map (·.value) := fun n =>
    value_of_map_bare (attribute?_map_bare (he.trans (savedAttributes_bare d).symm) n)
  have hCB := (hvalue "ref.CodeBehind").trans (find?_savedAttributes_codeBehind d)
  have hC := (hvalue "ref.Class").trans (find?_savedAttributes_class d)
  have hS := (hvalue "ref.Styles").trans (find?_savedAttributes_styles d)
  obtain ⟨a, ha, hav⟩ := Option.map_eq_some_iff.1 hCB
  obtain ⟨b, hb, hbv⟩ := Option.map_eq_some_iff.1 hC
  refine ⟨?_, ?_, ?_, hps, rfl, ?_⟩
  · simp only [header_eq, ha, Option.map_some, Option.getD_some, hav]
    cases d.codeBehind <;> rfl
  · simp [header_eq, hb, hbv]
  · simp only [header_eq]
    by_cases hs : d.stylePaths.isEmpty
    · rw [if_pos hs, Option.map_eq_none_iff] at hS
      simp [hS, List.isEmpty_iff.1 hs]
    · rw [if_neg hs] at hS
      obtain ⟨a, ha, hav⟩ := Option.map_eq_some_iff.1 hS
      simp [ha, hav, entries_intercalate hd.stylePaths]
  · intro k
    simp only [header_eq]
    exact namespacesOf_reread hd he k

/-- The saved text of a document loads back, with no report, to a document of the same header. -/
theorem load_reread {e' : Element} (he : e'.bare = d.save.bare) :
    Quietly (fun r => ∃ d', r = some d' ∧ SameHeader d' d) (load e') := by
  obtain ⟨E, hsave, -, ⟨q, hq, hctor⟩, hfill⟩ := save_shape hd.root
  rw [hsave] at he
  have hname : e'.name = "Instance" := by simpa [Tag.extend] using congrArg Tag.name he
  have hattrs : e'.attributes.map Attribute.bare = savedAttributes d := by
    simpa [Tag.extend, savedAttributes_bare] using congrArg Tag.attributes he
  have hkids : e'.children.map Node.bare =
      (savedChildren d ++ [Node.element E]).map Node.bare := by
    simpa [Tag.extend] using congrArg Tag.children he
  have hshape : (savedChildren d ++ [Node.element E]).map Node.bare =
      (d.parameters.map parameterElement ++
        (if d.memberScript.isEmpty then [] else [membersElement d.memberScript]) ++ [E]).map
        fun x => Node.element x.bare := by
    unfold savedChildren
    split <;> simp [Node.bare, Function.comp_def]
  obtain ⟨ys, hys, hysb⟩ := elements_of_bare (hkids.trans hshape)
  rw [List.map_append, List.map_append] at hysb
  obtain ⟨ys₁₂, ys₃, rfl, h₁₂, h₃⟩ := List.map_eq_append_iff.1 hysb
  obtain ⟨ys₁, ys₂, rfl, h₁, h₂⟩ := List.map_eq_append_iff.1 h₁₂
  obtain ⟨E', rfl, hE'⟩ := List.map_eq_singleton_iff.1 h₃
  have hparams := foldlM_readChild_parameters none d.parameters ys₁ (header e' default)
    (by rw [h₁, List.map_map]; rfl)
  obtain ⟨qs, hqs, hfold₁⟩ := hparams
  have hmembers : ys₂.map Tag.bare =
      if d.memberScript.isEmpty then [] else [(membersElement d.memberScript).bare] := by
    rw [h₂]
    split <;> rfl
  obtain ⟨pos, hfold₂⟩ := foldlM_readChild_members
    { header e' default with parameters := (header e' default).parameters ++ qs } none hmembers
    (by simp [header_eq])
  have hE'name : E'.name = E.name := by simpa using congrArg Tag.name hE'
  obtain ⟨hP, hM⟩ := header_names_ne (hE'name ▸ hq) hctor
  have hroot : Quietly (fun o => o.isSome = true) (ctor E') :=
    ctor_quietly (hE'name ▸ hq) hctor (by rw [hE']; simpa using hfill)
  have helems : e'.elements = ys₁ ++ ys₂ ++ [E'] := elements_of_children hys
  unfold load
  rw [hname, helems, List.foldlM_append, List.foldlM_append, hfold₁]
  simp only [bne_self_eq_false, Bool.false_eq_true, if_false, pure_bind, hfold₂]
  rw [List.foldlM_cons, readChild_ctor _ hP hM]
  simp only [List.foldlM_nil, bind_assoc, pure_bind, bind_pure]
  refine Quietly.bind hroot fun o ho => ?_
  obtain ⟨c, rfl⟩ := Option.isSome_iff_exists.1 ho
  exact Quietly.pure ⟨_, rfl, sameHeader_reread hd hattrs (by simp [header_eq, hqs]) pos c⟩

/-- A document that saving accepts parses back, with no diagnostics, to the same header. -/
theorem parse_write_of_savable (resource : String) :
    ∃ d', Document.parse resource d.save.write = .ok (some d', []) ∧ SameHeader d' d := by
  obtain ⟨e', hread, hbare⟩ := readDocument_write (save_subtrees_rereadable hd)
  obtain ⟨hlog, d', hd', hsame⟩ := load_reread hd hbare #[]
  exact ⟨d', parse_eq_of_load hread (Prod.ext hd' hlog), hsame⟩

end Savable

/-! ## Documents that reading gives -/

/-- A document that reading gives is savable when its aliases hold no quote and no `>`. -/
theorem savable_of_parse {resource text : String} {d : Document} {diags : List Diagnostic}
    (hparse : Document.parse resource text = .ok (some d, diags))
    (haliases : ∀ k ∈ d.namespaces.entries.map Prod.fst, ∀ c ∈ k.toList,
      c ≠ '>' ∧ c ≠ '"' ∧ c ≠ '\'') : d.Savable := by
  obtain ⟨root, hread, hload⟩ := load_of_parse hparse
  obtain ⟨hns, hstyles, hroot⟩ := load_keeps root #[] d hload
  have hshape : root.ReadShape := readDocument_readShape hread root (by simp)
  have hnsread := namespacesOf_read root
  rw [← hns] at hnsread
  exact {
    root := hroot
    stylePaths := hstyles ▸ header_stylePaths_entry root default
    sorted := hnsread.sorted
    blank := hnsread.blank
    aliases := fun k hk => plainKey_aliasName hshape (hnsread.aliases k hk) (haliases k hk)
    patterns := hnsread.patterns }

/-- Saving a document that reading gave, with aliases free of quotes and `>`, writes a text
that parses, with no diagnostics, to a document of the same header. -/
theorem parse_write_save {resource text : String} {d : Document} {diags : List Diagnostic}
    (hparse : Document.parse resource text = .ok (some d, diags))
    (haliases : ∀ k ∈ d.namespaces.entries.map Prod.fst, ∀ c ∈ k.toList,
      c ≠ '>' ∧ c ≠ '"' ∧ c ≠ '\'') :
    ∃ d', Document.parse resource d.save.write = .ok (some d', []) ∧ SameHeader d' d :=
  parse_write_of_savable (savable_of_parse hparse haliases) resource

theorem parse_write_save_sample :
    let text := "<Instance xmlns:a=\"p*q\"><Button/></Instance>"
    let root := match readDocument text with
      | .ok e => e
      | .error _ => ⟨"", {}, {}, [], []⟩
    let x := match root.elements with
      | [x] => x
      | _ => ⟨"", {}, {}, [], []⟩
    let d : Document := { header root default with
      root := { typeName := "Button", setter := { tagPos := x.span.start } } }
    Document.parse "instance.xml" text = .ok (some d, []) ∧
      (∀ k ∈ d.namespaces.entries.map Prod.fst, ∀ c ∈ k.toList,
        c ≠ '>' ∧ c ≠ '"' ∧ c ≠ '\'') ∧
      ∃ d', Document.parse "instance.xml" d.save.write = .ok (some d', []) ∧ SameHeader d' d := by
  intro text root x d
  have hok : (readDocument text).isOk = true := by decide +kernel
  have hread : readDocument text = .ok root := by
    cases hp : readDocument text with
    | error err => simp [hp, Except.isOk, Except.toBool] at hok
    | ok r => simp [root, hp]
  have hname : root.name = "Instance" := by decide +kernel
  have hlen : root.elements.length = 1 := by decide +kernel
  obtain ⟨y, hy⟩ := List.length_eq_one_iff.1 hlen
  have helems : root.elements = [x] := by simp [x, hy]
  have hxname : x.name = "Button" := by decide +kernel
  have hxattrs : x.attributes = [] := List.isEmpty_iff.1 (by decide +kernel)
  have hxkids : x.children = [] := List.isEmpty_iff.1 (by decide +kernel)
  have hn : QualifiedName.classify x.name = .ok ⟨none, none, "Button", none⟩ := by
    rw [hxname]
    rfl
  have hparse : Document.parse "instance.xml" text = .ok (some d, []) :=
    parse_leaf hread hname helems hn rfl hxattrs hxkids
  -- the aliases are checked character by character, not by a search through every character
  have hall : (d.namespaces.entries.all fun e => e.1.toList.all fun c =>
      c != '>' && (c != '"' && c != '\'')) = true := by decide +kernel
  have haliases : ∀ k ∈ d.namespaces.entries.map Prod.fst, ∀ c ∈ k.toList,
      c ≠ '>' ∧ c ≠ '"' ∧ c ≠ '\'' := by simpa using hall
  exact ⟨hparse, haliases, parse_write_save hparse haliases⟩

theorem parse_write_save_quoted_alias :
    ¬ ∀ (d : Document) (diags : List Diagnostic),
      Document.parse "instance.xml"
          "<Instance xmlns=\"p*\" xmlns:a\x27=\"x\x27y\" b\"=\x27z\x27><Button/></Instance>" =
        .ok (some d, diags) →
      ∃ d', Document.parse "instance.xml" d.save.write = .ok (some d', []) ∧ SameHeader d' d := by
  intro hsaves
  let text := "<Instance xmlns=\"p*\" xmlns:a\x27=\"x\x27y\" b\"=\x27z\x27><Button/></Instance>"
  let root := match readDocument text with
    | .ok e => e
    | .error _ => ⟨"", {}, {}, [], []⟩
  let x := match root.elements with
    | [x] => x
    | _ => ⟨"", {}, {}, [], []⟩
  let d : Document := { header root default with
    root := { typeName := "Button", setter := { tagPos := x.span.start } } }
  have hok : (readDocument text).isOk = true := by decide +kernel
  have hread : readDocument text = .ok root := by
    cases hp : readDocument text with
    | error err => simp [hp, Except.isOk, Except.toBool] at hok
    | ok r => simp [root, hp]
  have hname : root.name = "Instance" := by decide +kernel
  have hlen : root.elements.length = 1 := by decide +kernel
  obtain ⟨y, hy⟩ := List.length_eq_one_iff.1 hlen
  have helems : root.elements = [x] := by simp [x, hy]
  have hxname : x.name = "Button" := by decide +kernel
  have hxattrs : x.attributes = [] := List.isEmpty_iff.1 (by decide +kernel)
  have hxkids : x.children = [] := List.isEmpty_iff.1 (by decide +kernel)
  have hn : QualifiedName.classify x.name = .ok ⟨none, none, "Button", none⟩ := by
    rw [hxname]
    rfl
  have hparse : Document.parse "instance.xml" text = .ok (some d, []) :=
    parse_leaf hread hname helems hn rfl hxattrs hxkids
  -- the saved tag writes the alias alone, and its quote opens a stretch that never closes
  have hbad : (readDocument d.save.write).isOk = false := by decide +kernel
  obtain ⟨d', hd', -⟩ := hsaves d [] hparse
  obtain ⟨root', hread', -⟩ := load_of_parse hd'
  simp [hread', Except.isOk, Except.toBool] at hbad

end Document

end GuiMarkup
