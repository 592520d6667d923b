import GuiMarkup.Proofs.Instance.Passes
import GuiMarkup.Proofs.Instance.Saved

/-! Written constructors load back as themselves when no setter holds default content of
one text beside a handler or an environment variable; beside one, the text is lost. -/

namespace GuiMarkup

open QualifiedName Markup Loader

open scoped List

/-! ## One setter, given its values -/

theorem withDefault_frame (pos : Pos) (vs : List Value) (u : Setter) :
    (withDefault pos vs u).handlers = u.handlers ∧
      (withDefault pos vs u).environment = u.environment ∧
      (withDefault pos vs u).instanceName = u.instanceName ∧
      (withDefault pos vs u).fromStyle = u.fromStyle := by
  unfold withDefault
  split <;> exact ⟨rfl, rfl, rfl, rfl⟩

/-- The children written for a setter stand for things that read back, when its values do. -/
theorem ofSetter_rereads {s : Setter} (hs : s.Loaded) (hf : s.Filled)
    (hv : ∀ kp ∈ s.properties.entries, ∀ v ∈ kp.2.values, v.Rereads) :
    ∀ w ∈ WrittenChild.ofSetter s, w.Rereads
  | .ctor c, hw => by
    obtain ⟨kp, hkp, hc⟩ := WrittenChild.ctor_mem_ofSetter hw
    exact hv kp hkp _ hc
  | .property kp, hw => by
    obtain ⟨hkp, hk, hsingle⟩ := WrittenChild.property_mem_ofSetter hw
    obtain ⟨hshape, hvals⟩ := hs.values hkp
    rw [show (kp.1 == "") = false by simpa using hk] at hshape
    exact propertyValues_rereads hshape hvals hsingle (hf.nested kp hkp hsingle) (hv kp hkp)
  | .handler _, _ => trivial
  | .environment _, _ => trivial

/-- Putting in the default content last gives the same entries as the setter. -/
theorem withDefault_sameEntries {s u : Setter} (hp : s.Plain) {pos : Pos} {vs : List Value}
    (hdefault : (defaultEntry pos vs).map (fun kp => (kp.1, kp.2.bare)) =
      (defaultEntries s).map fun kp => (kp.1, kp.2.bare))
    (hprops : (u.properties.entries.map fun kp => (kp.1, kp.2.bare)) ~
      (elementEntries s).map (fun kp => (kp.1, kp.2.bare)) ++
        (textEntries s).map fun kp => (kp.1, kp.2.bare))
    (hhandlers : (u.handlers.entries.map fun kh => (kh.1, kh.2.bare)) ~
      s.handlers.entries.map fun kh => (kh.1, kh.2.bare))
    (henv : (u.environment.entries.map fun kv => (kv.1, kv.2.bare)) ~
      s.environment.entries.map fun kv => (kv.1, kv.2.bare))
    (hname : u.instanceName = s.instanceName) (hstyle : u.fromStyle = false) :
    (withDefault pos vs u).SameEntries s := by
  obtain ⟨hwh, hwe, hwn, hws⟩ := withDefault_frame pos vs u
  have hkeys := hprops.map Prod.fst
  simp only [List.map_append, List.map_map, Function.comp_def] at hkeys
  have hempty : u.properties.contains "" = false := by
    rw [Bool.eq_false_iff, Ne, KeyMap.contains_iff, hkeys.mem_iff, List.mem_append]
    simp [elementEntries, textEntries]
  refine ⟨?_, hwh ▸ hhandlers, hwe ▸ henv, hwn.trans hname, hws.trans (hstyle.trans
    hp.fromStyle.symm)⟩
  calc ((withDefault pos vs u).properties.entries.map fun kp => (kp.1, kp.2.bare))
      _ ~ (defaultEntry pos vs ++ u.properties.entries).map
          (fun kp => (kp.1, kp.2.bare)) := (withDefault_entries hempty).map _
      _ ~ (defaultEntries s).map (fun kp => (kp.1, kp.2.bare)) ++
          ((elementEntries s).map (fun kp => (kp.1, kp.2.bare)) ++
            (textEntries s).map fun kp => (kp.1, kp.2.bare)) := by
        rw [List.map_append, hdefault]
        exact hprops.append_left _
      _ ~ (defaultEntries s ++ (textEntries s ++ elementEntries s)).map
          (fun kp => (kp.1, kp.2.bare)) := by
        simp only [List.map_append]
        exact List.perm_append_comm.append_left _
      _ ~ s.properties.entries.map fun kp => (kp.1, kp.2.bare) :=
        ((entries_perm_parts s).map _).symm

/-- What is written for a setter reads back to its name and entries, up to order and positions. -/
theorem fill_sameEntries {s : Setter} (hs : s.Loaded) (hf : s.Filled) (halone : s.TextAlone)
    (hre : ∀ w ∈ WrittenChild.ofSetter s, w.Rereads) (span : Span) {attrs : List Attribute}
    {kids : List Node} (hattrs : attrs.map Attribute.bare = (setterAttributes s).map Attribute.bare)
    (hkids : kids.map Node.bare = (setterChildren s).map Node.bare) :
    Yields (·.SameEntries s) (fill span attrs kids) := by
  have hp := hs.plain
  obtain ⟨T, hT, hfold⟩ := readAttributes_written hs hattrs span.start
  have hparts := ((entries_perm_parts s).map Prod.fst).nodup_iff.1 hp.properties_nodup
  simp only [List.map_append] at hparts
  have hnamed : ((textEntries s).map Prod.fst ++ (elementEntries s).map Prod.fst).Nodup :=
    hparts.of_append_right
  have hTnodup : (T.map Prod.fst ++ (({} : KeyMap Property).entries.map Prod.fst)).Nodup := by
    rw [KeyMap.keys_eq_of_map hT]
    simpa using hnamed.of_append_left
  have htext : ((T.foldl (fun m kv => m.insert kv.1 kv.2) ({} : KeyMap Property)).entries.map
      fun kp => (kp.1, kp.2.bare)) ~ (textEntries s).map fun kp => (kp.1, kp.2.bare) := by
    simpa [hT] using KeyMap.foldl_insert_map_perm PropertyOf.bare T {} hTnodup
  have htextKeys := htext.map Prod.fst
  simp only [List.map_map, Function.comp_def] at htextKeys
  have hnodup : ((elementEntries s).map Prod.fst ++
      (T.foldl (fun m kv => m.insert kv.1 kv.2) ({} : KeyMap Property)).entries.map Prod.fst).Nodup :=
    ((htextKeys.append_left _).trans List.perm_append_comm).nodup_iff.2 hnamed
  rw [fill_eq_defaultLast]
  refine hfold.bind fun a ha => ?_
  subst ha
  rw [Slot.properties_foldl_put]
  refine (Yields.true _).bind fun _ _ => ?_
  refine (defaultContent_written hs hf halone hre hkids span.start).bind fun vs hvs => ?_
  refine (loops_written hs hre hkids hnodup rfl rfl).bind fun u hu => Yields.pure ?_
  obtain ⟨hname, hstyle, hprops, hhandlers, henv⟩ := hu
  exact withDefault_sameEntries hp hvs (hprops.trans (htext.append_left _)) hhandlers henv hname
    hstyle

/-- A loaded, filled setter whose default content stands alone reads back when its values do. -/
theorem SetterOf.rereads_of_values {s : Setter} (hs : s.Loaded) (hf : s.Filled)
    (halone : s.TextAlone) (hv : ∀ kp ∈ s.properties.entries, ∀ v ∈ kp.2.values, v.Rereads) :
    s.Rereads := by
  intro span attrs kids hattrs hkids
  have hsame := fill_sameEntries hs hf halone (ofSetter_rereads hs hf hv) span hattrs hkids
  refine (hsame.and (filled_all.2.1 span attrs kids)).mono fun t ht => ?_
  -- both setters keep their maps in order, so the same entries are the same maps
  have htf : t.Filled := (SetterOf.everySetter_iff.1 ht.2).1
  exact ht.1.bare_eq ⟨htf.properties, htf.handlers, htf.environment⟩
    ⟨hf.properties, hf.handlers, hf.environment⟩

/-! ## One constructor, given its setter -/

/-- Every attribute written for a setter names a property or the node, never a style. -/
theorem classify_setterAttribute {s : Setter} (hp : s.Plain) {a : Attribute}
    (ha : a.bare ∈ (setterAttributes s).map Attribute.bare) :
    ∃ n, QualifiedName.classify a.name = .ok n ∧
      (n.isReferenceAttributeName && n.name == "Style") = false := by
  obtain ⟨a₀, ha₀, hbare⟩ := List.mem_map.1 ha
  have hname : a.name = a₀.name := (congrArg Attribute.name hbare).symm
  rw [setterAttributes, List.mem_append] at ha₀
  rcases ha₀ with ha₀ | ha₀
  · rw [nameAttribute] at ha₀
    cases hn : s.instanceName with
    | none => simp [hn] at ha₀
    | some n =>
      rw [hn, Option.map_some, Option.toList_some, List.mem_singleton] at ha₀
      subst ha₀
      refine ⟨⟨none, some "ref", "Name", none⟩, ?_, by decide⟩
      rw [hname]
      simpa using classify_reference (x := "Name") (by decide)
  · obtain ⟨kp, hkp, hkpa⟩ := List.mem_filterMap.1 ha₀
    exact ⟨_, hname ▸ classify_textAttribute hp hkp hkpa, by simp [isReferenceAttributeName]⟩

/-- What is written for a constructor style reads back as nothing, or as one `ref.Style`. -/
theorem styleAttribute_read {c : Ctor} {A : List Attribute}
    (hA : A.map Attribute.bare = (styleAttribute c).toList.map Attribute.bare) :
    A = [] ∧ c.styleName = none ∨ ∃ a, A = [a] ∧ c.styleName = some a.value ∧
      QualifiedName.classify a.name = .ok ⟨none, some "ref", "Style", none⟩ := by
  cases hst : c.styleName with
  | none =>
    rw [styleAttribute, hst] at hA
    exact Or.inl ⟨List.map_eq_nil_iff.1 hA, rfl⟩
  | some st =>
    rw [styleAttribute, hst] at hA
    obtain ⟨a, rfl, ha⟩ := List.map_eq_singleton_iff.1 hA
    refine Or.inr ⟨a, rfl, congrArg some (congrArg Attribute.value ha).symm, ?_⟩
    rw [show a.name = "ref.Style" from congrArg Attribute.name ha]
    simpa using classify_reference (x := "Style") (by decide)

/-- Loading finds the style of a written constructor again. -/
theorem styleOf_written {c : Ctor} (hp : c.setter.Plain) {A B : List Attribute}
    (hA : A.map Attribute.bare = (styleAttribute c).toList.map Attribute.bare)
    (hB : B.map Attribute.bare = (setterAttributes c.setter).map Attribute.bare) :
    styleOf (A ++ B) = c.styleName := by
  have hfirst : styleOf A = c.styleName := by
    rcases styleAttribute_read hA with ⟨rfl, hst⟩ | ⟨a, rfl, hst, hc⟩
    · rw [hst]
      rfl
    · simp [styleOf, hc, isReferenceAttributeName, hst]
  unfold styleOf at hfirst ⊢
  rw [List.foldl_append, List.foldl_ext _ (fun st _ => st), List.foldl_fixed, hfirst]
  intro st a ha
  obtain ⟨n, hn, hstyle⟩ := classify_setterAttribute hp (hB ▸ List.mem_map_of_mem ha)
  simp [hn, hstyle]

/-- The `ref.Style` written for a constructor puts nothing into its setter. -/
theorem fill_style {c : Ctor} {A : List Attribute}
    (hA : A.map Attribute.bare = (styleAttribute c).toList.map Attribute.bare) (span : Span)
    (B : List Attribute) (kids : List Node) : fill span (A ++ B) kids = fill span B kids := by
  have hskip : A.foldlM readAttribute ({ tagPos := span.start } : Setter) =
      pure { tagPos := span.start } := by
    rcases styleAttribute_read hA with ⟨rfl, -⟩ | ⟨a, rfl, -, hc⟩
    · rfl
    · simp only [List.foldlM_cons, List.foldlM_nil, bind_pure]
      unfold Loader.readAttribute
      rw [classify_of_ok hc, pure_bind]
      simp [attributeRole, isReferenceAttributeName]
  rw [fill_eq_defaultLast, fill_eq_defaultLast, List.foldlM_append, hskip, pure_bind]

/-- A loaded constructor whose setter reads back reads back itself. -/
theorem CtorOf.rereads_of_setter {c : Ctor} (hc : c.Loaded) (hs : c.setter.Rereads) :
    c.Rereads := by
  intro y hy
  have hp := (CtorOf.loaded_iff.1 hc).2.plain
  rw [ctorElement_eq hc] at hy
  obtain ⟨hyname, hattrs, hkids⟩ := Markup.Tag.bare_eq_extend hy
  rw [List.map_append] at hattrs
  obtain ⟨A, B, hAB, hA, hB⟩ := List.map_eq_append_iff.1 hattrs
  have hn : QualifiedName.classify y.name = .ok (WrittenChild.ctor c).name := by
    rw [hyname, ← ctorElement_name hc]
    exact classify_ctorElement hc
  have hstyle : styleOf y.attributes = c.styleName := hAB ▸ styleOf_written hp hA hB
  rw [ctor_of_ctorName hn rfl, map_eq_pure_bind, hAB, fill_style hA]
  refine (hs y.span B y.children hB hkids).bind fun t ht => Yields.pure ?_
  obtain ⟨ns, tn, st, s⟩ := c
  simp only [Option.map_some, ctorOf, CtorOf.bare, ht, hstyle, WrittenChild.name]

/-! ## Every depth -/

mutual

/-- A loaded setter, filled and with default content standing alone at every depth, reads back. -/
theorem SetterOf.rereads_of_filled : ∀ {s : Setter}, s.Loaded → s.EverySetter SetterOf.Filled →
    s.EverySetter SetterOf.TextAlone → s.Rereads
  | ⟨⟨_⟩, _, _, _, _, _⟩, hs, ⟨hf, hfvalues⟩, ⟨halone, havalues⟩ =>
    SetterOf.rereads_of_values hs hf halone
      (PropertyOf.rereads_of_filled hs.2 hfvalues havalues)

theorem PropertyOf.rereads_of_filled : ∀ {l : List (String × Property)},
    PropertyOf.ValuesLoaded l → PropertyOf.EverySetter SetterOf.Filled l →
    PropertyOf.EverySetter SetterOf.TextAlone l → ∀ kp ∈ l, ∀ v ∈ kp.2.values, v.Rereads
  | [], _, _, _ => by simp
  | (_, ⟨_, _, _⟩) :: _, ⟨_, hvs, hrest⟩, ⟨hf, hfrest⟩, ⟨ha, harest⟩ =>
    List.forall_mem_cons.2 ⟨Value.allRereads_of_filled hvs hf ha,
      PropertyOf.rereads_of_filled hrest hfrest harest⟩

theorem Value.allRereads_of_filled : ∀ {vs : List Value}, Value.AllLoaded vs →
    Value.EverySetterAll SetterOf.Filled vs → Value.EverySetterAll SetterOf.TextAlone vs →
    ∀ v ∈ vs, v.Rereads
  | [], _, _, _ => by simp
  | _ :: _, ⟨hv, hvs⟩, ⟨hf, hfs⟩, ⟨ha, has⟩ =>
    List.forall_mem_cons.2 ⟨Value.rereads_of_filled hv hf ha,
      Value.allRereads_of_filled hvs hfs has⟩

theorem Value.rereads_of_filled : ∀ {v : Value}, v.Loaded → v.EverySetter SetterOf.Filled →
    v.EverySetter SetterOf.TextAlone → v.Rereads
  | .text .., _, _, _ => trivial
  | .setter _, hs, hf, ha => SetterOf.rereads_of_filled hs hf ha
  | .ctor ⟨_, _, _, _⟩, hc, hf, ha =>
    CtorOf.rereads_of_setter hc (SetterOf.rereads_of_filled hc.2 hf ha)

end

/-! ## Writing and reading the text -/

/-- The element that holds a written constructor, and every element below it, reads back. -/
theorem holder_rereadable {holder : String} (hholder : isMarkupName holder = true) {E : Element}
    (hE : (Node.element E).Rewrites) :
    ∀ c ∈ (({ name := holder } : Element).extend [] [.element E]).subtrees, c.Rereadable := by
  have hw : (({ name := holder } : Element).extend [] [.element E]).Writable :=
    ⟨hholder, by simp [Tag.extend], by simp [Tag.extend], by simp [Tag.extend]⟩
  intro c hc
  rw [Tag.subtrees_eq, List.mem_cons] at hc
  rcases hc with rfl | hc
  · exact hw.rereadable fun content span h => by simp [Tag.extend] at h
  · simp only [Tag.extend, List.nil_append, List.flatMap_cons, List.flatMap_nil,
      List.append_nil] at hc
    exact Document.rereadable_of_rewrites hE c hc

/-- Writing a loaded constructor adds its element and nothing else. -/
theorem emitCtor_eq_extend {c : Ctor} (hc : c.Loaded) (e : Element) :
    emitCtor c e = e.extend [] [.element (ctorElement c)] := by
  rw [emitCtor_eq_push (CtorOf.loaded_iff.1 hc).2.plain.fromStyle, Tag.push_eq]
  rfl

theorem eq_ctorElement {c : Ctor} (hc : c.Loaded) {e E : Element}
    (h : emitCtor c e = e.extend [] [.element E]) : E = ctorElement c := by
  rw [emitCtor_eq_extend hc] at h
  simpa [Tag.extend] using h.symm

theorem ctorElement_rewrites {c : Ctor} (hc : c.Loaded) : (Node.element (ctorElement c)).Rewrites := by
  obtain ⟨E, hE, hrw⟩ := emitCtor_adds c hc { name := "" }
  exact eq_ctorElement hc hE ▸ hrw

theorem ctorElement_fillsQuietly {c : Ctor} (hc : c.Loaded) :
    Loader.FillsQuietly ((ctorElement c).attributes.map Attribute.bare)
      ((ctorElement c).children.map Node.bare) := by
  obtain ⟨E, hE, -, hquiet⟩ := emitCtor_fills c hc { name := "" }
  exact eq_ctorElement hc hE ▸ hquiet

/-- A loaded constructor written into any markup element reads back as its one element child. -/
theorem emitCtor_write_reads {c : Ctor} (hc : c.Loaded) {holder : String}
    (hholder : isMarkupName holder = true) :
    ∃ root y, readDocument (emitCtor c { name := holder }).write = .ok root ∧
      root.elements = [y] ∧ y.bare = (ctorElement c).bare := by
  obtain ⟨root, hread, hbare⟩ := readDocument_write
    ((emitCtor_eq_extend hc _) ▸ holder_rereadable hholder (ctorElement_rewrites hc))
  have hkids : root.children.map Node.bare = [Node.element (ctorElement c).bare] := by
    have := congrArg Tag.children hbare
    simpa [emitCtor_eq_extend hc, Tag.extend, Node.bare] using this
  obtain ⟨ys, hys, hysb⟩ := @Document.elements_of_bare root.children [ctorElement c]
    (by simpa using hkids)
  obtain ⟨y, rfl⟩ : ∃ y, ys = [y] := List.map_eq_singleton_iff.1 hysb |>.imp fun y h => h.1
  exact ⟨root, y, hread, Document.elements_of_children hys, by simpa using hysb⟩

namespace Loader

/-- Children of no sole text and no constructor load a constructor without default content. -/
theorem ctor_no_default {y : Element} {n : QualifiedName}
    (hn : QualifiedName.classify y.name = .ok n) (hctor : n.isCtorName = true)
    (hsole : soleText y.children = [])
    (hnames : ∀ e n, Node.element e ∈ y.children → QualifiedName.classify e.name = .ok n →
      n.isCtorName = false) :
    Yields (fun o => ∀ c ∈ o, c.setter.properties.find? "" = none) (ctor y) := by
  rw [ctor_of_ctorName hn hctor, map_eq_pure_bind]
  refine (fill_no_default hsole hnames).bind fun s hs => Yields.pure ?_
  intro c hc
  rw [Option.mem_some_iff] at hc
  subst hc
  exact hs

/-- A constructor that loading gives, written into an element of any markup name and read back,
loads again as itself, up to positions and with no report, when no setter holds default content
of one text beside a handler or an environment variable. -/
theorem ctor_emit_write_loads_back {x : Element} {log : Array (Pos × Issue)} {c : Ctor}
    (hload : ((ctor x).run log).1 = some c) (halone : c.setter.EverySetter SetterOf.TextAlone)
    {holder : String} (hholder : isMarkupName holder = true) :
    ∃ root y c', readDocument (emitCtor c { name := holder }).write = .ok root ∧
      root.elements = [y] ∧ (ctor y).run #[] = (some c', #[]) ∧ c'.bare = c.bare := by
  have hc := ctor_loaded x log hload
  have hre : c.Rereads := CtorOf.rereads_of_setter hc
    (SetterOf.rereads_of_filled (CtorOf.loaded_iff.1 hc).2 (ctor_filled x log hload) halone)
  obtain ⟨root, y, hread, helems, hy⟩ := emitCtor_write_reads hc hholder
  have hn : QualifiedName.classify y.name = .ok (WrittenChild.ctor c).name := by
    rw [show y.name = (ctorElement c).name by simpa using congrArg Tag.name hy]
    exact classify_ctorElement hc
  have hfills : FillsQuietly y.bare.attributes y.bare.children := by
    rw [hy, Tag.bare_eq]
    exact ctorElement_fillsQuietly hc
  obtain ⟨hlog, hsome⟩ := ctor_quietly hn rfl hfills #[]
  obtain ⟨c', hc'⟩ := Option.isSome_iff_exists.1 hsome
  have hback := hre y hy #[]
  rw [hc', Option.map_some, Option.some.injEq] at hback
  exact ⟨root, y, c', hread, helems, Prod.ext hc' hlog, hback⟩

/-- A label whose default content is a text standing alone keeps it. -/
theorem ctor_emit_write_loads_back_sample :
    let c : Ctor :=
      { typeName := "Label"
        setter := { properties := ⟨[("", { values := [.text "Hello" false {}] })]⟩ } }
    ((ctor { name := "Label", children := [.text "Hello" {}] }).run #[]).1 = some c ∧
      c.setter.EverySetter SetterOf.TextAlone ∧ isMarkupName "Root" = true ∧
      ∃ root y c', readDocument (emitCtor c { name := "Root" }).write = .ok root ∧
        root.elements = [y] ∧ (ctor y).run #[] = (some c', #[]) ∧ c'.bare = c.bare := by
  intro c
  have hn : QualifiedName.classify "Label" = .ok ⟨none, none, "Label", none⟩ := by decide
  have hload : ((ctor { name := "Label", children := [.text "Hello" {}] }).run #[]).1 = some c := by
    rw [ctor_of_ctorName hn rfl, fill_eq_defaultLast]
    simp [c, classifyChildren, defaultContent, ctorChildren, soleText, classesOf, classified,
      loops, withDefault, ctorOf, styleOf]
    rfl
  have halone : c.setter.EverySetter SetterOf.TextAlone := by
    simp [c, SetterOf.everySetter_iff, SetterOf.TextAlone]
  have hholder : isMarkupName "Root" = true := by decide
  exact ⟨hload, halone, hholder, ctor_emit_write_loads_back hload halone hholder⟩

/-- Default text written beside a handler is lost on the way back. `<Label
ev.Clicked="f();">Hello</Label>` loads to a label with the text and the handler; the text is
written inline before the `ev.Clicked` element, where it is no longer the sole child, so the
element read back loads to a label without default content. -/
theorem ctor_emit_write_loses_text_beside_handler :
    ¬ ∀ (x : Element) (c : Ctor), ((ctor x).run #[]).1 = some c →
      ∃ root y c', readDocument (emitCtor c { name := "Root" }).write = .ok root ∧
        root.elements = [y] ∧ (ctor y).run #[] = (some c', #[]) ∧ c'.bare = c.bare := by
  intro hround
  let c : Ctor :=
    { typeName := "Label"
      setter :=
        { properties := ⟨[("", { values := [.text "Hello" false {}] })]⟩
          handlers := ⟨[("Clicked", { script := "f();" })]⟩ } }
  have hn : QualifiedName.classify "Label" = .ok ⟨none, none, "Label", none⟩ := by decide
  have hev : QualifiedName.classify "ev.Clicked" = .ok ⟨none, some "ev", "Clicked", none⟩ := by
    decide
  let x : Element :=
    { name := "Label"
      attributes := [{ name := "ev.Clicked", value := "f();" }]
      children := [.text "Hello" {}] }
  have hload : ((ctor x).run #[]).1 = some c := by
    rw [ctor_of_ctorName hn rfl, fill_eq_defaultLast]
    simp [x, c, readAttribute, classify, hev, attributeRole, isReferenceAttributeName,
      isEnvironmentAttributeName, isPropertyAttributeName, isEventAttributeName,
      classifyChildren, defaultContent, ctorChildren, soleText, classesOf, classified, loops,
      withDefault, ctorOf, styleOf]
    rfl
  have hc : c.Loaded := ctor_loaded _ #[] hload
  obtain ⟨root, y, c', hread, helems, hrun, hbare⟩ := hround _ c hload
  obtain ⟨root', y', hread', helems', hy⟩ :=
    emitCtor_write_reads hc (by decide : isMarkupName "Root" = true)
  obtain rfl : root' = root := Except.ok.inj (hread'.symm.trans hread)
  obtain rfl : y' = y := List.singleton_inj.1 (helems'.symm.trans helems)
  -- the label is written as its text, then its `ev.Clicked` element
  rw [ctorElement_eq hc] at hy
  obtain ⟨hname, -, hkids⟩ := Markup.Tag.bare_eq_extend hy
  have hwritten : setterChildren c.setter =
      [contentNode "Hello", .element (handlerElement ("Clicked", { script := "f();" }))] := by
    simp [c, setterChildren, propertyChildren, valueNodes]
  rw [hwritten] at hkids
  -- so the text is not the sole child, and no child is a constructor
  have hsole : soleText y'.children = [] := by
    obtain ⟨a, b, hab⟩ := List.length_eq_two.1 (by simpa using congrArg List.length hkids)
    rw [hab]
    cases a <;> rfl
  have hnames : ∀ e n, Node.element e ∈ y'.children → QualifiedName.classify e.name = .ok n →
      n.isCtorName = false := by
    intro e n he hen
    have hmem := List.mem_map_of_mem (f := Node.bare) he
    rw [hkids, List.map_cons, List.map_singleton, List.mem_cons, List.mem_singleton] at hmem
    rcases hmem with hmem | hmem
    · unfold contentNode at hmem
      split at hmem <;> simp [Node.bare] at hmem
    · have he' : e.name = "ev.Clicked" := by
        simpa [Node.bare, handlerElement, withBinding, Tag.push_eq] using congrArg Tag.name
          (Node.element.inj hmem)
      rw [he', hev, Except.ok.injEq] at hen
      simp [← hen, isCtorName]
  have hyname : QualifiedName.classify y'.name = .ok ⟨none, none, "Label", none⟩ := by
    rw [hname]
    exact hn
  have hnone := ctor_no_default hyname rfl hsole hnames #[]
  simp only [hrun] at hnone
  -- the label read back has no default content, the one loaded first has
  have hkeys : c'.setter.properties.entries.map Prod.fst = [""] := by
    simpa [c] using CtorOf.keys_eq_of_bare hbare
  exact KeyMap.find?_eq_none_iff.1 (hnone c' rfl) (by simp [hkeys])

end Loader

end GuiMarkup
