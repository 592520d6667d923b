import GuiMarkup.Proofs.Instance.Loaded
import GuiMarkup.Proofs.Markup.Rereading

/-! Children and attributes free of every reported fault at any depth fill a setter
without a report. -/

namespace GuiMarkup

open QualifiedName Markup

/-! ## Runs that report nothing -/

/-- Every run of `m` leaves the log as it found it and gives a value with property `P`. -/
def Quietly {α : Type} (P : α → Prop) (m : Reporting α) : Prop :=
  ∀ log, (m.run log).2 = log ∧ P (m.run log).1

namespace Quietly

variable {α β : Type} {P : α → Prop} {Q : β → Prop}

theorem pure {a : α} (h : P a) : Quietly P (Pure.pure a) := fun _ => ⟨rfl, h⟩

theorem bind {m : Reporting α} {f : α → Reporting β} (hm : Quietly P m)
    (hf : ∀ a, P a → Quietly Q (f a)) : Quietly Q (m >>= f) := fun log => by
  obtain ⟨hlog, ha⟩ := hm log
  obtain ⟨hlog', hb⟩ := hf _ ha (m.run log).2
  exact ⟨hlog'.trans hlog, hb⟩

theorem mono {m : Reporting α} {P' : α → Prop} (hm : Quietly P m) (h : ∀ a, P a → P' a) :
    Quietly P' m :=
  fun log => ⟨(hm log).1, h _ (hm log).2⟩

end Quietly

/-! ## Maps ordered by name -/

namespace KeyMap

variable {α : Type}

theorem any_insertSorted_of_ne {k k' : String} (v : α) (h : k' ≠ k) :
    ∀ l : List (String × α), (insertSorted k v l).any (·.1 == k') = l.any (·.1 == k')
  | [] => by simp [insertSorted, Ne.symm h]
  | (k₁, v₁) :: rest => by
    simp only [insertSorted]
    split
    · simp [Ne.symm h]
    · split
      · rename_i heq
        subst heq
        simp
      · simp [any_insertSorted_of_ne v h rest]

/-- Putting a value under one name leaves every other name as it was. -/
theorem contains_insert_of_ne {m : KeyMap α} {k k' : String} (v : α) (h : k' ≠ k) :
    (m.insert k v).contains k' = m.contains k' :=
  any_insertSorted_of_ne v h m.entries

@[simp] theorem contains_empty (k : String) : (({} : KeyMap α)).contains k = false := rfl

end KeyMap

namespace Loader

/-! ## What loading checks -/

/-- The name that an attribute in role `role` puts into a setter. -/
def attributeKey (role : Role) (a : Attribute) : Option String :=
  match QualifiedName.classify a.name with
  | .ok n => if n.attributeRole = role then some n.name else none
  | .error _ => none

/-- The name that a child element accepted by `p` puts into a setter. -/
def elementKey (p : QualifiedName → Bool) : Node → Option String
  | .element c =>
    match QualifiedName.classify c.name with
    | .ok n => if p n then some n.name else none
    | .error _ => none
  | _ => none

/-- Attribute names that read as names with a role. -/
def AttributesKnown (attrs : List Attribute) : Prop :=
  ∀ a ∈ attrs, ∃ n, QualifiedName.classify a.name = .ok n ∧ n.attributeRole ≠ .unrecognized

/-- Child element names that read as names with a role. -/
def RolesKnown (children : List Node) : Prop :=
  ∀ c, Node.element c ∈ children →
    ∃ n, QualifiedName.classify c.name = .ok n ∧ n.elementRole ≠ .unrecognized

/-- No name goes into one map of a setter twice, from an attribute or from an element. -/
structure KeysApart (attrs : List Attribute) (children : List Node) : Prop where
  properties : (attrs.filterMap (attributeKey .propertyAttribute) ++
    children.filterMap (elementKey isPropertyElementName)).Nodup
  handlers : (attrs.filterMap (attributeKey .eventAttribute) ++
    children.filterMap (elementKey isEventElementName)).Nodup
  environment : (attrs.filterMap (attributeKey .environmentAttribute) ++
    children.filterMap (elementKey isEnvironmentElementName)).Nodup

/-- `ev.` elements hold one CDATA section, `env.` elements at most one text or CDATA section. -/
def ScriptsSole (children : List Node) : Prop :=
  ∀ c n, Node.element c ∈ children → QualifiedName.classify c.name = .ok n →
    (n.isEventElementName = true → ∃ t sp, c.children = [.cdata t sp]) ∧
    (n.isEnvironmentElementName = true → c.children = [] ∨ (soleScript c.children).isSome)

mutual

/-- Default content that loads without a report. -/
inductive ContentQuiet : List Node → Prop
  | mk {children : List Node} (roles : RolesKnown children)
      (ctors : ∀ c n, Node.element c ∈ children → QualifiedName.classify c.name = .ok n →
        n.isCtorName = true → FillsQuietly c.attributes c.children) :
      ContentQuiet children

/-- Attributes and children that fill a setter without a report, at every depth. -/
inductive FillsQuietly : List Attribute → List Node → Prop
  | mk {attrs : List Attribute} {children : List Node} (attributes : AttributesKnown attrs)
      (keys : KeysApart attrs children) (content : ContentQuiet children)
      (scripts : ScriptsSole children)
      (nested : ∀ c n, Node.element c ∈ children → QualifiedName.classify c.name = .ok n →
        n.isPropertyElementName = true → n.binding = some setBinding →
        FillsQuietly c.attributes c.children)
      (values : ∀ c n, Node.element c ∈ children → QualifiedName.classify c.name = .ok n →
        n.isPropertyElementName = true → n.binding ≠ some setBinding →
        ContentQuiet c.children) :
      FillsQuietly attrs children

end

/-! ## The checks without stretches -/

@[simp] theorem attributeKey_bare (role : Role) (a : Attribute) :
    attributeKey role a.bare = attributeKey role a := rfl

@[simp] theorem elementKey_bare (p : QualifiedName → Bool) (n : Node) :
    elementKey p n.bare = elementKey p n := by
  cases n <;> simp [Node.bare, elementKey]

@[simp] theorem filterMap_attributeKey_bare (role : Role) (attrs : List Attribute) :
    (attrs.map Attribute.bare).filterMap (attributeKey role) =
      attrs.filterMap (attributeKey role) := by
  simp [List.filterMap_map, Function.comp_def]

@[simp] theorem filterMap_elementKey_bare (p : QualifiedName → Bool) (children : List Node) :
    (children.map Node.bare).filterMap (elementKey p) = children.filterMap (elementKey p) := by
  simp [List.filterMap_map]

theorem element_bare_mem {c : Element} {children : List Node} (h : Node.element c ∈ children) :
    Node.element c.bare ∈ children.map Node.bare :=
  List.mem_map_of_mem (f := Node.bare) h

theorem attributesKnown_bare {attrs : List Attribute}
    (h : AttributesKnown (attrs.map Attribute.bare)) : AttributesKnown attrs :=
  fun a ha => h a.bare (List.mem_map_of_mem ha)

theorem rolesKnown_bare {children : List Node} (h : RolesKnown (children.map Node.bare)) :
    RolesKnown children := fun c hc => by
  simpa using h c.bare (element_bare_mem hc)

/-- A child list without stretches that is one CDATA section came from one. -/
theorem eq_cdata_of_bare {ns : List Node} {t : String} {sp : Span}
    (h : ns.map Node.bare = [.cdata t sp]) : ∃ sp', ns = [.cdata t sp'] := by
  match ns, h with
  | [.cdata t' sp'], h =>
    simp only [List.map_cons, List.map_nil, Node.bare, List.cons.injEq, Node.cdata.injEq] at h
    exact ⟨sp', by rw [h.1.1]⟩
  | [.text .., ], h => simp [Node.bare] at h
  | [.element _], h => simp [Node.bare] at h

theorem soleScript_bare_isSome :
    ∀ {ns : List Node}, (soleScript (ns.map Node.bare)).isSome = (soleScript ns).isSome
  | [] => rfl
  | [.text ..] => rfl
  | [.cdata ..] => rfl
  | [.element _] => rfl
  | .text .. :: _ :: _ => rfl
  | .cdata .. :: _ :: _ => rfl
  | .element _ :: _ :: _ => rfl

/-! ## Classifying names -/

/-- Classifying a name that reads reports nothing. -/
theorem classify_quietly {raw : String} (pos : Pos) {n : QualifiedName}
    (h : QualifiedName.classify raw = .ok n) : Quietly (· = some n) (classify raw pos) := by
  unfold classify
  rw [h]
  exact Quietly.pure rfl

/-- The classes of the element children, as `classifyChildren` gives them. -/
def classesOf (children : List Node) : List (Option QualifiedName) :=
  children.filterMap fun
    | .element c => some (QualifiedName.classify c.name).toOption
    | _ => none

theorem classifyChildren_quietly : ∀ children : List Node,
    (∀ c, Node.element c ∈ children → ∃ n, QualifiedName.classify c.name = .ok n) →
    Quietly (· = classesOf children) (classifyChildren children)
  | [], _ => Quietly.pure rfl
  | .element c :: rest, h => by
    obtain ⟨n, hn⟩ := h c List.mem_cons_self
    rw [classifyChildren]
    refine Quietly.bind (classify_quietly _ hn) fun o ho => ?_
    refine Quietly.bind (classifyChildren_quietly rest fun c' hc' =>
      h c' (List.mem_cons_of_mem _ hc')) fun classes hcl => Quietly.pure ?_
    simp [classesOf, ho, hn, hcl, Except.toOption]
  | .text .. :: rest, h => by
    simp only [classifyChildren]
    exact (classifyChildren_quietly rest fun c hc => h c (List.mem_cons_of_mem _ hc)).mono
      fun _ hcl => by simp [classesOf, hcl]
  | .cdata .. :: rest, h => by
    simp only [classifyChildren]
    exact (classifyChildren_quietly rest fun c hc => h c (List.mem_cons_of_mem _ hc)).mono
      fun _ hcl => by simp [classesOf, hcl]

theorem classesOf_some {c : Element} {rest : List Node} {n : QualifiedName}
    {classes : List (Option QualifiedName)} (h : some n :: classes = classesOf (.element c :: rest)) :
    QualifiedName.classify c.name = .ok n ∧ classes = classesOf rest := by
  simp only [classesOf, List.filterMap_cons, List.cons.injEq] at h
  refine ⟨?_, h.2⟩
  cases hc : QualifiedName.classify c.name <;> simp_all [Except.toOption]

theorem classesOf_text {content : String} {span : Span} {rest : List Node} :
    classesOf (.text content span :: rest) = classesOf rest := rfl

theorem classesOf_cdata {content : String} {span : Span} {rest : List Node} :
    classesOf (.cdata content span :: rest) = classesOf rest := rfl

/-! ## Keys -/

theorem elementKey_of_classify {p : QualifiedName → Bool} {c : Element} {n : QualifiedName}
    (h : QualifiedName.classify c.name = .ok n) :
    elementKey p (.element c) = if p n then some n.name else none := by
  simp [elementKey, h]

/-- A child whose name does not read puts nothing into a setter. -/
theorem classesOf_none {c : Element} {rest : List Node} {classes : List (Option QualifiedName)}
    (h : none :: classes = classesOf (.element c :: rest)) :
    (∀ p, elementKey p (.element c) = none) ∧ classes = classesOf rest := by
  simp only [classesOf, List.filterMap_cons, List.cons.injEq] at h
  refine ⟨fun p => ?_, h.2⟩
  cases hc : QualifiedName.classify c.name with
  | ok n => simp [hc, Except.toOption] at h
  | error e => simp [elementKey, hc]

/-- Element names are identifiers, so no element puts anything under the empty name. -/
theorem elementKey_ne_empty {p : QualifiedName → Bool} {node : Node} {k : String}
    (h : elementKey p node = some k) : k ≠ "" := by
  unfold elementKey at h
  split at h
  · split at h
    · rename_i n hn
      split at h
      · cases h
        exact isIdent_ne_empty (classify_eq_ok hn).1.name
      · cases h
    · cases h
  · cases h

theorem filterMap_cons_toList {α β : Type} (f : α → Option β) (a : α) (l : List α) :
    (a :: l).filterMap f = (f a).toList ++ l.filterMap f := by
  cases h : f a <;> simp [h]

/-- Names still to go into one map: none of them there yet, none twice. -/
def FreshIn {α : Type} (m : KeyMap α) (ks : List String) : Prop :=
  ks.Nodup ∧ ∀ k ∈ ks, m.contains k = false

namespace FreshIn

variable {α : Type} {m : KeyMap α} {k : String} {ks : List String}

theorem head (h : FreshIn m (k :: ks)) : m.contains k = false :=
  h.2 k List.mem_cons_self

/-- Putting the first name in leaves the others still to come. -/
theorem insert (h : FreshIn m (k :: ks)) (v : α) : FreshIn (m.insert k v) ks := by
  have hnodup := List.nodup_cons.1 h.1
  refine ⟨hnodup.2, fun k' hk' => ?_⟩
  rw [KeyMap.contains_insert_of_ne v (fun heq => hnodup.1 (by rw [← heq]; exact hk'))]
  exact h.2 k' (List.mem_cons_of_mem _ hk')

/-- Putting in a name that is not to come leaves the others to come. -/
theorem insert_of_not_mem (h : FreshIn m ks) (hk : k ∉ ks) (v : α) :
    FreshIn (m.insert k v) ks :=
  ⟨h.1, fun k' hk' => by
    rw [KeyMap.contains_insert_of_ne v (fun heq => hk (by rw [← heq]; exact hk'))]
    exact h.2 k' hk'⟩

theorem of_toList_append {o : Option String} (h : FreshIn m (o.toList ++ ks)) : FreshIn m ks :=
  ⟨(List.nodup_append.1 h.1).2.1, fun k hk => h.2 k (List.mem_append_right _ hk)⟩

theorem nil_toList_append (h : FreshIn m ((none : Option String).toList ++ ks)) :
    FreshIn m ks := h.of_toList_append

theorem empty (h : ks.Nodup) : FreshIn ({} : KeyMap α) ks := ⟨h, fun _ _ => rfl⟩

end FreshIn

/-- Names still to go into the three maps of a setter. -/
structure Fresh (s : Setter) (props handlers env : List String) : Prop where
  properties : FreshIn s.properties props
  handlers : FreshIn s.handlers handlers
  environment : FreshIn s.environment env

/-! ## Attributes -/

theorem attributeKey_of_classify {role : Role} {a : Attribute} {n : QualifiedName}
    (h : QualifiedName.classify a.name = .ok n) :
    attributeKey role a = if n.attributeRole = role then some n.name else none := by
  simp [attributeKey, h]

/-- Every attribute name lands in one of the four attribute roles or in none. -/
theorem attributeRole_cases (n : QualifiedName) :
    n.attributeRole = .referenceAttribute ∨ n.attributeRole = .environmentAttribute ∨
      n.attributeRole = .propertyAttribute ∨ n.attributeRole = .eventAttribute ∨
      n.attributeRole = .unrecognized := by
  unfold QualifiedName.attributeRole
  split_ifs <;> simp

/-- An attribute of a known role puts its name into its map, and reports nothing when it is new. -/
theorem readAttribute_quietly {s : Setter} {a : Attribute} {n : QualifiedName}
    (hn : QualifiedName.classify a.name = .ok n) (hrole : n.attributeRole ≠ .unrecognized)
    {props handlers env : List String}
    (hfresh : Fresh s ((attributeKey .propertyAttribute a).toList ++ props)
      ((attributeKey .eventAttribute a).toList ++ handlers)
      ((attributeKey .environmentAttribute a).toList ++ env)) :
    Quietly (fun s' => Fresh s' props handlers env) (readAttribute s a) := by
  simp only [attributeKey_of_classify hn] at hfresh
  unfold readAttribute
  refine Quietly.bind (classify_quietly _ hn) fun o ho => ?_
  subst ho
  dsimp only
  rcases attributeRole_cases n with hr | hr | hr | hr | hr
  · simp only [hr, reduceCtorEq, if_false, Option.toList_none, List.nil_append] at hfresh
    rw [hr]
    dsimp only
    exact Quietly.pure (by split <;> exact ⟨hfresh.1, hfresh.2, hfresh.3⟩)
  · simp only [hr, reduceCtorEq, if_true, if_false, Option.toList_none, Option.toList_some,
      List.nil_append, List.singleton_append] at hfresh
    rw [hr]
    dsimp only
    rw [if_neg (by simp [hfresh.3.head])]
    exact Quietly.pure ⟨hfresh.1, hfresh.2, hfresh.3.insert _⟩
  · simp only [hr, reduceCtorEq, if_true, if_false, Option.toList_none, Option.toList_some,
      List.nil_append, List.singleton_append] at hfresh
    rw [hr]
    dsimp only
    rw [if_neg (by simp [hfresh.1.head])]
    exact Quietly.pure ⟨hfresh.1.insert _, hfresh.2, hfresh.3⟩
  · simp only [hr, reduceCtorEq, if_true, if_false, Option.toList_none, Option.toList_some,
      List.nil_append, List.singleton_append] at hfresh
    rw [hr]
    dsimp only
    rw [if_neg (by simp [hfresh.2.head])]
    exact Quietly.pure ⟨hfresh.1, hfresh.2.insert _, hfresh.3⟩
  · exact absurd hr hrole

/-- Attributes of known roles whose names are new report nothing. -/
theorem foldAttributes_quietly : ∀ (attrs : List Attribute) (s : Setter)
    {props handlers env : List String}, AttributesKnown attrs →
    Fresh s (attrs.filterMap (attributeKey .propertyAttribute) ++ props)
      (attrs.filterMap (attributeKey .eventAttribute) ++ handlers)
      (attrs.filterMap (attributeKey .environmentAttribute) ++ env) →
    Quietly (fun s' => Fresh s' props handlers env) (attrs.foldlM readAttribute s)
  | [], s, _, _, _, _, h => Quietly.pure (by simpa using h)
  | a :: attrs, s, _, _, _, hknown, h => by
    obtain ⟨n, hn, hrole⟩ := hknown a List.mem_cons_self
    simp only [filterMap_cons_toList, List.append_assoc] at h
    rw [List.foldlM_cons]
    exact Quietly.bind (readAttribute_quietly hn hrole h) fun s' hs' =>
      foldAttributes_quietly attrs s' (fun b hb => hknown b (List.mem_cons_of_mem _ hb)) hs'

/-! ## Event and environment elements -/

theorem ScriptsSole.tail {n : Node} {ns : List Node} (h : ScriptsSole (n :: ns)) :
    ScriptsSole ns :=
  fun c m hc => h c m (List.mem_cons_of_mem _ hc)

theorem soleScript_cdata_of_bare {ns : List Node} {t : String} {sp : Span}
    (h : ns.map Node.bare = [.cdata t sp]) : ∃ pos, soleScript ns = some (t, pos, false) := by
  obtain ⟨sp', rfl⟩ := eq_cdata_of_bare h
  exact ⟨_, rfl⟩

/-- `ev.` elements of one CDATA section under names that are new report nothing. -/
theorem readEvents_quietly : ∀ (s : Setter) (children : List Node)
    (classes : List (Option QualifiedName)), classes = classesOf children →
    ScriptsSole (children.map Node.bare) →
    FreshIn s.handlers (children.filterMap (elementKey isEventElementName)) →
    Quietly (fun s' => s'.environment = s.environment) (readEvents s children classes)
  | s, .element c :: rest, some n :: classes, hcl, hscripts, hfresh => by
    obtain ⟨hc, hrest⟩ := classesOf_some hcl
    rw [filterMap_cons_toList, elementKey_of_classify hc] at hfresh
    rw [readEvents]
    by_cases hev : n.isEventElementName = true
    · simp only [hev, if_true, Option.toList_some, List.singleton_append] at hfresh
      obtain ⟨t, sp, hkids⟩ := (hscripts c.bare n (element_bare_mem List.mem_cons_self)
        (by simpa using hc)).1 hev
      obtain ⟨pos, hsole⟩ := soleScript_cdata_of_bare (by simpa using hkids)
      rw [if_neg (by simp [hev]), if_neg (by simp [hfresh.head]), hsole]
      exact readEvents_quietly _ rest classes hrest hscripts.tail (hfresh.insert _)
    · rw [if_pos (by simpa using hev)]
      exact readEvents_quietly s rest classes hrest hscripts.tail (by simpa [hev] using hfresh)
  | s, .element c :: rest, none :: classes, hcl, hscripts, hfresh => by
    obtain ⟨hkey, hrest⟩ := classesOf_none hcl
    rw [filterMap_cons_toList, hkey] at hfresh
    rw [readEvents]
    exact readEvents_quietly s rest classes hrest hscripts.tail hfresh.nil_toList_append
  | s, .element _ :: _, [], _, _, _ => by
    rw [readEvents]
    exact Quietly.pure rfl
  | s, .text .. :: rest, classes, hcl, hscripts, hfresh => by
    simp only [readEvents]
    exact readEvents_quietly s rest classes hcl hscripts.tail hfresh
  | s, .cdata .. :: rest, classes, hcl, hscripts, hfresh => by
    simp only [readEvents]
    exact readEvents_quietly s rest classes hcl hscripts.tail hfresh
  | s, [], _, _, _, _ => by
    rw [readEvents]
    exact Quietly.pure rfl

/-- `env.` elements of at most one text under names that are new report nothing. -/
theorem readEnvironment_quietly : ∀ (s : Setter) (children : List Node)
    (classes : List (Option QualifiedName)), classes = classesOf children →
    ScriptsSole (children.map Node.bare) →
    FreshIn s.environment (children.filterMap (elementKey isEnvironmentElementName)) →
    Quietly (fun _ => True) (readEnvironment s children classes)
  | s, .element c :: rest, some n :: classes, hcl, hscripts, hfresh => by
    obtain ⟨hc, hrest⟩ := classesOf_some hcl
    rw [filterMap_cons_toList, elementKey_of_classify hc] at hfresh
    rw [readEnvironment]
    by_cases henv : n.isEnvironmentElementName = true
    · simp only [henv, if_true, Option.toList_some, List.singleton_append] at hfresh
      have hsole := (hscripts c.bare n (element_bare_mem List.mem_cons_self)
        (by simpa using hc)).2 henv
      simp only [Tag.bare_eq, List.map_eq_nil_iff, soleScript_bare_isSome] at hsole
      rw [if_neg (by simp [henv]), if_neg (by simp [hfresh.head])]
      dsimp only
      split
      · exact readEnvironment_quietly _ rest classes hrest hscripts.tail (hfresh.insert _)
      · rename_i hnone
        exfalso
        split at hnone
        · cases hnone
        · cases hnone
        · rename_i hscript hkids
          rcases hsole with hnil | hsome
          · exact hkids hnil
          · simp [hscript] at hsome
    · rw [if_pos (by simpa using henv)]
      exact readEnvironment_quietly s rest classes hrest hscripts.tail
        (by simpa [henv] using hfresh)
  | s, .element c :: rest, none :: classes, hcl, hscripts, hfresh => by
    obtain ⟨hkey, hrest⟩ := classesOf_none hcl
    rw [filterMap_cons_toList, hkey] at hfresh
    rw [readEnvironment]
    exact readEnvironment_quietly s rest classes hrest hscripts.tail hfresh.nil_toList_append
  | s, .element _ :: _, [], _, _, _ => by
    rw [readEnvironment]
    exact Quietly.pure trivial
  | s, .text .. :: rest, classes, hcl, hscripts, hfresh => by
    simp only [readEnvironment]
    exact readEnvironment_quietly s rest classes hcl hscripts.tail hfresh
  | s, .cdata .. :: rest, classes, hcl, hscripts, hfresh => by
    simp only [readEnvironment]
    exact readEnvironment_quietly s rest classes hcl hscripts.tail hfresh
  | s, [], _, _, _, _ => by
    rw [readEnvironment]
    exact Quietly.pure trivial

/-! ## Constructors, setters and default content -/

theorem RolesKnown.tail {n : Node} {ns : List Node} (h : RolesKnown (n :: ns)) : RolesKnown ns :=
  fun c hc => h c (List.mem_cons_of_mem _ hc)

namespace ContentQuiet

variable {ns : List Node} (h : ContentQuiet ns)
include h

theorem roles : RolesKnown ns := by
  obtain ⟨hroles, -⟩ := h
  exact hroles

theorem ctors : ∀ c n, Node.element c ∈ ns → QualifiedName.classify c.name = .ok n →
    n.isCtorName = true → FillsQuietly c.attributes c.children := by
  obtain ⟨-, hctors⟩ := h
  exact hctors

end ContentQuiet

theorem ContentQuiet.tail {n : Node} {ns : List Node} (h : ContentQuiet (n :: ns)) :
    ContentQuiet ns :=
  ⟨h.roles.tail, fun c m hc => h.ctors c m (List.mem_cons_of_mem _ hc)⟩

/-- Property elements that fill quietly: a nested setter, or default content. -/
def PropertiesFill (children : List Node) : Prop :=
  ∀ c n, Node.element c ∈ children → QualifiedName.classify c.name = .ok n →
    n.isPropertyElementName = true →
    (n.binding = some setBinding →
      FillsQuietly (c.attributes.map Attribute.bare) (c.children.map Node.bare)) ∧
    (n.binding ≠ some setBinding → ContentQuiet (c.children.map Node.bare))

theorem PropertiesFill.tail {n : Node} {ns : List Node} (h : PropertiesFill (n :: ns)) :
    PropertiesFill ns :=
  fun c m hc => h c m (List.mem_cons_of_mem _ hc)

/-- The property elements of quietly filling children fill quietly. -/
theorem FillsQuietly.propertiesFill {attrs : List Attribute} {children : List Node}
    (h : FillsQuietly (attrs.map Attribute.bare) (children.map Node.bare)) :
    PropertiesFill children := by
  obtain ⟨-, -, -, -, hnested, hvalues⟩ := h
  intro c n hc hn hprop
  have hc' := element_bare_mem hc
  have hn' : QualifiedName.classify c.bare.name = .ok n := by simpa using hn
  exact ⟨fun hset => by simpa using hnested c.bare n hc' hn' hprop hset,
    fun hset => by simpa using hvalues c.bare n hc' hn' hprop hset⟩

/-- What loading without a report needs and gives, per function of the loader. -/
def CtorQuiet (x : Element) : Prop :=
  (∃ n, QualifiedName.classify x.name = .ok n ∧ n.isCtorName = true) →
    FillsQuietly (x.attributes.map Attribute.bare) (x.children.map Node.bare) →
    Quietly (fun o => o.isSome = true) (ctor x)

def FillQuiet (span : Span) (attrs : List Attribute) (children : List Node) : Prop :=
  FillsQuietly (attrs.map Attribute.bare) (children.map Node.bare) →
    Quietly (fun _ => True) (fill span attrs children)

def PropertiesQuiet (s : Setter) (children : List Node) (classes : List (Option QualifiedName)) :
    Prop :=
  classes = classesOf children → PropertiesFill children →
    FreshIn s.properties (children.filterMap (elementKey isPropertyElementName)) →
    Quietly (fun s' => s'.handlers = s.handlers ∧ s'.environment = s.environment)
      (readProperties s children classes)

def DefaultQuiet (children : List Node) (classes : List (Option QualifiedName)) : Prop :=
  classes = classesOf children → ContentQuiet (children.map Node.bare) →
    Quietly (fun _ => True) (defaultContent children classes)

def CtorsQuiet (children : List Node) (classes : List (Option QualifiedName)) : Prop :=
  classes = classesOf children → ContentQuiet (children.map Node.bare) →
    Quietly (fun _ => True) (ctorChildren children classes)

theorem quiet_all :
    (∀ x, CtorQuiet x) ∧ (∀ span attrs children, FillQuiet span attrs children) ∧
      (∀ s children classes, PropertiesQuiet s children classes) ∧
      (∀ children classes, DefaultQuiet children classes) ∧
      (∀ children classes, CtorsQuiet children classes) := by
  apply Loader.ctor.mutual_induct CtorQuiet FillQuiet PropertiesQuiet DefaultQuiet CtorsQuiet
  · rintro name nameSpan span attrs children hfill ⟨n, hn, hctor⟩ hq
    rw [ctor]
    refine Quietly.bind (classify_quietly _ hn) fun o ho => ?_
    subst ho
    dsimp only
    rw [if_neg (by simp [hctor])]
    exact Quietly.bind (hfill hq) fun _ _ => Quietly.pure rfl
  · intro span attrs children hdefault hprops hq
    have hfill := hq.propertiesFill
    obtain ⟨hattrs, hkeys, hcontent, hscripts, -, -⟩ := hq
    obtain ⟨hkp, hkh, hke⟩ := hkeys
    simp only [filterMap_attributeKey_bare, filterMap_elementKey_bare] at hkp hkh hke
    have hroles := rolesKnown_bare hcontent.roles
    rw [fill]
    refine Quietly.bind (foldAttributes_quietly attrs _ (attributesKnown_bare hattrs)
      ⟨.empty hkp, .empty hkh, .empty hke⟩) fun s hs => ?_
    refine Quietly.bind (classifyChildren_quietly children fun c hc =>
      (hroles c hc).imp fun _ h => h.1) fun classes hcl => ?_
    refine Quietly.bind (hdefault classes hcl hcontent) fun defaults _ => ?_
    have hprops := hprops s classes defaults
    simp only [dite_eq_ite] at hprops
    dsimp only
    have hfresh : FreshIn (if defaults.isEmpty = true then s else
        { s with properties := s.properties.insert "" { values := defaults, attPos := span.start } }
        : Setter).properties (children.filterMap (elementKey isPropertyElementName)) := by
      split
      · exact hs.1
      · exact hs.1.insert_of_not_mem (fun h => by
          obtain ⟨node, -, hnode⟩ := List.mem_filterMap.1 h
          exact elementKey_ne_empty hnode rfl) _
    refine Quietly.bind (hprops hcl hfill hfresh) fun s₂ hs₂ => ?_
    have hh : s₂.handlers = s.handlers := by
      rw [hs₂.1]
      split <;> rfl
    have he : s₂.environment = s.environment := by
      rw [hs₂.2]
      split <;> rfl
    refine Quietly.bind (readEvents_quietly s₂ children classes hcl hscripts (hh ▸ hs.2))
      fun s₃ hs₃ => ?_
    exact readEnvironment_quietly s₃ children classes hcl hscripts (hs₃ ▸ he ▸ hs.3)
  · intro s name cnameSpan cspan cattrs cchildren rest n classes hnot ih hcl hfill hfresh
    obtain ⟨hc, hrest⟩ := classesOf_some hcl
    rw [filterMap_cons_toList, elementKey_of_classify hc,
      if_neg (by simpa using hnot), Option.toList_none, List.nil_append] at hfresh
    rw [readProperties, if_pos hnot]
    exact ih s hrest hfill.tail hfresh
  -- a property given twice cannot happen: its name is still to come
  · intro s name cnameSpan cspan cattrs cchildren rest n classes hnot hc ih hcl hfill hfresh
    obtain ⟨hn, -⟩ := classesOf_some hcl
    rw [filterMap_cons_toList, elementKey_of_classify hn, if_pos (by simpa using hnot)] at hfresh
    exact absurd hfresh.head (by simpa using hc)
  · intro s name cnameSpan cspan cattrs cchildren rest n classes hnot hc hset ih hnested hcl
      hfill hfresh
    obtain ⟨hn, hrest⟩ := classesOf_some hcl
    have hprop : n.isPropertyElementName = true := by simpa using hnot
    rw [filterMap_cons_toList, elementKey_of_classify hn, if_pos hprop] at hfresh
    have hq := (hfill _ n List.mem_cons_self hn hprop).1 (by simpa using hset)
    rw [readProperties, if_neg hnot, if_neg hc]
    dsimp only
    rw [if_pos hset]
    exact Quietly.bind (hnested hq) fun _ _ => ih _ hrest hfill.tail (hfresh.insert _)
  · intro s name cnameSpan cspan cattrs cchildren rest n classes hnot hc hset ih hdefault hcl
      hfill hfresh
    obtain ⟨hn, hrest⟩ := classesOf_some hcl
    have hprop : n.isPropertyElementName = true := by simpa using hnot
    rw [filterMap_cons_toList, elementKey_of_classify hn, if_pos hprop] at hfresh
    have hq := (hfill _ n List.mem_cons_self hn hprop).2 (by simpa using hset)
    rw [readProperties, if_neg hnot, if_neg hc]
    dsimp only
    rw [if_neg hset]
    refine Quietly.bind (classifyChildren_quietly cchildren fun c hc =>
      (rolesKnown_bare hq.roles c hc).imp fun _ h => h.1) fun grand hgrand => ?_
    refine Quietly.bind (hdefault grand hgrand hq) fun values _ => ?_
    split
    · exact ih s hrest hfill.tail hfresh.of_toList_append
    · exact ih _ hrest hfill.tail (hfresh.insert _)
  · intro s tag rest classes ih hcl hfill hfresh
    obtain ⟨hkey, hrest⟩ := classesOf_none hcl
    rw [filterMap_cons_toList, hkey] at hfresh
    rw [readProperties]
    exact ih hrest hfill.tail hfresh.nil_toList_append
  · intro s tag tail _ _ _
    rw [readProperties]
    exact Quietly.pure ⟨rfl, rfl⟩
  · intro s content span rest classes ih hcl hfill hfresh
    rw [readProperties]
    exact ih hcl hfill.tail hfresh
  · intro s content span rest classes ih hcl hfill hfresh
    rw [readProperties]
    exact ih hcl hfill.tail hfresh
  · intro s classes _ _ _
    rw [readProperties]
    exact Quietly.pure ⟨rfl, rfl⟩
  · intro children classes hctors hcl hq
    rw [defaultContent]
    exact Quietly.bind (hctors hcl hq) fun _ _ => Quietly.pure trivial
  · intro c rest n classes hctor ihrest ihc hcl hq
    obtain ⟨hn, hrest⟩ := classesOf_some hcl
    have hfill : FillsQuietly (c.attributes.map Attribute.bare) (c.children.map Node.bare) := by
      simpa using hq.ctors c.bare n (element_bare_mem List.mem_cons_self) (by simpa using hn) hctor
    have hmore : ∀ here, Quietly (fun _ => True)
        (do let more ← ctorChildren rest classes; pure (here ++ more)) := fun _ =>
      Quietly.bind (ihrest hrest hq.tail) fun _ _ => Quietly.pure trivial
    rw [ctorChildren, if_pos hctor]
    exact Quietly.bind (ihc ⟨n, hn, hctor⟩ hfill) fun o _ => by
      cases o <;> exact Quietly.bind (Quietly.pure (P := fun _ => True) trivial) fun _ _ => hmore _
  · intro c rest n classes hctor hunknown ihrest hcl hq
    obtain ⟨hn, -⟩ := classesOf_some hcl
    obtain ⟨m, hm, hrole⟩ := rolesKnown_bare hq.roles c List.mem_cons_self
    rw [hn] at hm
    cases hm
    exact absurd (by simpa using hunknown) hrole
  · intro c rest n classes hctor hknown ihrest hcl hq
    obtain ⟨-, hrest⟩ := classesOf_some hcl
    rw [ctorChildren, if_neg hctor, if_neg hknown]
    exact Quietly.bind (Quietly.pure (P := fun _ => True) trivial) fun _ _ =>
      Quietly.bind (ihrest hrest hq.tail) fun _ _ => Quietly.pure trivial
  · intro tag rest classes ihrest hcl hq
    obtain ⟨-, hrest⟩ := classesOf_none hcl
    rw [ctorChildren]
    exact ihrest hrest hq.tail
  · intro tag tail _ _
    rw [ctorChildren]
    exact Quietly.pure trivial
  · intro content span rest classes ihrest hcl hq
    rw [ctorChildren]
    exact ihrest hcl hq.tail
  · intro content span rest classes ihrest hcl hq
    rw [ctorChildren]
    exact ihrest hcl hq.tail
  · intro classes _ _
    rw [ctorChildren]
    exact Quietly.pure trivial

/-- An element with a constructor name whose parts fill quietly loads without a report. -/
theorem ctor_quietly {x : Element} {n : QualifiedName}
    (hn : QualifiedName.classify x.name = .ok n) (hctor : n.isCtorName = true)
    (hfill : FillsQuietly x.bare.attributes x.bare.children) :
    Quietly (fun o => o.isSome = true) (ctor x) :=
  quiet_all.1 x ⟨n, hn, hctor⟩ (by simpa using hfill)

end Loader

end GuiMarkup
