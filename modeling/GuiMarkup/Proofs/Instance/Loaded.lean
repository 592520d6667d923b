import GuiMarkup.Instance.Loader
import GuiMarkup.Proofs.Name.Display

/-! What loading gives: identifiers for names, each name once per setter, no style
content, and property values of the shapes the loader makes. -/

namespace GuiMarkup

open QualifiedName Markup

/-! ## Runs that report -/

/-- Every run of `m` gives a value with property `P`, whatever was reported before. -/
def Yields {α : Type} (P : α → Prop) (m : Reporting α) : Prop :=
  ∀ log, P (m.run log).1

namespace Yields

variable {α β : Type} {P : α → Prop} {Q : β → Prop}

theorem pure {a : α} (h : P a) : Yields P (Pure.pure a) := fun _ => h

theorem bind {m : Reporting α} {f : α → Reporting β} (hm : Yields P m)
    (hf : ∀ a, P a → Yields Q (f a)) : Yields Q (m >>= f) :=
  fun log => hf _ (hm log) _

theorem mono {m : Reporting α} {P' : α → Prop} (hm : Yields P m) (h : ∀ a, P a → P' a) :
    Yields P' m :=
  fun log => h _ (hm log)

theorem report {pos : Pos} {issue : Issue} : Yields (fun _ => True) (GuiMarkup.report pos issue) :=
  fun _ => trivial

theorem foldlM {f : β → α → Reporting β} (hf : ∀ b a, Q b → Yields Q (f b a)) :
    ∀ (l : List α) (b : β), Q b → Yields Q (l.foldlM f b)
  | [], _, hb => pure hb
  | a :: l, b, hb => bind (hf b a hb) fun b' hb' => foldlM hf l b' hb'

end Yields

/-! ## Maps ordered by name -/

namespace KeyMap

variable {α : Type}

theorem contains_iff {m : KeyMap α} {k : String} :
    m.contains k = true ↔ k ∈ m.entries.map Prod.fst := by
  simp [contains]

theorem find?_eq_none_iff {m : KeyMap α} {k : String} :
    m.find? k = none ↔ k ∉ m.entries.map Prod.fst := by
  simp only [find?, Option.map_eq_none_iff, List.find?_eq_none, beq_iff_eq, List.mem_map,
    not_exists, not_and]

/-- A name put in for the first time joins the entries, up to order. -/
theorem insertSorted_perm {k : String} {v : α} :
    ∀ {l : List (String × α)}, k ∉ l.map Prod.fst → (insertSorted k v l).Perm ((k, v) :: l)
  | [], _ => by simp [insertSorted]
  | (k', v') :: rest, h => by
    simp only [List.map_cons, List.mem_cons, not_or] at h
    simp only [insertSorted, if_neg h.1]
    split
    · exact List.Perm.refl _
    · exact ((insertSorted_perm h.2).cons _).trans (List.Perm.swap _ _ _)

theorem entries_insert_perm {m : KeyMap α} {k : String} {v : α} (h : m.contains k = false) :
    (m.insert k v).entries.Perm ((k, v) :: m.entries) :=
  insertSorted_perm fun hk => by rw [contains_iff.2 hk] at h; cases h

theorem mem_insert {m : KeyMap α} {k : String} {v : α} (h : m.contains k = false)
    {kv : String × α} : kv ∈ (m.insert k v).entries ↔ kv = (k, v) ∨ kv ∈ m.entries :=
  (entries_insert_perm h).mem_iff.trans List.mem_cons

theorem nodup_insert {m : KeyMap α} {k : String} {v : α} (h : m.contains k = false)
    (hm : (m.entries.map Prod.fst).Nodup) : ((m.insert k v).entries.map Prod.fst).Nodup := by
  rw [((entries_insert_perm h).map Prod.fst).nodup_iff, List.map_cons, List.nodup_cons]
  exact ⟨(fun hk => by rw [contains_iff.2 hk] at h; cases h), hm⟩

theorem mem_keys_insert {m : KeyMap α} {k : String} {v : α} (h : m.contains k = false)
    {k' : String} :
    k' ∈ (m.insert k v).entries.map Prod.fst ↔ k' = k ∨ k' ∈ m.entries.map Prod.fst := by
  rw [((entries_insert_perm h).map Prod.fst).mem_iff, List.map_cons, List.mem_cons]

end KeyMap

/-! ## The shapes of loaded values -/

/-- What loading gives a setter, values aside: nothing from a style, and identifiers each once. -/
structure SetterOf.Plain (s : Setter) : Prop where
  fromStyle : s.fromStyle = false
  instanceName : ∀ n ∈ s.instanceName, n.fromStyle = false
  properties_nodup : (s.properties.entries.map Prod.fst).Nodup
  properties : ∀ kp ∈ s.properties.entries,
    kp.1 = "" ∨ isIdent kp.1 = true ∧ ∀ b ∈ kp.2.binding, isIdent b = true
  handlers_nodup : (s.handlers.entries.map Prod.fst).Nodup
  handlers : ∀ kh ∈ s.handlers.entries,
    isIdent kh.1 = true ∧ (∀ b ∈ kh.2.binding, isIdent b = true) ∧ kh.2.fromStyle = false
  environment_nodup : (s.environment.entries.map Prod.fst).Nodup
  environment : ∀ kv ∈ s.environment.entries, isIdent kv.1 = true ∧ kv.2.fromStyle = false

/-- The values of one property as loading gives them: a text, a nested setter, or constructors. -/
def Value.Shaped (default : Bool) (vs : List Value) : Prop :=
  (∃ t pos, vs = [.text t false pos]) ∨ (default = false ∧ ∃ s, vs = [.setter s]) ∨
    (vs ≠ [] ∧ ∀ v ∈ vs, v.asCtor?.isSome)

theorem Value.Shaped.of_default {vs : List Value} (h : Value.Shaped true vs) (d : Bool) :
    Value.Shaped d vs := by
  rcases h with h | ⟨h, _⟩ | h
  · exact .inl h
  · cases h
  · exact .inr (.inr h)

mutual

/-- A value as loading gives it, all the way down. -/
def Value.Loaded : Value → Prop
  | .text _ fromStyle _ => fromStyle = false
  | .setter s => SetterOf.Loaded s
  | .ctor c => CtorOf.Loaded c

/-- A constructor as loading gives it: a type named by identifiers, and a loaded setter. -/
def CtorOf.Loaded : Ctor → Prop
  | ⟨ns, name, _, s⟩ => WellFormed ⟨ns, none, name, none⟩ ∧ SetterOf.Loaded s

/-- A setter as loading gives it. -/
def SetterOf.Loaded : Setter → Prop
  | s@⟨⟨props⟩, _, _, _, _, _⟩ => s.Plain ∧ PropertyOf.ValuesLoaded props

/-- Property values of loaded shapes. -/
def PropertyOf.ValuesLoaded : List (String × Property) → Prop
  | [] => True
  | (k, ⟨_, values, _⟩) :: rest =>
    Value.Shaped (k == "") values ∧ Value.AllLoaded values ∧ PropertyOf.ValuesLoaded rest

/-- Loaded values. -/
def Value.AllLoaded : List Value → Prop
  | [] => True
  | v :: vs => Value.Loaded v ∧ Value.AllLoaded vs

end

theorem Value.allLoaded_iff : ∀ {vs : List Value}, Value.AllLoaded vs ↔ ∀ v ∈ vs, v.Loaded
  | [] => by simp [Value.AllLoaded]
  | v :: vs => by simp [Value.AllLoaded, allLoaded_iff]

theorem PropertyOf.valuesLoaded_iff : ∀ {l : List (String × Property)},
    PropertyOf.ValuesLoaded l ↔
      ∀ kp ∈ l, Value.Shaped (kp.1 == "") kp.2.values ∧ ∀ v ∈ kp.2.values, v.Loaded
  | [] => by simp [PropertyOf.ValuesLoaded]
  | (k, ⟨_, values, _⟩) :: rest => by
    simp [PropertyOf.ValuesLoaded, Value.allLoaded_iff, valuesLoaded_iff, and_assoc]

theorem CtorOf.loaded_iff {c : Ctor} :
    c.Loaded ↔ WellFormed ⟨c.typeNamespace, none, c.typeName, none⟩ ∧ c.setter.Loaded := by
  obtain ⟨ns, name, style, s⟩ := c
  rfl

theorem SetterOf.loaded_iff {s : Setter} : s.Loaded ↔ s.Plain ∧ ∀ kp ∈ s.properties.entries,
    Value.Shaped (kp.1 == "") kp.2.values ∧ ∀ v ∈ kp.2.values, v.Loaded := by
  obtain ⟨⟨props⟩, handlers, env, name, fromStyle, pos⟩ := s
  rw [← PropertyOf.valuesLoaded_iff]
  rfl

namespace SetterOf

variable {s : Setter}

theorem Loaded.plain (hs : s.Loaded) : s.Plain := (loaded_iff.1 hs).1

theorem Loaded.values (hs : s.Loaded) {kp : String × Property} (hkp : kp ∈ s.properties.entries) :
    Value.Shaped (kp.1 == "") kp.2.values ∧ ∀ v ∈ kp.2.values, v.Loaded :=
  (loaded_iff.1 hs).2 kp hkp

/-- A new property of a loaded shape keeps a setter loaded. -/
theorem Loaded.insertProperty (hs : s.Loaded) {k : String} {p : Property}
    (hnew : s.properties.contains k = false)
    (hk : k = "" ∨ isIdent k = true ∧ ∀ b ∈ p.binding, isIdent b = true)
    (hshape : Value.Shaped (k == "") p.values) (hvals : ∀ v ∈ p.values, v.Loaded) :
    ({ s with properties := s.properties.insert k p } : Setter).Loaded := by
  have hp := hs.plain
  refine loaded_iff.2 ⟨{ hp with properties_nodup := ?_, properties := ?_ }, ?_⟩
  · exact KeyMap.nodup_insert hnew hp.properties_nodup
  · intro kp hkp
    rcases (KeyMap.mem_insert hnew).1 hkp with rfl | hkp
    · exact hk
    · exact hp.properties kp hkp
  · intro kp hkp
    rcases (KeyMap.mem_insert hnew).1 hkp with rfl | hkp
    · exact ⟨hshape, hvals⟩
    · exact hs.values hkp

theorem Loaded.insertHandler (hs : s.Loaded) {k : String} {h : Handler}
    (hnew : s.handlers.contains k = false) (hk : isIdent k = true)
    (hb : ∀ b ∈ h.binding, isIdent b = true) (hstyle : h.fromStyle = false) :
    ({ s with handlers := s.handlers.insert k h } : Setter).Loaded := by
  have hp := hs.plain
  refine loaded_iff.2 ⟨{ hp with handlers_nodup := ?_, handlers := ?_ }, fun kp hkp => hs.values hkp⟩
  · exact KeyMap.nodup_insert hnew hp.handlers_nodup
  · intro kh hkh
    rcases (KeyMap.mem_insert hnew).1 hkh with rfl | hkh
    · exact ⟨hk, hb, hstyle⟩
    · exact hp.handlers kh hkh

theorem Loaded.insertEnvironment (hs : s.Loaded) {k : String} {v : EnvEntry}
    (hnew : s.environment.contains k = false) (hk : isIdent k = true)
    (hstyle : v.fromStyle = false) :
    ({ s with environment := s.environment.insert k v } : Setter).Loaded := by
  have hp := hs.plain
  refine loaded_iff.2 ⟨{ hp with environment_nodup := ?_, environment := ?_ },
    fun kp hkp => hs.values hkp⟩
  · exact KeyMap.nodup_insert hnew hp.environment_nodup
  · intro kv hkv
    rcases (KeyMap.mem_insert hnew).1 hkv with rfl | hkv
    · exact ⟨hk, hstyle⟩
    · exact hp.environment kv hkv

theorem Loaded.setInstanceName (hs : s.Loaded) (name : String) :
    ({ s with instanceName := some ⟨name, false⟩ } : Setter).Loaded :=
  loaded_iff.2 ⟨{ hs.plain with instanceName := by simp }, fun kp hkp => hs.values hkp⟩

end SetterOf

/-! ## Attributes, events and environment elements -/

namespace Loader

/-- The empty name is no identifier, so only default content goes under it. -/
theorem isIdent_ne_empty {k : String} (hk : isIdent k = true) : k ≠ "" := by
  rintro rfl
  simp [isIdent] at hk

theorem classify_wellFormed (raw : String) (pos : Pos) :
    Yields (fun o => ∀ n ∈ o, n.WellFormed) (classify raw pos) := by
  unfold classify
  split
  · rename_i n hn
    exact Yields.pure fun m hm => Option.some.inj hm ▸ (classify_eq_ok hn).1
  · exact Yields.bind Yields.report fun _ _ => Yields.pure (by simp)

/-- Classes that reading gives. -/
def ClassesRead (classes : List (Option QualifiedName)) : Prop :=
  ∀ o ∈ classes, ∀ n ∈ o, n.WellFormed

theorem ClassesRead.head {o : Option QualifiedName} {classes : List (Option QualifiedName)}
    (h : ClassesRead (o :: classes)) : ∀ n ∈ o, n.WellFormed :=
  h o List.mem_cons_self

theorem ClassesRead.tail {o : Option QualifiedName} {classes : List (Option QualifiedName)}
    (h : ClassesRead (o :: classes)) : ClassesRead classes :=
  fun o' ho => h o' (List.mem_cons_of_mem _ ho)

/-- Each class is the reading of the name of an element child. -/
theorem classifyChildren_named : ∀ children : List Node,
    Yields (fun classes => ∀ o ∈ classes, ∀ n ∈ o,
      ∃ c, Node.element c ∈ children ∧ QualifiedName.classify c.name = .ok n)
      (classifyChildren children)
  | [] => Yields.pure (by simp)
  | .element c :: rest => by
    rw [classifyChildren]
    refine Yields.bind (P := fun o => ∀ n ∈ o, QualifiedName.classify c.name = .ok n) ?_
      fun o ho => Yields.bind (classifyChildren_named rest) fun classes hcl => Yields.pure ?_
    · unfold classify
      split
      · rename_i n hn
        exact Yields.pure fun m hm => Option.some.inj hm ▸ hn
      · exact Yields.bind Yields.report fun _ _ => Yields.pure (by simp)
    · intro o' ho' n hn
      rcases List.mem_cons.1 ho' with rfl | ho'
      · exact ⟨c, List.mem_cons_self, ho n hn⟩
      · obtain ⟨c', hc', hn'⟩ := hcl o' ho' n hn
        exact ⟨c', List.mem_cons_of_mem _ hc', hn'⟩
  | .text .. :: rest => by
    simp only [classifyChildren]
    exact (classifyChildren_named rest).mono fun _ h o ho n hn =>
      (h o ho n hn).imp fun _ hc => ⟨List.mem_cons_of_mem _ hc.1, hc.2⟩
  | .cdata .. :: rest => by
    simp only [classifyChildren]
    exact (classifyChildren_named rest).mono fun _ h o ho n hn =>
      (h o ho n hn).imp fun _ hc => ⟨List.mem_cons_of_mem _ hc.1, hc.2⟩

/-- A property element that is read puts its values under its name, never the empty one. -/
theorem insertNamed_loaded {s : Setter} (hs : s.Loaded) {n : QualifiedName} (hn : n.WellFormed)
    (hnew : s.properties.contains n.name = false) {values : List Value} (pos : Pos)
    (hshape : Value.Shaped false values) (hvals : ∀ v ∈ values, v.Loaded) :
    let s' : Setter := { s with properties := (s.properties.insert n.name
      { binding := n.binding, values := values, attPos := pos }) }
    s'.Loaded ∧ ("" ∈ s'.properties.entries.map Prod.fst → "" ∈ s.properties.entries.map Prod.fst) := by
  have hne := isIdent_ne_empty hn.name
  refine ⟨hs.insertProperty hnew (.inr ⟨hn.name, hn.binding⟩)
    (by rwa [beq_eq_false_iff_ne.2 hne]) hvals, ?_⟩
  intro hk
  rcases (KeyMap.mem_keys_insert hnew).1 hk with h | h
  · exact absurd h.symm hne
  · exact h

/-- An attribute keeps a setter loaded and puts nothing under the empty name. -/
theorem readAttribute_loaded {s : Setter} (a : Attribute)
    (hs : s.Loaded ∧ "" ∉ s.properties.entries.map Prod.fst) :
    Yields (fun s' => s'.Loaded ∧ "" ∉ s'.properties.entries.map Prod.fst)
      (readAttribute s a) := by
  unfold readAttribute
  refine Yields.bind (classify_wellFormed _ _) fun o ho => ?_
  cases o with
  | none => exact Yields.pure hs
  | some n =>
    have hn : n.WellFormed := ho n rfl
    dsimp only
    split
    · split
      · exact Yields.pure ⟨hs.1.setInstanceName _, hs.2⟩
      · exact Yields.pure hs
    · split
      · exact Yields.bind Yields.report fun _ _ => Yields.pure hs
      · rename_i hc
        exact Yields.pure ⟨hs.1.insertEnvironment (by simpa using hc) hn.name rfl, hs.2⟩
    · split
      · exact Yields.bind Yields.report fun _ _ => Yields.pure hs
      · rename_i hc
        obtain ⟨hs', hkeys⟩ := insertNamed_loaded hs.1 hn (by simpa using hc) a.span.start
          (.inl ⟨_, _, rfl⟩) (by simp [Value.Loaded])
        exact Yields.pure ⟨hs', fun h => hs.2 (hkeys h)⟩
    · split
      · exact Yields.bind Yields.report fun _ _ => Yields.pure hs
      · rename_i hc
        exact Yields.pure ⟨hs.1.insertHandler (by simpa using hc) hn.name hn.binding rfl, hs.2⟩
    · exact Yields.bind Yields.report fun _ _ => Yields.pure hs

theorem fold_loaded (attrs : List Attribute) (pos : Pos) :
    Yields (fun s : Setter => s.Loaded ∧ "" ∉ s.properties.entries.map Prod.fst)
      (attrs.foldlM readAttribute { tagPos := pos }) :=
  Yields.foldlM (fun _ a hs => readAttribute_loaded a hs) attrs _
    ⟨SetterOf.loaded_iff.2 ⟨⟨rfl, by simp, by simp, by simp, by simp, by simp, by simp, by simp⟩,
      by simp⟩, by simp⟩

theorem readEvents_loaded : ∀ (s : Setter) (children : List Node)
    (classes : List (Option QualifiedName)), s.Loaded → ClassesRead classes →
    Yields (fun s' => s'.Loaded ∧ s'.properties = s.properties) (readEvents s children classes)
  | s, .element c :: rest, some n :: classes, hs, hcl => by
    have hn : n.WellFormed := hcl.head n rfl
    have hrest : ∀ s' : Setter, s'.Loaded → s'.properties = s.properties →
        Yields (fun s'' => s''.Loaded ∧ s''.properties = s.properties) (readEvents s' rest classes) :=
      fun s' hs' hp => (readEvents_loaded s' rest classes hs'
        hcl.tail).mono fun _ h => ⟨h.1, h.2.trans hp⟩
    rw [readEvents]
    split
    · exact hrest s hs rfl
    · split
      · exact Yields.bind Yields.report fun _ _ => hrest s hs rfl
      · rename_i hc
        split
        · rename_i script pos _ _
          have hs' := hs.insertHandler (k := n.name)
            (h := { binding := n.binding, script, attPos := c.span.start, valuePos := pos })
            (by simpa using hc) hn.name hn.binding rfl
          dsimp only
          split
          · exact Yields.bind Yields.report fun _ _ => hrest _ hs' rfl
          · exact hrest _ hs' rfl
        · exact Yields.bind Yields.report fun _ _ => hrest s hs rfl
  | s, .element _ :: rest, none :: classes, hs, hcl => by
    rw [readEvents]
    exact readEvents_loaded s rest classes hs hcl.tail
  | s, .element _ :: _, [], hs, _ => by
    rw [readEvents]
    exact Yields.pure ⟨hs, rfl⟩
  | s, .text .. :: rest, classes, hs, hcl => by
    simp only [readEvents]
    exact readEvents_loaded s rest classes hs hcl
  | s, .cdata .. :: rest, classes, hs, hcl => by
    simp only [readEvents]
    exact readEvents_loaded s rest classes hs hcl
  | s, [], _, hs, _ => by
    rw [readEvents]
    exact Yields.pure ⟨hs, rfl⟩
theorem readEnvironment_loaded : ∀ (s : Setter) (children : List Node)
    (classes : List (Option QualifiedName)), s.Loaded → ClassesRead classes →
    Yields (fun s' => s'.Loaded ∧ s'.properties = s.properties) (readEnvironment s children classes)
  | s, .element c :: rest, some n :: classes, hs, hcl => by
    have hn : n.WellFormed := hcl.head n rfl
    have hrest : ∀ s' : Setter, s'.Loaded → s'.properties = s.properties →
        Yields (fun s'' => s''.Loaded ∧ s''.properties = s.properties)
          (readEnvironment s' rest classes) :=
      fun s' hs' hp => (readEnvironment_loaded s' rest classes hs'
        hcl.tail).mono fun _ h => ⟨h.1, h.2.trans hp⟩
    rw [readEnvironment]
    split
    · exact hrest s hs rfl
    · split
      · exact Yields.bind Yields.report fun _ _ => hrest s hs rfl
      · rename_i hc
        dsimp only
        split
        · rename_i value pos _
          exact hrest _ (hs.insertEnvironment (k := n.name)
            (v := { value, attPos := c.span.start, valuePos := pos }) (by simpa using hc)
            hn.name rfl) rfl
        · exact Yields.bind Yields.report fun _ _ => hrest s hs rfl
  | s, .element _ :: rest, none :: classes, hs, hcl => by
    rw [readEnvironment]
    exact readEnvironment_loaded s rest classes hs hcl.tail
  | s, .element _ :: _, [], hs, _ => by
    rw [readEnvironment]
    exact Yields.pure ⟨hs, rfl⟩
  | s, .text .. :: rest, classes, hs, hcl => by
    simp only [readEnvironment]
    exact readEnvironment_loaded s rest classes hs hcl
  | s, .cdata .. :: rest, classes, hs, hcl => by
    simp only [readEnvironment]
    exact readEnvironment_loaded s rest classes hs hcl
  | s, [], _, hs, _ => by
    rw [readEnvironment]
    exact Yields.pure ⟨hs, rfl⟩

/-! ## Constructors, setters and default content -/

/-- Only a sole text or CDATA child is a text of default content, and then with no constructor. -/
theorem soleText_cases (children : List Node) : soleText children = [] ∨
    ∃ t pos, soleText children = [.text t false pos] ∧
      ∀ classes, ctorChildren children classes = pure [] := by
  unfold soleText
  split
  · exact .inr ⟨_, _, rfl, fun classes => by simp [ctorChildren]⟩
  · exact .inr ⟨_, _, rfl, fun classes => by simp [ctorChildren]⟩
  · exact .inl rfl

theorem appendCtors {more : Reporting (List Value)}
    (hmore : Yields (fun vs => ∀ v ∈ vs, v.asCtor?.isSome ∧ v.Loaded) more) (here : List Value)
    (hhere : ∀ v ∈ here, v.asCtor?.isSome ∧ v.Loaded) :
    Yields (fun vs => ∀ v ∈ vs, v.asCtor?.isSome ∧ v.Loaded)
      (do let more ← more; pure (here ++ more)) :=
  Yields.bind hmore fun _ hm => Yields.pure fun v hv =>
    (List.mem_append.1 hv).elim (hhere v) (hm v)

/-- What loading keeps, stated per function of the loader for the mutual induction. -/
def CtorInv (x : Element) : Prop :=
  Yields (fun o => ∀ c ∈ o, CtorOf.Loaded c) (ctor x)

def FillInv (span : Span) (attrs : List Attribute) (children : List Node) : Prop :=
  Yields SetterOf.Loaded (fill span attrs children)

def PropertiesInv (s : Setter) (children : List Node) (classes : List (Option QualifiedName)) :
    Prop :=
  s.Loaded → ClassesRead classes → Yields (fun s' => s'.Loaded ∧
    ("" ∈ s'.properties.entries.map Prod.fst → "" ∈ s.properties.entries.map Prod.fst))
    (readProperties s children classes)

def DefaultInv (children : List Node) (classes : List (Option QualifiedName)) : Prop :=
  ClassesRead classes → Yields (fun vs => vs = [] ∨ Value.Shaped true vs ∧ ∀ v ∈ vs, v.Loaded)
    (defaultContent children classes)

def CtorsInv (children : List Node) (classes : List (Option QualifiedName)) : Prop :=
  ClassesRead classes → Yields (fun vs => ∀ v ∈ vs, v.asCtor?.isSome ∧ v.Loaded)
    (ctorChildren children classes)

theorem loaded_all :
    (∀ x, CtorInv x) ∧ (∀ span attrs children, FillInv span attrs children) ∧
      (∀ s children classes, PropertiesInv s children classes) ∧
      (∀ children classes, DefaultInv children classes) ∧
      (∀ children classes, CtorsInv children classes) := by
  apply Loader.ctor.mutual_induct CtorInv FillInv PropertiesInv DefaultInv CtorsInv
  · intro name nameSpan span attrs children hfill
    unfold CtorInv
    rw [ctor]
    refine Yields.bind (classify_wellFormed _ _) fun o ho => ?_
    cases o with
    | none => exact Yields.pure (by simp)
    | some n =>
      have hn : n.WellFormed := ho n rfl
      dsimp only
      split
      · exact Yields.bind Yields.report fun _ _ => Yields.pure (by simp)
      · refine Yields.bind hfill fun s hs => Yields.pure ?_
        rintro c ⟨⟩
        exact CtorOf.loaded_iff.2 ⟨⟨hn.qualifier, by simp, hn.name, by simp⟩, hs⟩
  · intro span attrs children hdefault hprops
    unfold FillInv
    rw [fill]
    refine Yields.bind (fold_loaded attrs span.start) fun s hs => ?_
    refine Yields.bind (classifyChildren_named children) fun classes hcl => ?_
    have hread : ClassesRead classes := fun o ho n hn =>
      (classify_eq_ok (hcl o ho n hn).choose_spec.2).1
    refine Yields.bind (hdefault classes hread) fun defaults hdef => ?_
    have hprops := hprops s classes defaults
    simp only [dite_eq_ite] at hprops
    dsimp only
    refine Yields.bind (hprops ?_ hread) fun s₂ hs₂ => ?_
    · split
      · exact hs.1
      · rename_i hne
        rcases hdef with rfl | ⟨hshape, hvals⟩
        · simp at hne
        · refine hs.1.insertProperty ?_ (.inl rfl) hshape hvals
          exact Bool.eq_false_iff.2 fun h => hs.2 (KeyMap.contains_iff.1 h)
    refine Yields.bind (readEvents_loaded s₂ children classes hs₂.1 hread) fun s₃ hs₃ => ?_
    exact (readEnvironment_loaded s₃ children classes hs₃.1 hread).mono fun _ h => h.1
  · intro s name cnameSpan cspan cattrs cchildren rest n classes hnot ih hs hcl
    rw [readProperties, if_pos hnot]
    exact ih s hs hcl.tail
  · intro s name cnameSpan cspan cattrs cchildren rest n classes hnot hc ih hs hcl
    rw [readProperties, if_neg hnot, if_pos hc]
    exact Yields.bind Yields.report fun _ _ => ih s hs hcl.tail
  · intro s name cnameSpan cspan cattrs cchildren rest n classes hnot hc hset ih hfill hs hcl
    have hn : n.WellFormed := hcl.head n rfl
    rw [readProperties, if_neg hnot, if_neg hc]
    dsimp only
    rw [if_pos hset]
    refine Yields.bind hfill fun nested hnested => ?_
    obtain ⟨hs', hkeys⟩ := insertNamed_loaded hs hn (by simpa using hc) cspan.start
      (.inr (.inl ⟨rfl, _, rfl⟩)) (by simpa [Value.Loaded] using hnested)
    exact (ih _ hs' hcl.tail).mono fun _ h => ⟨h.1, fun hk => hkeys (h.2 hk)⟩
  · intro s name cnameSpan cspan cattrs cchildren rest n classes hnot hc hset ih hdefault hs hcl
    have hn : n.WellFormed := hcl.head n rfl
    rw [readProperties, if_neg hnot, if_neg hc]
    dsimp only
    rw [if_neg hset]
    refine Yields.bind (classifyChildren_named cchildren) fun grand hgrand => ?_
    refine Yields.bind (hdefault grand fun o ho m hm =>
      (classify_eq_ok (hgrand o ho m hm).choose_spec.2).1) fun values hvalues => ?_
    split
    · exact ih s hs hcl.tail
    · rename_i hne
      rcases hvalues with rfl | ⟨hshape, hvals⟩
      · simp at hne
      obtain ⟨hs', hkeys⟩ := insertNamed_loaded hs hn (by simpa using hc) cspan.start
        (hshape.of_default false) hvals
      exact (ih _ hs' hcl.tail).mono fun _ h => ⟨h.1, fun hk => hkeys (h.2 hk)⟩
  · intro s tag rest classes ih hs hcl
    rw [readProperties]
    exact ih hs hcl.tail
  · intro s tag tail hs _
    rw [readProperties]
    exact Yields.pure ⟨hs, id⟩
  · intro s content span rest classes ih hs hcl
    rw [readProperties]
    exact ih hs hcl
  · intro s content span rest classes ih hs hcl
    rw [readProperties]
    exact ih hs hcl
  · intro s classes hs _
    rw [readProperties]
    exact Yields.pure ⟨hs, id⟩
  · intro children classes hctors hcl
    rw [defaultContent]
    rcases soleText_cases children with h | ⟨t, pos, h, hnil⟩
    · refine Yields.bind (hctors hcl) fun more hmore => Yields.pure ?_
      rw [h, List.nil_append]
      by_cases hm : more = []
      · exact .inl hm
      · exact .inr ⟨.inr (.inr ⟨hm, fun v hv => (hmore v hv).1⟩), fun v hv => (hmore v hv).2⟩
    · rw [hnil classes]
      refine Yields.bind (P := fun more => more = []) (Yields.pure rfl) fun more hm => ?_
      subst hm
      exact Yields.pure (.inr ⟨.inl ⟨t, pos, by simp [h]⟩, by simp [h, Value.Loaded]⟩)
  · intro c rest n classes hctor ihrest ihc hcl
    rw [ctorChildren, if_pos hctor]
    refine Yields.bind ihc fun o ho => ?_
    cases o with
    | some v =>
      exact appendCtors (ihrest hcl.tail) [.ctor v] (by simpa [Value.asCtor?, Value.Loaded] using ho v rfl)
    | none => exact appendCtors (ihrest hcl.tail) [] (by simp)
  · intro c rest n classes hctor hunknown ihrest hcl
    rw [ctorChildren, if_neg hctor, if_pos hunknown]
    exact Yields.bind Yields.report fun _ _ => appendCtors (ihrest hcl.tail) [] (by simp)
  · intro c rest n classes hctor hknown ihrest hcl
    rw [ctorChildren, if_neg hctor, if_neg hknown]
    exact appendCtors (ihrest hcl.tail) [] (by simp)
  · intro tag rest classes ihrest hcl
    rw [ctorChildren]
    exact ihrest hcl.tail
  · intro tag tail _
    rw [ctorChildren]
    exact Yields.pure (by simp)
  · intro content span rest classes ihrest hcl
    rw [ctorChildren]
    exact ihrest hcl
  · intro content span rest classes ihrest hcl
    rw [ctorChildren]
    exact ihrest hcl
  · intro classes _
    rw [ctorChildren]
    exact Yields.pure (by simp)

/-- Every constructor that loading gives is loaded. -/
theorem ctor_loaded (x : Element) (log : Array (Pos × Issue)) {c : Ctor}
    (h : ((ctor x).run log).1 = some c) : c.Loaded :=
  loaded_all.1 x log c h

/-! ## Elements without default content -/

/-- Children whose classes are no constructor names give no constructor values. -/
theorem ctorChildren_none : ∀ (children : List Node) (classes : List (Option QualifiedName)),
    (∀ o ∈ classes, ∀ n ∈ o, n.isCtorName = false) →
    Yields (· = []) (ctorChildren children classes)
  | .element c :: rest, some n :: classes, h => by
    have hrest : Yields (· = []) (do let more ← ctorChildren rest classes; pure ([] ++ more)) :=
      Yields.bind (ctorChildren_none rest classes fun o ho => h o (List.mem_cons_of_mem _ ho))
        fun _ hm => Yields.pure (by simp [hm])
    rw [ctorChildren, if_neg (by simp [h _ List.mem_cons_self n rfl])]
    split
    · exact Yields.bind Yields.report fun _ _ => hrest
    · exact hrest
  | .element _ :: rest, none :: classes, h => by
    rw [ctorChildren]
    exact ctorChildren_none rest classes fun o ho => h o (List.mem_cons_of_mem _ ho)
  | .element _ :: _, [], _ => by
    rw [ctorChildren]
    exact Yields.pure rfl
  | .text .. :: rest, classes, h => by
    rw [ctorChildren]
    exact ctorChildren_none rest classes h
  | .cdata .. :: rest, classes, h => by
    rw [ctorChildren]
    exact ctorChildren_none rest classes h
  | [], _, _ => by
    rw [ctorChildren]
    exact Yields.pure rfl

/-- Children of no sole text and no constructor names fill a setter without default content. -/
theorem fill_no_default {span : Span} {attrs : List Attribute} {children : List Node}
    (hsole : soleText children = [])
    (hnames : ∀ c n, Node.element c ∈ children → QualifiedName.classify c.name = .ok n →
      n.isCtorName = false) :
    Yields (fun s => s.properties.find? "" = none) (fill span attrs children) := by
  rw [fill]
  refine Yields.bind (fold_loaded attrs span.start) fun s hs => ?_
  refine Yields.bind (classifyChildren_named children) fun classes hcl => ?_
  have hread : ClassesRead classes := fun o ho n hn =>
    (classify_eq_ok (hcl o ho n hn).choose_spec.2).1
  have hnone : Yields (· = []) (defaultContent children classes) := by
    rw [defaultContent]
    refine Yields.bind (ctorChildren_none children classes fun o ho n hn => ?_)
      fun more hm => Yields.pure (by simp [hsole, hm])
    obtain ⟨c, hc, hcn⟩ := hcl o ho n hn
    exact hnames c n hc hcn
  refine Yields.bind hnone fun defaults hd => ?_
  subst hd
  simp only [List.isEmpty_nil, if_true]
  refine Yields.bind (loaded_all.2.2.1 s children classes hs.1 hread) fun s₂ hs₂ => ?_
  refine Yields.bind (readEvents_loaded s₂ children classes hs₂.1 hread) fun s₃ hs₃ => ?_
  refine (readEnvironment_loaded s₃ children classes hs₃.1 hread).mono fun s₄ hs₄ => ?_
  rw [KeyMap.find?_eq_none_iff, hs₄.2, hs₃.2]
  exact fun h => hs.2 (hs₂.2 h)

end Loader

end GuiMarkup
