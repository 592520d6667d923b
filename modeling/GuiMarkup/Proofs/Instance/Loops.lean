import GuiMarkup.Proofs.Instance.Quiet
import GuiMarkup.Proofs.Instance.Header

/-! The loops of `fill` as folds of one step per child, and loading only appends to the
reports it started from (`appends_all`). -/

namespace GuiMarkup

open QualifiedName Markup

/-! ## Runs that append -/

/-- Every run of `m` gives its value from the empty log and adds its reports after the log. -/
def Appends {α : Type} (m : Reporting α) : Prop :=
  ∀ log, m.run log = ((m.run #[]).1, log ++ (m.run #[]).2)

namespace Appends

variable {α β : Type}

theorem pure (a : α) : Appends (Pure.pure a : Reporting α) := fun log => by
  show (a, log) = (a, log ++ #[])
  simp

theorem report (pos : Pos) (issue : Issue) : Appends (GuiMarkup.report pos issue) := fun log => by
  show ((), log.push (pos, issue)) = ((), log ++ (#[] : Array (Pos × Issue)).push (pos, issue))
  simp

theorem bind {m : Reporting α} {f : α → Reporting β} (hm : Appends m)
    (hf : ∀ a, Appends (f a)) :
    Appends (m >>= f) := fun log => by
  show (f (m.run log).1).run (m.run log).2 =
    (((f (m.run #[]).1).run (m.run #[]).2).1, log ++ ((f (m.run #[]).1).run (m.run #[]).2).2)
  rw [hm log, hf _ (log ++ _), hf _ (m.run #[]).2]
  simp [Array.append_assoc]

/-- A report followed by a value. -/
theorem reportThen (pos : Pos) (issue : Issue) (a : α) :
    Appends (do GuiMarkup.report pos issue; Pure.pure a : Reporting α) :=
  bind (report pos issue) fun _ => pure a

theorem foldlM {f : β → α → Reporting β} (hf : ∀ b a, Appends (f b a)) :
    ∀ (l : List α) (b : β), Appends (l.foldlM f b)
  | [], b => pure b
  | a :: l, b => bind (hf b a) fun b' => foldlM hf l b'

/-- The value of a run does not depend on the log it starts from. -/
theorem run_fst {m : Reporting α} (hm : Appends m) (log : Array (Pos × Issue)) :
    (m.run log).1 = (m.run #[]).1 := by
  rw [hm log]

end Appends

/-- A property of the value of a run from the empty log holds of every run. -/
theorem Yields.of_appends {α : Type} {P : α → Prop} {m : Reporting α} (hm : Appends m)
    (h : P (m.run #[]).1) : Yields P m := fun log => by
  rw [hm.run_fst log]
  exact h

theorem Yields.true {α : Type} (m : Reporting α) : Yields (fun _ => True) m := fun _ => trivial

/-- Two computations that agree on every value `m` can give are the same after `m`. -/
theorem Yields.bind_congr {α β : Type} {P : α → Prop} {m : Reporting α}
    {f g : α → Reporting β}
    (hm : Yields P m) (h : ∀ a, P a → f a = g a) : m >>= f = m >>= g :=
  StateT.ext fun log => by
    show (f (m.run log).1).run (m.run log).2 = (g (m.run log).1).run (m.run log).2
    rw [h _ (hm log)]

/-! ## Runs with one report more -/

/-- `m` reports what `m'` does and `d` besides, with values related by `R`. -/
def OneMore {α β : Type} (d : Pos × Issue) (R : α → β → Prop) (m : Reporting α)
    (m' : Reporting β) : Prop :=
  ∀ log, ∃ l₁ l₂, (m.run log).2.toList = l₁ ++ d :: l₂ ∧ (m'.run log).2.toList = l₁ ++ l₂ ∧
    R (m.run log).1 (m'.run log).1

namespace OneMore

variable {α β γ δ : Type} {d : Pos × Issue} {R : α → β → Prop}

/-- Two runs that start alike. -/
theorem bind_left {ε : Type} {m : Reporting ε} {P : ε → Prop} (hm : Yields P m)
    {k : ε → Reporting α} {k' : ε → Reporting β}
    (h : ∀ e, P e → OneMore d R (k e) (k' e)) :
    OneMore d R (m >>= k) (m >>= k') :=
  fun log => h _ (hm log) (m.run log).2

/-- A report, then the same run. -/
theorem report_bind {m : Reporting α} (hm : Appends m) :
    OneMore d Eq (do report d.1 d.2; m) m := fun log => by
  refine ⟨log.toList, (m.run #[]).2.toList, ?_, ?_, ?_⟩
  · show (m.run (log.push d)).2.toList = _
    rw [hm]
    simp
  · rw [hm]
    simp
  · show (m.run (log.push d)).1 = (m.run log).1
    rw [hm.run_fst (log.push d), hm.run_fst log]

theorem mono {m : Reporting α} {m' : Reporting β} (h : OneMore d R m m') {R' : α → β → Prop}
    (hR : ∀ a b, R a b → R' a b) : OneMore d R' m m' := fun log => by
  obtain ⟨l₁, l₂, h₁, h₂, hv⟩ := h log
  exact ⟨l₁, l₂, h₁, h₂, hR _ _ hv⟩

theorem map {m : Reporting α} {m' : Reporting β} (h : OneMore d R m m') {S : γ → δ → Prop}
    {f : α → γ} {g : β → δ} (hfg : ∀ a b, R a b → S (f a) (g b)) :
    OneMore d S (f <$> m) (g <$> m') := fun log => by
  obtain ⟨l₁, l₂, h₁, h₂, hv⟩ := h log
  exact ⟨l₁, l₂, h₁, h₂, hfg _ _ hv⟩

end OneMore

/-! ## The empty name -/

namespace KeyMap

variable {α : Type}

theorem empty_lt_of_ne {k : String} (h : k ≠ "") : "" < k := by
  rw [String.lt_iff_toList_lt]
  cases hk : k.toList with
  | nil => exact absurd (String.toList_eq_nil_iff.1 hk) h
  | cons c cs => exact List.nil_lt_cons c cs

theorem contains_eq_isSome_find? (m : KeyMap α) (k : String) :
    m.contains k = (m.find? k).isSome := by
  simp only [contains, find?, Option.isSome_map]
  exact List.isSome_find?.symm

theorem not_lt_empty (k : String) : ¬k < "" := by
  rw [String.lt_iff_toList_lt]
  simp

theorem insertSorted_past_empty {k : String} (hk : k ≠ "") (w v : α)
    (rest : List (String × α)) :
    insertSorted k w (("", v) :: rest) = ("", v) :: insertSorted k w rest := by
  rw [insertSorted, if_neg (not_lt_empty k), if_neg hk]

/-- The empty name is the least: it replaces its own entry at the head, or goes in front. -/
theorem insertSorted_empty (v : α) (k : String) (w : α) (rest : List (String × α)) :
    insertSorted "" v ((k, w) :: rest) =
      if k = "" then ("", v) :: rest else ("", v) :: (k, w) :: rest := by
  rw [insertSorted]
  by_cases hk : k = ""
  · subst hk
    rw [if_neg (lt_irrefl _), if_pos rfl, if_pos rfl]
  · rw [if_pos (empty_lt_of_ne hk), if_neg hk]

theorem insertSorted_empty_front (v : α) :
    ∀ l : List (String × α), (∀ e ∈ l.head?, e.1 ≠ "") →
      insertSorted "" v l = ("", v) :: l
  | [], _ => rfl
  | (k, w) :: rest, h => by
    rw [insertSorted_empty, if_neg (h (k, w) rfl)]

theorem insertSorted_comm_empty {k : String} (hk : k ≠ "") (v w : α) :
    ∀ l : List (String × α),
      insertSorted k w (insertSorted "" v l) = insertSorted "" v (insertSorted k w l)
  | [] => by
    show insertSorted k w [("", v)] = insertSorted "" v [(k, w)]
    rw [insertSorted_past_empty hk, insertSorted_empty, if_neg hk]
    rfl
  | (k', w') :: rest => by
    rw [insertSorted_empty]
    by_cases hk' : k' = ""
    · subst hk'
      rw [if_pos rfl, insertSorted_past_empty hk, insertSorted_past_empty hk, insertSorted_empty,
        if_pos rfl]
    · rw [if_neg hk', insertSorted_past_empty hk]
      have hhead : ∀ e ∈ (insertSorted k w ((k', w') :: rest)).head?, e.1 ≠ "" := by
        rw [insertSorted]
        split_ifs <;> simp [hk, hk']
      rw [insertSorted_empty_front v _ hhead]

/-- Putting default content in before or after another name gives the same map. -/
theorem insert_comm_empty (m : KeyMap α) {k : String} (hk : k ≠ "") (v w : α) :
    (m.insert "" v).insert k w = (m.insert k w).insert "" v := by
  simp only [insert, insertSorted_comm_empty hk]

theorem filter_insertSorted_empty (v : α) (l : List (String × α)) :
    (insertSorted "" v l).filter (·.1 != "") = l.filter (·.1 != "") := by
  cases l with
  | nil => simp [insertSorted]
  | cons e rest =>
    obtain ⟨k, w⟩ := e
    rw [insertSorted_empty]
    by_cases hk : k = "" <;> simp [hk]

end KeyMap

/-! ## The steps of the loops -/

namespace Loader

/-- What an `att.X` element holds: one nested setter for `att.X-set`, else its default content. -/
def propertyValues (c : Element) (n : QualifiedName) : Reporting (List Value) :=
  if n.binding == some setBinding then do
    let nested ← fill c.span c.attributes c.children
    pure [Value.setter nested]
  else do
    let grand ← classifyChildren c.children
    defaultContent c.children grand

/-- The step of the property loop on a child element named `n`. -/
def propertyStep (s : Setter) (c : Element) (n : QualifiedName) : Reporting Setter :=
  if !n.isPropertyElementName then pure s
  else if s.properties.contains n.name then do
    report c.nameSpan.start (.duplicatedProperty n.name); pure s
  else do
    let values ← propertyValues c n
    if values.isEmpty then pure s
    else pure { s with properties := (s.properties.insert n.name
      { binding := n.binding, values := values, attPos := c.span.start }) }

/-- The step of the event loop on a child element named `n`. -/
def eventStep (s : Setter) (c : Element) (n : QualifiedName) : Reporting Setter :=
  if !n.isEventElementName then pure s
  else if s.handlers.contains n.name then do
    report c.nameSpan.start (.duplicatedEvent n.name); pure s
  else match soleScript c.children with
    | some (script, pos, multiline) => do
      if multiline then report c.span.start .multilineScript
      pure { s with handlers := (s.handlers.insert n.name
        { binding := n.binding, script := script, attPos := c.span.start, valuePos := pos }) }
    | none => do report c.span.start .eventNotText; pure s

/-- The value of an `env.X` element and where it starts: its sole text, or the empty text. -/
def environmentEntry (c : Element) : Option (String × Pos) :=
  match soleScript c.children, c.children with
  | some (v, pos, _), _ => some (v, pos)
  | none, [] => some ("", c.span.stop)
  | none, _ => none

/-- The step of the environment loop on a child element named `n`. -/
def environmentStep (s : Setter) (c : Element) (n : QualifiedName) : Reporting Setter :=
  if !n.isEnvironmentElementName then pure s
  else if s.environment.contains n.name then do
    report c.nameSpan.start (.duplicatedEnvironment n.name); pure s
  else match environmentEntry c with
    | some (value, pos) =>
      pure { s with environment := (s.environment.insert n.name
        { value := value, attPos := c.span.start, valuePos := pos }) }
    | none => do report c.span.start .environmentNotText; pure s

/-- A loop of `fill` over the children: one step per child element whose name reads. -/
structure ChildLoop (loop : Setter → List Node → List (Option QualifiedName) → Reporting Setter)
    (step : Setter → Element → QualifiedName → Reporting Setter) : Prop where
  named : ∀ s c rest n classes,
    loop s (.element c :: rest) (some n :: classes) = step s c n >>= fun s => loop s rest classes
  unnamed : ∀ s c rest classes, loop s (.element c :: rest) (none :: classes) = loop s rest classes
  exhausted : ∀ s c rest, loop s (.element c :: rest) [] = pure s
  text : ∀ s t sp rest classes, loop s (.text t sp :: rest) classes = loop s rest classes
  cdata : ∀ s t sp rest classes, loop s (.cdata t sp :: rest) classes = loop s rest classes
  nil : ∀ s classes, loop s [] classes = pure s

theorem readProperties_loop : ChildLoop readProperties propertyStep where
  named s c rest n classes := by
    obtain ⟨name, nameSpan, span, attrs, children⟩ := c
    rw [readProperties]
    unfold propertyStep propertyValues
    split
    · simp
    · split
      · simp
      · split
        · simp
        · simp only [bind_assoc]
          refine bind_congr fun grand => bind_congr fun values => ?_
          split <;> simp
  unnamed s c rest classes := by rw [readProperties]
  exhausted s c rest := by rw [readProperties]
  text s t sp rest classes := by rw [readProperties]
  cdata s t sp rest classes := by rw [readProperties]
  nil s classes := by rw [readProperties]

theorem readEvents_loop : ChildLoop readEvents eventStep where
  named s c rest n classes := by
    rw [readEvents]
    unfold eventStep
    split
    · simp
    · split
      · simp
      · rcases soleScript c.children with _ | ⟨script, pos, _ | _⟩ <;> simp
  unnamed s c rest classes := by rw [readEvents]
  exhausted s c rest := by rw [readEvents]
  text s t sp rest classes := by simp only [readEvents]
  cdata s t sp rest classes := by simp only [readEvents]
  nil s classes := by rw [readEvents]

theorem readEnvironment_loop : ChildLoop readEnvironment environmentStep where
  named s c rest n classes := by
    rw [readEnvironment]
    unfold environmentStep environmentEntry
    split
    · simp
    · split
      · simp
      · rcases soleScript c.children with _ | ⟨v, pos, _⟩ <;> cases c.children <;> simp
  unnamed s c rest classes := by rw [readEnvironment]
  exhausted s c rest := by rw [readEnvironment]
  text s t sp rest classes := by simp only [readEnvironment]
  cdata s t sp rest classes := by simp only [readEnvironment]
  nil s classes := by rw [readEnvironment]

/-! ## Loading only appends -/

theorem classify_appends (raw : String) (pos : Pos) : Appends (classify raw pos) := by
  unfold classify
  split
  · exact Appends.pure _
  · exact Appends.reportThen _ _ _

theorem classifyChildren_appends : ∀ children : List Node, Appends (classifyChildren children)
  | [] => Appends.pure _
  | .element c :: rest => by
    rw [classifyChildren]
    exact Appends.bind (classify_appends _ _) fun _ =>
      Appends.bind (classifyChildren_appends rest) fun _ => Appends.pure _
  | .text .. :: rest => by
    simp only [classifyChildren]
    exact classifyChildren_appends rest
  | .cdata .. :: rest => by
    simp only [classifyChildren]
    exact classifyChildren_appends rest

theorem readAttribute_appends (s : Setter) (a : Attribute) : Appends (readAttribute s a) := by
  unfold readAttribute
  refine Appends.bind (classify_appends _ _) fun o => ?_
  cases o with
  | none => exact Appends.pure s
  | some n =>
    dsimp only
    split
    · exact Appends.pure _
    iterate 3
      split
      · exact Appends.reportThen _ _ _
      · exact Appends.pure _
    · exact Appends.reportThen _ _ _

theorem eventStep_appends (s : Setter) (c : Element) (n : QualifiedName) :
    Appends (eventStep s c n) := by
  unfold eventStep
  split
  · exact Appends.pure s
  · split
    · exact Appends.reportThen _ _ s
    · split
      · dsimp only
        split
        · exact Appends.bind (Appends.report _ _) fun _ => Appends.pure _
        · exact Appends.pure _
      · exact Appends.reportThen _ _ s

theorem environmentStep_appends (s : Setter) (c : Element) (n : QualifiedName) :
    Appends (environmentStep s c n) := by
  unfold environmentStep
  split
  · exact Appends.pure s
  · split
    · exact Appends.reportThen _ _ s
    · split
      · exact Appends.pure _
      · exact Appends.reportThen _ _ s

/-- A loop whose every step appends appends. -/
theorem ChildLoop.appends
    {loop : Setter → List Node → List (Option QualifiedName) → Reporting Setter}
    {step : Setter → Element → QualifiedName → Reporting Setter} (h : ChildLoop loop step)
    (hstep : ∀ s c n, Appends (step s c n)) :
    ∀ s children classes, Appends (loop s children classes)
  | s, .element c :: rest, some n :: classes => by
    rw [h.named]
    exact Appends.bind (hstep s c n) fun s' => ChildLoop.appends h hstep s' rest classes
  | s, .element c :: rest, none :: classes => by
    rw [h.unnamed]
    exact ChildLoop.appends h hstep s rest classes
  | s, .element c :: rest, [] => by
    rw [h.exhausted]
    exact Appends.pure s
  | s, .text .. :: rest, classes => by
    rw [h.text]
    exact ChildLoop.appends h hstep s rest classes
  | s, .cdata .. :: rest, classes => by
    rw [h.cdata]
    exact ChildLoop.appends h hstep s rest classes
  | s, [], classes => by
    rw [h.nil]
    exact Appends.pure s

theorem readEvents_appends (s : Setter) (children : List Node)
    (classes : List (Option QualifiedName)) : Appends (readEvents s children classes) :=
  readEvents_loop.appends eventStep_appends s children classes

theorem readEnvironment_appends (s : Setter) (children : List Node)
    (classes : List (Option QualifiedName)) : Appends (readEnvironment s children classes) :=
  readEnvironment_loop.appends environmentStep_appends s children classes

/-- Loading never reads the log: each part of the loader gives one value and reports after any. -/
theorem appends_all :
    (∀ x, Appends (ctor x)) ∧ (∀ span attrs children, Appends (fill span attrs children)) ∧
      (∀ s children classes, Appends (readProperties s children classes)) ∧
      (∀ children classes, Appends (defaultContent children classes)) ∧
      (∀ children classes, Appends (ctorChildren children classes)) := by
  apply Loader.ctor.mutual_induct (fun x => Appends (ctor x))
    (fun span attrs children => Appends (fill span attrs children))
    (fun s children classes => Appends (readProperties s children classes))
    (fun children classes => Appends (defaultContent children classes))
    (fun children classes => Appends (ctorChildren children classes))
  · intro name nameSpan span attrs children hfill
    rw [ctor]
    refine Appends.bind (classify_appends _ _) fun o => ?_
    cases o with
    | none => exact Appends.pure _
    | some n =>
      dsimp only
      split
      · exact Appends.reportThen _ _ _
      · exact Appends.bind hfill fun _ => Appends.pure _
  · intro span attrs children hdefault hprops
    rw [fill]
    refine Appends.bind (Appends.foldlM readAttribute_appends attrs _) fun s => ?_
    refine Appends.bind (classifyChildren_appends children) fun classes => ?_
    refine Appends.bind (hdefault classes) fun defaults => ?_
    have hprops := hprops s classes defaults
    simp only [dite_eq_ite] at hprops
    exact Appends.bind hprops fun s₂ => Appends.bind (readEvents_appends s₂ children classes)
      fun s₃ => readEnvironment_appends s₃ children classes
  · intro s name cnameSpan cspan cattrs cchildren rest n classes hnot ih
    rw [readProperties, if_pos hnot]
    exact ih s
  · intro s name cnameSpan cspan cattrs cchildren rest n classes hnot hc ih
    rw [readProperties, if_neg hnot, if_pos hc]
    exact Appends.bind (Appends.report _ _) fun _ => ih s
  · intro s name cnameSpan cspan cattrs cchildren rest n classes hnot hc hset ih hfill
    rw [readProperties, if_neg hnot, if_neg hc]
    dsimp only
    rw [if_pos hset]
    refine Appends.bind hfill fun _ => Appends.bind (Appends.pure _) fun values => ?_
    split
    · exact ih s
    · exact ih _
  · intro s name cnameSpan cspan cattrs cchildren rest n classes hnot hc hset ih hdefault
    rw [readProperties, if_neg hnot, if_neg hc]
    dsimp only
    rw [if_neg hset]
    refine Appends.bind (classifyChildren_appends cchildren) fun grand =>
      Appends.bind (hdefault grand) fun values => ?_
    split
    · exact ih s
    · exact ih _
  · intro s tag rest classes ih
    rw [readProperties]
    exact ih
  · intro s tag tail
    rw [readProperties]
    exact Appends.pure s
  · intro s content span rest classes ih
    rw [readProperties]
    exact ih
  · intro s content span rest classes ih
    rw [readProperties]
    exact ih
  · intro s classes
    rw [readProperties]
    exact Appends.pure s
  · intro children classes hctors
    rw [defaultContent]
    exact Appends.bind hctors fun _ => Appends.pure _
  · intro c rest n classes hctor ihrest ihc
    rw [ctorChildren, if_pos hctor]
    refine Appends.bind ihc fun o => ?_
    cases o <;>
      exact Appends.bind (Appends.pure _) fun _ => Appends.bind ihrest fun _ => Appends.pure _
  · intro c rest n classes hctor hunknown ihrest
    rw [ctorChildren, if_neg hctor, if_pos hunknown]
    exact Appends.bind (Appends.reportThen _ _ _) fun _ =>
      Appends.bind (Appends.pure _) fun _ => Appends.bind ihrest fun _ => Appends.pure _
  · intro c rest n classes hctor hknown ihrest
    rw [ctorChildren, if_neg hctor, if_neg hknown]
    exact Appends.bind (Appends.pure _) fun _ => Appends.bind ihrest fun _ => Appends.pure _
  · intro tag rest classes ihrest
    rw [ctorChildren]
    exact ihrest
  · intro tag tail
    rw [ctorChildren]
    exact Appends.pure _
  · intro content span rest classes ihrest
    rw [ctorChildren]
    exact ihrest
  · intro content span rest classes ihrest
    rw [ctorChildren]
    exact ihrest
  · intro classes
    rw [ctorChildren]
    exact Appends.pure _

theorem fill_appends (span : Span) (attrs : List Attribute) (children : List Node) :
    Appends (fill span attrs children) :=
  appends_all.2.1 span attrs children

theorem defaultContent_appends (children : List Node) (classes : List (Option QualifiedName)) :
    Appends (defaultContent children classes) :=
  appends_all.2.2.2.1 children classes

theorem propertyValues_appends (c : Element) (n : QualifiedName) :
    Appends (propertyValues c n) := by
  unfold propertyValues
  split
  · exact Appends.bind (fill_appends _ _ _) fun _ => Appends.pure _
  · exact Appends.bind (classifyChildren_appends _) fun grand => defaultContent_appends _ grand

theorem propertyStep_appends (s : Setter) (c : Element) (n : QualifiedName) :
    Appends (propertyStep s c n) := by
  unfold propertyStep
  split
  · exact Appends.pure s
  · split
    · exact Appends.reportThen _ _ s
    · refine Appends.bind (propertyValues_appends c n) fun values => ?_
      split
      · exact Appends.pure s
      · exact Appends.pure _

/-! ## The loops as folds -/

/-- The child elements whose names read, with their names, in the order the loops visit them. -/
def classified (children : List Node) : List (Element × QualifiedName) :=
  children.filterMap fun
    | .element c => (QualifiedName.classify c.name).toOption.map (c, ·)
    | _ => none

theorem classified_named {c : Element} {rest : List Node} {n : QualifiedName}
    (hc : QualifiedName.classify c.name = .ok n) :
    classified (.element c :: rest) = (c, n) :: classified rest ∧
      classesOf (.element c :: rest) = some n :: classesOf rest := by
  simp [classified, classesOf, hc, Except.toOption]

theorem classified_unnamed {c : Element} {rest : List Node} {e : NameError}
    (hc : QualifiedName.classify c.name = .error e) :
    classified (.element c :: rest) = classified rest ∧
      classesOf (.element c :: rest) = none :: classesOf rest := by
  simp [classified, classesOf, hc, Except.toOption]

/-- Every name a loop visits reads, so it is no empty name. -/
theorem name_ne_empty_of_mem_classified {children : List Node} {p : Element × QualifiedName}
    (hp : p ∈ classified children) : p.2.name ≠ "" := by
  simp only [classified, List.mem_filterMap] at hp
  obtain ⟨node, -, hnode⟩ := hp
  cases node with
  | element c =>
    cases hc : QualifiedName.classify c.name with
    | ok n =>
      simp only [hc, Except.toOption, Option.map_some, Option.some.injEq] at hnode
      subst hnode
      exact isIdent_ne_empty (classify_eq_ok hc).1.name
    | error e => simp [hc, Except.toOption] at hnode
  | text => cases hnode
  | cdata => cases hnode

/-- `classifyChildren` gives the classes of the children. -/
theorem classifyChildren_classesOf : ∀ children : List Node,
    Yields (· = classesOf children) (classifyChildren children)
  | [] => Yields.pure rfl
  | .element c :: rest => by
    rw [classifyChildren]
    refine Yields.bind (P := (· = (QualifiedName.classify c.name).toOption)) ?_ fun o ho =>
      Yields.bind (classifyChildren_classesOf rest) fun classes hcl => Yields.pure ?_
    · unfold classify
      split
      · rename_i n hn
        exact Yields.pure (by simp [hn, Except.toOption])
      · rename_i e he
        exact Yields.bind Yields.report fun _ _ => Yields.pure (by simp [he, Except.toOption])
    · simp [classesOf, ho, hcl]
  | .text .. :: rest => by
    simp only [classifyChildren]
    exact classifyChildren_classesOf rest
  | .cdata .. :: rest => by
    simp only [classifyChildren]
    exact classifyChildren_classesOf rest

/-- A loop is a fold of its step over the named children. -/
theorem ChildLoop.eq_foldlM
    {loop : Setter → List Node → List (Option QualifiedName) → Reporting Setter}
    {step : Setter → Element → QualifiedName → Reporting Setter} (h : ChildLoop loop step) :
    ∀ (s : Setter) (children : List Node), loop s children (classesOf children) =
      (classified children).foldlM (fun s p => step s p.1 p.2) s
  | s, [] => by
    rw [h.nil]
    rfl
  | s, .element c :: rest => by
    cases hc : QualifiedName.classify c.name with
    | ok n =>
      obtain ⟨hcd, hcl⟩ := @classified_named c rest n hc
      rw [hcl, hcd, h.named, List.foldlM_cons]
      exact bind_congr fun s' => ChildLoop.eq_foldlM h s' rest
    | error e =>
      obtain ⟨hcd, hcl⟩ := @classified_unnamed c rest e hc
      rw [hcl, hcd, h.unnamed]
      exact ChildLoop.eq_foldlM h s rest
  | s, .text .. :: rest => by
    rw [h.text]
    exact ChildLoop.eq_foldlM h s rest
  | s, .cdata .. :: rest => by
    rw [h.cdata]
    exact ChildLoop.eq_foldlM h s rest

/-- The three loops of `fill`: property, event, then environment elements. -/
def loops (l : List (Element × QualifiedName)) (s : Setter) : Reporting Setter := do
  let s ← l.foldlM (fun s p => propertyStep s p.1 p.2) s
  let s ← l.foldlM (fun s p => eventStep s p.1 p.2) s
  l.foldlM (fun s p => environmentStep s p.1 p.2) s

theorem propertyFold_appends (l : List (Element × QualifiedName)) (s : Setter) :
    Appends (l.foldlM (fun s p => propertyStep s p.1 p.2) s) :=
  Appends.foldlM (fun s p => propertyStep_appends s p.1 p.2) l s

theorem eventFold_appends (l : List (Element × QualifiedName)) (s : Setter) :
    Appends (l.foldlM (fun s p => eventStep s p.1 p.2) s) :=
  Appends.foldlM (fun s p => eventStep_appends s p.1 p.2) l s

theorem environmentFold_appends (l : List (Element × QualifiedName)) (s : Setter) :
    Appends (l.foldlM (fun s p => environmentStep s p.1 p.2) s) :=
  Appends.foldlM (fun s p => environmentStep_appends s p.1 p.2) l s

theorem loops_appends (l : List (Element × QualifiedName)) (s : Setter) : Appends (loops l s) :=
  Appends.bind (propertyFold_appends l s) fun s =>
    Appends.bind (eventFold_appends l s) fun s => environmentFold_appends l s

/-! ## Default content goes in last -/

/-- The setter with default content under the empty name, if there is any. -/
def withDefault (pos : Pos) (defaults : List Value) (s : Setter) : Setter :=
  if defaults.isEmpty then s
  else { s with properties := s.properties.insert "" { values := defaults, attPos := pos } }

theorem withDefault_eq_id {pos : Pos} {defaults : List Value} (h : defaults.isEmpty = true) :
    withDefault pos defaults = id :=
  funext fun _ => if_pos h

theorem withDefault_eq_insert {pos : Pos} {defaults : List Value} (h : ¬defaults.isEmpty = true) :
    withDefault pos defaults = fun s =>
      { s with properties := s.properties.insert "" { values := defaults, attPos := pos } } :=
  funext fun _ => if_neg h

/-- A property element reads and writes only its own name, never the empty one. -/
theorem propertyStep_withDefault (pos : Pos) (defaults : List Value) (s : Setter) (c : Element)
    {n : QualifiedName} (hn : n.name ≠ "") :
    propertyStep (withDefault pos defaults s) c n =
      withDefault pos defaults <$> propertyStep s c n := by
  by_cases hd : defaults.isEmpty = true
  · simp [withDefault_eq_id hd]
  · rw [withDefault_eq_insert hd]
    unfold propertyStep
    rw [KeyMap.contains_insert_of_ne _ hn]
    split
    · simp
    · split
      · simp
      · simp only [map_bind]
        refine bind_congr fun values => ?_
        split
        · simp
        · simp [KeyMap.insert_comm_empty _ hn]

theorem eventStep_withDefault (pos : Pos) (defaults : List Value) (s : Setter) (c : Element)
    (n : QualifiedName) :
    eventStep (withDefault pos defaults s) c n = withDefault pos defaults <$> eventStep s c n := by
  by_cases hd : defaults.isEmpty = true
  · simp [withDefault_eq_id hd]
  · rw [withDefault_eq_insert hd]
    unfold eventStep
    split
    · simp
    · split
      · simp
      · rcases soleScript c.children with _ | ⟨script, pos', _ | _⟩ <;> simp

theorem environmentStep_withDefault (pos : Pos) (defaults : List Value) (s : Setter) (c : Element)
    (n : QualifiedName) :
    environmentStep (withDefault pos defaults s) c n =
      withDefault pos defaults <$> environmentStep s c n := by
  by_cases hd : defaults.isEmpty = true
  · simp [withDefault_eq_id hd]
  · rw [withDefault_eq_insert hd]
    unfold environmentStep
    split
    · simp
    · split
      · simp
      · rcases environmentEntry c with _ | ⟨value, pos'⟩ <;> simp

/-- A fold whose every step commutes with `φ` commutes with `φ`. -/
theorem foldlM_commute {σ β : Type} {f : σ → β → Reporting σ} (φ : σ → σ) :
    ∀ l : List β, (∀ s x, x ∈ l → f (φ s) x = φ <$> f s x) →
      ∀ s, l.foldlM f (φ s) = φ <$> l.foldlM f s
  | [], _, s => by simp
  | x :: l, h, s => by
    rw [List.foldlM_cons, List.foldlM_cons, h s x List.mem_cons_self, bind_map_left, map_bind]
    exact bind_congr fun t =>
      foldlM_commute φ l (fun s y hy => h s y (List.mem_cons_of_mem _ hy)) t

/-- The loops never read or write the empty name. -/
theorem loops_withDefault (pos : Pos) (defaults : List Value) {l : List (Element × QualifiedName)}
    (hl : ∀ p ∈ l, p.2.name ≠ "") (s : Setter) :
    loops l (withDefault pos defaults s) = withDefault pos defaults <$> loops l s := by
  unfold loops
  rw [foldlM_commute _ l (fun s p hp => propertyStep_withDefault pos defaults s p.1 (hl p hp)),
    bind_map_left, map_bind]
  refine bind_congr fun s => ?_
  rw [foldlM_commute _ l (fun s p _ => eventStep_withDefault pos defaults s p.1 p.2),
    bind_map_left, map_bind]
  refine bind_congr fun s => ?_
  exact foldlM_commute _ l (fun s p _ => environmentStep_withDefault pos defaults s p.1 p.2) s

/-- `fill` with the default content put in after the three loops. -/
theorem fill_eq_defaultLast (span : Span) (attrs : List Attribute) (children : List Node) :
    fill span attrs children = (do
      let s ← attrs.foldlM readAttribute { tagPos := span.start }
      let _ ← classifyChildren children
      let defaults ← defaultContent children (classesOf children)
      let s ← loops (classified children) s
      pure (withDefault span.start defaults s)) := by
  rw [fill]
  refine bind_congr fun s => ?_
  refine (classifyChildren_classesOf children).bind_congr fun classes hcl => ?_
  subst hcl
  refine bind_congr fun defaults => ?_
  -- the loops never touch the empty name, so the default content can wait for them
  have hloops := loops_withDefault span.start defaults
    (fun p (hp : p ∈ classified children) => name_ne_empty_of_mem_classified hp) s
  rw [map_eq_pure_bind] at hloops
  rw [← hloops]
  show readProperties (withDefault span.start defaults s) children (classesOf children) >>= _ = _
  simp only [loops, readProperties_loop.eq_foldlM, readEvents_loop.eq_foldlM,
    readEnvironment_loop.eq_foldlM]

end Loader

end GuiMarkup
