import GuiMarkup.Proofs.Styling.Matches

/-! After styling, each constructor keeps its own entries and takes every other name from
the first matching style that has it. -/

namespace GuiMarkup

/-! ## Templates attached one after another -/

/-- Attaching templates in turn: a name finds its own entry, or the first template entry. -/
theorem attach_foldl_find? : ∀ (ts : List Setter) (c : Ctor) (k : String),
    let c' := ts.foldl (fun c t => c.attachTemplate t) c
    c'.setter.properties.find? k =
        (c.setter.properties.find? k).or (ts.findSome? (·.properties.find? k)) ∧
      c'.setter.handlers.find? k = (c.setter.handlers.find? k).or (ts.findSome? (·.handlers.find? k)) ∧
      c'.setter.environment.find? k =
        (c.setter.environment.find? k).or (ts.findSome? (·.environment.find? k)) ∧
      c'.setter.instanceName = c.setter.instanceName.or (ts.findSome? (·.instanceName))
  | [], c, k => by simp
  | t :: ts, c, k => by
    obtain ⟨hp, hh, he, hn⟩ := attach_foldl_find? ts (c.attachTemplate t) k
    have hsetter : (c.attachTemplate t).setter = c.setter.attach t := rfl
    simp only [hsetter, SetterOf.find?_attach_properties, SetterOf.find?_attach_handlers,
      SetterOf.find?_attach_environment, SetterOf.instanceName_attach, Option.or_assoc] at hp hh he hn
    simp only [List.foldl_cons, List.findSome?_cons]
    refine ⟨?_, ?_, ?_, ?_⟩
    · rw [hp]; cases t.properties.find? k <;> rfl
    · rw [hh]; cases t.handlers.find? k <;> rfl
    · rw [he]; cases t.environment.find? k <;> rfl
    · rw [hn]; cases t.instanceName <;> rfl

/-- Attaching templates keeps a constructor's type and `ref.Style`. -/
theorem CtorOf.type_foldl_attachTemplate : ∀ (ts : List Setter) (c : Ctor),
    let c' := ts.foldl (fun c t => c.attachTemplate t) c
    c'.typeNamespace = c.typeNamespace ∧ c'.typeName = c.typeName ∧ c'.styleName = c.styleName
  | [], _ => ⟨rfl, rfl, rfl⟩
  | t :: ts, c => type_foldl_attachTemplate ts (c.attachTemplate t)

/-- Attaching templates in turn to constructors that look alike leaves them alike. -/
theorem CtorOf.shallow_foldl_attachTemplate_congr : ∀ (ts : List Setter) {c d : Ctor},
    c.shallow = d.shallow →
      (ts.foldl (fun c t => c.attachTemplate t) c).shallow =
        (ts.foldl (fun c t => c.attachTemplate t) d).shallow
  | [], _, _, h => h
  | t :: ts, _, _, h => shallow_foldl_attachTemplate_congr ts (shallow_attachTemplate_congr h t)

theorem KeyMap.find?_map {α β : Type} (m : KeyMap α) (φ : α → β) (k : String) :
    (⟨m.entries.map fun e => (e.1, φ e.2)⟩ : KeyMap β).find? k = (m.find? k).map φ := by
  simp only [find?, List.find?_map, Option.map_map]
  rfl

/-- What two constructors that look alike share. -/
theorem CtorOf.entries_of_shallow_eq {c d : Ctor} (h : c.shallow = d.shallow) :
    c.typeNamespace = d.typeNamespace ∧ c.typeName = d.typeName ∧ c.styleName = d.styleName ∧
      (∀ k, (c.setter.properties.find? k).map PropertyOf.shallow =
        (d.setter.properties.find? k).map PropertyOf.shallow) ∧
      c.setter.handlers = d.setter.handlers ∧ c.setter.environment = d.setter.environment ∧
      c.setter.instanceName = d.setter.instanceName := by
  simp only [CtorOf.shallow, SetterOf.shallow_eq, CtorOf.mk.injEq, SetterOf.mk.injEq,
    KeyMap.mk.injEq] at h
  obtain ⟨h₁, h₂, h₃, hprops, hh, he, hn, -, -⟩ := h
  refine ⟨h₁, h₂, h₃, fun k => ?_, hh, he, hn⟩
  rw [← KeyMap.find?_map, ← KeyMap.find?_map, hprops]

/-! ## One style, then a run of styles -/

/-- A style gives its template to every match and leaves every other constructor alike. -/
theorem Style.resolve?_applyTo (s : Style) {r c : Ctor} {p : NodePath} (hp : r.resolve? p = some c) :
    ∃ c', (s.applyTo r).resolve? p = some c' ∧
      c'.shallow = (if p ∈ (s.query.run r).paths then c.attachTemplate s.template else c).shallow :=
  CtorOf.resolve?_updateEach (addsOnly_attachTemplate s.template)
    (fun _ _ h => CtorOf.shallow_attachTemplate_congr h s.template) _
    (Query.nodup_evalIn r s.query [none]) hp

/-- The templates that a run of styles gives the constructor at `p`, in order. -/
def templatesAt (p : NodePath) : List Style → Ctor → List Setter
  | [], _ => []
  | s :: rest, r =>
    (if (s.query.run r).paths.contains p then [s.template] else []) ++
      templatesAt p rest (s.applyTo r)

/-- After a run of styles, a constructor is the one it was with its matched templates attached. -/
theorem resolve?_foldl_applyTo : ∀ (styles : List Style) {r c : Ctor} {p : NodePath},
    r.resolve? p = some c →
      ∃ c', (styles.foldl (fun r s => s.applyTo r) r).resolve? p = some c' ∧
        c'.shallow = ((templatesAt p styles r).foldl (fun c t => c.attachTemplate t) c).shallow
  | [], _, c, _, hp => ⟨c, hp, rfl⟩
  | s :: rest, r, c, p, hp => by
    obtain ⟨c₁, hc₁, hsh₁⟩ := s.resolve?_applyTo hp
    obtain ⟨c', hc', hsh⟩ := resolve?_foldl_applyTo rest hc₁
    refine ⟨c', hc', hsh.trans ?_⟩
    rw [templatesAt, List.foldl_append]
    apply CtorOf.shallow_foldl_attachTemplate_congr
    rw [hsh₁]
    by_cases hm : p ∈ (s.query.run r).paths <;> simp [hm]

/-! ## The styles a document names -/

/-- The styles that a path of `ref.Styles` names in a store, if any. -/
def Store.stylesAt? (store : Store) (uri : String) : Option (List Style) :=
  match ResourceKey.parse uri with
  | none => none
  | some k =>
    match store.find? k with
    | some (.styles sheet) => some sheet.styles
    | _ => none

/-- How a path of `ref.Styles` that names no style sheet is reported. -/
def styleIssue (uri : String) : Issue :=
  match ResourceKey.parse uri with
  | none => .invalidStylePath uri
  | some _ => .missingStyle uri

/-- A reporting fold whose steps add what their items give adds it all, in order. -/
theorem foldlM_run_append {α β : Type} (step : List β → α → Reporting (List β)) (out : α → List β)
    (rep : α → List (Pos × Issue))
    (hstep : ∀ acc x log, (step acc x).run log = (acc ++ out x, log ++ (rep x).toArray)) :
    ∀ (l : List α) (acc : List β) (log : Array (Pos × Issue)),
      (l.foldlM step acc).run log = (acc ++ l.flatMap out, log ++ (l.flatMap rep).toArray)
  | [], acc, log => by simp; rfl
  | x :: l, acc, log => by
    rw [List.foldlM_cons, StateT.run_bind, hstep]
    show (l.foldlM step (acc ++ out x)).run (log ++ (rep x).toArray) = _
    rw [foldlM_run_append step out rep hstep l]
    simp

/-- Looking up the style paths joins the styles found and reports each other path once, in order. -/
theorem Document.stylesIn_run (d : Document) (store : Store) (log : Array (Pos × Issue)) :
    (d.stylesIn store).run log =
      (d.stylePaths.flatMap (fun uri => (store.stylesAt? uri).getD []),
        log ++ ((d.stylePaths.filter fun uri => (store.stylesAt? uri).isNone).map
          fun uri => (d.stylePos, styleIssue uri)).toArray) := by
  unfold stylesIn
  refine (foldlM_run_append _ (fun uri => (store.stylesAt? uri).getD [])
    (fun uri => if (store.stylesAt? uri).isNone then [(d.stylePos, styleIssue uri)] else [])
    ?_ d.stylePaths [] log).trans ?_
  · intro acc uri log
    split
    · rename_i hk
      simp [Store.stylesAt?, hk, styleIssue, report]
      rfl
    · rename_i k hk
      split
      · rename_i sheet hf
        simp [Store.stylesAt?, hk, hf]
        rfl
      · rename_i hf
        have hat : store.stylesAt? uri = none := by
          simp only [Store.stylesAt?, hk]
        simp [hat, styleIssue, hk, report]
        rfl
  · congr 2
    induction d.stylePaths with
    | nil => rfl
    | cons uri rest ih => by_cases h : (store.stylesAt? uri).isNone <;> simp_all

/-! ## Applying the styles of a document -/

/-- Style merge semantics. Applying styles joins the sheets that `ref.Styles` names, in path
order, reporting each other path once. Every constructor then keeps its own entries and, under
each name it lacked, holds the entry of the first matching style whose template has one. -/
theorem Document.applyStyles_merges (d : Document) (store : Store) (log : Array (Pos × Issue))
    (hd : d.appliedStyles = false) :
    let styles := d.stylePaths.flatMap fun uri => (store.stylesAt? uri).getD []
    let trees : Nat → Ctor := fun i => (styles.take i).foldl (fun r s => s.applyTo r) d.root
    (d.applyStyles store).run log =
        (some { d with appliedStyles := true, root := trees styles.length },
          log ++ ((d.stylePaths.filter fun uri => (store.stylesAt? uri).isNone).map
            fun uri => (d.stylePos, styleIssue uri)).toArray) ∧
      (∀ i (hi : i < styles.length) (p : NodePath) (c : Ctor), (trees i).resolve? p = some c →
        ∃ c', (trees (i + 1)).resolve? p = some c' ∧
          c'.shallow = (if p ∈ (styles[i].query.run (trees i)).paths then
            c.attachTemplate styles[i].template else c).shallow) ∧
      ∀ (p : NodePath) (c : Ctor), d.root.resolve? p = some c →
        ∃ c', (trees styles.length).resolve? p = some c' ∧
          c'.typeNamespace = c.typeNamespace ∧ c'.typeName = c.typeName ∧
          c'.styleName = c.styleName ∧
          (∀ k, (c'.setter.properties.find? k).map PropertyOf.shallow =
            ((c.setter.properties.find? k).or
              ((templatesAt p styles d.root).findSome? (·.properties.find? k))).map
                PropertyOf.shallow) ∧
          (∀ k, c'.setter.handlers.find? k = (c.setter.handlers.find? k).or
            ((templatesAt p styles d.root).findSome? (·.handlers.find? k))) ∧
          (∀ k, c'.setter.environment.find? k = (c.setter.environment.find? k).or
            ((templatesAt p styles d.root).findSome? (·.environment.find? k))) ∧
          c'.setter.instanceName = c.setter.instanceName.or
            ((templatesAt p styles d.root).findSome? (·.instanceName)) := by
  intro styles trees
  refine ⟨?_, ?_, ?_⟩
  · have hall : trees styles.length = styles.foldl (fun r s => s.applyTo r) d.root := by
      simp only [trees, List.take_length]
    rw [hall]
    simp only [applyStyles, hd, Bool.false_eq_true, if_false]
    rw [StateT.run_bind, d.stylesIn_run store log]
    rfl
  · intro i hi p c hp
    have htake : styles.take (i + 1) = styles.take i ++ [styles[i]] := List.take_succ_eq_append_getElem hi
    simp only [trees, htake, List.foldl_append, List.foldl_cons, List.foldl_nil] at hp ⊢
    exact styles[i].resolve?_applyTo hp
  · intro p c hp
    obtain ⟨c', hc', hsh⟩ := resolve?_foldl_applyTo styles hp
    obtain ⟨h₁, h₂, h₃, hprops, hh, he, hn⟩ := CtorOf.entries_of_shallow_eq hsh
    have hfold := attach_foldl_find? (templatesAt p styles d.root) c
    obtain ⟨t₁, t₂, t₃⟩ := CtorOf.type_foldl_attachTemplate (templatesAt p styles d.root) c
    refine ⟨c', by simpa [trees] using hc', h₁.trans t₁, h₂.trans t₂, h₃.trans t₃,
      fun k => by rw [hprops k, (hfold k).1], fun k => by rw [hh, (hfold k).2.1],
      fun k => by rw [he, (hfold k).2.2.1], by rw [hn, (hfold "").2.2.2]⟩

/-- One sheet and one path that is no URL: `//*` matches root and child; the path is reported. -/
theorem Document.applyStyles_merges_sample :
    let d : Document :=
      { root := { typeName := "A",
                  setter := { properties := ⟨[("", { values := [.ctor { typeName := "B" }] })]⟩ } },
        stylePaths := ["res://sheet", "sheet"] }
    let store : Store :=
      ⟨[(⟨"res", "sheet"⟩, .styles ⟨[⟨.primary { descendants := true },
        { properties := ⟨[("X", { values := [.text "1" true {}] })]⟩ }⟩]⟩)]⟩
    let styles := d.stylePaths.flatMap fun uri => (store.stylesAt? uri).getD []
    let trees : Nat → Ctor := fun i => (styles.take i).foldl (fun r s => s.applyTo r) d.root
    d.appliedStyles = false ∧
    ((d.applyStyles store).run #[] =
        (some { d with appliedStyles := true, root := trees styles.length },
          #[] ++ ((d.stylePaths.filter fun uri => (store.stylesAt? uri).isNone).map
            fun uri => (d.stylePos, styleIssue uri)).toArray) ∧
      (∀ i (hi : i < styles.length) (p : NodePath) (c : Ctor), (trees i).resolve? p = some c →
        ∃ c', (trees (i + 1)).resolve? p = some c' ∧
          c'.shallow = (if p ∈ (styles[i].query.run (trees i)).paths then
            c.attachTemplate styles[i].template else c).shallow) ∧
      ∀ (p : NodePath) (c : Ctor), d.root.resolve? p = some c →
        ∃ c', (trees styles.length).resolve? p = some c' ∧
          c'.typeNamespace = c.typeNamespace ∧ c'.typeName = c.typeName ∧
          c'.styleName = c.styleName ∧
          (∀ k, (c'.setter.properties.find? k).map PropertyOf.shallow =
            ((c.setter.properties.find? k).or
              ((templatesAt p styles d.root).findSome? (·.properties.find? k))).map
                PropertyOf.shallow) ∧
          (∀ k, c'.setter.handlers.find? k = (c.setter.handlers.find? k).or
            ((templatesAt p styles d.root).findSome? (·.handlers.find? k))) ∧
          (∀ k, c'.setter.environment.find? k = (c.setter.environment.find? k).or
            ((templatesAt p styles d.root).findSome? (·.environment.find? k))) ∧
          c'.setter.instanceName = c.setter.instanceName.or
            ((templatesAt p styles d.root).findSome? (·.instanceName))) :=
  ⟨rfl, Document.applyStyles_merges _ _ #[] rfl⟩

/-- A query runs on the tree that earlier styles left, so a constructor brought by a template
receives entries of its own. -/
theorem Document.applyStyles_changes_entries_below :
    let d : Document :=
      { root := { typeName := "A",
                  setter := { properties := ⟨[("", { values := [.ctor { typeName := "B" }] })]⟩ } },
        stylePaths := ["res://s"] }
    let first : Setter := { properties := ⟨[("Child", { values := [.ctor { typeName := "C" }] })]⟩ }
    let store : Store :=
      ⟨[(⟨"res", "s"⟩, .styles ⟨[⟨.primary { typeName := some "A" }, first⟩,
        ⟨.primary { descendants := true }, { properties := ⟨[("X", { values := [.text "1" true {}] })]⟩ }⟩]⟩)]⟩
    let after := ((d.applyStyles store).run #[]).1
    after.map (·.root.setter.properties.find? "") ≠ some (d.root.setter.properties.find? "") ∧
      after.map (·.root.setter.properties.find? "Child") ≠ some (first.properties.find? "Child") := by
  intro d first store after
  let gained : Option (Option Property) → Option (Option (List Nat)) :=
    Option.map (Option.map fun p => p.values.map fun v =>
      (v.asCtor?.map (·.setter.properties.entries.length)).getD 0)
  constructor
  · intro h
    have hgained := congrArg gained h
    revert hgained
    decide +kernel
  · intro h
    have hgained := congrArg gained h
    revert hgained
    decide +kernel

end GuiMarkup
