import GuiMarkup.Query.Eval
import GuiMarkup.Resource

/-! Applying the style sheets that `ref.Styles` names, one style after another, each
filling the entries that a matched constructor lacks. -/

namespace GuiMarkup

/-- Gives a constructor the entries of a template that it lacks. -/
def CtorOf.attachTemplate (template : Setter) (c : Ctor) : Ctor :=
  { c with setter := c.setter.attach template }

/-- Runs one style: its matches are found first, then each is given the template in turn.
A path that no longer leads to a constructor is passed over. -/
def Style.applyTo (s : Style) (root : Ctor) : Ctor :=
  (s.query.run root).paths.foldl
    (fun r path => (r.update? (CtorOf.attachTemplate s.template) path).getD r) root

namespace Document

/-- The styles named by `ref.Styles`, in order. A URL that is no resource URL, or that
names no style sheet in the store, is reported at the attribute and adds nothing. -/
def stylesIn (d : Document) (store : Store) : Reporting (List Style) :=
  d.stylePaths.foldlM (fun acc uri =>
    match ResourceKey.parse uri with
    | none => do report d.stylePos (.invalidStylePath uri); pure acc
    | some k =>
      match store.find? k with
      | some (.styles sheet) => pure (acc ++ sheet.styles)
      | _ => do report d.stylePos (.missingStyle uri); pure acc) []

/-- Applies the document's styles; `none` when they were applied before. -/
def applyStyles (d : Document) (store : Store) : Reporting (Option Document) := do
  if d.appliedStyles then return none
  let styles ← d.stylesIn store
  pure (some { d with
    appliedStyles := true
    root := styles.foldl (fun r s => s.applyTo r) d.root })

/-- Styles are applied once: afterwards applying them again changes nothing and reports nothing. -/
theorem applyStyles_of_applied {d : Document} (h : d.appliedStyles = true) (store : Store)
    (issues : Array (Pos × Issue)) : (d.applyStyles store).run issues = (none, issues) := by
  simp [applyStyles, h]
  rfl

end Document

end GuiMarkup
