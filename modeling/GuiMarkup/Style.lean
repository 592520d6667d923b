import GuiMarkup.Markup.Tree
import GuiMarkup.Markup.Reader
import GuiMarkup.Query.Parser
import GuiMarkup.Instance.Value
import GuiMarkup.Instance.Diagnostic
import GuiMarkup.Instance.Loader
import GuiMarkup.Instance.Emit

/-! Style sheets: `<Style>` elements holding a query in `ref.Path` and a template setter
marked as style content. -/

namespace GuiMarkup

open Markup

/-- A style: the query that selects constructors, and the template merged into them. -/
structure Style where
  query : Query
  template : Setter
deriving Repr, BEq, Inhabited

/-- The styles of a style sheet, in order. -/
structure StyleSheet where
  styles : List Style := []
deriving Repr, BEq, Inhabited

namespace Style

/-- Loads a `<Style>` element; `none` when its path is missing or does not read. -/
def load (e : Element) : Reporting (Option Style) := do
  let some path := e.attribute? "ref.Path"
    | report e.span.start .missingPath; pure none
  match Query.parse path.value with
  | .error err => do
    report (path.valueSpan.start.shift err.offset) (.badQuery err.problem)
    pure none
  | .ok q => do
    let template ← Loader.fill e.span e.attributes e.children
    pure (some ⟨q, template.markFromStyle⟩)

/-- The markup of a style: its printed query; the template is style content and adds nothing. -/
def save (s : Style) : Element :=
  emitSetter s.template (({ name := "Style" } : Element).pushAttribute "ref.Path" s.query.print)

end Style

namespace StyleSheet

/-- Loads the styles of a `<Styles>` element; other elements are reported and skipped. -/
def load (root : Element) : Reporting StyleSheet := do
  if root.name != "Styles" then
    report root.span.start .wrongStylesRoot
    return {}
  let styles ← root.elements.foldlM (fun acc e => do
    if e.name == "Style" then
      match ← Style.load e with
      | some s => pure (acc ++ [s])
      | none => pure acc
    else do
      report e.span.start (.unknownStyleElement e.name)
      pure acc) []
  pure ⟨styles⟩

/-- The markup of a style sheet. -/
def save (sheet : StyleSheet) : Element :=
  sheet.styles.foldl (fun e s => e.push (.element s.save)) { name := "Styles" }

/-- Reads a style sheet from text; a text that is no markup is an error. -/
def parse (resource text : String) : Except ReadError (StyleSheet × List Diagnostic) := do
  let root ← readDocument text
  pure ((load root).runIn resource)

end StyleSheet

end GuiMarkup
