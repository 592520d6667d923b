import GuiMarkup.Text.Split
import GuiMarkup.Markup.Tree
import GuiMarkup.Markup.Reader
import GuiMarkup.Instance.Value
import GuiMarkup.Instance.Diagnostic
import GuiMarkup.Instance.Loader
import GuiMarkup.Instance.Emit

/-! Instance documents: an `<Instance>` element with a header in its attributes,
`ref.Parameter` and `ref.Members` elements, and a root constructor. Without a bare
`xmlns`, the default namespace patterns are declared under the empty alias. -/

namespace GuiMarkup

open Markup Text

/-- A namespace pattern, cut at its first `*`. -/
structure NamespacePattern where
  front : String
  back : String := ""
deriving DecidableEq, Repr, Inhabited

/-- The patterns declared under one alias, and where the first declaration stands. -/
structure NamespaceDecl where
  name : String
  attPos : Pos := {}
  patterns : List NamespacePattern := []
deriving DecidableEq, Repr, Inhabited

/-- A `ref.Parameter` of an instance. -/
structure Parameter where
  name : String
  className : String
  tagPos : Pos := {}
deriving DecidableEq, Repr, Inhabited

/-- A loaded instance document. -/
structure Document where
  codeBehind : Bool := false
  className : String := ""
  classPos : Pos := {}
  stylePaths : List String := []
  stylePos : Pos := {}
  namespaces : KeyMap NamespaceDecl := {}
  parameters : List Parameter := []
  memberScript : String := ""
  memberPos : Pos := {}
  root : Ctor
  appliedStyles : Bool := false
  tagPos : Pos := {}
deriving Repr, BEq, Inhabited

namespace NamespacePattern

/-- Cuts a pattern at its first `*`; without one the whole pattern is the front. -/
def parse (pattern : String) : NamespacePattern :=
  match splitFirst '*' pattern.toList with
  | some (front, back) => ⟨String.ofList front, String.ofList back⟩
  | none => ⟨pattern, ""⟩

/-- The pattern written back. -/
def print (p : NamespacePattern) : String := p.front ++ "*" ++ p.back

end NamespacePattern

/-- The namespaces an instance searches when it declares no bare `xmlns`. -/
def defaultNamespaces : List String :=
  ["presentation::controls::Gui*", "presentation::elements::Gui*Element",
   "presentation::compositions::Gui*Composition", "presentation::compositions::Gui*",
   "presentation::templates::Gui*", "system::*", "system::reflection::*", "presentation::*",
   "presentation::Gui*", "presentation::controls::*", "presentation::controls::list::*",
   "presentation::controls::tree::*", "presentation::elements::*",
   "presentation::elements::Gui*", "presentation::elements::text::*",
   "presentation::compositions::*", "presentation::templates::*"]

namespace Document

/-- The alias that an attribute declares: `""` for `xmlns`, `a` for `xmlns:a`. -/
def declaredAlias (attName : String) : Option String :=
  if attName == "xmlns" then some ""
  else if "xmlns:".isPrefixOf attName then some (String.ofList (attName.toList.drop 6))
  else none

/-- The namespace declarations of an `<Instance>` element. -/
def namespacesOf (root : Element) : KeyMap NamespaceDecl :=
  let written := root.attributes.filterMap fun a =>
    (declaredAlias a.name).map fun key => (key, a.span.start, a.value)
  let decls := if (root.attribute? "xmlns").isSome then written
    else written ++ [("", ({} : Pos), ";".intercalate defaultNamespaces)]
  decls.foldl (fun m (key, pos, value) =>
    let info := (m.find? key).getD { name := key, attPos := pos }
    m.insert key { info with patterns := info.patterns ++ (entries ';' value).map NamespacePattern.parse })
    {}

/-- The header of an `<Instance>` element, with a root still to be loaded. -/
def header (root : Element) (seed : Ctor) : Document :=
  let d : Document := { root := seed, tagPos := root.span.start, namespaces := namespacesOf root }
  let d := match root.attribute? "ref.CodeBehind" with
    | some a => { d with codeBehind := a.value == "true" }
    | none => d
  let d := match root.attribute? "ref.Class" with
    | some a => { d with className := a.value, classPos := a.span.start }
    | none => d
  match root.attribute? "ref.Styles" with
  | some a => { d with stylePaths := entries ';' a.value, stylePos := a.span.start }
  | none => d

/-- Reads one child of `<Instance>` into the document; the first constructor wins. -/
def readChild (state : Document × Option Ctor) (e : Element) : Reporting (Document × Option Ctor) :=
  let (d, found) := state
  if e.name == "ref.Parameter" then
    match e.attribute? "Name", e.attribute? "Class" with
    | some n, some c =>
      pure ({ d with parameters := d.parameters ++ [⟨n.value, c.value, e.span.start⟩] }, found)
    | _, _ => do report e.nameSpan.start .incompleteParameter; pure (d, found)
  else if e.name == "ref.Members" then
    match e.children with
    | [.cdata script sp] =>
      pure ({ d with memberScript := script, memberPos := sp.start.shift cdataOpenerLength }, found)
    | _ => do report e.span.start .membersNotCData; pure (d, found)
  else if found.isNone then do
    let c ← Loader.ctor e
    pure (d, c)
  else pure (d, found)

/-- Loads an `<Instance>` element; `none` when the element is no `<Instance>` or no
constructor loads. -/
def load (root : Element) : Reporting (Option Document) := do
  if root.name != "Instance" then return none
  let (d, found) ← root.elements.foldlM readChild (header root default, none)
  pure (found.map fun c => { d with root := c })

/-- The markup of a document. Style content is left out. -/
def save (d : Document) : Element :=
  let e : Element := { name := "Instance" }
  let e := e.pushAttribute "ref.CodeBehind" (if d.codeBehind then "true" else "false")
  let e := e.pushAttribute "ref.Class" d.className
  let e := d.namespaces.entries.foldl (fun e (key, info) =>
    e.pushAttribute (if key.isEmpty then "xmlns" else "xmlns:" ++ key)
      (";".intercalate (info.patterns.map NamespacePattern.print))) e
  let e := d.parameters.foldl (fun e p =>
    e.push (.element ((({ name := "ref.Parameter" } : Element).pushAttribute "Name" p.name).pushAttribute
      "Class" p.className))) e
  let e := if d.memberScript.isEmpty then e
    else e.push (.element (({ name := "ref.Members" } : Element).push (.cdata d.memberScript)))
  let e := if d.stylePaths.isEmpty then e
    else e.pushAttribute "ref.Styles" (";".intercalate d.stylePaths)
  emitCtor d.root e

end Document

/-- Reads an instance document from text: a text that is no markup is an error; a
document that yields no instance gives `none` and a diagnostic at its root saying why. -/
def Document.parse (resource text : String) :
    Except ReadError (Option Document × List Diagnostic) := do
  let root ← readDocument text
  pure <| Reporting.runIn resource do
    let d ← Document.load root
    if d.isNone then
      report root.span.start
        (if root.name == "Instance" then .noRootCtor else .wrongInstanceRoot root.name)
    pure d

end GuiMarkup
