import GuiMarkup.Text.Position
import GuiMarkup.Name
import GuiMarkup.Query.Parser

/-! Diagnostics: a problem inside a well-formed document is reported with its position and
resource, and loading goes on with the siblings of the construct at fault. -/

namespace GuiMarkup

/-- A problem found while loading instances and styles. -/
inductive Issue where
  | invalidName (error : NameError)
  | wrongCtorName (raw : String)
  | duplicatedEnvironment (name : String)
  | duplicatedProperty (name : String)
  | duplicatedEvent (name : String)
  | unknownAttribute (raw : String)
  | unknownElement (raw : String)
  | multilineScript
  | eventNotText
  | environmentNotText
  | incompleteParameter
  | membersNotCData
  | noRootCtor
  | wrongInstanceRoot (found : String)
  | missingPath
  | badQuery (problem : QueryProblem)
  | wrongStylesRoot
  | unknownStyleElement (name : String)
  | invalidStylePath (uri : String)
  | missingStyle (uri : String)
deriving DecidableEq, Repr

def Issue.message : Issue → String
  | .invalidName e => e.message
  | .wrongCtorName raw => s!"Wrong constructor name \"{raw}\"."
  | .duplicatedEnvironment name => s!"Duplicated environment variable \"{name}\"."
  | .duplicatedProperty name => s!"Duplicated property \"{name}\"."
  | .duplicatedEvent name => s!"Duplicated event \"{name}\"."
  | .unknownAttribute raw => s!"Unknown attribute name: \"{raw}\"."
  | .unknownElement raw => s!"Unknown element name: \"{raw}\"."
  | .multilineScript => "Multiple lines script should be contained in a CDATA section."
  | .eventNotText => "Event script should be contained in a text or CDATA section."
  | .environmentNotText =>
    "Environment variable should be contained in a text or CDATA section."
  | .incompleteParameter =>
    "ref.Parameter requires the following attributes existing at the same time: Name, Class."
  | .membersNotCData => "Script should be contained in a CDATA section."
  | .noRootCtor => "No root constructor found in <Instance>."
  | .wrongInstanceRoot found =>
    s!"The root element of an instance should be \"Instance\", found \"{found}\"."
  | .missingPath => "Missing attribute \"ref.Path\" in <Style>."
  | .badQuery p => p.text
  | .wrongStylesRoot => "The root element of instance styles should be \"Styles\"."
  | .unknownStyleElement name => s!"Unknown element in <Styles>: \"{name}\"."
  | .invalidStylePath uri => s!"Invalid path in attribute \"ref.Styles\": \"{uri}\"."
  | .missingStyle uri =>
    s!"Failed to find the style referred in attribute \"ref.Styles\": \"{uri}\"."

/-- A problem, where it was found, and in which resource. -/
structure Diagnostic where
  resource : String
  position : Pos
  issue : Issue
deriving DecidableEq, Repr

namespace Diagnostic

def message (d : Diagnostic) : String := d.issue.message

/-- `resource:line:column: message` -/
def text (d : Diagnostic) : String :=
  s!"{d.resource}:{d.position.line}:{d.position.column}: " ++ d.message

end Diagnostic

/-- A computation that reports problems of one resource as it goes. -/
abbrev Reporting := StateM (Array (Pos × Issue))

/-- Reports a problem at a position. -/
def report (pos : Pos) (issue : Issue) : Reporting Unit :=
  modify (·.push (pos, issue))

/-- Runs a reporting computation; the reports become diagnostics of `resource`. -/
def Reporting.runIn {α : Type} (resource : String) (m : Reporting α) : α × List Diagnostic :=
  let (a, log) := m.run #[]
  (a, log.toList.map fun (p, i) => ⟨resource, p, i⟩)

end GuiMarkup
