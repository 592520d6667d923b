import GuiMarkup.Markup.Tree
import GuiMarkup.Name
import GuiMarkup.Instance.Value
import GuiMarkup.Instance.Diagnostic

/-! Loading values from markup: the attributes and child elements of a constructor element
fill its setter. The first occurrence of a name wins; later ones, names that do not read
and names in no role are reported and dropped. -/

namespace GuiMarkup

open Markup

namespace Loader

/-- Classifies a name; a text that is no name is reported at `pos`. -/
def classify (raw : String) (pos : Pos) : Reporting (Option QualifiedName) :=
  match QualifiedName.classify raw with
  | .ok n => pure (some n)
  | .error e => do report pos (.invalidName e); pure none

/-- Classifies the names of the element children, in order. -/
def classifyChildren : List Node → Reporting (List (Option QualifiedName))
  | [] => pure []
  | .element c :: rest => do
    let n ← classify c.name c.nameSpan.start
    let ns ← classifyChildren rest
    pure (n :: ns)
  | _ :: rest => classifyChildren rest

/-- The `ref.Style` of a constructor element: the last such attribute wins. -/
def styleOf (attrs : List Attribute) : Option String :=
  attrs.foldl (fun style a =>
    match QualifiedName.classify a.name with
    | .ok n => if n.isReferenceAttributeName && n.name == "Style" then some a.value else style
    | .error _ => style) none

/-- Puts one attribute into a setter. -/
def readAttribute (s : Setter) (a : Attribute) : Reporting Setter := do
  let some n ← classify a.name a.nameSpan.start | pure s
  match n.attributeRole with
  | .referenceAttribute =>
    pure (if n.name == "Name" then { s with instanceName := some ⟨a.value, false⟩ } else s)
  | .environmentAttribute =>
    if s.environment.contains n.name then
      report a.nameSpan.start (.duplicatedEnvironment n.name); pure s
    else
      pure { s with environment := (s.environment.insert n.name
        { value := a.value, attPos := a.span.start, valuePos := a.valueSpan.start }) }
  | .propertyAttribute =>
    if s.properties.contains n.name then
      report a.nameSpan.start (.duplicatedProperty n.name); pure s
    else
      pure { s with properties := (s.properties.insert n.name
        { binding := n.binding, values := [.text a.value false a.valueSpan.start],
          attPos := a.span.start }) }
  | .eventAttribute =>
    if s.handlers.contains n.name then
      report a.nameSpan.start (.duplicatedEvent n.name); pure s
    else
      pure { s with handlers := (s.handlers.insert n.name
        { binding := n.binding, script := a.value, attPos := a.span.start,
          valuePos := a.valueSpan.start }) }
  | _ => report a.nameSpan.start (.unknownAttribute a.name); pure s

/-- The text value of children that are one text or one CDATA section. -/
def soleText : List Node → List Value
  | [.text t sp] => [.text t false sp.start]
  | [.cdata t sp] => [.text t false (sp.start.shift cdataOpenerLength)]
  | _ => []

/-- The script and its position of children that are one text or one CDATA section. -/
def soleScript : List Node → Option (String × Pos × Bool)
  | [.text t sp] => some (t, sp.start, sp.isMultiline)
  | [.cdata t sp] => some (t, sp.start.shift cdataOpenerLength, false)
  | _ => none

/-- Puts the `ev.X` elements among the children into a setter. -/
def readEvents (s : Setter) : List Node → List (Option QualifiedName) → Reporting Setter
  | .element c :: rest, some n :: classes => do
    let s ← if !n.isEventElementName then pure s
      else if s.handlers.contains n.name then do
        report c.nameSpan.start (.duplicatedEvent n.name); pure s
      else match soleScript c.children with
        | some (script, pos, multiline) => do
          if multiline then report c.span.start .multilineScript
          pure { s with handlers := (s.handlers.insert n.name
            { binding := n.binding, script := script, attPos := c.span.start, valuePos := pos }) }
        | none => do report c.span.start .eventNotText; pure s
    readEvents s rest classes
  | .element _ :: rest, none :: classes => readEvents s rest classes
  | .element _ :: _, [] => pure s
  | _ :: rest, classes => readEvents s rest classes
  | [], _ => pure s

/-- Puts the `env.X` elements among the children into a setter; an empty element sets
the empty value at its end. -/
def readEnvironment (s : Setter) : List Node → List (Option QualifiedName) → Reporting Setter
  | .element c :: rest, some n :: classes => do
    let s ← if !n.isEnvironmentElementName then pure s
      else if s.environment.contains n.name then do
        report c.nameSpan.start (.duplicatedEnvironment n.name); pure s
      else
        let entry : Option (String × Pos) :=
          match soleScript c.children, c.children with
          | some (v, pos, _), _ => some (v, pos)
          | none, [] => some ("", c.span.stop)
          | none, _ => none
        match entry with
        | some (value, pos) =>
          pure { s with environment := (s.environment.insert n.name
            { value := value, attPos := c.span.start, valuePos := pos }) }
        | none => do report c.span.start .environmentNotText; pure s
    readEnvironment s rest classes
  | .element _ :: rest, none :: classes => readEnvironment s rest classes
  | .element _ :: _, [] => pure s
  | _ :: rest, classes => readEnvironment s rest classes
  | [], _ => pure s

mutual

/-- Loads an element as a constructor; a name that is no constructor name is reported and
gives nothing. -/
def ctor : Element → Reporting (Option Ctor)
  | ⟨name, nameSpan, span, attrs, children⟩ => do
    let some n ← classify name nameSpan.start | pure none
    if !n.isCtorName then
      report nameSpan.start (.wrongCtorName name)
      return none
    let filled ← fill span attrs children
    let c : Ctor := {
      typeNamespace := n.qualifier
      typeName := n.name
      styleName := styleOf attrs
      setter := filled }
    pure (some c)
termination_by e => (sizeOf e, 3)

/-- The setter filled from an element's stretch, attributes and children. -/
def fill (span : Span) (attrs : List Attribute) (children : List Node) : Reporting Setter := do
  let s ← attrs.foldlM readAttribute { tagPos := span.start }
  let classes ← classifyChildren children
  let defaults ← defaultContent children classes
  let s := if defaults.isEmpty then s
    else { s with properties := s.properties.insert "" { values := defaults, attPos := span.start } }
  let s ← readProperties s children classes
  let s ← readEvents s children classes
  readEnvironment s children classes
termination_by (sizeOf children, 2)

/-- The default content of children: a sole text, then the constructor children. -/
def defaultContent (children : List Node) (classes : List (Option QualifiedName)) :
    Reporting (List Value) := do
  let more ← ctorChildren children classes
  pure (soleText children ++ more)
termination_by (sizeOf children, 1)

/-- Loads the constructor children in order; elements in no role are reported. -/
def ctorChildren : List Node → List (Option QualifiedName) → Reporting (List Value)
  | .element c :: rest, some n :: classes => do
    let here ←
      if n.isCtorName then do
        match ← ctor c with
        | some v => pure [Value.ctor v]
        | none => pure []
      else if n.elementRole == .unrecognized then do
        report c.nameSpan.start (.unknownElement c.name); pure []
      else pure []
    let more ← ctorChildren rest classes
    pure (here ++ more)
  | .element _ :: rest, none :: classes => ctorChildren rest classes
  | .element _ :: _, [] => pure []
  | .text .. :: rest, classes => ctorChildren rest classes
  | .cdata .. :: rest, classes => ctorChildren rest classes
  | [], _ => pure []
termination_by children => (sizeOf children, 0)

/-- Puts the `att.X` elements among the children into a setter. -/
def readProperties (s : Setter) : List Node → List (Option QualifiedName) → Reporting Setter
  | .element ⟨_, cnameSpan, cspan, cattrs, cchildren⟩ :: rest, some n :: classes => do
    let s ← if !n.isPropertyElementName then pure s
      else if s.properties.contains n.name then do
        report cnameSpan.start (.duplicatedProperty n.name); pure s
      else do
        let values ←
          if n.binding == some setBinding then do
            let nested ← fill cspan cattrs cchildren
            pure [Value.setter nested]
          else do
            let grand ← classifyChildren cchildren
            defaultContent cchildren grand
        if values.isEmpty then pure s
        else pure { s with properties := (s.properties.insert n.name
          { binding := n.binding, values := values, attPos := cspan.start }) }
    readProperties s rest classes
  | .element _ :: rest, none :: classes => readProperties s rest classes
  | .element _ :: _, [] => pure s
  | .text .. :: rest, classes => readProperties s rest classes
  | .cdata .. :: rest, classes => readProperties s rest classes
  | [], _ => pure s
termination_by children => (sizeOf children, 0)

end

end Loader

end GuiMarkup
