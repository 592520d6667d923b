import GuiMarkup.Text.Blank
import GuiMarkup.Text.Position

/-! Markup trees: elements whose children are elements, texts or CDATA sections. Read
trees carry stretches of text; built trees leave them unset. -/

namespace GuiMarkup.Markup

/-- An attribute, with the stretches of its name, of its value and of both. -/
structure Attribute where
  name : String
  value : String
  nameSpan : Span := {}
  valueSpan : Span := {}
  span : Span := {}
deriving DecidableEq, Repr, Inhabited

/-- The parts of an element, over a type `α` of children. -/
structure Tag (α : Type) where
  name : String
  nameSpan : Span := {}
  span : Span := {}
  attributes : List Attribute := []
  children : List α := []
deriving Repr

/-- A child in a markup tree. -/
inductive Node where
  /-- An element. -/
  | element (tag : Tag Node)
  /-- Text, already unescaped and trimmed; the stretch covers the trimmed text. -/
  | text (content : String) (span : Span := {})
  /-- A CDATA section; the stretch starts at its opening `<![CDATA[`. -/
  | cdata (content : String) (span : Span := {})
deriving Repr

/-- An element of a markup tree. -/
abbrev Element := Tag Node

/-- The length of the opening `<![CDATA[`, which moves a position onto the content. -/
def cdataOpenerLength : Nat := 9

namespace Tag

/-- The first attribute of the given name. -/
def attribute? (e : Element) (name : String) : Option Attribute :=
  e.attributes.find? (·.name == name)

/-- The element children in order; text and CDATA are skipped. -/
def elements (e : Element) : List Element :=
  e.children.filterMap fun
    | .element t => some t
    | _ => none

/-- Appends an attribute without stretches. -/
def pushAttribute (e : Element) (name value : String) : Element :=
  { e with attributes := e.attributes ++ [{ name, value }] }

/-- Appends a child. -/
def push (e : Element) (n : Node) : Element :=
  { e with children := e.children ++ [n] }

/-- Appends text as CDATA when reading it back would trim or drop it (it is empty or has
blanks at an end), and as text otherwise. -/
def pushContent (e : Element) (content : String) : Element :=
  if content.isEmpty || Text.trimText content != content then e.push (.cdata content)
  else e.push (.text content)

end Tag

end GuiMarkup.Markup
