/-! Names `[namespace:][category.]name[-binding]` of instance markup; the categories
`ref`, `env`, `att` and `ev` mark references, environment variables, property elements and
events. -/

namespace GuiMarkup

/-- The parts of a name; the qualifier is the namespace alias before the colon. -/
structure QualifiedName where
  qualifier : Option String := none
  category : Option String := none
  name : String
  binding : Option String := none
deriving DecidableEq, Repr, Inhabited

/-- The role of a name as an element or as an attribute. -/
inductive Role where
  | constructor
  | propertyElement
  | eventElement
  | environmentElement
  | referenceAttribute
  | environmentAttribute
  | propertyAttribute
  | eventAttribute
  | unrecognized
deriving DecidableEq, Repr

/-- A text that is no name. -/
structure NameError where
  raw : String
deriving DecidableEq, Repr

def NameError.message (e : NameError) : String :=
  s!"Invalid name \"{e.raw}\": expected [namespace:][category.]name[-binding]."

namespace QualifiedName

/-- A character that may start an identifier. -/
def isIdentStart (c : Char) : Bool := c.isAlpha || c == '_'

/-- A character that may continue an identifier. -/
def isIdentChar (c : Char) : Bool := c.isAlphanum || c == '_'

/-- The longest identifier at the front of a text, and the rest. -/
def ident : List Char → Option (String × List Char)
  | [] => none
  | c :: cs =>
    if isIdentStart c then
      let tail := cs.takeWhile isIdentChar
      some (String.ofList (c :: tail), cs.drop tail.length)
    else none

/-- An identifier after a separator `sep`, when the text starts with `sep`. -/
def afterSep (sep : Char) : List Char → Option (Option (String × List Char))
  | c :: cs => if c = sep then (ident cs).map some else some none
  | [] => some none

/-- Reads the parts of a name; `none` when the text is no name. -/
def read (cs : List Char) : Option QualifiedName := do
  let (a, r) ← ident cs
  let (ns, b, r) ← match r with
    | ':' :: r' => do let (b, r'') ← ident r'; pure (some a, b, r'')
    | _ => pure (none, a, r)
  let (cat, n, r) ← match r with
    | '.' :: r' => do let (n, r'') ← ident r'; pure (some b, n, r'')
    | _ => pure (none, b, r)
  let (bind, r) ← match r with
    | '-' :: r' => do let (d, r'') ← ident r'; pure (some d, r'')
    | _ => pure (none, r)
  if r.isEmpty then some { qualifier := ns, category := cat, name := n, binding := bind }
  else none

/-- The parts of a name, or the error that the text is no name. -/
def classify (raw : String) : Except NameError QualifiedName :=
  match read raw.toList with
  | some n => .ok n
  | none => .error ⟨raw⟩

/-- The name written back from its parts. -/
def display (n : QualifiedName) : String :=
  (n.qualifier.map (· ++ ":")).getD "" ++ (n.category.map (· ++ ".")).getD "" ++ n.name ++
    (n.binding.map ("-" ++ ·)).getD ""

def isCtorName (n : QualifiedName) : Bool :=
  n.category.isNone && n.binding.isNone

def isReferenceAttributeName (n : QualifiedName) : Bool :=
  n.qualifier.isNone && n.category == some "ref" && n.binding.isNone

def isEnvironmentAttributeName (n : QualifiedName) : Bool :=
  n.qualifier.isNone && n.category == some "env" && n.binding.isNone

def isPropertyAttributeName (n : QualifiedName) : Bool :=
  n.qualifier.isNone && n.category.isNone

def isPropertyElementName (n : QualifiedName) : Bool :=
  n.qualifier.isNone && n.category == some "att"

def isEventAttributeName (n : QualifiedName) : Bool :=
  n.qualifier.isNone && n.category == some "ev"

def isEventElementName (n : QualifiedName) : Bool :=
  n.qualifier.isNone && n.category == some "ev"

def isEnvironmentElementName (n : QualifiedName) : Bool :=
  n.isEnvironmentAttributeName

/-- The role of a name written as an element; the first role that fits wins. -/
def elementRole (n : QualifiedName) : Role :=
  if n.isCtorName then .constructor
  else if n.isPropertyElementName then .propertyElement
  else if n.isEventElementName then .eventElement
  else if n.isEnvironmentElementName then .environmentElement
  else .unrecognized

/-- The role of a name written as an attribute; the first role that fits wins. -/
def attributeRole (n : QualifiedName) : Role :=
  if n.isReferenceAttributeName then .referenceAttribute
  else if n.isEnvironmentAttributeName then .environmentAttribute
  else if n.isPropertyAttributeName then .propertyAttribute
  else if n.isEventAttributeName then .eventAttribute
  else .unrecognized

end QualifiedName

end GuiMarkup
