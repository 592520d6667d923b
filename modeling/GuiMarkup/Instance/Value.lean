import GuiMarkup.Text.Position
import GuiMarkup.KeyMap

/-! Values of an instance: text, a setter of properties, event handlers and environment
variables, or a constructor. Content merged in from a style is marked, and writing skips
it. -/

namespace GuiMarkup

/-- The values given to one property; `binding` is the `-binding` suffix of its name. -/
structure PropertyOf (α : Type) where
  binding : Option String := none
  values : List α := []
  attPos : Pos := {}
deriving Repr, BEq, Inhabited

/-- An event handler: a script and how it is bound. -/
structure Handler where
  binding : Option String := none
  script : String := ""
  fromStyle : Bool := false
  attPos : Pos := {}
  valuePos : Pos := {}
deriving Repr, BEq, Inhabited

/-- An environment variable. -/
structure EnvEntry where
  value : String := ""
  fromStyle : Bool := false
  attPos : Pos := {}
  valuePos : Pos := {}
deriving Repr, BEq, Inhabited

/-- The `ref.Name` that names a node. -/
structure InstanceName where
  name : String
  fromStyle : Bool := false
deriving Repr, BEq, Inhabited

/-- Properties, event handlers and environment variables of a node. -/
structure SetterOf (α : Type) where
  properties : KeyMap (PropertyOf α) := {}
  handlers : KeyMap Handler := {}
  environment : KeyMap EnvEntry := {}
  instanceName : Option InstanceName := none
  fromStyle : Bool := false
  tagPos : Pos := {}
deriving Repr, BEq, Inhabited

/-- A constructor: a type, optionally in a namespace, with its `ref.Style` and setter. -/
structure CtorOf (α : Type) where
  typeNamespace : Option String := none
  typeName : String
  styleName : Option String := none
  setter : SetterOf α := {}
deriving Repr, BEq, Inhabited

/-- A value of an instance. -/
inductive Value where
  | text (text : String) (fromStyle : Bool) (tagPos : Pos)
  | setter (s : SetterOf Value)
  | ctor (c : CtorOf Value)
deriving Repr, BEq, Inhabited

abbrev Property := PropertyOf Value
abbrev Setter := SetterOf Value
abbrev Ctor := CtorOf Value

/-- The binding of property elements whose value is a nested setter. -/
def setBinding : String := "set"

namespace Value

/-- Whether a value came from a style. -/
def fromStyle : Value → Bool
  | .text _ f _ => f
  | .setter s => s.fromStyle
  | .ctor c => c.setter.fromStyle

/-- The setter of a container value; text has none. -/
def asSetter? : Value → Option Setter
  | .text .. => none
  | .setter s => some s
  | .ctor c => some c.setter

/-- The constructor that a value is, if it is one. -/
def asCtor? : Value → Option Ctor
  | .ctor c => some c
  | _ => none

/-- Whether a value is text. -/
def isText : Value → Bool
  | .text .. => true
  | _ => false

end Value

mutual

/-- Marks a value and everything below it as style content. -/
def Value.markFromStyle : Value → Value
  | .text t _ p => .text t true p
  | .setter s => .setter (markSetter s)
  | .ctor c => .ctor { c with setter := markSetter c.setter }

/-- Marks a setter and everything below it as style content. -/
def markSetter (s : Setter) : Setter :=
  { s with
    fromStyle := true
    properties := ⟨markProperties s.properties.entries⟩
    handlers := ⟨s.handlers.entries.map fun (k, h) => (k, { h with fromStyle := true })⟩
    environment := ⟨s.environment.entries.map fun (k, e) => (k, { e with fromStyle := true })⟩
    instanceName := s.instanceName.map fun n => { n with fromStyle := true } }

/-- Marks the values of every property as style content. -/
def markProperties : List (String × Property) → List (String × Property)
  | [] => []
  | (k, p) :: rest => (k, { p with values := markValues p.values }) :: markProperties rest

/-- Marks each value of a list as style content. -/
def markValues : List Value → List Value
  | [] => []
  | v :: vs => v.markFromStyle :: markValues vs

end

/-- Marks a setter and everything below it as style content. -/
def SetterOf.markFromStyle (s : Setter) : Setter := markSetter s

/-- Adds the entries of `template` whose names are not taken yet, merging nothing into an entry
already there; the instance name only when there is none. -/
def SetterOf.attach (s template : Setter) : Setter :=
  { s with
    properties := template.properties.entries.foldl (fun m (k, v) => m.insertIfAbsent k v) s.properties
    handlers := template.handlers.entries.foldl (fun m (k, v) => m.insertIfAbsent k v) s.handlers
    environment :=
      template.environment.entries.foldl (fun m (k, v) => m.insertIfAbsent k v) s.environment
    instanceName := s.instanceName <|> template.instanceName }

namespace CtorOf

/-- `ns:Type`, or `Type` without a namespace. -/
def qualifiedName (c : Ctor) : String :=
  match c.typeNamespace with
  | some ns => ns ++ ":" ++ c.typeName
  | none => c.typeName

/-- The `ref.Name` of a constructor. -/
def instanceName? (c : Ctor) : Option String :=
  c.setter.instanceName.map (·.name)

end CtorOf

end GuiMarkup
