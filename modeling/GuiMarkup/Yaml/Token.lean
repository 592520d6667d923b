/-! YAML tokens, marks (UTF-8 byte index and 0-based line and column) and faults. -/

namespace GuiMarkup.Yaml

/-- A place in a YAML text: byte index in UTF-8, 0-based line and column. -/
structure Mark where
  index : Nat := 0
  line : Nat := 0
  column : Nat := 0
deriving DecidableEq, Repr, Inhabited

/-- Whether a mark is the start of the text, which is not worth showing. -/
def Mark.isStart (m : Mark) : Bool := m.line == 0 && m.column == 0

/-- `line L column C`, counted from 1; at the start of the text, its index. -/
def Mark.text (m : Mark) : String :=
  if m.isStart then "position " ++ toString m.index
  else "line " ++ toString (m.line + 1) ++ " column " ++ toString (m.column + 1)

/-- What went wrong while reading YAML text. -/
structure Fault where
  problem : String
  /-- Where the problem was seen. -/
  mark : Mark := {}
  /-- The byte offset of a character the text may not hold. -/
  offset : Nat := 0
  /-- What was being read when the problem came up, and where that began. -/
  context : Option (String × Mark) := none
deriving Repr, Inhabited

/-- The text of a fault: the problem and its mark, then the context and its mark when
that mark adds something. -/
def Fault.message (f : Fault) : String :=
  let head :=
    if !f.mark.isStart then f.problem ++ " at " ++ f.mark.text
    else if f.offset != 0 then f.problem ++ " at position " ++ toString f.offset
    else f.problem
  match f.context with
  | none => head
  | some (c, m) =>
    if !m.isStart && (m.line != f.mark.line || m.column != f.mark.column) then
      head ++ ", " ++ c ++ " at " ++ m.text
    else head ++ ", " ++ c

/-- How a scalar was written. -/
inductive ScalarStyle where
  | plain
  | singleQuoted
  | doubleQuoted
  | literal
  | folded
deriving DecidableEq, Repr, Inhabited

/-- The kinds of token. -/
inductive TokenKind where
  | streamStart
  | streamEnd
  | versionDirective (major minor : Nat)
  | tagDirective (handle uri : String)
  | documentStart
  | documentEnd
  | blockSequenceStart
  | blockMappingStart
  | blockEnd
  | flowSequenceStart
  | flowSequenceEnd
  | flowMappingStart
  | flowMappingEnd
  | blockEntry
  | flowEntry
  | key
  | value
  | alias (name : String)
  | anchor (name : String)
  | tag (handle suffix : String)
  | scalar (text : String) (style : ScalarStyle)
deriving DecidableEq, Repr, Inhabited

/-- A token and the marks where it starts and stops. -/
structure Token where
  kind : TokenKind
  start : Mark
  stop : Mark
deriving Repr, Inhabited

end GuiMarkup.Yaml
