import GuiMarkup.Text.Blank
import GuiMarkup.Text.Position
import GuiMarkup.Text.Quoted
import GuiMarkup.Markup.Entity
import GuiMarkup.Markup.Lexer
import GuiMarkup.Markup.AttributeList
import GuiMarkup.Markup.Tree

/-! Reading a markup tree with the stretch of text of every part; text is unescaped and
trimmed, and touching CDATA sections merge. A leading byte-order mark is dropped without
being counted, so later positions show three bytes early. -/

namespace GuiMarkup.Markup

open GuiMarkup.Text

/-- Why a text is no markup document. -/
inductive ReadError where
  /-- The lexer found a fault. -/
  | malformed (pos : Pos) (fault : Fault)
  /-- Non-blank text stands outside the root element. -/
  | textOutside (pos : Pos)
  /-- A CDATA section stands outside the root element. -/
  | cdataOutside (pos : Pos)
  /-- An end tag closes no element. -/
  | unexpectedClose (pos : Pos)
  /-- The element opened at `pos` is never closed. -/
  | unclosed (pos : Pos) (name : String)
  /-- Text or an attribute value holds a bad entity reference. -/
  | entity (error : EntityError)
  /-- The attributes of a tag are malformed. -/
  | attribute (fault : AttributeFault)
  /-- There is no element at all. -/
  | empty
  /-- A second element follows the root. -/
  | multipleRoots
  /-- A text node is measured from (when `atStart`) or to byte offset `byte` of the whole
  text, which lies inside the character `inside` whose bytes start at `charStart`. -/
  | splitCharacter (atStart : Bool) (byte : Nat) (inside : Char) (charStart : Nat)
deriving Repr

namespace ReadError

/-- The position that a syntax error is reported at. -/
def position? : ReadError → Option Pos
  | .malformed p _ | .textOutside p | .cdataOutside p | .unexpectedClose p
  | .unclosed p _ => some p
  | _ => none

/-- The explanation of a syntax error, without its position. -/
def detail : ReadError → String
  | .malformed _ f => f.message
  | .textOutside _ => "text outside of the root element"
  | .cdataOutside _ => "CDATA outside of the root element"
  | .unexpectedClose _ => "unexpected closing tag"
  | .unclosed _ name => s!"element <{name}> is never closed"
  | .entity e => e.message
  | .attribute f => f.message
  | .empty => "no root element found"
  | .multipleRoots => "A document must have exactly one root element"
  | .splitCharacter atStart b c first =>
    let side := if atStart then "start" else "end"
    let shown := quoteChar c
    let stop := first + c.utf8Size
    s!"{side} byte index {b} is not a char boundary; it is inside {shown} (bytes {first}..{stop} of string)"

def message (e : ReadError) : String :=
  match e with
  | .entity err => "XML error: " ++ err.message
  | .attribute f => "XML attribute error: " ++ f.message
  | .empty => "Empty document: no root element found"
  | .multipleRoots =>
    "Multiple root elements found. A document must have exactly one root element"
  | .splitCharacter .. => e.detail
  | _ =>
    match e.position? with
    | some p => s!"XML parse error at line {p.line}, column {p.column}: " ++ e.detail
    | none => e.detail

end ReadError

/-- The characters of a text that end within its first `n` bytes. -/
def takeBytes : Nat → List Char → List Char
  | _, [] => []
  | n, c :: cs => if c.utf8Size ≤ n then c :: takeBytes (n - c.utf8Size) cs else []

/-- The characters of a text after those that end within its first `n` bytes. -/
def dropBytes : Nat → List Char → List Char
  | _, [] => []
  | n, c :: cs => if c.utf8Size ≤ n then dropBytes (n - c.utf8Size) cs else c :: cs

/-- The character that byte offset `b` falls inside, past its first byte, with the offset of
that byte, for a text starting at byte `first`. -/
def straddling (b : Nat) : List Char → Nat → Option (Char × Nat)
  | [], _ => none
  | c :: cs, first =>
    if b ≤ first then none
    else if b < first + c.utf8Size then some (c, first)
    else straddling b cs (first + c.utf8Size)

/-- The characters between two byte offsets; `none` when they are out of order, past the end,
or inside a character. -/
def sliceBytes? (cs : List Char) (a b : Nat) : Option (List Char) :=
  if decide (a ≤ b) && decide (b ≤ utf8Length cs) && (straddling a cs 0).isNone &&
      (straddling b cs 0).isNone then
    some (takeBytes (b - a) (dropBytes a cs))
  else none

/-- A search of an ascending list: `.ok i` when `x` is its element `i`, and otherwise
`.error i`, where `i` is the index at which `x` would keep the list ascending. -/
def searchSorted (xs : List Nat) (x : Nat) : Except Nat Nat :=
  let i := (xs.takeWhile (· < x)).length
  if xs[i]? == some x then .ok i else .error i

/-- The byte offsets just past the line feeds of a text whose first byte is at `b`. -/
def lineFeedsFrom (b : Nat) : List Char → List Nat
  | [] => []
  | c :: cs =>
    if c = '\n' then (b + 1) :: lineFeedsFrom (b + 1) cs
    else lineFeedsFrom (b + c.utf8Size) cs

/-- A text with the byte offsets where its lines start. -/
structure LineIndex where
  source : List Char
  lineStarts : List Nat

namespace LineIndex

/-- The lines of a text start at its first byte and just past each line feed. -/
def new (source : List Char) : LineIndex :=
  ⟨source, 0 :: lineFeedsFrom 0 source⟩

/-- The line and column of a byte offset, the end for one past it: the last line that starts at
or before it, and the characters since, or the bytes inside a character. -/
def pos (ix : LineIndex) (offset : Nat) : Pos :=
  let offset := min offset (utf8Length ix.source)
  let line := match searchSorted ix.lineStarts offset with
    | .ok i => i
    | .error i => i - 1
  let lineStart := ix.lineStarts.getD line 0
  let column := match sliceBytes? ix.source lineStart offset with
    | some s => s.length
    | none => offset - lineStart
  ⟨line + 1, column + 1⟩

end LineIndex

/-- Where the offsets of a read text are shown: offsets count characters of `read`, and a
position is looked up at the same byte offset of `whole`. -/
structure Locator where
  /-- The text as given. -/
  whole : List Char
  /-- The text that is read: the whole text without a leading byte-order mark. -/
  read : List Char

namespace Locator

/-- Reads a text, dropping a leading byte-order mark. -/
def ofText (src : List Char) : Locator :=
  match src with
  | '\uFEFF' :: rest => ⟨src, rest⟩
  | _ => ⟨src, src⟩

/-- The byte offset of character offset `o` of the read text. -/
def byteOf (l : Locator) (o : Nat) : Nat :=
  utf8Length (l.read.take o)

/-- The position shown for a byte offset. -/
def posOfByte (l : Locator) (b : Nat) : Pos :=
  (LineIndex.new l.whole).pos b

/-- The position shown for character offset `o` of the read text. -/
def pos (l : Locator) (o : Nat) : Pos :=
  l.posOfByte (l.byteOf o)

/-- The stretch shown between two character offsets of the read text. -/
def span (l : Locator) (a b : Nat) : Span :=
  ⟨l.pos a, l.pos b⟩

/-- The characters of the whole text between two byte offsets; an offset inside a
character is an error, the start checked first. -/
def slice (l : Locator) (a b : Nat) : Except ReadError (List Char) :=
  match straddling a l.whole 0, straddling b l.whole 0 with
  | some (c, first), _ => .error (.splitCharacter true a c first)
  | none, some (c, first) => .error (.splitCharacter false b c first)
  | none, none => .ok (takeBytes (b - a) (dropBytes a l.whole))

end Locator

/-- The state of reading: open elements (innermost first, children newest first), the
root once closed, and the offset where the last CDATA section stopped. -/
structure Builder where
  stack : List Element := []
  root : Option Element := none
  cdataStop : Option Nat := none

/-- An attribute with its value unescaped; `base` is the offset of the tag content. -/
def readAttribute (loc : Locator) (base : Nat) (w : WrittenAttribute) :
    Except ReadError Attribute := do
  let value ← (unescape w.value).mapError .entity
  let valueStop := base + w.valueAt + w.value.length
  pure {
    name := String.ofList w.key
    value := String.ofList value
    nameSpan := loc.span (base + w.keyAt) (base + w.keyAt + w.key.length)
    valueSpan := loc.span (base + w.valueAt) valueStop
    span := loc.span (base + w.keyAt) (valueStop + 1) }

/-- A character that opens or closes an attribute value. -/
def isQuote (c : Char) : Bool := c == '"' || c == '\''

/-- The offset of the first occurrence of `needle` in a text; an empty needle occurs at once. -/
def findInfix (needle : List Char) : List Char → Option Nat
  | [] => if needle.isEmpty then some 0 else none
  | c :: cs => if needle.isPrefixOf (c :: cs) then some 0 else (findInfix needle cs).map (· + 1)

/-- Finds the attributes of a tag again in its text, for the stretches the tree keeps: each key
from a cursor past the value before it, each value after the first quote after its key. -/
def placeAttributes (content : List Char) : Nat → List WrittenAttribute → List WrittenAttribute
  | _, [] => []
  | cursor, w :: ws =>
    let keyAt := ((findInfix w.key (content.drop cursor)).map (cursor + ·)).getD cursor
    let afterKey := keyAt + w.key.length
    let quoteAt := (((content.drop afterKey).findIdx? isQuote).map (afterKey + ·)).getD afterKey
    { w with keyAt := keyAt, valueAt := quoteAt + 1 } ::
      placeAttributes content (min (quoteAt + 1 + w.value.length + 1) content.length) ws

/-- The element that a tag written from `start` to `stop` opens. -/
def openElement (loc : Locator) (content : List Char) (start stop : Nat) :
    Except ReadError Element := do
  let name := tagName content
  let base := start + 1
  let (written, fault) := attributesOf content name.length
  let attributes ← (placeAttributes content name.length written).mapM (readAttribute loc base)
  if let some f := fault then throw (.attribute f)
  pure {
    name := String.ofList name
    nameSpan := loc.span base (base + name.length)
    span := loc.span start stop
    attributes }

namespace Builder

/-- Hands a finished element to its parent, or makes it the root. -/
def close (b : Builder) (e : Element) : Except ReadError Builder :=
  let e := { e with children := e.children.reverse }
  match b.stack with
  | parent :: outer => .ok { b with stack := { parent with children := .element e :: parent.children } :: outer }
  | [] =>
    match b.root with
    | none => .ok { b with root := some e }
    | some _ => .error .multipleRoots

/-- Adds text written from `start` to `stop`. Its stretch leaves out the blanks at the
ends of the bytes that the whole text holds between the two offsets. -/
def addText (loc : Locator) (b : Builder) (raw : List Char) (start stop : Nat) :
    Except ReadError Builder := do
  let (first, last) := (loc.byteOf start, loc.byteOf stop)
  let shown ← loc.slice first last
  let content ← (unescape raw).mapError .entity
  let kept := trim content
  if kept.isEmpty then return b
  match b.stack with
  | [] => throw (.textOutside (loc.pos start))
  | parent :: outer =>
    let lead := utf8Length shown - utf8Length (trimStart shown)
    let trail := utf8Length shown - utf8Length (trimEnd shown)
    let node := Node.text (String.ofList kept) ⟨loc.posOfByte (first + lead), loc.posOfByte (last - trail)⟩
    pure { b with stack := { parent with children := node :: parent.children } :: outer }

/-- Adds a CDATA section written from `start` to `stop`; it continues the previous section
when that one stopped right at `start`. -/
def addCData (loc : Locator) (b : Builder) (content : List Char) (start stop : Nat) :
    Except ReadError Builder :=
  match b.stack with
  | [] => .error (.cdataOutside (loc.pos start))
  | parent :: outer =>
    let children :=
      match parent.children with
      | .cdata prev span :: older =>
        if b.cdataStop = some start then
          .cdata (prev ++ String.ofList content) { span with stop := loc.pos stop } :: older
        else .cdata (String.ofList content) (loc.span start stop) :: parent.children
      | _ => .cdata (String.ofList content) (loc.span start stop) :: parent.children
    .ok { stack := { parent with children } :: outer, root := b.root, cdataStop := some stop }

/-- Takes one lexeme into the tree. -/
def step (loc : Locator) (b : Builder) (lx : Lexeme) : Except ReadError Builder :=
  match lx.piece with
  | .openTag content => do
    let e ← openElement loc content lx.start lx.stop
    pure { b with stack := e :: b.stack }
  | .emptyTag content => do
    let e ← openElement loc content lx.start lx.stop
    b.close e
  | .closeTag _ =>
    match b.stack with
    | [] => .error (.unexpectedClose (loc.pos lx.start))
    | e :: outer =>
      { b with stack := outer }.close { e with span := { e.span with stop := loc.pos lx.stop } }
  | .text raw => b.addText loc raw lx.start lx.stop
  | .cdata content => b.addCData loc content lx.start lx.stop
  | .ignorable => .ok b

end Builder

/-- Reads a markup document into its root element. -/
def readDocument (text : String) : Except ReadError Element := do
  let loc := Locator.ofText text.toList
  let (lxs, fault) := lexemes loc.read
  let b ← lxs.foldlM (Builder.step loc) {}
  if let some (f, off) := fault then throw (.malformed (loc.pos off) f)
  if let e :: _ := b.stack then throw (.unclosed e.span.start e.name)
  match b.root with
  | some root => pure root
  | none => throw .empty

end GuiMarkup.Markup
