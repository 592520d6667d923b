import GuiMarkup.Text.Blank

/-! Cutting markup text into character data and markup pieces with the character offsets
where each starts and stops. The lexer keeps the open tags, since an end tag must name the
innermost one. -/

namespace GuiMarkup.Markup

open GuiMarkup.Text

/-- A piece of markup text. -/
inductive Piece where
  /-- Character data, as written. -/
  | text (raw : List Char)
  /-- A start tag; `content` is what stands between `<` and `>`. -/
  | openTag (content : List Char)
  /-- A self-closing tag; `content` stands between `<` and `/>`. -/
  | emptyTag (content : List Char)
  /-- An end tag that names the innermost open tag. -/
  | closeTag (name : List Char)
  /-- A CDATA section and its content. -/
  | cdata (content : List Char)
  /-- A comment, declaration, processing instruction or document type. -/
  | ignorable
deriving Repr, DecidableEq

/-- A piece with the character offsets where it starts and stops. -/
structure Lexeme where
  piece : Piece
  start : Nat
  stop : Nat
deriving Repr, DecidableEq

/-- Why a text is no well-formed markup. -/
inductive Fault where
  | invalidBang
  | unclosedInstruction
  | unclosedComment
  | unclosedDoctype
  | unclosedCData
  | unclosedTag
  | missingDoctypeName
  | unmatchedClose (found : String)
  | mismatchedClose (expected found : String)
deriving Repr, DecidableEq

def Fault.message : Fault → String
  | .invalidBang => "syntax error: unknown or missed symbol in markup"
  | .unclosedInstruction =>
    "syntax error: processing instruction or xml declaration not closed: `?>` not found before end of input"
  | .unclosedComment => "syntax error: comment not closed: `-->` not found before end of input"
  | .unclosedDoctype => "syntax error: DOCTYPE not closed: `>` not found before end of input"
  | .unclosedCData => "syntax error: CDATA not closed: `]]>` not found before end of input"
  | .unclosedTag => "syntax error: tag not closed: `>` not found before end of input"
  | .missingDoctypeName =>
    "ill-formed document: `<!DOCTYPE>` declaration does not contain a name of a document type"
  | .unmatchedClose found =>
    s!"ill-formed document: close tag `</{found}>` does not match any open tag"
  | .mismatchedClose expected found =>
    s!"ill-formed document: expected `</{expected}>`, but `</{found}>` was found"

/-- Splits at the first `>` whose reversed prefix `acc` passes `ok`; the `>` is dropped. -/
def splitAtClose (ok : List Char → Bool) : List Char → List Char → Option (List Char × List Char)
  | _, [] => none
  | acc, c :: rest =>
    if c = '>' ∧ ok acc then some (acc.reverse, rest) else splitAtClose ok (c :: acc) rest

/-- Splits a tag at its closing `>`; a `>` inside single or double quotes does not count. -/
def splitTag : Option Char → List Char → List Char → Option (List Char × List Char)
  | _, _, [] => none
  | none, acc, c :: rest =>
    if c = '>' then some (acc.reverse, rest)
    else if c = '"' ∨ c = '\'' then splitTag (some c) (c :: acc) rest
    else splitTag none (c :: acc) rest
  | some q, acc, c :: rest =>
    if c = q then splitTag none (c :: acc) rest else splitTag (some q) (c :: acc) rest

/-- Splits a document type at the `>` that balances the `<` read inside it. -/
def splitDoctype : Nat → List Char → List Char → Option (List Char × List Char)
  | _, _, [] => none
  | depth, acc, c :: rest =>
    if c = '<' then splitDoctype (depth + 1) (c :: acc) rest
    else if c = '>' then
      if depth = 0 then some (acc.reverse, rest) else splitDoctype (depth - 1) (c :: acc) rest
    else splitDoctype depth (c :: acc) rest

/-- ASCII lower case of a character. -/
def asciiLower (c : Char) : Char :=
  if 'A' ≤ c ∧ c ≤ 'Z' then Char.ofNat (c.toNat + 32) else c

/-- Whether `cs` starts with `word`, ignoring ASCII case. -/
def startsWithFolded (cs word : List Char) : Bool :=
  word.length ≤ cs.length && (cs.take word.length).map asciiLower == word.map asciiLower

/-- The name of a tag: its content up to the first markup space. -/
def tagName (content : List Char) : List Char :=
  content.takeWhile (fun c => !isMarkupSpace c)

/-- A name without the markup spaces at its end, unless it is all spaces. -/
def trimCloseName (name : List Char) : List Char :=
  let kept := (name.reverse.dropWhile isMarkupSpace).reverse
  if kept.isEmpty then name else kept

/-- One step after a lexeme: the rest of the text, its offset and the open tag names. -/
structure Cursor where
  rest : List Char
  offset : Nat
  opened : List (List Char)

/-- Reads the piece of markup whose `<` stands at offset `p`; `after` follows the `<`. -/
def markup (p : Nat) (after : List Char) (opened : List (List Char)) :
    Except (Fault × Nat) (Lexeme × Cursor) :=
  let done (piece : Piece) (inner rest : List Char) (opened' : List (List Char)) :=
    let stop := p + inner.length + 2
    Except.ok (⟨piece, p, stop⟩, ⟨rest, stop, opened'⟩)
  match after with
  | [] => .error (.unclosedTag, p)
  | '!' :: bang =>
    match bang with
    | '[' :: _ =>
      match splitAtClose (fun acc => acc.take 2 == [']', ']']) [] ('!' :: bang) with
      | none => .error (.unclosedCData, p)
      | some (inner, rest) =>
        if "![CDATA[".toList.isPrefixOf inner then
          done (.cdata ((inner.drop 8).dropLast.dropLast)) inner rest opened
        else .error (.unclosedCData, p)
    | '-' :: _ =>
      match splitAtClose (fun acc => acc.length > 4 && acc.take 2 == ['-', '-']) [] ('!' :: bang) with
      | none => .error (.unclosedComment, p)
      | some (inner, rest) =>
        if inner.take 3 == "!--".toList then done .ignorable inner rest opened
        else .error (.unclosedComment, p)
    | c :: _ =>
      if c = 'D' ∨ c = 'd' then
        match splitDoctype 0 [] ('!' :: bang) with
        | none => .error (.unclosedDoctype, p)
        | some (inner, rest) =>
          if startsWithFolded inner "!DOCTYPE".toList then
            if (inner.drop 8).all isMarkupSpace then
              .error (.missingDoctypeName, p + inner.length + 1)
            else done .ignorable inner rest opened
          else .error (.unclosedDoctype, p)
      else .error (.invalidBang, p)
    | [] => .error (.invalidBang, p)
  | '/' :: close =>
    match splitTag none [] ('/' :: close) with
    | none => .error (.unclosedTag, p)
    | some (inner, rest) =>
      let name := trimCloseName (inner.drop 1)
      match opened with
      | [] => .error (.unmatchedClose (String.ofList name), p)
      | expected :: outer =>
        if name = expected then done (.closeTag name) inner rest outer
        else .error (.mismatchedClose (String.ofList expected) (String.ofList name), p)
  | '?' :: instr =>
    match splitAtClose (fun acc => acc.head? == some '?') [] ('?' :: instr) with
    | none => .error (.unclosedInstruction, p)
    | some (inner, rest) =>
      if inner.length > 1 && inner.getLast? == some '?' then done .ignorable inner rest opened
      else .error (.unclosedInstruction, p)
  | c :: tag =>
    match splitTag none [] (c :: tag) with
    | none => .error (.unclosedTag, p)
    | some (inner, rest) =>
      if inner.getLast? == some '/' then done (.emptyTag inner.dropLast) inner rest opened
      else done (.openTag inner) inner rest (tagName inner :: opened)

/-- Reads the next lexeme at a cursor, or `none` at the end of the text. -/
def next (cur : Cursor) : Except (Fault × Nat) (Option (Lexeme × Cursor)) :=
  match cur.rest with
  | [] => .ok none
  | '<' :: after => (markup cur.offset after cur.opened).map some
  | c :: cs =>
    let (raw, rest) := (c :: cs).span (· != '<')
    let stop := cur.offset + raw.length
    .ok (some (⟨.text raw, cur.offset, stop⟩, ⟨rest, stop, cur.opened⟩))

/-- Lexemes read with at most `fuel` steps, then the fault that stopped the lexer. -/
def lexemesWith : Nat → Cursor → List Lexeme × Option (Fault × Nat)
  | 0, _ => ([], none)
  | fuel + 1, cur =>
    match next cur with
    | .error f => ([], some f)
    | .ok none => ([], none)
    | .ok (some (lx, cur')) =>
      let (more, fault) := lexemesWith fuel cur'
      (lx :: more, fault)

/-- The lexemes of a text in order, then the fault that stopped the lexer, if any. Every
step reads at least one character, so one step per character is enough. -/
def lexemes (text : List Char) : List Lexeme × Option (Fault × Nat) :=
  lexemesWith (text.length + 1) ⟨text, 0, []⟩

end GuiMarkup.Markup
