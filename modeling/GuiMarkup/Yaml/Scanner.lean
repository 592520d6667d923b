import GuiMarkup.Yaml.Token

/-! Reading YAML text into tokens. A possible simple key holds back every token from its
place on until the scanner knows whether a `key` token goes in front. -/

namespace GuiMarkup.Yaml

/-- A line break: line feed, carriage return, next line, line or paragraph separator. -/
def isBreak (c : Char) : Bool :=
  c == '\n' || c == '\r' || c == '\u0085' || c == '\u2028' || c == '\u2029'

/-- A space or a tab. -/
def isBlank (c : Char) : Bool := c == ' ' || c == '\t'

/-- An ASCII letter or digit, `_` or `-`: the characters of anchor names and tag handles. -/
def isWordChar (c : Char) : Bool := c.isAlphanum || c == '_' || c == '-'

/-- A hexadecimal digit. -/
def isHexDigit (c : Char) : Bool :=
  c.isDigit || ('a' ≤ c && c ≤ 'f') || ('A' ≤ c && c ≤ 'F')

/-- The value of a hexadecimal digit. -/
def hexValue (c : Char) : Nat :=
  if c.isDigit then c.toNat - 48 else if 'a' ≤ c ∧ c ≤ 'f' then c.toNat - 87 else c.toNat - 55

/-- A character that YAML text may hold: tab, line feed, carriage return, the printable
ASCII characters, next line, and the rest of Unicode above `U+009F` but for `U+FFFE` and
`U+FFFF`. -/
def isAllowed (c : Char) : Bool :=
  let n := c.toNat
  n == 0x09 || n == 0x0A || n == 0x0D || (0x20 ≤ n && n ≤ 0x7E) || n == 0x85 ||
    (0xA0 ≤ n && n ≤ 0xD7FF) || (0xE000 ≤ n && n ≤ 0xFFFD) || 0x10000 ≤ n

/-- A characters of a tag that may follow its handle. -/
def isUriChar (flowMarks : Bool) (c : Char) : Bool :=
  isWordChar c || ";/?:@&=+$.%!~*'()".toList.contains c || (flowMarks && ",[]".toList.contains c)

/-- A place where a mapping key may have begun. -/
structure SimpleKey where
  possible : Bool := false
  /-- A key at the indentation of its block mapping must be followed by `:`. -/
  required : Bool := false
  /-- The index its `key` token gets. -/
  tokenNumber : Nat := 0
  mark : Mark := {}
deriving Repr, Inhabited

/-- The state of the scanner. -/
structure Scanner where
  rest : List Char
  mark : Mark := {}
  tokens : Array Token := #[]
  /-- The column of the innermost block collection; `-1` at the top. -/
  indent : Int := -1
  indents : List Int := []
  /-- Whether a simple key may start here. -/
  keyAllowed : Bool := false
  /-- One place per flow level, innermost first. -/
  keys : List SimpleKey := []
  flowLevel : Nat := 0
deriving Inhabited

/-- Scanning steps: they change the scanner, and a fault keeps the scanner as it was then. -/
abbrev ScanM := ExceptT Fault (StateM Scanner)

/-- Puts a token at index `i` of an array. -/
def insertToken (i : Nat) (t : Token) (ts : Array Token) : Array Token :=
  (ts.toList.take i ++ t :: ts.toList.drop i).toArray

namespace Scanner

/-- The number of tokens a reader can take: all before the first undecided key. -/
def available (s : Scanner) : Nat :=
  s.keys.foldl (fun n k => if k.possible then min n k.tokenNumber else n) s.tokens.size

/-- The character `k` places ahead. -/
def peekAt (k : Nat) : ScanM (Option Char) := return (← get).rest[k]?

/-- Whether the character `k` places ahead is `c`. -/
def isAt (k : Nat) (c : Char) : ScanM Bool := return (← get).rest[k]? == some c

/-- Whether the character `k` places ahead is a blank, a break, or past the end. -/
def blankzAt (k : Nat) : ScanM Bool :=
  return match (← get).rest[k]? with
    | none => true
    | some c => isBlank c || isBreak c

/-- Whether the character `k` places ahead is a line break. -/
def breakAt (k : Nat) : ScanM Bool := return ((← get).rest[k]?.map isBreak).getD false

/-- Whether the character `k` places ahead is a line break or past the end. -/
def breakzAt (k : Nat) : ScanM Bool := return ((← get).rest[k]?.map isBreak).getD true

/-- Whether the next character is a space or a tab. -/
def blankNext : ScanM Bool := return ((← get).rest.head?.map isBlank).getD false

/-- Whether a document marker `---` or `...` starts at the beginning of this line. -/
def atDocumentMarker : ScanM Bool := do
  let s ← get
  let marker := match s.rest with
    | '-' :: '-' :: '-' :: _ => true
    | '.' :: '.' :: '.' :: _ => true
    | _ => false
  return s.mark.column == 0 && marker && (← blankzAt 3)

/-- The number of characters left, a bound on the steps of any loop. -/
def fuel : ScanM Nat := return (← get).rest.length + 1

/-- Steps over one character that is not a line break: one column, and as many bytes of
index as the character takes in UTF-8. -/
def skip : ScanM Unit := modify fun s =>
  match s.rest with
  | [] => s
  | c :: r =>
    { s with rest := r, mark := ⟨s.mark.index + c.utf8Size, s.mark.line, s.mark.column + 1⟩ }

/-- Steps over one character and returns it. -/
def read : ScanM Char := do
  let c := (← get).rest.headD ' '
  skip
  pure c

/-- Steps over a line break; CR LF is one break. -/
def skipLine : ScanM Unit := modify fun s =>
  match s.rest with
  | '\r' :: '\n' :: r => { s with rest := r, mark := ⟨s.mark.index + 2, s.mark.line + 1, 0⟩ }
  | c :: r =>
    if isBreak c then { s with rest := r, mark := ⟨s.mark.index + c.utf8Size, s.mark.line + 1, 0⟩ }
    else s
  | [] => s

/-- Steps over a line break and returns what it stands for in a scalar: a line feed, or
the line or paragraph separator itself. -/
def readLine : ScanM String := do
  let c := (← get).rest.head?
  skipLine
  pure <| match c with
    | some '\u2028' => "\u2028"
    | some '\u2029' => "\u2029"
    | some _ => "\n"
    | none => ""

/-- Steps over characters while a test holds. -/
def skipWhile (test : ScanM Bool) : ScanM Unit := do
  for _ in List.range (← fuel) do
    if !(← test) then break
    skip

/-- Reads characters while they pass a test. -/
def readWhile (test : Char → Bool) : ScanM String := do
  let mut out := ""
  for _ in List.range (← fuel) do
    match (← get).rest.head? with
    | some c => if test c then out := out.push (← read) else break
    | none => break
  pure out

/-- Adds a token at the end. -/
def emit (kind : TokenKind) (start stop : Mark) : ScanM Unit :=
  modify fun s => { s with tokens := s.tokens.push ⟨kind, start, stop⟩ }

/-- Fails at the current mark, with no context. -/
def fail {α : Type} (problem : String) : ScanM α := do
  throw { problem, mark := (← get).mark }

/-- Fails at the current mark, while reading something that began at `start`. -/
def failIn {α : Type} (context : String) (start : Mark) (problem : String) : ScanM α := do
  throw { problem, mark := (← get).mark, context := some (context, start) }

/-- The fault of a key that no `:` followed. -/
def keyFault (m : Mark) (k : SimpleKey) : Fault :=
  { problem := "could not find expected ':'", mark := m,
    context := some ("while scanning a simple key", k.mark) }

/-- Gives up the keys that can no longer be keys: those on an earlier line, or more than
1024 bytes back. Giving up a required key is a fault. -/
def staleKeys : ScanM Unit := do
  let s ← get
  let check (k : SimpleKey) : Except Fault SimpleKey :=
    if k.possible && (k.mark.line < s.mark.line || k.mark.index + 1024 < s.mark.index) then
      if k.required then .error (keyFault s.mark k) else .ok { k with possible := false }
    else .ok k
  match s.keys.reverse.mapM check with
  | .ok ks => set { s with keys := ks.reverse }
  | .error f => throw f

/-- Gives up the key of the current flow level; a required one is a fault. -/
def removeKey : ScanM Unit := do
  let s ← get
  match s.keys with
  | k :: ks =>
    if k.possible && k.required then throw (keyFault s.mark k)
    set { s with keys := { k with possible := false } :: ks }
  | [] => pure ()

/-- Remembers that a key may begin here, if one may. -/
def saveKey : ScanM Unit := do
  let s ← get
  if s.keyAllowed then
    let key : SimpleKey :=
      { possible := true, required := s.flowLevel == 0 && s.indent == (s.mark.column : Int),
        tokenNumber := s.tokens.size, mark := s.mark }
    removeKey
    modify fun s => { s with keys := key :: s.keys.drop 1 }

/-- Sets whether a key may begin next. -/
def allowKey (b : Bool) : ScanM Unit := modify fun s => { s with keyAllowed := b }

/-- Enters a flow collection. -/
def enterFlow : ScanM Unit :=
  modify fun s => { s with keys := {} :: s.keys, flowLevel := s.flowLevel + 1 }

/-- Leaves a flow collection. -/
def leaveFlow : ScanM Unit := modify fun s =>
  if s.flowLevel > 0 then { s with flowLevel := s.flowLevel - 1, keys := s.keys.drop 1 } else s

/-- Opens a block collection at `column` if it is deeper than the current one; its start
token goes at index `number`, or at the end. -/
def rollIndent (column : Nat) (number : Option Nat) (kind : TokenKind) (mark : Mark) :
    ScanM Unit := modify fun s =>
  if s.flowLevel == 0 && s.indent < (column : Int) then
    let t : Token := ⟨kind, mark, mark⟩
    { s with indents := s.indent :: s.indents, indent := (column : Int),
             tokens := match number with
               | none => s.tokens.push t
               | some i => insertToken i t s.tokens }
  else s

/-- Closes the block collections deeper than `column`, one `blockEnd` each. -/
def popIndents (column : Int) (mark : Mark) :
    Int → List Int → Array Token → Int × List Int × Array Token
  | indent, i :: is, ts =>
    if indent > column then popIndents column mark i is (ts.push ⟨.blockEnd, mark, mark⟩)
    else (indent, i :: is, ts)
  | indent, [], ts => (indent, [], ts)

/-- Closes the block collections deeper than `column`; nothing in flow context. -/
def unrollIndent (column : Int) : ScanM Unit := modify fun s =>
  if s.flowLevel != 0 then s
  else
    let (indent, indents, tokens) := popIndents column s.mark s.indent s.indents s.tokens
    { s with indent, indents, tokens }

/-- Skips blanks, comments and line breaks up to the next token. A byte order mark at the
start of a line is skipped like a blank. Tabs are skipped in flow context and where no key
may start; a line break in block context lets a key start. -/
def skipToToken : ScanM Unit := do
  for _ in List.range (← fuel) do
    let s ← get
    if s.mark.column == 0 && s.rest.head? == some '\uFEFF' then skip
    skipWhile do
      let s ← get
      pure <| match s.rest with
        | ' ' :: _ => true
        | '\t' :: _ => s.flowLevel > 0 || !s.keyAllowed
        | _ => false
    if ← isAt 0 '#' then skipWhile (return !(← breakzAt 0))
    if ← breakAt 0 then
      skipLine
      if (← get).flowLevel == 0 then allowKey true
    else break

/-- The first token. -/
def fetchStreamStart : ScanM Unit := do
  modify fun s => { s with indent := -1, keys := [{}], keyAllowed := true }
  let m := (← get).mark
  emit .streamStart m m

/-- The last token, on a line of its own. -/
def fetchStreamEnd : ScanM Unit := do
  modify fun s =>
    if s.mark.column != 0 then { s with mark := ⟨s.mark.index, s.mark.line + 1, 0⟩ } else s
  unrollIndent (-1)
  removeKey
  allowKey false
  let m := (← get).mark
  emit .streamEnd m m

/-- Reads the digits of a version number, at most nine: a tenth digit is a fault where it stands. -/
def versionNumber (start : Mark) : ScanM Nat := do
  let mut value := 0
  let mut length := 0
  for _ in List.range (← fuel) do
    match (← get).rest.head? with
    | some c =>
      if !c.isDigit then break
      if length == 9 then
        failIn "while scanning a %YAML directive" start "found extremely long version number"
      value := 10 * value + (c.toNat - 48)
      length := length + 1
      skip
    | none => break
  if length == 0 then
    failIn "while scanning a %YAML directive" start "did not find expected version number"
  pure value

/-- Reads a tag handle: `!`, word characters, and a closing `!` if there is one. In a
directive the handle must be `!` or closed by `!`. -/
def tagHandle (directive : Bool) (start : Mark) : ScanM String := do
  if !(← isAt 0 '!') then
    failIn (if directive then "while scanning a tag directive" else "while scanning a tag") start
      "did not find expected '!'"
  let first ← read
  let word ← readWhile isWordChar
  let handle := first.toString ++ word
  if ← isAt 0 '!' then
    let _ ← read
    pure (handle ++ "!")
  else if directive && handle != "!" then
    failIn "while parsing a tag directive" start "did not find expected '!'"
  else pure handle

/-- The number of octets of a UTF-8 sequence that starts with octet `o`; `0` when `o`
starts none. -/
def utf8Width (o : Nat) : Nat :=
  if o < 0x80 then 1 else if o / 32 == 6 then 2 else if o / 16 == 14 then 3
  else if o / 8 == 30 then 4 else 0

/-- The character that a UTF-8 sequence of octets stands for; a sequence that is too long
for its value, or names no character, stands for the replacement character. -/
def decodeOctets (os : List Nat) : Char :=
  let (code, least) := match os with
    | [a] => (a, 0)
    | [a, b] => ((a % 32) * 64 + b % 64, 0x80)
    | [a, b, c] => ((a % 16) * 4096 + (b % 64) * 64 + c % 64, 0x800)
    | [a, b, c, d] => ((a % 8) * 262144 + (b % 64) * 4096 + (c % 64) * 64 + d % 64, 0x10000)
    | _ => (0xFFFD, 0)
  if least ≤ code && code ≤ 0x10FFFF && !(0xD800 ≤ code && code ≤ 0xDFFF) then Char.ofNat code
  else '\uFFFD'

/-- Reads one character of a tag written as `%hh` escapes of its UTF-8 octets: a leading
octet, then as many trailing octets as the leading one announces. -/
def uriEscape (directive : Bool) (start : Mark) : ScanM Char := do
  let context := if directive then "while parsing a %TAG directive" else "while parsing a tag"
  let mut octets : List Nat := []
  let mut width := 0
  for _ in List.range 4 do
    let o ← match (← get).rest with
      | '%' :: a :: b :: _ =>
        if isHexDigit a && isHexDigit b then pure (16 * hexValue a + hexValue b)
        else failIn context start "did not find URI escaped octet"
      | _ => failIn context start "did not find URI escaped octet"
    if width == 0 then
      width := utf8Width o
      if width == 0 then failIn context start "found an incorrect leading UTF-8 octet"
    else if o / 64 != 2 then failIn context start "found an incorrect trailing UTF-8 octet"
    octets := octets ++ [o]
    skip; skip; skip
    if octets.length == width then break
  pure (decodeOctets octets)

/-- Reads the URI part of a tag, after the characters of `head` but its leading `!`. A tag
is kept as a text that ends at its first null character, so an escaped null cuts it
short there. -/
def tagUri (flowMarks directive : Bool) (head : String) (start : Mark) : ScanM String := do
  let mut out := String.ofList (head.toList.drop 1)
  let mut length := head.length
  for _ in List.range (← fuel) do
    match (← get).rest with
    | '%' :: _ =>
      out := out.push (← uriEscape directive start)
      length := length + 1
    | c :: _ =>
      if isUriChar flowMarks c then
        out := out.push (← read)
        length := length + 1
      else break
    | [] => break
  if length == 0 then
    failIn (if directive then "while parsing a %TAG directive" else "while parsing a tag") start
      "did not find expected tag URI"
  pure (String.ofList (out.toList.takeWhile (· != '\x00')))

/-- A directive line: `%YAML major.minor` or `%TAG handle uri`. -/
def fetchDirective : ScanM Unit := do
  unrollIndent (-1)
  removeKey
  allowKey false
  let start := (← get).mark
  skip
  let name ← readWhile isWordChar
  if name.isEmpty then
    failIn "while scanning a directive" start "could not find expected directive name"
  if !(← blankzAt 0) then
    failIn "while scanning a directive" start "found unexpected non-alphabetical character"
  if name == "YAML" then
    skipWhile blankNext
    let major ← versionNumber start
    if !(← isAt 0 '.') then
      failIn "while scanning a %YAML directive" start "did not find expected digit or '.' character"
    skip
    let minor ← versionNumber start
    emit (.versionDirective major minor) start (← get).mark
  else if name == "TAG" then
    skipWhile blankNext
    let handle ← tagHandle true start
    if !(← blankNext) then
      failIn "while scanning a %TAG directive" start "did not find expected whitespace"
    skipWhile blankNext
    let uri ← tagUri true true "" start
    if !(← blankzAt 0) then
      failIn "while scanning a %TAG directive" start "did not find expected whitespace or line break"
    emit (.tagDirective handle uri) start (← get).mark
  else
    failIn "while scanning a directive" start "found unknown directive name"
  skipWhile blankNext
  if ← isAt 0 '#' then skipWhile (return !(← breakzAt 0))
  if !(← breakzAt 0) then
    failIn "while scanning a directive" start "did not find expected comment or line break"
  if ← breakAt 0 then skipLine

/-- `---` or `...` at the start of a line. -/
def fetchDocumentMarker (kind : TokenKind) : ScanM Unit := do
  unrollIndent (-1)
  removeKey
  allowKey false
  let start := (← get).mark
  skip; skip; skip
  emit kind start (← get).mark

/-- A one-character indicator. -/
def fetchIndicator (kind : TokenKind) : ScanM Unit := do
  let start := (← get).mark
  skip
  emit kind start (← get).mark

/-- `[` or `{`. -/
def fetchFlowStart (kind : TokenKind) : ScanM Unit := do
  saveKey
  enterFlow
  allowKey true
  fetchIndicator kind

/-- `]` or `}`. -/
def fetchFlowEnd (kind : TokenKind) : ScanM Unit := do
  removeKey
  leaveFlow
  allowKey false
  fetchIndicator kind

/-- `,` between flow entries. -/
def fetchFlowEntry : ScanM Unit := do
  removeKey
  allowKey true
  fetchIndicator .flowEntry

/-- `-` before a block sequence entry; the first one opens the sequence. -/
def fetchBlockEntry : ScanM Unit := do
  let s ← get
  if s.flowLevel == 0 then
    if !s.keyAllowed then fail "block sequence entries are not allowed in this context"
    rollIndent s.mark.column none .blockSequenceStart s.mark
  removeKey
  allowKey true
  fetchIndicator .blockEntry

/-- `?` before an explicit key. -/
def fetchKey : ScanM Unit := do
  let s ← get
  if s.flowLevel == 0 then
    if !s.keyAllowed then fail "mapping keys are not allowed in this context"
    rollIndent s.mark.column none .blockMappingStart s.mark
  removeKey
  allowKey (s.flowLevel == 0)
  fetchIndicator .key

/-- `:` after a key. When a simple key is waiting, its `key` token goes where it began. -/
def fetchValue : ScanM Unit := do
  let s ← get
  match s.keys with
  | k :: ks =>
    if k.possible then
      set { s with tokens := insertToken k.tokenNumber ⟨.key, k.mark, k.mark⟩ s.tokens }
      rollIndent k.mark.column (some k.tokenNumber) .blockMappingStart k.mark
      modify fun s => { s with keys := { k with possible := false } :: ks, keyAllowed := false }
    else
      if s.flowLevel == 0 then
        if !s.keyAllowed then fail "mapping values are not allowed in this context"
        rollIndent s.mark.column none .blockMappingStart s.mark
      allowKey (s.flowLevel == 0)
  | [] => allowKey (s.flowLevel == 0)
  fetchIndicator .value

/-- `&name` or `*name`. -/
def fetchAnchor (isAlias : Bool) : ScanM Unit := do
  saveKey
  allowKey false
  let start := (← get).mark
  skip
  let name ← readWhile isWordChar
  let follows ← match ← peekAt 0 with
    | none => pure true
    | some c => pure (isBlank c || isBreak c || "?:,]\x7d%@`".toList.contains c)
  if name.isEmpty || !follows then
    failIn (if isAlias then "while scanning an alias" else "while scanning an anchor") start
      "did not find expected alphabetic or numeric character"
  emit (if isAlias then .alias name else .anchor name) start (← get).mark

/-- `!handle!suffix`, `!suffix`, `!` or `!<uri>`. -/
def fetchTag : ScanM Unit := do
  saveKey
  allowKey false
  let start := (← get).mark
  let (handle, suffix) ← do
    if ← isAt 1 '<' then
      skip; skip
      let suffix ← tagUri true false "" start
      if !(← isAt 0 '>') then failIn "while scanning a tag" start "did not find the expected '>'"
      skip
      pure ("", suffix)
    else
      let handle ← tagHandle false start
      if handle.length > 1 && handle.endsWith "!" then
        pure (handle, ← tagUri false false "" start)
      else
        let suffix ← tagUri false false handle start
        pure (if suffix.isEmpty then ("", "!") else ("!", suffix))
  if !(← blankzAt 0) then
    if (← get).flowLevel == 0 || !(← isAt 0 ',') then
      failIn "while scanning a tag" start "did not find expected whitespace or line break"
  emit (.tag handle suffix) start (← get).mark

/-- The indentation and empty lines of a block scalar. With `indent = 0` the indentation
is found here: the deepest of these lines, at least one more than the enclosing block. -/
def blockBreaks (indent : Nat) (start : Mark) : ScanM (Nat × String × Mark) := do
  let mut maxIndent := 0
  let mut breaks := ""
  let mut stop := (← get).mark
  for _ in List.range (← fuel) do
    skipWhile do
      let s ← get
      pure ((indent == 0 || s.mark.column < indent) && s.rest.head? == some ' ')
    let s ← get
    maxIndent := max maxIndent s.mark.column
    if (indent == 0 || s.mark.column < indent) && s.rest.head? == some '\t' then
      failIn "while scanning a block scalar" start
        "found a tab character where an indentation space is expected"
    if !(← breakAt 0) then break
    breaks := breaks ++ (← readLine)
    stop := (← get).mark
  if indent == 0 then
    let outer := (← get).indent + 1
    pure (max maxIndent (max outer.toNat 1), breaks, stop)
  else pure (indent, breaks, stop)

/-- A literal (`|`) or folded (`>`) block scalar. -/
def fetchBlockScalar (literal : Bool) : ScanM Unit := do
  removeKey
  allowKey true
  let start := (← get).mark
  skip
  let mut chomping : Int := 0
  let mut increment : Nat := 0
  let c ← peekAt 0
  if c == some '+' || c == some '-' then
    chomping := if c == some '+' then 1 else -1
    skip
    if let some d ← peekAt 0 then
      if d.isDigit then
        if d == '0' then
          failIn "while scanning a block scalar" start "found an indentation indicator equal to 0"
        increment := d.toNat - 48
        skip
  else if let some d := c then
    if d.isDigit then
      if d == '0' then
        failIn "while scanning a block scalar" start "found an indentation indicator equal to 0"
      increment := d.toNat - 48
      skip
      let c2 ← peekAt 0
      if c2 == some '+' || c2 == some '-' then
        chomping := if c2 == some '+' then 1 else -1
        skip
  skipWhile blankNext
  if ← isAt 0 '#' then skipWhile (return !(← breakzAt 0))
  if !(← breakzAt 0) then
    failIn "while scanning a block scalar" start "did not find expected comment or line break"
  if ← breakAt 0 then skipLine
  let outer := (← get).indent
  let mut indent : Nat := 0
  if increment > 0 then
    indent := if outer ≥ 0 then outer.toNat + increment else increment
  let (i, firstBreaks, firstStop) ← blockBreaks indent start
  indent := i
  let mut trailing := firstBreaks
  let mut stop := firstStop
  let mut text := ""
  let mut leadingBreak := ""
  let mut leadingBlank := false
  for _ in List.range (← fuel) do
    let s ← get
    if s.mark.column != indent || s.rest.isEmpty then break
    let trailingBlank ← blankNext
    if !literal && leadingBreak.startsWith "\n" && !leadingBlank && !trailingBlank then
      if trailing.isEmpty then text := text.push ' '
      leadingBreak := ""
    else
      text := text ++ leadingBreak
      leadingBreak := ""
    text := text ++ trailing
    trailing := ""
    leadingBlank ← blankNext
    text := text ++ (← readWhile fun c => !isBreak c)
    leadingBreak ← readLine
    let (i, more, m) ← blockBreaks indent start
    indent := i
    trailing := more
    stop := m
  if chomping != -1 then text := text ++ leadingBreak
  if chomping == 1 then text := text ++ trailing
  emit (.scalar text (if literal then .literal else .folded)) start stop

/-- The escapes of a double-quoted scalar that stand for one fixed text. -/
def simpleEscape : Char → Option String
  | '0' => some "\x00"
  | 'a' => some "\x07"
  | 'b' => some "\x08"
  | 't' => some "\t"
  | '\t' => some "\t"
  | 'n' => some "\n"
  | 'v' => some "\x0b"
  | 'f' => some "\x0c"
  | 'r' => some "\r"
  | 'e' => some "\x1b"
  | ' ' => some " "
  | '"' => some "\""
  | '/' => some "/"
  | '\\' => some "\\"
  | 'N' => some "\u0085"
  | '_' => some "\u00a0"
  | 'L' => some "\u2028"
  | 'P' => some "\u2029"
  | _ => none

/-- The number of hexadecimal digits after `\x`, `\u` and `\U`. -/
def codeLength : Char → Nat
  | 'x' => 2
  | 'u' => 4
  | 'U' => 8
  | _ => 0

/-- Reads an escape sequence of a double-quoted scalar. -/
def escape (start : Mark) : ScanM String := do
  let e ← peekAt 1
  let fixed := e.bind simpleEscape
  let n := (e.map codeLength).getD 0
  if fixed.isNone && n == 0 then
    failIn "while parsing a quoted scalar" start "found unknown escape character"
  skip; skip
  match fixed with
  | some t => pure t
  | none =>
    let digits := (← get).rest.take n
    if digits.length < n || !digits.all isHexDigit then
      failIn "while parsing a quoted scalar" start "did not find expected hexadecimal number"
    let code := digits.foldl (fun v c => 16 * v + hexValue c) 0
    if (0xD800 ≤ code && code ≤ 0xDFFF) || code > 0x10FFFF then
      failIn "while parsing a quoted scalar" start "found invalid Unicode character escape code"
    for _ in List.range n do skip
    pure (Char.ofNat code).toString

/-- A single- or double-quoted scalar. Line breaks inside fold: one break becomes a
space, more breaks stay as they are but the first. -/
def fetchQuoted (single : Bool) : ScanM Unit := do
  saveKey
  allowKey false
  let start := (← get).mark
  let quote := if single then '\'' else '"'
  skip
  let mut text := ""
  for _ in List.range (← fuel) do
    if ← atDocumentMarker then
      failIn "while scanning a quoted scalar" start "found unexpected document indicator"
    if (← get).rest.isEmpty then
      failIn "while scanning a quoted scalar" start "found unexpected end of stream"
    let mut leadingBlanks := false
    for _ in List.range (← fuel) do
      if ← blankzAt 0 then break
      if single && (← isAt 0 '\'') && (← isAt 1 '\'') then
        text := text.push '\''
        skip; skip
      else if ← isAt 0 quote then break
      else if !single && (← isAt 0 '\\') && (← breakAt 1) then
        skip
        skipLine
        leadingBlanks := true
        break
      else if !single && (← isAt 0 '\\') then
        text := text ++ (← escape start)
      else text := text.push (← read)
    if ← isAt 0 quote then break
    let mut whitespaces := ""
    let mut leadingBreak := ""
    let mut trailingBreaks := ""
    for _ in List.range (← fuel) do
      if ← blankNext then
        if leadingBlanks then skip else whitespaces := whitespaces.push (← read)
      else if ← breakAt 0 then
        if leadingBlanks then trailingBreaks := trailingBreaks ++ (← readLine)
        else
          whitespaces := ""
          leadingBreak ← readLine
          leadingBlanks := true
      else break
    if leadingBlanks then
      if leadingBreak.startsWith "\n" then
        text := if trailingBreaks.isEmpty then text.push ' ' else text ++ trailingBreaks
      else text := text ++ leadingBreak ++ trailingBreaks
    else text := text ++ whitespaces
  skip
  emit (.scalar text (if single then .singleQuoted else .doubleQuoted)) start (← get).mark

/-- A plain scalar: it ends at `: `, at ` #`, at a line indented no deeper than its block,
at a document marker, and in flow context at `,[]{}`. Line breaks fold as in quoted
scalars. -/
def fetchPlain : ScanM Unit := do
  saveKey
  allowKey false
  let s ← get
  let start := s.mark
  let indent : Int := s.indent + 1
  let mut stop := start
  let mut text := ""
  let mut leadingBlanks := false
  let mut whitespaces := ""
  let mut leadingBreak := ""
  let mut trailingBreaks := ""
  for _ in List.range (← fuel) do
    if ← atDocumentMarker then break
    if ← isAt 0 '#' then break
    for _ in List.range (← fuel) do
      if ← blankzAt 0 then break
      let s ← get
      let flow := s.flowLevel > 0
      let c := s.rest.headD ' '
      let next := s.rest[1]?
      if flow && c == ':' && (next.map fun d => ",?[]\x7b\x7d".toList.contains d).getD false then
        failIn "while scanning a plain scalar" start "found unexpected ':'"
      if (c == ':' && (← blankzAt 1)) || (flow && ",[]\x7b\x7d".toList.contains c) then break
      if leadingBlanks || !whitespaces.isEmpty then
        if leadingBlanks then
          if leadingBreak.startsWith "\n" then
            if trailingBreaks.isEmpty then text := text.push ' '
            else
              text := text ++ trailingBreaks
              trailingBreaks := ""
            leadingBreak := ""
          else
            text := text ++ leadingBreak ++ trailingBreaks
            leadingBreak := ""
            trailingBreaks := ""
          leadingBlanks := false
        else
          text := text ++ whitespaces
          whitespaces := ""
      text := text.push (← read)
      stop := (← get).mark
    if !((← blankNext) || (← breakAt 0)) then break
    for _ in List.range (← fuel) do
      if ← blankNext then
        let s ← get
        if leadingBlanks && (s.mark.column : Int) < indent && s.rest.head? == some '\t' then
          failIn "while scanning a plain scalar" start "found a tab character that violates indentation"
        if leadingBlanks then skip else whitespaces := whitespaces.push (← read)
      else if ← breakAt 0 then
        if leadingBlanks then trailingBreaks := trailingBreaks ++ (← readLine)
        else
          whitespaces := ""
          leadingBreak ← readLine
          leadingBlanks := true
      else break
    let s ← get
    if s.flowLevel == 0 && (s.mark.column : Int) < indent then break
  emit (.scalar text .plain) start stop
  if leadingBlanks then allowKey true

/-- Whether a plain scalar may start with the next characters. -/
def startsPlain : ScanM Bool := do
  let s ← get
  match s.rest with
  | [] => pure false
  | c :: _ =>
    let indicator := "-?:,[]\x7b\x7d#&*!|>'\"%@`".toList.contains c
    if !(isBlank c || isBreak c || indicator) then pure true
    else if c == '-' then pure !(((s.rest[1]?).map isBlank).getD false)
    else if s.flowLevel == 0 && (c == '?' || c == ':') then pure !(← blankzAt 1)
    else pure false

/-- Scans the next token; `true` once the stream has ended. -/
def fetchNext : ScanM Bool := do
  staleKeys
  skipToToken
  staleKeys
  unrollIndent (← get).mark.column
  let s ← get
  let flow := s.flowLevel > 0
  match s.rest with
  | [] =>
    fetchStreamEnd
    return true
  | c :: _ =>
    if s.mark.column == 0 && c == '%' then fetchDirective
    else if (← atDocumentMarker) && c == '-' then fetchDocumentMarker .documentStart
    else if (← atDocumentMarker) && c == '.' then fetchDocumentMarker .documentEnd
    else if c == '[' then fetchFlowStart .flowSequenceStart
    else if c == '{' then fetchFlowStart .flowMappingStart
    else if c == ']' then fetchFlowEnd .flowSequenceEnd
    else if c == '}' then fetchFlowEnd .flowMappingEnd
    else if c == ',' then fetchFlowEntry
    else if c == '-' && (← blankzAt 1) then fetchBlockEntry
    else if c == '?' && (flow || (← blankzAt 1)) then fetchKey
    else if c == ':' && (flow || (← blankzAt 1)) then fetchValue
    else if c == '*' then fetchAnchor true
    else if c == '&' then fetchAnchor false
    else if c == '!' then fetchTag
    else if c == '|' && !flow then fetchBlockScalar true
    else if c == '>' && !flow then fetchBlockScalar false
    else if c == '\'' then fetchQuoted true
    else if c == '"' then fetchQuoted false
    else if ← startsPlain then fetchPlain
    else
      failIn "while scanning for the next token" s.mark "found character that cannot start any token"
    return false

/-- Scans tokens until the stream ends, at most `n` of them after the first. -/
def fetchAll : Nat → ScanM Unit
  | 0 => pure ()
  | n + 1 => do if !(← fetchNext) then fetchAll n

end Scanner

/-- The tokens of a text; when a fault stopped the scanner, the fault and the number of
tokens a reader can take before meeting it. -/
structure TokenStream where
  tokens : Array Token
  fault : Option (Fault × Nat)
deriving Inhabited

/-- The byte offset of the first character that YAML text may not hold. -/
def firstDisallowed (cs : List Char) : Option Nat :=
  (cs.findIdx? (!isAllowed ·)).map fun i => ((cs.take i).map Char.utf8Size).foldr (· + ·) 0

/-- Scans a text, which is taken to be UTF-8: a byte order mark in front is no sign of an
encoding and is met by the scanner like one at the start of any other line. A character
the text may not hold stops everything before the first token. -/
def TokenStream.ofText (text : String) : TokenStream :=
  let cs := text.toList
  match firstDisallowed cs with
  | some offset =>
    ⟨#[], some ({ problem := "control characters are not allowed", offset }, 0)⟩
  | none =>
    let run : ScanM Unit := do
      Scanner.fetchStreamStart
      Scanner.fetchAll (cs.length + 2)
    let (result, s) := (run.run).run { rest := cs }
    match result with
    | .ok () => ⟨s.tokens, none⟩
    | .error f => ⟨s.tokens, some (f, s.available)⟩

end GuiMarkup.Yaml
