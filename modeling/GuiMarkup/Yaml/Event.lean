import GuiMarkup.Yaml.Scanner

/-! From YAML tokens to events by a push-down parser. A token the scanner could not
produce is a fault only when the parser needs it. -/

namespace GuiMarkup.Yaml

/-- An event of the YAML grammar. -/
inductive Event where
  | streamStart
  | streamEnd
  | documentStart
  | documentEnd
  | alias (name : String)
  | scalar (anchor tag : Option String) (text : String) (style : ScalarStyle)
  | sequenceStart (anchor tag : Option String)
  | sequenceEnd
  | mappingStart (anchor tag : Option String)
  | mappingEnd
deriving Repr, Inhabited

/-- Where the parser stands in the grammar. -/
inductive ParseState where
  | streamStart
  | implicitDocumentStart
  | documentStart
  | documentContent
  | documentEnd
  | blockNode
  | blockSequenceFirstEntry
  | blockSequenceEntry
  | indentlessSequenceEntry
  | blockMappingFirstKey
  | blockMappingKey
  | blockMappingValue
  | flowSequenceFirstEntry
  | flowSequenceEntry
  | flowSequenceEntryMappingKey
  | flowSequenceEntryMappingValue
  | flowSequenceEntryMappingEnd
  | flowMappingFirstKey
  | flowMappingKey
  | flowMappingValue
  | flowMappingEmptyValue
  | finished
deriving DecidableEq, Repr, Inhabited

/-- The state of the parser. -/
structure Parser where
  stream : TokenStream
  pos : Nat := 0
  state : ParseState := .streamStart
  states : List ParseState := []
  marks : List Mark := []
  /-- Tag handles and what they stand for, in the current document. -/
  handles : List (String × String) := []
deriving Inhabited

/-- Parsing steps. -/
abbrev ParseM := ExceptT Fault (StateM Parser)

/-- The handles every document knows. -/
def defaultHandles : List (String × String) := [("!", "!"), ("!!", "tag:yaml.org,2002:")]

namespace Parser

/-- The next token; the scanner's fault once the tokens it could produce run out. -/
def peek : ParseM Token := do
  let p ← get
  let limit := match p.stream.fault with
    | some (_, n) => n
    | none => p.stream.tokens.size
  if h : p.pos < p.stream.tokens.size then
    if p.pos < limit then return p.stream.tokens[p.pos]
  match p.stream.fault with
  | some (f, _) => throw f
  | none => return ⟨.streamEnd, {}, {}⟩

/-- Steps over the next token. -/
def skipToken : ParseM Unit := modify fun p => { p with pos := p.pos + 1 }

/-- Moves to a state. -/
def goTo (s : ParseState) : ParseM Unit := modify fun p => { p with state := s }

/-- Keeps a state to come back to. -/
def pushState (s : ParseState) : ParseM Unit := modify fun p => { p with states := s :: p.states }

/-- Goes back to the last kept state. -/
def popState : ParseM Unit := modify fun p =>
  { p with state := p.states.headD .finished, states := p.states.drop 1 }

/-- Keeps the mark where a collection began. -/
def pushMark (m : Mark) : ParseM Unit := modify fun p => { p with marks := m :: p.marks }

/-- Takes back the mark where the innermost collection began. -/
def popMark : ParseM Mark := do
  let p ← get
  set { p with marks := p.marks.drop 1 }
  pure (p.marks.headD {})

/-- A fault with no context. -/
def failAt {α : Type} (problem : String) (m : Mark) : ParseM α :=
  throw { problem, mark := m }

/-- A fault inside something that began at `start`. -/
def failIn {α : Type} (context : String) (start : Mark) (problem : String) (m : Mark) :
    ParseM α :=
  throw { problem, mark := m, context := some (context, start) }

/-- An empty plain scalar, where a node is left out. -/
def emptyScalar (m : Mark) : Event × Mark := (.scalar none none "" .plain, m)

/-- The full tag that a handle and suffix stand for. -/
def resolveTag (handle suffix : String) (start tagMark : Mark) : ParseM String := do
  if handle.isEmpty then return suffix
  match (← get).handles.find? (·.1 == handle) with
  | some (_, uri) => return uri ++ suffix
  | none => failIn "while parsing a node" start "found undefined tag handle" tagMark

/-- A node: an alias, a scalar, the start of a collection, or an empty scalar when only
properties are given. `block` allows block collections; `indentless` allows a block
sequence at the indentation of its key. -/
def node (block indentless : Bool) : ParseM (Event × Mark) := do
  let t ← peek
  if let .alias name := t.kind then
    popState
    skipToken
    return (.alias name, t.start)
  let start := t.start
  let mut anchor : Option String := none
  let mut tagParts : Option (String × String × Mark) := none
  let mut t := t
  match t.kind with
  | .anchor a =>
    anchor := some a
    skipToken
    t ← peek
    if let .tag h s := t.kind then
      tagParts := some (h, s, t.start)
      skipToken
      t ← peek
  | .tag h s =>
    tagParts := some (h, s, t.start)
    skipToken
    t ← peek
    if let .anchor a := t.kind then
      anchor := some a
      skipToken
      t ← peek
  | _ => pure ()
  let tag ← match tagParts with
    | some (h, s, m) => some <$> resolveTag h s start m
    | none => pure none
  match t.kind with
  | .blockEntry =>
    if indentless then
      goTo .indentlessSequenceEntry
      return (.sequenceStart anchor tag, start)
  | .scalar text style =>
    popState
    skipToken
    return (.scalar anchor tag text style, start)
  | .flowSequenceStart =>
    goTo .flowSequenceFirstEntry
    return (.sequenceStart anchor tag, start)
  | .flowMappingStart =>
    goTo .flowMappingFirstKey
    return (.mappingStart anchor tag, start)
  | .blockSequenceStart =>
    if block then
      goTo .blockSequenceFirstEntry
      return (.sequenceStart anchor tag, start)
  | .blockMappingStart =>
    if block then
      goTo .blockMappingFirstKey
      return (.mappingStart anchor tag, start)
  | _ => pure ()
  if anchor.isSome || tag.isSome then
    popState
    return (.scalar anchor tag "" .plain, start)
  failIn (if block then "while parsing a block node" else "while parsing a flow node") start
    "did not find expected node content" t.start

/-- Reads the directives before a document and sets its tag handles. -/
def directives : ParseM Unit := do
  let mut version := false
  let mut handles : List (String × String) := []
  for _ in List.range ((← get).stream.tokens.size + 1) do
    let t ← peek
    match t.kind with
    | .versionDirective major minor =>
      if version then failAt "found duplicate %YAML directive" t.start
      if major != 1 || (minor != 1 && minor != 2) then
        failAt "found incompatible YAML document" t.start
      version := true
    | .tagDirective h uri =>
      if handles.any (·.1 == h) then failAt "found duplicate %TAG directive" t.start
      handles := handles ++ [(h, uri)]
    | _ => break
    skipToken
  let extra := defaultHandles.filter fun (h, _) => !handles.any (·.1 == h)
  modify fun p => { p with handles := handles ++ extra }

/-- The start of a document, or of the end of the stream. -/
def documentStart (implicit : Bool) : ParseM (Event × Mark) := do
  let mut t ← peek
  if !implicit then
    for _ in List.range ((← get).stream.tokens.size + 1) do
      if t.kind == .documentEnd then
        skipToken
        t ← peek
      else break
  let isDirective := match t.kind with
    | .versionDirective .. | .tagDirective .. => true
    | _ => false
  if implicit && !isDirective && t.kind != .documentStart && t.kind != .streamEnd then
    directives
    pushState .documentEnd
    goTo .blockNode
    return (.documentStart, t.start)
  if t.kind != .streamEnd then
    let start := t.start
    directives
    let next ← peek
    if next.kind != .documentStart then failAt "did not find expected <document start>" next.start
    pushState .documentEnd
    goTo .documentContent
    skipToken
    return (.documentStart, start)
  goTo .finished
  skipToken
  return (.streamEnd, t.start)

/-- The content of an explicit document, empty when a marker follows at once. -/
def documentContent : ParseM (Event × Mark) := do
  let t ← peek
  match t.kind with
  | .versionDirective .. | .tagDirective .. | .documentStart | .documentEnd | .streamEnd =>
    popState
    return emptyScalar t.start
  | _ => node true false

/-- The end of a document, explicit with `...` or implicit. -/
def documentEnd : ParseM (Event × Mark) := do
  let t ← peek
  if t.kind == .documentEnd then skipToken
  modify fun p => { p with handles := [] }
  goTo .documentStart
  return (.documentEnd, t.start)

/-- An entry of a block sequence, or its end. -/
def blockSequenceEntry (first : Bool) : ParseM (Event × Mark) := do
  if first then
    pushMark (← peek).start
    skipToken
  let t ← peek
  match t.kind with
  | .blockEntry =>
    let m := t.stop
    skipToken
    let t ← peek
    match t.kind with
    | .blockEntry | .blockEnd =>
      goTo .blockSequenceEntry
      return emptyScalar m
    | _ =>
      pushState .blockSequenceEntry
      node true false
  | .blockEnd =>
    popState
    let _ ← popMark
    skipToken
    return (.sequenceEnd, t.start)
  | _ =>
    failIn "while parsing a block collection" (← popMark) "did not find expected '-' indicator"
      t.start

/-- An entry of a sequence written at the indentation of its key, or its end. -/
def indentlessSequenceEntry : ParseM (Event × Mark) := do
  let t ← peek
  if t.kind == .blockEntry then
    let m := t.stop
    skipToken
    let t ← peek
    match t.kind with
    | .blockEntry | .key | .value | .blockEnd =>
      goTo .indentlessSequenceEntry
      return emptyScalar m
    | _ =>
      pushState .indentlessSequenceEntry
      node true false
  else
    popState
    return (.sequenceEnd, t.start)

/-- A key of a block mapping, or its end. -/
def blockMappingKey (first : Bool) : ParseM (Event × Mark) := do
  if first then
    pushMark (← peek).start
    skipToken
  let t ← peek
  match t.kind with
  | .key =>
    let m := t.stop
    skipToken
    let t ← peek
    match t.kind with
    | .key | .value | .blockEnd =>
      goTo .blockMappingValue
      return emptyScalar m
    | _ =>
      pushState .blockMappingValue
      node true true
  | .blockEnd =>
    popState
    let _ ← popMark
    skipToken
    return (.mappingEnd, t.start)
  | _ => failIn "while parsing a block mapping" (← popMark) "did not find expected key" t.start

/-- A value of a block mapping, empty when none is given. -/
def blockMappingValue : ParseM (Event × Mark) := do
  let t ← peek
  if t.kind == .value then
    let m := t.stop
    skipToken
    let t ← peek
    match t.kind with
    | .key | .value | .blockEnd =>
      goTo .blockMappingKey
      return emptyScalar m
    | _ =>
      pushState .blockMappingKey
      node true true
  else
    goTo .blockMappingKey
    return emptyScalar t.start

/-- An entry of a flow sequence, or its end. A `?` or a simple key in the entry makes it a
one-pair mapping. -/
def flowSequenceEntry (first : Bool) : ParseM (Event × Mark) := do
  if first then
    pushMark (← peek).start
    skipToken
  let mut t ← peek
  if t.kind != .flowSequenceEnd then
    if !first then
      if t.kind == .flowEntry then
        skipToken
        t ← peek
      else
        failIn "while parsing a flow sequence" (← popMark) "did not find expected ',' or ']'" t.start
    if t.kind == .key then
      goTo .flowSequenceEntryMappingKey
      skipToken
      return (.mappingStart none none, t.start)
    if t.kind != .flowSequenceEnd then
      pushState .flowSequenceEntry
      return ← node false false
  popState
  let _ ← popMark
  skipToken
  return (.sequenceEnd, t.start)

/-- The key of a one-pair mapping inside a flow sequence. An empty key consumes the token
after the `?` (a `:`, `,` or `]`) and stands at its end, so `[?]]` closes the sequence at
the second `]` and `[? : x]` expects a `,` before `x`. -/
def flowSequenceEntryMappingKey : ParseM (Event × Mark) := do
  let t ← peek
  match t.kind with
  | .value | .flowEntry | .flowSequenceEnd =>
    skipToken
    goTo .flowSequenceEntryMappingValue
    return emptyScalar t.stop
  | _ =>
    pushState .flowSequenceEntryMappingValue
    node false false

/-- The value of a one-pair mapping inside a flow sequence. -/
def flowSequenceEntryMappingValue : ParseM (Event × Mark) := do
  let mut t ← peek
  if t.kind == .value then
    skipToken
    t ← peek
    match t.kind with
    | .flowEntry | .flowSequenceEnd => pure ()
    | _ =>
      pushState .flowSequenceEntryMappingEnd
      return ← node false false
  goTo .flowSequenceEntryMappingEnd
  return emptyScalar t.start

/-- The end of a one-pair mapping inside a flow sequence. -/
def flowSequenceEntryMappingEnd : ParseM (Event × Mark) := do
  let t ← peek
  goTo .flowSequenceEntry
  return (.mappingEnd, t.start)

/-- A key of a flow mapping, or its end. -/
def flowMappingKey (first : Bool) : ParseM (Event × Mark) := do
  if first then
    pushMark (← peek).start
    skipToken
  let mut t ← peek
  if t.kind != .flowMappingEnd then
    if !first then
      if t.kind == .flowEntry then
        skipToken
        t ← peek
      else
        failIn "while parsing a flow mapping" (← popMark) "did not find expected ',' or '\x7d'" t.start
    if t.kind == .key then
      skipToken
      let next ← peek
      match next.kind with
      | .value | .flowEntry | .flowMappingEnd =>
        goTo .flowMappingValue
        return emptyScalar next.start
      | _ =>
        pushState .flowMappingValue
        return ← node false false
    if t.kind != .flowMappingEnd then
      pushState .flowMappingEmptyValue
      return ← node false false
  popState
  let _ ← popMark
  skipToken
  return (.mappingEnd, t.start)

/-- A value of a flow mapping; empty after a key with no `:`. -/
def flowMappingValue (empty : Bool) : ParseM (Event × Mark) := do
  let mut t ← peek
  if empty then
    goTo .flowMappingKey
    return emptyScalar t.start
  if t.kind == .value then
    skipToken
    t ← peek
    match t.kind with
    | .flowEntry | .flowMappingEnd => pure ()
    | _ =>
      pushState .flowMappingKey
      return ← node false false
  goTo .flowMappingKey
  return emptyScalar t.start

/-- The next event. -/
def next : ParseM (Event × Mark) := do
  match (← get).state with
  | .streamStart =>
    let t ← peek
    if t.kind != .streamStart then failAt "did not find expected <stream-start>" t.start
    goTo .implicitDocumentStart
    skipToken
    return (.streamStart, t.start)
  | .implicitDocumentStart => documentStart true
  | .documentStart => documentStart false
  | .documentContent => documentContent
  | .documentEnd => documentEnd
  | .blockNode => node true false
  | .blockSequenceFirstEntry => blockSequenceEntry true
  | .blockSequenceEntry => blockSequenceEntry false
  | .indentlessSequenceEntry => indentlessSequenceEntry
  | .blockMappingFirstKey => blockMappingKey true
  | .blockMappingKey => blockMappingKey false
  | .blockMappingValue => blockMappingValue
  | .flowSequenceFirstEntry => flowSequenceEntry true
  | .flowSequenceEntry => flowSequenceEntry false
  | .flowSequenceEntryMappingKey => flowSequenceEntryMappingKey
  | .flowSequenceEntryMappingValue => flowSequenceEntryMappingValue
  | .flowSequenceEntryMappingEnd => flowSequenceEntryMappingEnd
  | .flowMappingFirstKey => flowMappingKey true
  | .flowMappingKey => flowMappingKey false
  | .flowMappingValue => flowMappingValue false
  | .flowMappingEmptyValue => flowMappingValue true
  | .finished => return (.streamEnd, {})

end Parser

end GuiMarkup.Yaml
