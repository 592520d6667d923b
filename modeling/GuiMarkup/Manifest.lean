import GuiMarkup.Yaml.Document
import GuiMarkup.Yaml.Scalar

/-! Resource manifests: a YAML mapping with optional `styles` (each a `uri` and a `path`)
and `instances` lists. The first value of the wrong shape in reading order is reported
with its key path, what was found and expected, and its mark. -/

namespace GuiMarkup

open Yaml

/-- A style sheet to register: the URL instances use for it and the file that holds it. -/
structure StyleEntry where
  uri : String
  path : String
deriving DecidableEq, Repr, Inhabited

/-- An instance file to load. -/
structure InstanceEntry where
  path : String
deriving DecidableEq, Repr, Inhabited

/-- The style sheets and instance files of an application. -/
structure Manifest where
  styles : List StyleEntry := []
  instances : List InstanceEntry := []
deriving DecidableEq, Repr, Inhabited

/-- Where a value lies in a document: the keys and indices that lead to it. -/
inductive Locus where
  | root
  | key (parent : Locus) (name : String)
  | index (parent : Locus) (i : Nat)
  /-- Under a key that is no scalar. -/
  | unknown (parent : Locus)
deriving Repr, Inhabited

/-- `.` at the top; keys joined by `.`, indices in brackets: `styles[0].uri`. -/
def Locus.text : Locus → String
  | .root => "."
  | .index p i => p.text ++ "[" ++ toString i ++ "]"
  | .key .root k => k
  | .key p k => p.text ++ "." ++ k
  | .unknown .root => "?"
  | .unknown p => p.text ++ ".?"

/-- Why a manifest cannot be read. -/
inductive ManifestError where
  /-- A value of the wrong shape, and where it was, once known. -/
  | mismatch (text : String) (place : Option (Mark × Locus))
  | malformed (f : Fault)
  | unknownAnchor (m : Mark)
  | endOfStream
  | moreDocuments
  | recursionLimit (m : Mark)
deriving Repr, Inhabited

/-- ` at line L column C`, or nothing at the start of the text. -/
def markSuffix (m : Mark) : String := if m.isStart then "" else " at " ++ m.text

/-- The text of an error. -/
def ManifestError.message : ManifestError → String
  | .mismatch text none => text
  | .mismatch text (some (m, place)) =>
    let path := place.text
    (if path == "." then "" else path ++ ": ") ++ text ++ markSuffix m
  | .malformed f => f.message
  | .unknownAnchor m => "unknown anchor" ++ markSuffix m
  | .endOfStream => "EOF while parsing a value"
  | .moreDocuments => "deserializing from YAML containing more than one document is not supported"
  | .recursionLimit m => "recursion limit exceeded" ++ markSuffix m

/-- Gives a mismatch that has no place yet the place of the value being read. -/
def ManifestError.locate (m : Mark) (place : Locus) : ManifestError → ManifestError
  | .mismatch text none => .mismatch text (some (m, place))
  | e => e

namespace ManifestReader

/-- Reading steps over a loaded document, from an item index. -/
abbrev ReadM := Except ManifestError

/-- The item at an index; past the items, the fault that cut the document short. -/
def item (doc : Loaded) (pos : Nat) : ReadM (Item × Mark) :=
  match doc.items[pos]? with
  | some it => .ok it
  | none =>
    match doc.fault with
    | some (.malformed f) => .error (.malformed f)
    | some (.unknownAnchor m) => .error (.unknownAnchor m)
    | none => .error .endOfStream

/-- The mismatch of a found value with what was expected. -/
def invalidType (found : Item) (expected : String) : ManifestError :=
  let describe (what : String) : ManifestError :=
    .mismatch ("invalid type: " ++ what ++ ", expected " ++ expected) none
  match found with
  | .scalar tag text style =>
    match scalarValue tag text style with
    | .ok v => describe v.describe
    | .error (t, wanted) =>
      .mismatch ("invalid value: string " ++ Text.quoteText t ++ ", expected " ++ wanted) none
  | .sequenceStart => describe "sequence"
  | .mappingStart => describe "map"
  | .void => .endOfStream
  | _ => describe "unit value"

/-- Whether an item is an empty plain scalar, which reads as an empty collection. -/
def isEmptyPlain : Item → Bool
  | .scalar _ text .plain => text.isEmpty
  | .void => true
  | _ => false

/-- Steps over one node, nested collections and all. -/
def skipNode (doc : Loaded) (pos : Nat) : ReadM Nat := do
  let mut p := pos
  let mut depth := 0
  for _ in List.range (doc.items.size + 1) do
    let (it, _) ← item doc p
    p := p + 1
    match it with
    | .sequenceStart | .mappingStart => depth := depth + 1
    | .sequenceEnd | .mappingEnd => depth := depth - 1
    | _ => pure ()
    if depth == 0 then break
  pure p

/-- Reads a text: any scalar gives its text. -/
def readText (doc : Loaded) (expected : String) (place : Locus) : Nat → Nat → ReadM (String × Nat)
  | 0, pos => do
    let (_, m) ← item doc pos
    throw (.recursionLimit m)
  | fuel + 1, pos => do
    let (it, m) ← item doc pos
    let r : ReadM (String × Nat) := match it with
      | .scalar _ text _ => pure (text, pos + 1)
      | .alias target => do
        let (v, _) ← readText doc expected place fuel target
        pure (v, pos + 1)
      | other => throw (invalidType other expected)
    r.mapError (ManifestError.locate m place)

/-- The key of the next entry of a mapping, read as a field name, with the key that the
value's place is named by; `none` at the end of the mapping. -/
def nextKey (doc : Loaded) (place : Locus) (pos : Nat) :
    ReadM (Option (String × Locus × Nat)) := do
  let (it, _) ← item doc pos
  match it with
  | .mappingEnd | .void => pure none
  | .scalar _ text _ =>
    let (name, p) ← readText doc "field identifier" place 2 pos
    pure (some (name, .key place text, p))
  | _ =>
    let (name, p) ← readText doc "field identifier" place 2 pos
    pure (some (name, .unknown place, p))

/-- Steps over the end of a collection. -/
def closing (doc : Loaded) (pos : Nat) : ReadM Nat := do
  let _ ← item doc pos
  pure (pos + 1)

/-- A required field that was not given. -/
def missing (name : String) : ManifestError :=
  .mismatch ("missing field `" ++ name ++ "`") none

/-- Reads a style entry: a mapping with `uri` and `path`. -/
def readStyleEntry (doc : Loaded) (place : Locus) : Nat → Nat → Nat → ReadM (StyleEntry × Nat)
  | 0, _, pos => do
    let (_, m) ← item doc pos
    throw (.recursionLimit m)
  | fuel + 1, depth, pos => do
    let (it, m) ← item doc pos
    let r : ReadM (StyleEntry × Nat) := match it with
      | .alias target => do
        let (v, _) ← readStyleEntry doc place fuel depth target
        pure (v, pos + 1)
      | .mappingStart => do
        if depth == 0 then throw (.recursionLimit m)
        let mut uri : Option String := none
        let mut path : Option String := none
        let mut p := pos + 1
        let mut seen : List String := []
        for _ in List.range (doc.items.size + 1) do
          match ← nextKey doc place p with
          | none => break
          | some (name, valuePlace, q) =>
            if name == "uri" || name == "path" then
              if seen.contains name then throw (.mismatch ("duplicate field `" ++ name ++ "`") none)
              seen := seen ++ [name]
              let (v, q') ← readText doc (if name == "uri" then "a string" else "path string")
                valuePlace (fuel + 1) q
              if name == "uri" then uri := some v else path := some v
              p := q'
            else p ← skipNode doc q
        match uri, path with
        | some u, some f => pure (⟨u, f⟩, ← closing doc p)
        | none, _ => throw (missing "uri")
        | _, none => throw (missing "path")
      | other =>
        if isEmptyPlain other then throw (missing "uri")
        else throw (invalidType other "struct StyleEntry")
    r.mapError (ManifestError.locate m place)

/-- Reads an instance entry: a mapping with `path`. -/
def readInstanceEntry (doc : Loaded) (place : Locus) :
    Nat → Nat → Nat → ReadM (InstanceEntry × Nat)
  | 0, _, pos => do
    let (_, m) ← item doc pos
    throw (.recursionLimit m)
  | fuel + 1, depth, pos => do
    let (it, m) ← item doc pos
    let r : ReadM (InstanceEntry × Nat) := match it with
      | .alias target => do
        let (v, _) ← readInstanceEntry doc place fuel depth target
        pure (v, pos + 1)
      | .mappingStart => do
        if depth == 0 then throw (.recursionLimit m)
        let mut path : Option String := none
        let mut p := pos + 1
        for _ in List.range (doc.items.size + 1) do
          match ← nextKey doc place p with
          | none => break
          | some (name, valuePlace, q) =>
            if name == "path" then
              if path.isSome then throw (.mismatch "duplicate field `path`" none)
              let (v, q') ← readText doc "path string" valuePlace (fuel + 1) q
              path := some v
              p := q'
            else p ← skipNode doc q
        match path with
        | some f => pure (⟨f⟩, ← closing doc p)
        | none => throw (missing "path")
      | other =>
        if isEmptyPlain other then throw (missing "path")
        else throw (invalidType other "struct InstanceEntry")
    r.mapError (ManifestError.locate m place)

/-- Reads a sequence, each element by `readElement` at its index. -/
def readList {α : Type} (doc : Loaded) (place : Locus)
    (readElement : Locus → Nat → Nat → ReadM (α × Nat)) : Nat → Nat → Nat → ReadM (List α × Nat)
  | 0, _, pos => do
    let (_, m) ← item doc pos
    throw (.recursionLimit m)
  | fuel + 1, depth, pos => do
    let (it, m) ← item doc pos
    let r : ReadM (List α × Nat) := match it with
      | .alias target => do
        let (v, _) ← readList doc place readElement fuel depth target
        pure (v, pos + 1)
      | .sequenceStart => do
        if depth == 0 then throw (.recursionLimit m)
        let mut out : Array α := #[]
        let mut p := pos + 1
        for _ in List.range (doc.items.size + 1) do
          let (next, _) ← item doc p
          match next with
          | .sequenceEnd | .void => break
          | _ =>
            let (v, q) ← readElement (.index place out.size) (depth - 1) p
            out := out.push v
            p := q
        pure (out.toList, ← closing doc p)
      | other =>
        if isEmptyPlain other then pure ([], pos + 1)
        else throw (invalidType other "a sequence")
    r.mapError (ManifestError.locate m place)

/-- The nesting a reader follows before it gives up. -/
def depthLimit : Nat := 128

/-- Reads the manifest mapping at the top of a document. -/
def readManifest (doc : Loaded) : Nat → Nat → ReadM (Manifest × Nat)
  | 0, pos => do
    let (_, m) ← item doc pos
    throw (.recursionLimit m)
  | fuel + 1, pos => do
    let (it, m) ← item doc pos
    let r : ReadM (Manifest × Nat) := match it with
      | .alias target => do
        let (v, _) ← readManifest doc fuel target
        pure (v, pos + 1)
      | .mappingStart => do
        let depth := depthLimit - 1
        let mut styles : Option (List StyleEntry) := none
        let mut instances : Option (List InstanceEntry) := none
        let mut p := pos + 1
        for _ in List.range (doc.items.size + 1) do
          match ← nextKey doc .root p with
          | none => break
          | some (name, valuePlace, q) =>
            if name == "styles" then
              if styles.isSome then throw (.mismatch "duplicate field `styles`" none)
              let (v, q') ← readList doc valuePlace
                (fun place d p => readStyleEntry doc place (fuel + 4) d p) (fuel + 4) depth q
              styles := some v
              p := q'
            else if name == "instances" then
              if instances.isSome then throw (.mismatch "duplicate field `instances`" none)
              let (v, q') ← readList doc valuePlace
                (fun place d p => readInstanceEntry doc place (fuel + 4) d p) (fuel + 4) depth q
              instances := some v
              p := q'
            else p ← skipNode doc q
        pure (⟨styles.getD [], instances.getD []⟩, ← closing doc p)
      | other =>
        if isEmptyPlain other then pure ({}, pos + 1)
        else throw (invalidType other "struct Manifest")
    r.mapError (ManifestError.locate m .root)

end ManifestReader

/-- Reads a manifest from YAML text. The text must hold one document; a syntax fault that
reading the manifest did not run into is still an error. -/
def Manifest.parse (text : String) : Except ManifestError Manifest := do
  let doc := Loaded.ofText text
  let (manifest, _) ← ManifestReader.readManifest doc (2 * ManifestReader.depthLimit + 8) 0
  match doc.fault with
  | some (.malformed f) => throw (.malformed f)
  | some (.unknownAnchor m) => throw (.unknownAnchor m)
  | none => if doc.more then throw .moreDocuments else pure manifest

end GuiMarkup
