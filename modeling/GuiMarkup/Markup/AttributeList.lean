import GuiMarkup.Text.Blank
import GuiMarkup.Markup.Entity

/-! Attributes of a tag. Reading stops at the first malformed attribute and keeps those
before it; fault offsets count UTF-8 bytes from the character after `<`. -/

namespace GuiMarkup.Markup

open GuiMarkup.Text

/-- Why the attributes of a tag cannot be read. -/
inductive AttributeFault where
  /-- A key is followed by neither `=` nor a space. -/
  | expectedEq (pos : Nat)
  /-- Nothing follows the `=`. -/
  | expectedValue (pos : Nat)
  /-- A value does not start with a quote. -/
  | unquoted (pos : Nat)
  /-- A value lacks its closing quote. -/
  | expectedQuote (pos : Nat) (quote : Char)
  /-- A key repeats the key declared at `prev`. -/
  | duplicated (pos prev : Nat)
deriving DecidableEq, Repr

def AttributeFault.message : AttributeFault → String
  | .expectedEq pos => s!"position {pos}: attribute key must be directly followed by `=` or space"
  | .expectedValue pos => s!"position {pos}: `=` must be followed by an attribute value"
  | .unquoted pos => s!"position {pos}: attribute value must be enclosed in `\"` or `'`"
  | .expectedQuote pos quote => s!"position {pos}: missing closing quote `{quote}` in attribute value"
  | .duplicated pos prev =>
    s!"position {pos}: duplicated attribute, previous declaration at position {prev}"

/-- An attribute as written: its key, its escaped value, and the character offsets of the
key and of the value within the tag. -/
structure WrittenAttribute where
  key : List Char
  keyAt : Nat
  value : List Char
  valueAt : Nat
deriving DecidableEq, Repr

/-- What follows a key once the `=` is read: the rest of the tag and its offset. -/
def afterEquals (tagLength : Nat) (bytesAt : Nat → Nat) :
    Char → List Char → Nat → Except AttributeFault (List Char × Nat)
  | '=', rest, off => .ok (rest, off + 1)
  | _, rest, off =>
    let spaces := rest.takeWhile isMarkupSpace
    let j := off + 1 + spaces.length
    match rest.drop spaces.length with
    | '=' :: more => .ok (more, j + 1)
    | [] => .error (.expectedEq (bytesAt tagLength))
    | _ => .error (.expectedEq (bytesAt j))

/-- Reads attributes from `rest`, which starts at character offset `off` of `tag`; `fuel`
bounds the number of attributes. -/
def readAttributes (tag : List Char) :
    Nat → List Char → Nat → List WrittenAttribute → List WrittenAttribute × Option AttributeFault
  | 0, _, _, seen => (seen.reverse, none)
  | fuel + 1, rest, off, seen =>
    let bytesAt (i : Nat) : Nat := utf8Length (tag.take i)
    let spaces := rest.takeWhile isMarkupSpace
    let keyAt := off + spaces.length
    match rest.drop spaces.length with
    | [] => (seen.reverse, none)
    | c :: cs =>
      let keyTail := cs.takeWhile (fun d => d != '=' && !isMarkupSpace d)
      let key := c :: keyTail
      match cs.drop keyTail.length with
      | [] => (seen.reverse, some (.expectedEq (bytesAt tag.length)))
      | d :: afterKey =>
        -- a key without `=` is reported before a repeated key
        match afterEquals tag.length bytesAt d afterKey (keyAt + key.length) with
        | .error f => (seen.reverse, some f)
        | .ok (r, k) =>
          match seen.find? (·.key == key) with
          | some prev => (seen.reverse, some (.duplicated (bytesAt keyAt) (bytesAt prev.keyAt)))
          | none =>
            let spaces' := r.takeWhile isMarkupSpace
            let v := k + spaces'.length
            match r.drop spaces'.length with
            | [] => (seen.reverse, some (.expectedValue (bytesAt tag.length)))
            | q :: body =>
              if q = '"' ∨ q = '\'' then
                let value := body.takeWhile (· != q)
                match body.drop value.length with
                | [] => (seen.reverse, some (.expectedQuote (bytesAt tag.length) q))
                | _ :: more =>
                  readAttributes tag fuel more (v + value.length + 2)
                    (⟨key, keyAt, value, v + 1⟩ :: seen)
              else (seen.reverse, some (.unquoted (bytesAt v)))

/-- The attributes of a tag whose name takes its first `nameLength` characters, and the
fault that stopped the reading, if any. -/
def attributesOf (tag : List Char) (nameLength : Nat) :
    List WrittenAttribute × Option AttributeFault :=
  readAttributes tag (tag.length + 1) (tag.drop nameLength) nameLength []

end GuiMarkup.Markup
