/-! Entity references: the five named entities and numeric references. Reading replaces
every reference and refuses unknown names, unclosed references and numbers that name no
character. -/

namespace GuiMarkup.Markup

/-- Why a numeric character reference names no character. -/
inductive CharRefFault where
  /-- The number starts with `+` or `-`. -/
  | sign
  /-- There are no digits. -/
  | empty
  /-- A character is no digit of the base. -/
  | invalidDigit
  /-- The number needs more than 32 bits. -/
  | tooLarge
  /-- The number is no Unicode scalar value. -/
  | notScalar (code : Nat)
  /-- The number is zero. -/
  | nul
deriving DecidableEq, Repr

/-- Why a text cannot be read back from its escaped form. -/
inductive EntityError where
  /-- The name between `&` and `;` (bytes `start` to `stop`) is none of the five. -/
  | unknown (start stop : Nat) (name : String)
  /-- The `&` at byte `start` is not closed by `;` before the next `&` or the end. -/
  | unterminated (start stop : Nat)
  /-- A numeric reference names no character. -/
  | charRef (fault : CharRefFault)
deriving DecidableEq, Repr

def CharRefFault.message : CharRefFault → String
  | .sign => "unexpected number sign"
  | .empty => "cannot parse integer from empty string"
  | .invalidDigit => "invalid digit found in string"
  | .tooLarge => "number too large to fit in target type"
  | .notScalar code => s!"`{code}` is not a valid codepoint"
  | .nul => "0x0 character is not permitted in XML"

def EntityError.message : EntityError → String
  | .unknown start stop name => s!"at {start}..{stop}: unrecognized entity `{name}`"
  | .unterminated start stop =>
    s!"Error while escaping character at range {start}..{stop}: Cannot find ';' after '&'"
  | .charRef fault => "invalid character reference: " ++ fault.message

/-- The replacement text of an escaped character, or the character itself. -/
def escapeChar : Char → List Char
  | '<' => "&lt;".toList
  | '>' => "&gt;".toList
  | '&' => "&amp;".toList
  | '\'' => "&apos;".toList
  | '"' => "&quot;".toList
  | c => [c]

/-- Text with the five markup characters replaced by their entities. -/
def escape (cs : List Char) : List Char :=
  cs.flatMap escapeChar

/-- The character that a named entity stands for. -/
def namedEntity : List Char → Option Char
  | ['l', 't'] => some '<'
  | ['g', 't'] => some '>'
  | ['a', 'm', 'p'] => some '&'
  | ['a', 'p', 'o', 's'] => some '\''
  | ['q', 'u', 'o', 't'] => some '"'
  | _ => none

/-- Whether a number is a Unicode scalar value: at most `0x10FFFF` and no surrogate. -/
def IsScalar (n : Nat) : Prop :=
  n ≤ 0x10FFFF ∧ ¬(0xD800 ≤ n ∧ n ≤ 0xDFFF)

instance (n : Nat) : Decidable (IsScalar n) := by
  unfold IsScalar; infer_instance

/-- The value of a digit in base 10 or 16 (either case). -/
def digitValue (base : Nat) (c : Char) : Option Nat :=
  if '0' ≤ c ∧ c ≤ '9' then some (c.toNat - '0'.toNat)
  else if base = 16 ∧ 'a' ≤ c ∧ c ≤ 'f' then some (c.toNat - 'a'.toNat + 10)
  else if base = 16 ∧ 'A' ≤ c ∧ c ≤ 'F' then some (c.toNat - 'A'.toNat + 10)
  else none

/-- Reads digits left to right into a 32-bit number; the first bad digit or the first
overflow decides the error. -/
def readDigits (base : Nat) : List Char → Nat → Except CharRefFault Nat
  | [], acc => .ok acc
  | c :: cs, acc =>
    match digitValue base c with
    | none => .error .invalidDigit
    | some d =>
      if acc * base + d > 0xFFFFFFFF then .error .tooLarge
      else readDigits base cs (acc * base + d)

/-- A number in the given base: no sign, at least one digit, at most 32 bits. -/
def readNumber (base : Nat) : List Char → Except CharRefFault Nat
  | [] => .error .empty
  | c :: cs =>
    if c = '+' ∨ c = '-' then .error .sign else readDigits base (c :: cs) 0

/-- The character named by the text after `&#`: hexadecimal after an `x`, else decimal. -/
def charRef (ref : List Char) : Except CharRefFault Char := do
  let code ← match ref with
    | 'x' :: hex => readNumber 16 hex
    | dec => readNumber 10 dec
  if code = 0 then throw .nul
  if IsScalar code then pure (Char.ofNat code) else throw (.notScalar code)

/-- The character that the reference between `&` (at byte `start`) and `;` (at byte
`stop`) stands for. -/
def resolveRef (ref : List Char) (start stop : Nat) : Except EntityError Char :=
  match ref with
  | '#' :: num => (charRef num).mapError .charRef
  | name =>
    match namedEntity name with
    | some c => .ok c
    | none => .error (.unknown (start + 1) stop (String.ofList name))

/-- Replaces references left to right. `pending` holds the byte offset of an open `&`
and the reversed name read since; `total` is the byte length of the whole text. -/
def unescapeFrom (total : Nat) :
    List Char → Nat → Option (Nat × List Char) → List Char → Except EntityError (List Char)
  | [], _, none, acc => .ok acc.reverse
  | [], _, some (start, _), _ => .error (.unterminated start total)
  | c :: cs, pos, none, acc =>
    if c = '&' then unescapeFrom total cs (pos + 1) (some (pos, [])) acc
    else unescapeFrom total cs (pos + c.utf8Size) none (c :: acc)
  | c :: cs, pos, some (start, ref), acc =>
    if c = ';' then
      match resolveRef ref.reverse start pos with
      | .ok r => unescapeFrom total cs (pos + 1) none (r :: acc)
      | .error e => .error e
    else if c = '&' then .error (.unterminated start total)
    else unescapeFrom total cs (pos + c.utf8Size) (some (start, c :: ref)) acc

/-- The byte length of a text in UTF-8. -/
def utf8Length (cs : List Char) : Nat :=
  cs.foldr (fun c n => c.utf8Size + n) 0

/-- The text that an escaped text stands for. -/
def unescape (cs : List Char) : Except EntityError (List Char) :=
  unescapeFrom (utf8Length cs) cs 0 none []

theorem escapeChar_eq_self {c : Char} (h : c ≠ '<' ∧ c ≠ '>' ∧ c ≠ '&' ∧ c ≠ '\'' ∧ c ≠ '"') :
    escapeChar c = [c] := by
  obtain ⟨h1, h2, h3, h4, h5⟩ := h
  unfold escapeChar
  split <;> simp_all

end GuiMarkup.Markup
