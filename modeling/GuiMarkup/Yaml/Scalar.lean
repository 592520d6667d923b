import GuiMarkup.Decimal.Shortest
import GuiMarkup.Text.Quoted
import GuiMarkup.Yaml.Token

/-! What a YAML scalar stands for under the core schema, and how a value of the wrong kind
is described. -/

namespace GuiMarkup.Yaml

/-- What a scalar stands for. -/
inductive ScalarValue where
  | null
  | bool (b : Bool)
  /-- An integer that fits 64 bits, signed or unsigned. -/
  | int (n : Int)
  /-- An integer that needs 128 bits; `signed` when only a signed type holds it. -/
  | wideInt (n : Int) (signed : Bool)
  | float (f : Float)
  | str (s : String)
deriving Inhabited

/-- The value of digits in a base, when there is at least one and all are digits of it. -/
def digitsValue (base : Nat) (cs : List Char) : Option Nat :=
  let value (c : Char) : Option Nat :=
    let v := if c.isDigit then c.toNat - 48
      else if 'a' ≤ c ∧ c ≤ 'z' then c.toNat - 87
      else if 'A' ≤ c ∧ c ≤ 'Z' then c.toNat - 55
      else base
    if v < base then some v else none
  if cs.isEmpty then none
  else cs.foldlM (fun n c => (value c).map (base * n + ·)) 0

/-- Digits with an optional `+`, below `limit`. -/
def readUnsigned (base limit : Nat) (cs : List Char) : Option Nat :=
  let digits := match cs with
    | '+' :: r => r
    | r => r
  (digitsValue base digits).bind fun n => if n < limit then some n else none

/-- Digits with an optional sign, from `-limit` to below `limit`. -/
def readSigned (base limit : Nat) (cs : List Char) : Option Int :=
  match cs with
  | '-' :: r => (digitsValue base r).bind fun n => if n ≤ limit then some (-(n : Int)) else none
  | '+' :: r => (digitsValue base r).bind fun n => if n < limit then some (n : Int) else none
  | r => (digitsValue base r).bind fun n => if n < limit then some (n : Int) else none

/-- A leading zero followed only by digits, after an optional sign: text, not a number. -/
def zeroLed (cs : List Char) : Bool :=
  let cs := match cs with
    | '-' :: r | '+' :: r => r
    | r => r
  cs.length > 1 && cs.head? == some '0' && cs.tail.all Char.isDigit

/-- An unsigned integer below `limit`: `0x`, `0o` or `0b` digits, or decimal digits with
no sign and no leading zero, all after an optional `+`. -/
def unsignedOf (limit : Nat) (cs : List Char) : Option Nat :=
  let unsigned := match cs with
    | '+' :: r => r
    | r => r
  let based (base : Nat) (rest : List Char) : Option (Option Nat) :=
    match rest with
    | '+' :: _ | '-' :: _ => some none
    | _ => (readUnsigned base limit rest).map some
  let viaBase := match unsigned with
    | '0' :: 'x' :: rest => based 16 rest
    | '0' :: 'o' :: rest => based 8 rest
    | '0' :: 'b' :: rest => based 2 rest
    | _ => none
  match viaBase with
  | some r => r
  | none =>
    match unsigned with
    | '+' :: _ | '-' :: _ => none
    | _ => if zeroLed cs then none else readUnsigned 10 limit unsigned

/-- A negative integer of at least `-limit`: `-0x`, `-0o` or `-0b` digits, or signed
decimal digits with no leading zero. -/
def negativeOf (limit : Nat) (cs : List Char) : Option Int :=
  let based (base : Nat) (rest : List Char) : Option Int := readSigned base limit ('-' :: rest)
  let viaBase := match cs with
    | '-' :: '0' :: 'x' :: rest => based 16 rest
    | '-' :: '0' :: 'o' :: rest => based 8 rest
    | '-' :: '0' :: 'b' :: rest => based 2 rest
    | _ => none
  match viaBase with
  | some n => some n
  | none => if zeroLed cs then none else readSigned 10 limit cs

/-- The parts of a decimal number: sign, digits as one natural, and the power of ten. A
number has digits before or after an optional point, and an optional exponent. -/
def decimalParts (cs : List Char) : Option (Bool × Nat × Int) :=
  let (negative, body) := match cs with
    | '-' :: r => (true, r)
    | '+' :: r => (false, r)
    | r => (false, r)
  let whole := body.takeWhile Char.isDigit
  let rest := body.dropWhile Char.isDigit
  let (fraction, rest) := match rest with
    | '.' :: r => (r.takeWhile Char.isDigit, r.dropWhile Char.isDigit)
    | r => ([], r)
  let exponent : Option Int := match rest with
    | [] => some 0
    | 'e' :: r | 'E' :: r =>
      match r with
      | '-' :: ds => (digitsValue 10 ds).map fun n => -(n : Int)
      | '+' :: ds => (digitsValue 10 ds).map fun n => (n : Int)
      | ds => (digitsValue 10 ds).map fun n => (n : Int)
    | _ => none
  -- a number needs a digit before or after the point
  if whole.isEmpty && fraction.isEmpty then none
  else exponent.map fun e =>
    let digits := (whole ++ fraction).foldl (fun n c => 10 * n + (c.toNat - 48)) 0
    (negative, digits, e - fraction.length)

/-- The float nearest to a decimal number; `none` when it is too large to be finite. -/
def nearestFloat (negative : Bool) (digits : Nat) (e : Int) : Option Float :=
  let width := (Nat.toDigits 10 digits).length
  let magnitude : Option Float :=
    if digits == 0 then some 0
    else if e + width > 400 then none
    else if e + width < -400 then some 0
    else
      let f := Float.ofScientific digits (e < 0) e.natAbs
      if f.isInf then none else some f
  magnitude.map fun f => if negative then -f else f

/-- A finite float written as a decimal number, or a special float `.inf`, `-.inf`,
`.nan`, with an optional `+` in front of all but the negative ones. -/
def floatOf (cs : List Char) : Option Float :=
  let unsigned : Option (List Char) := match cs with
    | '+' :: '+' :: _ | '+' :: '-' :: _ => none
    | '+' :: r => some r
    | r => some r
  unsigned.bind fun u =>
    let s := String.ofList u
    if s == ".inf" || s == ".Inf" || s == ".INF" then some (1 / 0)
    else if String.ofList cs == "-.inf" || String.ofList cs == "-.Inf" || String.ofList cs == "-.INF" then
      some (-1 / 0)
    else if String.ofList cs == ".nan" || String.ofList cs == ".NaN" || String.ofList cs == ".NAN" then
      some (0 / 0)
    else (decimalParts u).bind fun (negative, digits, e) => nearestFloat negative digits e

/-- `null` in any of its spellings. -/
def isNullText (s : String) : Bool := s == "~" || s == "null" || s == "Null" || s == "NULL"

/-- `true` or `false` in any of their spellings. -/
def boolOf (s : String) : Option Bool :=
  if s == "true" || s == "True" || s == "TRUE" then some true
  else if s == "false" || s == "False" || s == "FALSE" then some false
  else none

/-- An integer of 64 bits, else of 128 bits. -/
def intOf (cs : List Char) : Option ScalarValue :=
  match unsignedOf (Nat.pow 2 64) cs with
  | some n => some (.int n)
  | none =>
    match negativeOf (Nat.pow 2 63) cs with
    | some n => some (.int n)
    | none =>
      match unsignedOf (Nat.pow 2 128) cs with
      | some n => some (.wideInt n false)
      | none => (negativeOf (Nat.pow 2 127) cs).map (.wideInt · true)

/-- What a plain scalar stands for when no tag types it. -/
def plainValue (s : String) : ScalarValue :=
  let cs := s.toList
  if s.isEmpty || isNullText s then .null
  else match boolOf s with
    | some b => .bool b
    | none =>
      match intOf cs with
      | some v => v
      | none =>
        match (if zeroLed cs then none else floatOf cs) with
        | some f => .float f
        | none => .str s

/-- The full names of the core schema's tags. -/
def boolTag : String := "tag:yaml.org,2002:bool"
def intTag : String := "tag:yaml.org,2002:int"
def floatTag : String := "tag:yaml.org,2002:float"
def nullTag : String := "tag:yaml.org,2002:null"

/-- What a scalar stands for, by its tag and style; a text that its tag refuses is given
back with what the tag expected. -/
def scalarValue (tag : Option String) (text : String) (style : ScalarStyle) :
    Except (String × String) ScalarValue :=
  match tag with
  | some t =>
    if t == boolTag then
      match boolOf text with
      | some b => .ok (.bool b)
      | none => .error (text, "a boolean")
    else if t == intTag then
      match intOf text.toList with
      | some v => .ok v
      | none => .error (text, "an integer")
    else if t == floatTag then
      match floatOf text.toList with
      | some f => .ok (.float f)
      | none => .error (text, "a float")
    else if t == nullTag then
      if isNullText text then .ok .null else .error (text, "null")
    else if t.startsWith "!" && style == .plain then .ok (plainValue text)
    else .ok (.str text)
  | none => if style == .plain then .ok (plainValue text) else .ok (.str text)

/-- How a value of the wrong kind is described. -/
def ScalarValue.describe : ScalarValue → String
  | .null => "unit value"
  | .bool b => "boolean `" ++ toString b ++ "`"
  | .int n => "integer `" ++ toString n ++ "`"
  | .wideInt n signed => "integer `" ++ toString n ++ "` as " ++ (if signed then "i128" else "u128")
  | .float f => "floating point `" ++ Decimal.floatText f ++ "`"
  | .str s => "string " ++ Text.quoteText s

end GuiMarkup.Yaml
