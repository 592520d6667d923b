import GuiMarkup.Text.Unprintable

/-! Texts and characters quoted in messages, with control characters, quote marks and
unprintable characters escaped. -/

namespace GuiMarkup.Text

/-- Lower-case hexadecimal digits of a number. -/
def hexText (n : Nat) : String := String.ofList (Nat.toDigits 16 n)

/-- How a character is written between two marks `quote`. -/
def escapeWithin (quote c : Char) : String :=
  match c with
  | '\t' => "\\t"
  | '\r' => "\\r"
  | '\n' => "\\n"
  | '\\' => "\\\\"
  | '\x00' => "\\0"
  | _ =>
    if c = quote then "\\" ++ c.toString
    else if isUnprintable c then "\\u" ++ "\x7b" ++ hexText c.toNat ++ "\x7d"
    else c.toString

/-- A text between double quotes; a single quote in it stands for itself. -/
def quoteText (s : String) : String :=
  "\"" ++ String.join (s.toList.map (escapeWithin '"')) ++ "\""

/-- A character between single quotes; a double quote stands for itself. -/
def quoteChar (c : Char) : String :=
  "'" ++ escapeWithin '\'' c ++ "'"

end GuiMarkup.Text
