/-! Markup spaces (space, tab, carriage return, line feed) and the Unicode `White_Space`
characters. -/

namespace GuiMarkup.Text

/-- A separator of markup syntax: space, tab, carriage return or line feed. -/
def isMarkupSpace (c : Char) : Bool :=
  c == ' ' || c == '\t' || c == '\r' || c == '\n'

/-- A code point of the Unicode `White_Space` property: tab through carriage return,
space, next line, no-break space, ogham space mark, en quad through hair space, line and
paragraph separators, narrow no-break space, medium mathematical space and ideographic
space. -/
def isBlank (c : Char) : Bool :=
  let n := c.toNat
  (0x09 ≤ n && n ≤ 0x0D) || n == 0x20 || n == 0x85 || n == 0xA0 || n == 0x1680 ||
    (0x2000 ≤ n && n ≤ 0x200A) || n == 0x2028 || n == 0x2029 || n == 0x202F ||
    n == 0x205F || n == 0x3000

/-- Drops the blanks in front. -/
def trimStart (cs : List Char) : List Char :=
  cs.dropWhile isBlank

/-- Drops the blanks at the back. -/
def trimEnd (cs : List Char) : List Char :=
  (cs.reverse.dropWhile isBlank).reverse

/-- Drops the blanks at both ends. -/
def trim (cs : List Char) : List Char :=
  trimEnd (trimStart cs)

/-- A string without the blanks at both ends. -/
def trimText (s : String) : String :=
  String.ofList (trim s.toList)

/-- Every markup separator is a blank. -/
theorem isBlank_of_isMarkupSpace {c : Char} (h : isMarkupSpace c = true) :
    isBlank c = true := by
  simp only [isMarkupSpace, Bool.or_eq_true, beq_iff_eq] at h
  rcases h with ((rfl | rfl) | rfl) | rfl <;> decide

/-- The ASCII blanks of core's `Char.isWhitespace` are blanks here too. -/
theorem isBlank_of_isWhitespace {c : Char} (h : c.isWhitespace = true) :
    isBlank c = true := by
  simp only [Char.isWhitespace, Bool.or_eq_true, decide_eq_true_eq] at h
  rcases h with ((h | h) | h) | h <;> subst h <;> decide

end GuiMarkup.Text
