/-! Positions of 1-based lines and columns; only a line feed ends a line, and `0:0` is the
position never set. -/

namespace GuiMarkup

/-- A line and a column, both counted from one; `0:0` stands for "not set". -/
structure Pos where
  line : Nat := 0
  column : Nat := 0
deriving DecidableEq, Repr, Inhabited

/-- A stretch of text from `start` to `stop`. -/
structure Span where
  start : Pos := {}
  stop : Pos := {}
deriving DecidableEq, Repr, Inhabited

namespace Pos

/-- The position `n` columns further right on the same line. -/
def shift (p : Pos) (n : Nat) : Pos :=
  { p with column := p.column + n }

end Pos

namespace Span

/-- Whether the stretch ends on another line than it starts. -/
def isMultiline (s : Span) : Bool :=
  s.start.line != s.stop.line

end Span

/-- The position reached after reading `cs` from position `p`. -/
def Pos.advance : Pos → List Char → Pos
  | p, [] => p
  | p, c :: cs => if c = '\n' then advance ⟨p.line + 1, 1⟩ cs else advance (p.shift 1) cs

/-- The position of character offset `o` of a text; an offset past the end is the end. -/
def posAt (text : List Char) (o : Nat) : Pos :=
  Pos.advance ⟨1, 1⟩ (text.take o)

/-- The stretch between two character offsets of a text. -/
def spanAt (text : List Char) (a b : Nat) : Span :=
  ⟨posAt text a, posAt text b⟩

theorem Pos.advance_append (p : Pos) (xs ys : List Char) :
    p.advance (xs ++ ys) = (p.advance xs).advance ys := by
  induction xs generalizing p with
  | nil => rfl
  | cons c cs ih => by_cases h : c = '\n' <;> simp [advance, h, ih]

end GuiMarkup
