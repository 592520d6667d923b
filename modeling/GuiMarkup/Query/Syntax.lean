/-! Queries over an instance tree: primary steps `/T` and `//T`, cascades, and the set
operations `*`, `+`, `-` and `^`. Printing writes the fewest parentheses. -/

namespace GuiMarkup

/-- One step of a query with its filters; `none` asks nothing. -/
structure Primary where
  descendants : Bool := false
  property : Option String := none
  qualifier : Option String := none
  typeName : Option String := none
  reference : Option String := none
deriving DecidableEq, Repr, Inhabited

/-- The set operations on query results. -/
inductive SetOp where
  | union
  | intersect
  | subtract
  | xor
deriving DecidableEq, Repr, Inhabited

/-- A query. -/
inductive Query where
  | primary (p : Primary)
  | cascade (first next : Query)
  | set (op : SetOp) (left right : Query)
deriving DecidableEq, Repr, Inhabited

namespace SetOp

/-- The character that writes an operation. -/
def symbol : SetOp → Char
  | .union => '+'
  | .intersect => '*'
  | .subtract => '-'
  | .xor => '^'

/-- How tightly an operation binds: intersection above the others. -/
def precedence : SetOp → Nat
  | .intersect => 1
  | _ => 0

end SetOp

namespace Query

/-- How tightly a query binds: a primary most, then a cascade, then its set operation. -/
def precedence : Query → Nat
  | .primary _ => 3
  | .cascade .. => 2
  | .set op .. => op.precedence

end Query

namespace Primary

/-- The text of a primary step. -/
def print (p : Primary) : String :=
  (if p.descendants then "//" else "/") ++
    (p.property.map fun n => "@" ++ n ++ ":").getD "" ++
    (p.qualifier.map (· ++ ":")).getD "" ++
    p.typeName.getD "*" ++
    (p.reference.map ("." ++ ·)).getD ""

end Primary

namespace Query

/-- The text of a query that stands where a query binding at least `min` is needed;
one that binds less is put in parentheses. -/
def printAt (min : Nat) : Query → String
  | q@(.primary p) => paren (q.precedence < min) p.print
  | q@(.cascade a b) => paren (q.precedence < min) (printAt 2 a ++ printAt 3 b)
  | q@(.set op a b) =>
    paren (q.precedence < min)
      (printAt op.precedence a ++ " " ++ op.symbol.toString ++ " " ++ printAt (op.precedence + 1) b)
where
  paren (wrap : Bool) (s : String) : String := if wrap then "(" ++ s ++ ")" else s

/-- The text of a query. -/
def print (q : Query) : String := printAt 0 q

end Query

end GuiMarkup
