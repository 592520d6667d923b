import GuiMarkup.Text.Blank
import GuiMarkup.Query.Syntax

/-! Reading queries, greedily and grouping to the left, with blanks between tokens. An
error names the offset where reading stopped and what was expected there. -/

namespace GuiMarkup

open GuiMarkup.Text

/-- What reading expected where it stopped. -/
inductive Expectation where
  | name
  | atom
  | char (c : Char)
deriving DecidableEq, Repr

/-- Why a query text does not read. -/
inductive QueryProblem where
  /-- Something else, or the end (`none`), stands where `what` was expected. -/
  | expected (what : Expectation) (found : Option Char)
  /-- A complete query is followed by more text. -/
  | trailing (c : Char)
deriving DecidableEq, Repr

/-- A query text that does not read: where reading stopped, in characters, and why. -/
structure QueryError where
  offset : Nat
  problem : QueryProblem
deriving DecidableEq, Repr

def Expectation.text : Expectation → String
  | .name => "a name"
  | .atom => "'/', '//' or '('"
  | .char c => "'" ++ c.toString ++ "'"

def QueryProblem.text : QueryProblem → String
  | .expected what (some c) => "expected " ++ what.text ++ ", found '" ++ c.toString ++ "'"
  | .expected what none => "expected " ++ what.text ++ ", found end of query"
  | .trailing c => "unexpected '" ++ c.toString ++ "' after query"

def QueryError.message (e : QueryError) : String :=
  s!"Query syntax error at offset {e.offset}: " ++ e.problem.text

namespace QueryReader

/-- A rest of the text strictly shorter than `cs`. -/
abbrev Shorter (cs : List Char) := { r : List Char // r.length < cs.length }

/-- A rest of the text no longer than `cs`. -/
abbrev NoLonger (cs : List Char) := { r : List Char // r.length ≤ cs.length }

/-- The text after its leading blanks. -/
def skipBlanks : List Char → List Char
  | [] => []
  | c :: cs => if isBlank c then skipBlanks cs else c :: cs

theorem length_skipBlanks_le (cs : List Char) : (skipBlanks cs).length ≤ cs.length := by
  induction cs with
  | nil => simp [skipBlanks]
  | cons c cs ih =>
    simp only [skipBlanks]
    split
    · simp only [List.length_cons]; omega
    · simp

/-- The next character after blanks, with the rest after it. -/
def peek (cs : List Char) : Option (Char × Shorter cs) :=
  match h : skipBlanks cs with
  | [] => none
  | c :: t => some (c, ⟨t, by
      have := length_skipBlanks_le cs
      rw [h] at this
      simp only [List.length_cons] at this
      omega⟩)

/-- Reads the character `c` after blanks. -/
def eat (c : Char) (cs : List Char) : Option (Shorter cs) :=
  match peek cs with
  | some (d, r) => if d = c then some r else none
  | none => none

/-- The error "expected `what`" at the first character after blanks. -/
def fail (n : Nat) (what : Expectation) (cs : List Char) : QueryError :=
  let r := skipBlanks cs
  ⟨n - r.length, .expected what r.head?⟩

/-- Reads a name after blanks: an ASCII letter or `_`, then letters, digits and `_`. -/
def name? (cs : List Char) : Option (String × Shorter cs) :=
  match peek cs with
  | some (c, r) =>
    if c.isAlpha || c == '_' then
      let tail := r.1.takeWhile fun d => d.isAlphanum || d == '_'
      some (String.ofList (c :: tail), ⟨r.1.drop tail.length, by
        have := r.2
        simp only [List.length_drop]
        omega⟩)
    else none
  | none => none

/-- Reads a name, or fails with "expected a name". -/
def name (n : Nat) (cs : List Char) : Except QueryError (String × Shorter cs) :=
  match name? cs with
  | some r => .ok r
  | none => .error (fail n .name cs)

/-- Reads the character `c`, or fails with "expected 'c'". -/
def expect (n : Nat) (c : Char) (cs : List Char) : Except QueryError (Shorter cs) :=
  match eat c cs with
  | some r => .ok r
  | none => .error (fail n (.char c) cs)

/-- Reads `@name:` or `@:`, if the text starts with `@`. -/
def property (n : Nat) (cs : List Char) : Except QueryError (Option String × NoLonger cs) :=
  match eat '@' cs with
  | none => .ok (none, ⟨cs, Nat.le_refl _⟩)
  | some r =>
    let (p, r') : String × NoLonger r.1 :=
      match name? r.1 with
      | some (p, r') => (p, ⟨r'.1, Nat.le_of_lt r'.2⟩)
      | none => ("", ⟨r.1, Nat.le_refl _⟩)
    match expect n ':' r'.1 with
    | .ok r'' => .ok (some p, ⟨r''.1, by have := r.2; have := r'.2; have := r''.2; omega⟩)
    | .error e => .error e

/-- Reads `*`, `name` or `ns:name`: the namespace and the type. -/
def typeFilter (n : Nat) (cs : List Char) :
    Except QueryError ((Option String × Option String) × Shorter cs) :=
  match eat '*' cs with
  | some r => .ok ((none, none), r)
  | none =>
    match name n cs with
    | .error e => .error e
    | .ok (first, r) =>
      match eat ':' r.1 with
      | none => .ok ((none, some first), r)
      | some r' =>
        match name n r'.1 with
        | .error e => .error e
        | .ok (second, r'') =>
          .ok ((some first, some second), ⟨r''.1, by have := r.2; have := r'.2; have := r''.2; omega⟩)

/-- Reads `.name`, if the text starts with `.`. -/
def reference (n : Nat) (cs : List Char) : Except QueryError (Option String × NoLonger cs) :=
  match eat '.' cs with
  | none => .ok (none, ⟨cs, Nat.le_refl _⟩)
  | some r =>
    match name n r.1 with
    | .error e => .error e
    | .ok (ref, r') => .ok (some ref, ⟨r'.1, by have := r.2; have := r'.2; omega⟩)

/-- Reads a primary step; the second `/` of `//` must follow the first directly. -/
def primary (n : Nat) (cs : List Char) : Except QueryError (Primary × Shorter cs) :=
  match expect n '/' cs with
  | .error e => .error e
  | .ok r0 =>
    let (descendants, r1) : Bool × NoLonger r0.1 :=
      match r0 with
      | ⟨'/' :: t, _⟩ => (true, ⟨t, by simp⟩)
      | r => (false, ⟨r.1, Nat.le_refl _⟩)
    match property n r1.1 with
    | .error e => .error e
    | .ok (prop, r2) =>
      match typeFilter n r2.1 with
      | .error e => .error e
      | .ok ((ns, ty), r3) =>
        match reference n r3.1 with
        | .error e => .error e
        | .ok (ref, r4) =>
          .ok ({ descendants, property := prop, qualifier := ns, typeName := ty, reference := ref },
            ⟨r4.1, by have := r0.2; have := r1.2; have := r2.2; have := r3.2; have := r4.2; omega⟩)

/-- The set operation that a character writes, other than intersection. -/
def joinOp? : Char → Option SetOp
  | '+' => some .union
  | '-' => some .subtract
  | '^' => some .xor
  | _ => none

mutual

/-- `atom := primary | '(' query ')'` -/
def atom (n : Nat) (cs : List Char) : Except QueryError (Query × Shorter cs) :=
  match peek cs with
  | some ('(', r) =>
    match query n r.1 with
    | .error e => .error e
    | .ok (q, r') =>
      match expect n ')' r'.1 with
      | .error e => .error e
      | .ok r'' => .ok (q, ⟨r''.1, by have := r.2; have := r'.2; have := r''.2; omega⟩)
  | some ('/', _) =>
    match primary n cs with
    | .error e => .error e
    | .ok (p, r) => .ok (.primary p, r)
  | _ => .error (fail n .atom cs)
termination_by (cs.length, 0)

/-- `cascade := atom atom*` -/
def cascade (n : Nat) (cs : List Char) : Except QueryError (Query × Shorter cs) :=
  match atom n cs with
  | .error e => .error e
  | .ok (a, r) =>
    match cascadeTail n a r.1 with
    | .error e => .error e
    | .ok (q, r') => .ok (q, ⟨r'.1, by have := r.2; have := r'.2; omega⟩)
termination_by (cs.length, 2)

/-- The `atom*` of a cascade, each atom cascading below what came before. -/
def cascadeTail (n : Nat) (acc : Query) (cs : List Char) :
    Except QueryError (Query × NoLonger cs) :=
  match peek cs with
  | some (c, _) =>
    if c = '/' ∨ c = '(' then
      match atom n cs with
      | .error e => .error e
      | .ok (a, r) =>
        match cascadeTail n (.cascade acc a) r.1 with
        | .error e => .error e
        | .ok (q, r') => .ok (q, ⟨r'.1, by have := r.2; have := r'.2; omega⟩)
    else .ok (acc, ⟨cs, Nat.le_refl _⟩)
  | none => .ok (acc, ⟨cs, Nat.le_refl _⟩)
termination_by (cs.length, 1)

/-- `inter := cascade ('*' cascade)*` -/
def inter (n : Nat) (cs : List Char) : Except QueryError (Query × Shorter cs) :=
  match cascade n cs with
  | .error e => .error e
  | .ok (a, r) =>
    match interTail n a r.1 with
    | .error e => .error e
    | .ok (q, r') => .ok (q, ⟨r'.1, by have := r.2; have := r'.2; omega⟩)
termination_by (cs.length, 4)

/-- The `('*' cascade)*` of an intersection. -/
def interTail (n : Nat) (acc : Query) (cs : List Char) :
    Except QueryError (Query × NoLonger cs) :=
  match eat '*' cs with
  | some r =>
    match cascade n r.1 with
    | .error e => .error e
    | .ok (b, r') =>
      match interTail n (.set .intersect acc b) r'.1 with
      | .error e => .error e
      | .ok (q, r'') => .ok (q, ⟨r''.1, by have := r.2; have := r'.2; have := r''.2; omega⟩)
  | none => .ok (acc, ⟨cs, Nat.le_refl _⟩)
termination_by (cs.length, 3)

/-- `query := inter (('+' | '-' | '^') inter)*` -/
def query (n : Nat) (cs : List Char) : Except QueryError (Query × Shorter cs) :=
  match inter n cs with
  | .error e => .error e
  | .ok (a, r) =>
    match queryTail n a r.1 with
    | .error e => .error e
    | .ok (q, r') => .ok (q, ⟨r'.1, by have := r.2; have := r'.2; omega⟩)
termination_by (cs.length, 6)

/-- The `(('+' | '-' | '^') inter)*` of a query. -/
def queryTail (n : Nat) (acc : Query) (cs : List Char) :
    Except QueryError (Query × NoLonger cs) :=
  match peek cs with
  | some (c, r) =>
    match joinOp? c with
    | some op =>
      match inter n r.1 with
      | .error e => .error e
      | .ok (b, r') =>
        match queryTail n (.set op acc b) r'.1 with
        | .error e => .error e
        | .ok (q, r'') => .ok (q, ⟨r''.1, by have := r.2; have := r'.2; have := r''.2; omega⟩)
    | none => .ok (acc, ⟨cs, Nat.le_refl _⟩)
  | none => .ok (acc, ⟨cs, Nat.le_refl _⟩)
termination_by (cs.length, 5)

end

end QueryReader

/-- Reads a whole query text; anything but blanks after the query is an error. -/
def Query.parse (text : String) : Except QueryError Query :=
  let cs := text.toList
  match QueryReader.query cs.length cs with
  | .error e => .error e
  | .ok (q, r) =>
    match QueryReader.skipBlanks r.1 with
    | [] => .ok q
    | c :: t => .error ⟨cs.length - (c :: t).length, .trailing c⟩

end GuiMarkup
