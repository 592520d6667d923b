import GuiMarkup.Text.Blank

/-! Cutting texts at a separator character or at a word. -/

namespace GuiMarkup.Text

/-- The pieces between the separators, in order; a text without separator is one piece,
and the empty text is one empty piece. -/
def splitOn (sep : Char) (cs : List Char) : List (List Char) :=
  go [] cs
where
  go (acc : List Char) : List Char → List (List Char)
    | [] => [acc.reverse]
    | c :: rest => if c = sep then acc.reverse :: go [] rest else go (c :: acc) rest

/-- The text before and after the first `sep`. -/
def splitFirst (sep : Char) (cs : List Char) : Option (List Char × List Char) :=
  match cs.span (· != sep) with
  | (before, _ :: after) => some (before, after)
  | (_, []) => none

/-- The text before and after the first occurrence of a non-empty word. -/
def splitAtWord (word : List Char) : List Char → Option (List Char × List Char)
  | [] => none
  | c :: rest =>
    if word.isPrefixOf (c :: rest) then some ([], (c :: rest).drop word.length)
    else (splitAtWord word rest).map fun (a, b) => (c :: a, b)

/-- The non-blank entries of a list separated by `sep`, each without blanks at its ends. -/
def entries (sep : Char) (s : String) : List String :=
  ((splitOn sep s.toList).map trim).filter (!·.isEmpty) |>.map String.ofList

end GuiMarkup.Text
