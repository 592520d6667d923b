import GuiMarkup.Markup.Entity
import GuiMarkup.Markup.Tree

/-! Writing a markup tree with four spaces of indent per level and text and CDATA inline.
A CDATA section holding `]]>` is cut after each `]]`. -/

namespace GuiMarkup.Markup

/-- A CDATA content cut into sections: each cut falls between `]]` and `>`. -/
def cdataSections : List Char → List Char → List (List Char)
  | acc, [] => [acc.reverse]
  | acc, ']' :: ']' :: tail@('>' :: _) => (acc.reverse ++ [']', ']']) :: cdataSections [] tail
  | acc, c :: rest => cdataSections (c :: acc) rest

/-- The CDATA sections that carry a content. -/
def cdataText (content : String) : String :=
  String.join ((cdataSections [] content.toList).map fun s =>
    "<![CDATA[" ++ String.ofList s ++ "]]>")

/-- The name of an element with its attributes, as written inside a tag. -/
def tagText (e : Element) : String :=
  e.attributes.foldl (fun out a =>
    out ++ " " ++ a.name ++ "=\"" ++ String.ofList (escape a.value.toList) ++ "\"") e.name

/-- The line break and indent that precede a tag at `depth`, if one is due. -/
def lineBreak (due : Bool) (depth : Nat) : String :=
  if due then "\n" ++ String.ofList (List.replicate (4 * depth) ' ') else ""

mutual

/-- Writes an element at `depth`; `due` tells whether a line break precedes its tag. The
result is the text and whether a line break is due after it. -/
def writeElement (depth : Nat) (due : Bool) : Element → String × Bool
  | ⟨name, _, _, attrs, []⟩ =>
    (lineBreak due depth ++ "<" ++ tagText ⟨name, {}, {}, attrs, []⟩ ++ "/>", true)
  | ⟨name, _, _, attrs, c :: cs⟩ =>
    let opening := lineBreak due depth ++ "<" ++ tagText ⟨name, {}, {}, attrs, []⟩ ++ ">"
    let (inner, due') := writeChildren (depth + 1) true (c :: cs)
    (opening ++ inner ++ lineBreak due' depth ++ "</" ++ name ++ ">", true)

/-- Writes children in order at `depth`. -/
def writeChildren (depth : Nat) (due : Bool) : List Node → String × Bool
  | [] => ("", due)
  | n :: ns =>
    let (first, due') := writeNode depth due n
    let (rest, due'') := writeChildren depth due' ns
    (first ++ rest, due'')

/-- Writes one child at `depth`. -/
def writeNode (depth : Nat) (due : Bool) : Node → String × Bool
  | .element e => writeElement depth due e
  | .text content _ => (String.ofList (escape content.toList), false)
  | .cdata content _ => (cdataText content, false)

end

/-- The markup text of a tree, with no line break at the end. -/
def Tag.write (e : Element) : String :=
  (writeElement 0 false e).1

end GuiMarkup.Markup
