import GuiMarkup.Yaml.Event

/-! The first document of a YAML stream with its aliases resolved to event indices.
Anchors are numbered by the count of distinct names before them, so a name defined again
hands its number to the next new name. -/

namespace GuiMarkup.Yaml

/-- An event of a loaded document. -/
inductive Item where
  /-- An alias, by the index of its anchor's event (while loading, by its anchor's number). -/
  | alias (target : Nat)
  | scalar (tag : Option String) (text : String) (style : ScalarStyle)
  | sequenceStart
  | sequenceEnd
  | mappingStart
  | mappingEnd
  /-- The stream held no document. -/
  | void
deriving Repr, Inhabited

/-- Why a document was cut short. -/
inductive LoadFault where
  | malformed (f : Fault)
  | unknownAnchor (m : Mark)
deriving Repr, Inhabited

/-- The first document of a stream. -/
structure Loaded where
  items : Array (Item × Mark)
  fault : Option LoadFault
  /-- Whether anything but the end of the stream follows the first document. -/
  more : Bool
deriving Inhabited

namespace Loaded

/-- Runs the parser for one event. -/
def step (p : Parser) : Except Fault (Event × Mark) × Parser :=
  (Parser.next.run).run p

/-- Whether the next event is anything but the end of the stream. -/
def anotherDocument (p : Parser) : Bool :=
  match (step p).1 with
  | .ok (.streamEnd, _) => false
  | _ => true

/-- The anchors defined so far in a document. -/
structure Anchors where
  /-- Each name defined, once, with its number. -/
  numbers : List (String × Nat) := []
  /-- Each number with the index of an event it was given to, the latest first. -/
  targets : List (Nat × Nat) := []
deriving Inhabited

namespace Anchors

/-- Gives the event at index `i` the anchor `name`, numbered by the count of names
defined before. -/
def define (t : Anchors) (name : String) (i : Nat) : Anchors :=
  let n := t.numbers.length
  { numbers := (name, n) :: t.numbers.filter (·.1 != name), targets := (n, i) :: t.targets }

/-- The number of the anchor `name`, if it is defined. -/
def number? (t : Anchors) (name : String) : Option Nat :=
  (t.numbers.find? (·.1 == name)).map (·.2)

/-- The index of the event last given number `n`. Every number that `number?` gives was
given to an event, so the default is never taken. -/
def target (t : Anchors) (n : Nat) : Nat :=
  ((t.targets.find? (·.1 == n)).map (·.2)).getD 0

/-- Turns each alias of a list of items, held by its anchor's number, into the index of the
event that number was last given to. -/
def resolve (t : Anchors) (items : Array (Item × Mark)) : Array (Item × Mark) :=
  items.map fun (item, m) =>
    match item with
    | .alias n => (.alias (t.target n), m)
    | _ => (item, m)

end Anchors

/-- Records an anchor, if any, at the index the next item gets. -/
def anchorAt (anchors : Anchors) (a : Option String) (i : Nat) : Anchors :=
  match a with
  | some name => anchors.define name i
  | none => anchors

/-- Collects the events of the first document; while collecting, an alias holds its
anchor's number. -/
def collect : Nat → Parser → Array (Item × Mark) → Anchors → Loaded
  | 0, _, items, anchors => ⟨anchors.resolve items, none, false⟩
  | fuel + 1, p, items, anchors =>
    match step p with
    | (.error f, _) => ⟨anchors.resolve items, some (.malformed f), false⟩
    | (.ok (ev, m), p) =>
      match ev with
      | .streamStart | .documentStart => collect fuel p items anchors
      | .streamEnd =>
        ⟨if items.isEmpty then #[(.void, m)] else anchors.resolve items, none, false⟩
      | .documentEnd => ⟨anchors.resolve items, none, anotherDocument p⟩
      | .alias name =>
        match anchors.number? name with
        | some n => collect fuel p (items.push (.alias n, m)) anchors
        | none => ⟨anchors.resolve items, some (.unknownAnchor m), false⟩
      | .scalar a tag text style =>
        collect fuel p (items.push (.scalar tag text style, m)) (anchorAt anchors a items.size)
      | .sequenceStart a _ =>
        collect fuel p (items.push (.sequenceStart, m)) (anchorAt anchors a items.size)
      | .sequenceEnd => collect fuel p (items.push (.sequenceEnd, m)) anchors
      | .mappingStart a _ =>
        collect fuel p (items.push (.mappingStart, m)) (anchorAt anchors a items.size)
      | .mappingEnd => collect fuel p (items.push (.mappingEnd, m)) anchors

end Loaded

/-- Loads the first document of a YAML text. -/
def Loaded.ofText (text : String) : Loaded :=
  let stream := TokenStream.ofText text
  Loaded.collect (4 * stream.tokens.size + 16) { stream } #[] {}

end GuiMarkup.Yaml
