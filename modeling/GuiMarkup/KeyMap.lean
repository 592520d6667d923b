/-! Maps holding entries under distinct names, in ascending code-point order of the names. -/

namespace GuiMarkup

/-- Entries under distinct names, in ascending order of the names. -/
structure KeyMap (α : Type) where
  entries : List (String × α) := []
deriving Repr, BEq, Inhabited

namespace KeyMap

variable {α : Type}

/-- Puts an entry into an ordered list, replacing the entry of the same name. -/
def insertSorted (k : String) (v : α) : List (String × α) → List (String × α)
  | [] => [(k, v)]
  | (k', v') :: rest =>
    if k < k' then (k, v) :: (k', v') :: rest
    else if k = k' then (k, v) :: rest
    else (k', v') :: insertSorted k v rest

/-- The value under a name. -/
def find? (m : KeyMap α) (k : String) : Option α :=
  (m.entries.find? (·.1 == k)).map (·.2)

/-- Whether a name has an entry. -/
def contains (m : KeyMap α) (k : String) : Bool :=
  m.entries.any (·.1 == k)

/-- Puts `v` under `k`, replacing an earlier value. -/
def insert (m : KeyMap α) (k : String) (v : α) : KeyMap α :=
  ⟨insertSorted k v m.entries⟩

/-- Puts `v` under `k` unless `k` already has a value. -/
def insertIfAbsent (m : KeyMap α) (k : String) (v : α) : KeyMap α :=
  if m.contains k then m else m.insert k v

/-- Applies `f` to the value under `k`; `none` when `k` has no value or `f` fails. -/
def update? (m : KeyMap α) (k : String) (f : α → Option α) : Option (KeyMap α) :=
  let rec go : List (String × α) → Option (List (String × α))
    | [] => none
    | (k', v) :: rest =>
      if k' = k then (f v).map fun v' => (k', v') :: rest
      else (go rest).map ((k', v) :: ·)
  (go m.entries).map KeyMap.mk

/-- The values in order of their names. -/
def values (m : KeyMap α) : List α :=
  m.entries.map (·.2)

/-- Whether the map has no entries. -/
def isEmpty (m : KeyMap α) : Bool :=
  m.entries.isEmpty

/-- The number of entries. -/
def size (m : KeyMap α) : Nat :=
  m.entries.length

theorem find?_insertSorted_self (k : String) (v : α) (l : List (String × α)) :
    ((insertSorted k v l).find? (·.1 == k)).map (·.2) = some v := by
  induction l with
  | nil => simp [insertSorted]
  | cons e rest ih =>
    obtain ⟨k', v'⟩ := e
    simp only [insertSorted]
    split
    · simp
    · split
      · simp
      · rename_i h
        simp [Ne.symm h, ih]

/-- A value just put under a name is found there. -/
@[simp] theorem find?_insert_self (m : KeyMap α) (k : String) (v : α) :
    (m.insert k v).find? k = some v :=
  find?_insertSorted_self k v m.entries

end KeyMap

end GuiMarkup
