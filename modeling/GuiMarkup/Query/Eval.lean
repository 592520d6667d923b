import GuiMarkup.Instance.Value
import GuiMarkup.Query.Syntax

/-! Running queries. A match is a path of property steps from the root constructor;
results keep the order in which paths were first found and hold none twice. -/

namespace GuiMarkup

/-- One step of a path: a property name and the index of a value under it. -/
structure PathStep where
  property : String
  index : Nat
deriving DecidableEq, Repr, Inhabited

/-- A path from the root constructor to a constructor below it. -/
abbrev NodePath := List PathStep

/-- Paths in the order they were first found, without repeats. -/
structure PathSet where
  paths : List NodePath := []
deriving DecidableEq, Repr, Inhabited

namespace PathSet

/-- Whether a path is in the set. -/
def contains (s : PathSet) (p : NodePath) : Bool :=
  s.paths.contains p

/-- Adds a path at the end unless it is there already. -/
def add (s : PathSet) (p : NodePath) : PathSet :=
  if s.contains p then s else ⟨s.paths ++ [p]⟩

/-- After adding a path, the set holds what it held and that path. -/
@[simp] theorem contains_add (s : PathSet) (p q : NodePath) :
    (s.add p).contains q = (s.contains q || decide (q = p)) := by
  unfold add contains
  split <;> simp_all

/-- Adds paths in order. -/
def addAll (s : PathSet) (ps : List NodePath) : PathSet :=
  ps.foldl add s

end PathSet

mutual

/-- The constructors below a setter whose owner sits at `path`, with the property that
holds each and its path, in pre-order; `deep` also visits below each constructor. -/
def walkSetter : Setter → NodePath → Bool → List (String × Ctor × NodePath)
  | ⟨⟨entries⟩, _, _, _, _, _⟩, path, deep => walkProperties entries path deep

/-- The constructors below a list of properties, in order. -/
def walkProperties : List (String × Property) → NodePath → Bool → List (String × Ctor × NodePath)
  | [], _, _ => []
  | (k, ⟨_, values, _⟩) :: rest, path, deep =>
    walkValues k values 0 path deep ++ walkProperties rest path deep

/-- The constructors at and below the values of property `k`, the first at index `i`. -/
def walkValues (k : String) : List Value → Nat → NodePath → Bool → List (String × Ctor × NodePath)
  | [], _, _, _ => []
  | v :: vs, i, path, deep =>
    let here := path ++ [⟨k, i⟩]
    let found := match v with
      | .text .. => []
      | .ctor c@⟨_, _, _, setter⟩ => (k, c, here) :: (if deep then walkSetter setter here deep else [])
      | .setter s => walkSetter s here deep
    found ++ walkValues k vs (i + 1) path deep

end

section Walk

variable {σ : Type} (visit : String → Ctor → NodePath → σ → σ)

mutual

/-- Walks a setter whose owner sits at the path of the state, calling `visit` on each
constructor below it in pre-order; entering a value pushes its step and leaving it pops it. -/
def walk : Setter → Bool → NodePath × σ → NodePath × σ
  | ⟨⟨entries⟩, _, _, _, _, _⟩, deep, st => walkEntries entries deep st

/-- Walks the properties of a setter, in order. -/
def walkEntries : List (String × Property) → Bool → NodePath × σ → NodePath × σ
  | [], _, st => st
  | (k, ⟨_, values, _⟩) :: rest, deep, st => walkEntries rest deep (walkItems k values 0 deep st)

/-- Walks the values of property `k`, the first at index `i`; text is passed over. -/
def walkItems (k : String) : List Value → Nat → Bool → NodePath × σ → NodePath × σ
  | [], _, _, st => st
  | .text .. :: vs, i, deep, st => walkItems k vs (i + 1) deep st
  | .setter s :: vs, i, deep, st =>
    let st := walk s deep (st.1 ++ [⟨k, i⟩], st.2)
    walkItems k vs (i + 1) deep (st.1.dropLast, st.2)
  | .ctor c@⟨_, _, _, setter⟩ :: vs, i, deep, st =>
    let here := st.1 ++ [⟨k, i⟩]
    let found := visit k c here st.2
    let st := if deep then walk setter true (here, found) else (here, found)
    walkItems k vs (i + 1) deep (st.1.dropLast, st.2)

end

end Walk

/-- The value that one step leads to from a setter. -/
def SetterOf.step? (s : Setter) (st : PathStep) : Option Value :=
  (s.properties.find? st.property).bind fun p => p.values[st.index]?

/-- The constructor that a path leads to from a setter: every step but the last must
lead to a container, the last to a constructor. -/
def SetterOf.resolve? (s : Setter) : NodePath → Option Ctor
  | [] => none
  | [st] => (s.step? st).bind Value.asCtor?
  | st :: rest => ((s.step? st).bind Value.asSetter?).bind fun s' => s'.resolve? rest

/-- The constructor that a path leads to from the root; the empty path is the root. -/
def CtorOf.resolve? (root : Ctor) : NodePath → Option Ctor
  | [] => some root
  | p => root.setter.resolve? p

/-- Changes the value at index `i` of a list by `f`; `none` when there is no such value
or `f` fails. -/
def updateAt {α : Type} (f : α → Option α) : List α → Nat → Option (List α)
  | [], _ => none
  | v :: vs, 0 => (f v).map (· :: vs)
  | v :: vs, i + 1 => (updateAt f vs i).map (v :: ·)

/-- Changes the constructor that a path leads to from a setter; `none` when the path
leads to no constructor. -/
def SetterOf.update? (s : Setter) (f : Ctor → Ctor) : NodePath → Option Setter
  | [] => none
  | st :: rest =>
    let change : Value → Option Value := fun v =>
      match rest, v with
      | [], .ctor c => some (.ctor (f c))
      | [], _ => none
      | _ :: _, .ctor c => (c.setter.update? f rest).map fun s' => .ctor { c with setter := s' }
      | _ :: _, .setter inner => (inner.update? f rest).map .setter
      | _ :: _, .text .. => none
    (s.properties.update? st.property fun p =>
      (updateAt change p.values st.index).map fun vs => { p with values := vs }).map
        fun props => { s with properties := props }

/-- Changes the constructor that a path leads to from the root. -/
def CtorOf.update? (root : Ctor) (f : Ctor → Ctor) : NodePath → Option Ctor
  | [] => some (f root)
  | p => (root.setter.update? f p).map fun s => { root with setter := s }

namespace Primary

/-- Whether a constructor, held by property `property` (`none` for the root), passes the
filters of a step. -/
def accepts (p : Primary) (property : Option String) (c : Ctor) : Bool :=
  (p.property.all fun f => property == some f) &&
    (p.qualifier.all fun ns => c.typeNamespace == some ns) &&
    (p.typeName.all (· == c.typeName)) &&
    (p.reference.all fun r => c.instanceName? == some r)

/-- Adds the path of a constructor that the step accepts under the property holding it. -/
def collect (p : Primary) (k : String) (c : Ctor) (path : NodePath) (out : PathSet) : PathSet :=
  if p.accepts (some k) c then out.add path else out

/-- The matches of a step below one context (`none`: above the root), added to `out`. -/
def evalIn (p : Primary) (root : Ctor) (out : PathSet) : Option NodePath → PathSet
  | none =>
    let out := if p.accepts none root then out.add [] else out
    if p.descendants then (walk p.collect root.setter true ([], out)).2
    else out
  | some path =>
    match root.resolve? path with
    | none => out
    | some c => (walk p.collect c.setter p.descendants (path, out)).2

end Primary

/-- Joins two results by a set operation. -/
def SetOp.combine (op : SetOp) (left right : PathSet) : PathSet :=
  match op with
  | .union => ({} : PathSet).addAll (left.paths ++ right.paths)
  | .intersect => ({} : PathSet).addAll (left.paths.filter right.contains)
  | .subtract => ({} : PathSet).addAll (left.paths.filter fun p => !right.contains p)
  | .xor =>
    ({} : PathSet).addAll
      (left.paths.filter (fun p => !right.contains p) ++ right.paths.filter fun p => !left.contains p)

/-- The matches of a query below each of the contexts, in order. -/
def Query.evalIn (root : Ctor) : Query → List (Option NodePath) → PathSet
  | .primary p, contexts => contexts.foldl (p.evalIn root) {}
  | .cascade a b, contexts => b.evalIn root ((a.evalIn root contexts).paths.map some)
  | .set op a b, contexts => op.combine (a.evalIn root contexts) (b.evalIn root contexts)

/-- The matches of a query in the tree of a root constructor. -/
def Query.run (q : Query) (root : Ctor) : PathSet :=
  q.evalIn root [none]

end GuiMarkup
