import GuiMarkup.Markup.Writer
import GuiMarkup.Query.Parser
import GuiMarkup.Styling

/-! Sessions: steps over the current document, its saved copy and a resource store; a
failed step leaves the state as it was. -/

namespace GuiMarkup

open Markup

/-- The state of a session. -/
structure Session where
  current : Option Document := none
  saved : Option Document := none
  store : Store := {}
deriving Inhabited

/-- One step of a session. -/
inductive Step where
  /-- Reads an instance document, which becomes the current one even when none loads. -/
  | load (text resource : String)
  /-- Writes the current document out and reads it back. -/
  | reload (resource : String)
  /-- Reads a style sheet and stores it under a URL. -/
  | registerStyles (uri text resource : String)
  /-- Reads an instance document and stores it under a URL. -/
  | registerDocument (uri text resource : String)
  /-- Looks a URL up in the store. -/
  | lookup (uri : String)
  /-- Applies the current document's style sheets from the store. -/
  | applyStyles (resource : String)
  /-- Writes the current document as markup. -/
  | save
  /-- Shows the current document. -/
  | dump
  /-- Runs a query on the current document. -/
  | query (text : String)
  /-- Runs a query and renames the type of one match, counted from zero. -/
  | setType (query : String) (index : Nat) (typeName : String)
  /-- Saves a copy of the current document. -/
  | snapshot
  /-- Makes the saved copy the current document. -/
  | restore
  /-- Compares the current document with the saved copy. -/
  | compareSnapshot

/-- Why a step fails. -/
inductive StepError where
  | noDocument
  | noSnapshot
  | read (e : ReadError)
  | query (e : QueryError)

/-- The text of a step failure. -/
def StepError.message : StepError → String
  | .noDocument => "no instance is loaded"
  | .noSnapshot => "no snapshot taken"
  | .read e => e.message
  | .query e => e.message

/-- What a step answers. -/
inductive Reply where
  | loaded (ok : Bool) (diagnostics : List Diagnostic)
  | stylesRegistered (inserted : Bool) (count : Nat) (diagnostics : List Diagnostic)
  /-- `inserted` is `none` when no document loaded. -/
  | documentRegistered (inserted : Option Bool) (diagnostics : List Diagnostic)
  | found (resource : Option Resource) (size : Nat)
  | applied (ok : Bool) (diagnostics : List Diagnostic)
  | saved (text : String)
  | dumped (d : Document)
  /-- The matches of a query, with the tree they were found in. -/
  | matched (root : Ctor) (paths : PathSet)
  | typeChanged (ok : Bool)
  | done
  | compared (equal : Bool)

namespace Session

/-- The current document, or the failure that there is none. -/
def document (s : Session) : Except StepError Document :=
  match s.current with
  | some d => .ok d
  | none => .error .noDocument

/-- Reads an instance document and makes it current. -/
def load (s : Session) (text resource : String) : Except StepError (Session × Reply) :=
  match Document.parse resource text with
  | .error e => .error (.read e)
  | .ok (d, diags) => .ok ({ s with current := d }, .loaded d.isSome diags)

/-- Gives a new name to the type of match number `index` of a query. -/
def renameMatch (root : Ctor) (q : Query) (index : Nat) (typeName : String) : Option Ctor :=
  (q.run root).paths[index]?.bind (root.update? (fun c => { c with typeName := typeName }))

/-- Runs one step; a failure leaves the state as it was. -/
def run (s : Session) : Step → Except StepError (Session × Reply)
  | .load text resource => s.load text resource
  | .reload resource => do
    let d ← s.document
    s.load d.save.write resource
  | .registerStyles uri text resource =>
    match StyleSheet.parse resource text with
    | .error e => .error (.read e)
    | .ok (sheet, diags) =>
      let reply (ok : Bool) := Reply.stylesRegistered ok sheet.styles.length diags
      match s.store.insert? uri (.styles sheet) with
      | some store => .ok ({ s with store := store }, reply true)
      | none => .ok (s, reply false)
  | .registerDocument uri text resource =>
    match Document.parse resource text with
    | .error e => .error (.read e)
    | .ok (none, diags) => .ok (s, .documentRegistered none diags)
    | .ok (some d, diags) =>
      match s.store.insert? uri (.document d) with
      | some store => .ok ({ s with store := store }, .documentRegistered (some true) diags)
      | none => .ok (s, .documentRegistered (some false) diags)
  | .lookup uri => .ok (s, .found (s.store.get? uri) s.store.size)
  | .applyStyles resource => do
    let d ← s.document
    match (d.applyStyles s.store).runIn resource with
    | (some d', diags) => pure ({ s with current := some d' }, .applied true diags)
    | (none, diags) => pure (s, .applied false diags)
  | .save => do
    let d ← s.document
    pure (s, .saved d.save.write)
  | .dump => do
    let d ← s.document
    pure (s, .dumped d)
  | .query text => do
    let d ← s.document
    match Query.parse text with
    | .error e => .error (.query e)
    | .ok q => pure (s, .matched d.root (q.run d.root))
  | .setType text index typeName => do
    let d ← s.document
    match Query.parse text with
    | .error e => .error (.query e)
    | .ok q =>
      match renameMatch d.root q index typeName with
      | some root => pure ({ s with current := some { d with root := root } }, .typeChanged true)
      | none => pure (s, .typeChanged false)
  | .snapshot => do
    let d ← s.document
    pure ({ s with saved := some d }, .done)
  | .restore =>
    match s.saved with
    | some d => .ok ({ s with current := some d }, .done)
    | none => .error .noSnapshot
  | .compareSnapshot => do
    let d ← s.document
    match s.saved with
    | some saved => pure (s, .compared (d == saved))
    | none => .error .noSnapshot

/-- Runs one step and returns the state after it together with the answer. -/
def step (s : Session) (st : Step) : Session × Except StepError Reply :=
  match s.run st with
  | .ok (s', r) => (s', .ok r)
  | .error e => (s, .error e)

/-- A step that fails leaves the session as it was. -/
theorem step_of_run_error {s : Session} {st : Step} {e : StepError}
    (h : s.run st = .error e) : s.step st = (s, .error e) := by
  simp [step, h]

/-- A step that succeeds moves to the state it answered with. -/
theorem step_of_run_ok {s s' : Session} {st : Step} {r : Reply}
    (h : s.run st = .ok (s', r)) : s.step st = (s', .ok r) := by
  simp [step, h]

end Session

end GuiMarkup
