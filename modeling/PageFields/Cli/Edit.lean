import PageFields.Cli.Command
import PageFields.Cli.Outcome
import PageFields.Cli.Print

/-! # Command line: editing

`Cli.edit` reads the file that an edit is about, fills in the parent that the template has, and then
either carries the edit out or, in a dry run, shows what it would change and warns if it would be
refused. -/

namespace PageFields.Cli

/-- The payload of an edit; a file is read as seen from the current directory `here`. -/
def payload (here : Text) (t : FileTree) : Source → Except IoFault Payload
  | .content text => .ok (.raw text)
  | .fields fields => .ok (.structured fields)
  | .file path => do
    match Text.ofUtf8? (← t.readFile (← Route.ofText (Path.join here path))) with
    | some text => .ok (.raw text)
    | none => .error .invalidData

/-- The text that an item has now, if it is a file that exists. -/
def current? (w : Workspace) (t : FileTree) (item : Item) : Except Error (Option Text) :=
  if item.kind.isFile then
    match w.storage.read t item.path with
    | .ok text => .ok (some text)
    | .error (.notFound _) => .ok none
    | .error e => .error e
  else .ok none

/-- The parent after an edit: the given one, or the one that the template names now. -/
def parentAfter (item : Item) (current : Option Text) : Option Text → Except Error (Option Text)
  | some template => .ok (some template)
  | none =>
    match item.kind, current with
    | .templateFile, some text => do pure (← scan text).parent
    | _, _ => .ok none

/-- An edit with what it is about. -/
structure Prepared where
  item : Item
  /-- The text of the file now. -/
  current : Option Text
  request : EditRequest
  deriving DecidableEq, Repr

/-- Prepares an edit. -/
def prepare (w : Workspace) (t : FileTree) (e : EditCommand) (payload : Payload) :
    Except Error Prepared := do
  let item ← w.classify e.item
  let current ← current? w t item
  let parent ← parentAfter item current e.template
  let prior := Fingerprint.ofInput e.fingerprint
  pure { item, current, request := { path := item.path, prior, parent, payload } }

/-- The warning of a dry run whose edit would be refused. -/
def staleWarning (color : Bool) (item : Item) : Text :=
  styled color .yellow "warning:".toList ++ ' ' :: item.display ++
    " changed since the given fingerprint; saving would fail".toList

/-- What a dry run prints. -/
def dryRun (w : Workspace) (color : Bool) (p : Prepared) : Outcome :=
  let current := p.current.getD []
  match w.preview p.request with
  | .error e => .failed (.workspace e)
  | .ok updated =>
    { printed :=
        if current = updated then Print.line ("No changes to ".toList ++ p.item.display ++ ['.'])
        else Print.line ("Would update ".toList ++ p.item.display ++ [':']) ++
          Print.difference color current updated
      warning :=
        if Fingerprint.of current = p.request.prior then none
        else some (staleWarning color p.item) }

/-- Carries an edit out. -/
def save (w : Workspace) (t : FileTree) (color : Bool) (p : Prepared) (o : Occasion) :
    Outcome × FileTree :=
  let (saved, t) := w.update t p.request o
  (.ofResult (saved.map fun fingerprint =>
    Print.line (styled color .green "Saved".toList ++ ' ' :: p.item.display) ++
      Print.labelled "fingerprint:" fingerprint.digits), t)

/-- Edits a file of the workspace at `root`. -/
def edit (here root : Text) (t : FileTree) (color : Bool) (e : EditCommand) (o : Occasion) :
    Outcome × FileTree :=
  match payload here t e.source with
  | .error fault => (.failed (.file fault), t)
  | .ok payload =>
    let prepared := do
      let w ← Workspace.openAt t root
      let p ← prepare w t e payload
      pure (w, p)
    match prepared with
    | .error error => (.failed (.workspace error), t)
    | .ok (w, p) => if e.dryRun then (dryRun w color p, t) else save w t color p o

end PageFields.Cli
