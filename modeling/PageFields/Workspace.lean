import PageFields.Edit
import PageFields.Item
import PageFields.Storage.Guard
import PageFields.Storage.Templates

/-! # Workspaces

A workspace is a storage with a configuration, opened in a directory of a file tree. Its operations
take paths below the projects directory: an item is shown (`render`), made (`create`) and edited
(`preview`, `update`). All of them first bring the path into its plain form, so its spelling does
not matter. An operation that changes the file tree gives the tree beside its outcome. -/

namespace PageFields

/-- A storage with its configuration. -/
structure Workspace where
  config : Config
  /-- The compiled template patterns. -/
  globs : List Glob
  storage : Storage

/-- An entry of a folder in a listing. -/
structure TreeEntry where
  name : Text
  path : Text
  kind : ItemKind
  children : List TreeEntry
  /-- The number of entries of a collapsed folder, which is not listed. -/
  count : Option Nat

/-- What is shown of an item. -/
inductive ItemView
  | plainFile (path content : Text) (fingerprint : Fingerprint)
  | templateFile (path : Text) (descriptor : Descriptor) (templates : List Text)
    (fingerprint : Fingerprint)
  | folder (path : Text) (collapsed : Bool) (children : List TreeEntry)

/-- An edit of one file. -/
structure EditRequest where
  path : Text
  /-- The fingerprint of the content that the edit is based on. -/
  prior : Fingerprint
  /-- The parent template; an empty name is none. -/
  parent : Option Text
  payload : Payload
  deriving DecidableEq, Repr

namespace Workspace

/-! ### Opening -/

/-- The first configuration file in a directory. -/
def configFile? (t : FileTree) (root : Text) : Option Text :=
  (Config.fileNames.map (Path.join root)).find? fun p =>
    match (Route.ofText p).bind t.stat with
    | .ok (.file _) => true
    | _ => false

/-- The configuration of the workspace in a directory; without a file all keys have their defaults.
-/
def loadConfig (t : FileTree) (root : Text) : Except Error Config :=
  match configFile? t root with
  | none => .ok {}
  | some p =>
    match (Route.ofText p).bind t.readFile with
    | .error fault => .error (.io fault)
    | .ok content =>
      match Text.ofUtf8? content with
      | none => .error (.io .invalidData)
      | some text => Config.ofToml text

/-- Opens the workspace in a directory. -/
def openAt (t : FileTree) (root : Text) : Except Error Workspace := do
  let config ← loadConfig t root
  let globs ← config.templateGlobs
  pure { config, globs, storage := ⟨Path.join root config.projectsDir, config.maxFileSize⟩ }

/-- The item at a path. -/
def classify (w : Workspace) (path : Text) : Except Error Item :=
  Item.classify w.config w.globs path

/-! ### Showing -/

mutual

/-- The entries of the directory with these names. A folder among them is looked up by its path
again, which has to be short enough for that, and so are those in it. -/
def listing (w : Workspace) (names : List Text) : FileTree → Except Error (List TreeEntry)
  | .file _ => .ok []
  | .directory es =>
    ((listingIn w names es).mergeSort fun a b => Text.le a.1 b.1).mapM Prod.snd

/-- For each given entry of the directory with these names, its name and its entry in the listing.
-/
def listingIn (w : Workspace) (names : List Text) :
    FileTree.Entries → List (Text × Except Error TreeEntry)
  | [] => []
  | (name, t) :: rest =>
    let item : Item := ⟨Item.kindOf w.config w.globs (names ++ [name]), names ++ [name]⟩
    let entry : Except Error TreeEntry := match item.kind with
      | .folder => do
        let _ ← w.storage.route item.path
        let children ← listing w (names ++ [name]) t
        pure (TreeEntry.mk name item.display item.kind children none)
      | .collapsedFolder => do
        let _ ← w.storage.route item.path
        pure (TreeEntry.mk name item.display item.kind [] (some t.entries.length))
      | kind => pure (TreeEntry.mk name item.display kind [] none)
    (name, entry) :: listingIn w names rest

end

/-- What is shown of the item at a path. -/
def render (w : Workspace) (t : FileTree) (path : Text) : Except Error ItemView := do
  let item ← w.classify path
  match item.kind with
  | .plainFile =>
    let text ← w.storage.read t item.path
    pure (.plainFile item.display (Text.normalize text) (Fingerprint.of text))
  | .templateFile =>
    let text ← w.storage.read t item.path
    let descriptor ← Descriptor.resolve (w.storage.templateLoader t item.projectDir) text
    let templates ← w.storage.availableTemplates t item.projectDir w.config.templateDir
      descriptor.parent
    pure (.templateFile item.display descriptor templates (Fingerprint.of text))
  | kind =>
    match ← w.storage.entryKind t item.path with
    | none => throw (.notFound item.display)
    | some _ =>
      let r ← w.storage.route item.path
      let found ← Storage.attempt item.path (t.stat r)
      let children ← w.listing item.names found
      pure (.folder item.display (kind = .collapsedFolder) children)

/-- The parent templates on offer in the project of the item at a path. -/
def templates (w : Workspace) (t : FileTree) (path : Text) : Except Error (List Text) := do
  let item ← w.classify path
  if item.projectDir = [] then throw (.invalidName [] .noProject)
  w.storage.availableTemplates t item.projectDir w.config.templateDir none

/-! ### Changing -/

/-- Checks that an item with these names can be made: its name is allowed and its directory exists.
-/
def checkNew (w : Workspace) (t : FileTree) (names : List Text) : Except Error Unit := do
  match names.getLast? with
  | none => throw (.invalidName [] .noItem)
  | some name =>
    if names.length = 1 then Item.checkName name "project name".toList ['-']
    else Item.checkName name "file name".toList ['-', '.']
  let parent := Path.ofNames names.dropLast
  if (← w.storage.entryKind t parent) ≠ some .directory then
    throw (.notFound (Path.display parent))

/-- Makes an empty file or directory for the item at a path. -/
def create (w : Workspace) (t : FileTree) (path : Text) : Except Error Item × FileTree :=
  match w.classify path with
  | .error e => (.error e, t)
  | .ok item =>
    match w.checkNew t item.names with
    | .error e => (.error e, t)
    | .ok () =>
      let (made, t) := if item.kind.isFile then w.storage.createFile t item.path
        else w.storage.createDirectory t item.path
      (made.map fun () => item, t)

/-- The text that an edit of an item stands for. -/
def serialize (item : Item) (request : EditRequest) : Except Error Text :=
  match item.kind with
  | .plainFile =>
    match request.payload with
    | .structured _ => .error (.invalidEdit item.display .wholeContentOnly)
    | .raw content =>
      if (Edit.parentName? request.parent).isSome then
        .error (.invalidEdit item.display .cannotExtend)
      else
        let content := Text.normalize content
        .ok (if content = [] then [] else content ++ ['\n'])
  | .templateFile => Edit.serialize request.parent request.payload
  | .folder | .collapsedFolder => .error (.notEditable item.display)

/-- The text that an edit would write. -/
def preview (w : Workspace) (request : EditRequest) : Except Error Text := do
  let item ← w.classify request.path
  serialize item request

/-- Carries out an edit, unless the file was changed since it was read; gives the fingerprint of the
new content. -/
def update (w : Workspace) (t : FileTree) (request : EditRequest) (o : Occasion := {}) :
    Except Error Fingerprint × FileTree :=
  let content := do
    let item ← w.classify request.path
    let content ← serialize item request
    pure (item, content)
  match content with
  | .error e => (.error e, t)
  | .ok (item, content) => w.storage.guardedWrite t item.path request.prior content o

end Workspace

end PageFields
