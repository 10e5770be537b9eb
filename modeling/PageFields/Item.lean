import PageFields.Config
import PageFields.Path

/-! # Items

An item is what can be addressed below the projects directory. Its first name is the project, and
its kind follows from the path alone (`Item.classify`): nothing is read. The folder directly below
the project decides whether an item is in a collapsed part, where every file is plain; a project
counts as its own folder. -/

namespace PageFields

/-- The kinds of items. -/
inductive ItemKind
  /-- A file that is edited as one text. -/
  | plainFile
  /-- A file that is edited by its regions. -/
  | templateFile
  | folder
  /-- A folder of which a listing shows the size only. -/
  | collapsedFolder
  deriving DecidableEq, Repr

namespace ItemKind

/-- The kind in running text. -/
def label : ItemKind → String
  | .plainFile => "file"
  | .templateFile => "template"
  | .folder => "folder"
  | .collapsedFolder => "collapsed folder"

/-- The kind as a word of the output format. -/
def tag : ItemKind → String
  | .plainFile => "plain_file"
  | .templateFile => "template_file"
  | .folder => "folder"
  | .collapsedFolder => "collapsed_folder"

/-- The kind is one of files. -/
def isFile : ItemKind → Bool
  | .plainFile | .templateFile => true
  | .folder | .collapsedFolder => false

end ItemKind

/-- Something addressable below the projects directory. -/
structure Item where
  kind : ItemKind
  /-- The names of its path, the project first. -/
  names : List Text
  deriving DecidableEq, Repr

namespace Item

/-- The path of an item. -/
def path (i : Item) : Text := Path.ofNames i.names

/-- The path of an item in messages. -/
def display (i : Item) : Text := Path.display i.path

/-- The directory of the project that an item belongs to. -/
def projectDir (i : Item) : Text := i.names.head?.getD []

/-- The kind of the item with these names. -/
def kindOf (config : Config) (globs : List Glob) (names : List Text) : ItemKind :=
  match names.getLast? with
  | none => .folder
  | some fileName =>
    let inner := names.tail
    let collapsed := config.collapsedDirs.contains (inner.head?.getD fileName)
    if !collapsed && globs.any (·.isMatch fileName) then .templateFile
    else if fileName.contains '.' then .plainFile
    else if inner.length = 1 ∧ collapsed then .collapsedFolder
    else .folder

/-- The names of a path, which must not leave the projects directory. -/
def namesOf (path : Text) : Except Error (List Text) :=
  match Path.names? path with
  | some names => .ok names
  | none => .error (.pathEscape (Path.display path))

/-- The item at a path. -/
def classify (config : Config) (globs : List Glob) (path : Text) : Except Error Item :=
  (namesOf path).map fun names => ⟨kindOf config globs names, names⟩

/-- Checks the name of a new item: it has ASCII letters, digits and characters of `extra` only, and
one letter or digit at least. -/
def checkName (name label extra : Text) : Except Error Unit :=
  if name = [] then .error (.invalidName [] (.missing label))
  else if !name.all fun c => c.isAlphanum || extra.contains c then
    .error (.invalidName name (.alphabet label extra))
  else if !name.any Char.isAlphanum then .error (.invalidName name (.noAlphanumeric label))
  else .ok ()

end Item

end PageFields
