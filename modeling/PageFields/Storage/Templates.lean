import PageFields.Descriptor
import PageFields.Storage

/-! # Storage: parent templates

The parent templates of a project are loaded by the name that an `extends` directive gives, relative
to the directory of the project (`templateLoader`), and listed under the names by which they can be
given (`availableTemplates`). -/

namespace PageFields.Storage

/-- The loader of parent templates for a project: names are relative to its directory. -/
def templateLoader (s : Storage) (t : FileTree) (projectDir : Text) : Loader := fun name =>
  match s.read t (Path.join projectDir name) with
  | .error (.notFound _) => .error (.parentNotFound name)
  | result => result

/-- The names of the parent templates that a template of a project may extend: those of the files
directly in the directory `templateDir` of the project, and the current parent even if it is not
among them, in order. -/
def availableTemplates (s : Storage) (t : FileTree) (projectDir templateDir : Text)
    (current : Option Text) : Except Error (List Text) := do
  let dir := Path.join projectDir templateDir
  let entries ← match s.list t dir with
    | .ok names => names.filterM fun name => do
        pure ((← s.entryKind t (Path.join dir name)) = some .file)
    | .error (.notFound _) => pure []
    | .error e => .error e
  let named := entries.map fun name => templateDir ++ '/' :: name
  let extra := match current with
    | some name => if name = [] then [] else [name]
    | none => []
  pure ((named ++ extra).foldr Text.insertSorted [])

end PageFields.Storage
