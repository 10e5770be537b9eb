import PageFields.Error
import PageFields.Glob.Match
import PageFields.Toml.Document

/-! # Configuration

A workspace may have a configuration file in TOML. A key that the file leaves out has its default, a
key that means nothing here is read and ignored, and a value of the wrong type is an error. The
template patterns are compiled in their order, so the first one that is no glob is reported. -/

namespace PageFields

/-- The configuration of a workspace. -/
structure Config where
  /-- The directory with one folder for each project, relative to the workspace. -/
  projectsDir : Text := "projects".toList
  /-- The directory inside each project with the parent templates on offer. -/
  templateDir : Text := "templates".toList
  /-- The folders of a project that are shown collapsed and whose files are plain. -/
  collapsedDirs : List Text := ["static".toList, "templates".toList]
  /-- The globs of the file names of templates. -/
  templatePatterns : List Text := ["*.html".toList]
  /-- The size in bytes of the largest file that is read. -/
  maxFileSize : Nat := 10 * 1024 * 1024
  deriving DecidableEq, Repr

namespace Config

/-- The names of configuration files; the first that exists counts. -/
def fileNames : List Text := ["pagesmith.toml".toList, ".pagesmith.toml".toList]

/-- A value that has to be a string. -/
def asString : Toml.Value → Option Text
  | .string t => some t
  | _ => none

/-- A value that has to be an array of strings. -/
def asStrings : Toml.Value → Option (List Text)
  | .array items => items.mapM asString
  | _ => none

/-- A value that has to be a number of bytes. -/
def asSize : Toml.Value → Option Nat
  | .integer n => if 0 ≤ n ∧ n < Nat.pow 2 64 then some n.toNat else none
  | _ => none

/-- The value of a key, or the default where the key is missing. -/
def value? {α : Type} (t : Toml.Table) (key : String) (read : Toml.Value → Option α) (default : α) :
    Option α :=
  match t.get? key.toList with
  | none => some default
  | some v => read v

/-- The configuration in a table. -/
def ofTable? (t : Toml.Table) : Option Config := do
  let base : Config := {}
  let projectsDir ← value? t "projects_dir" asString base.projectsDir
  let templateDir ← value? t "template_dir" asString base.templateDir
  let collapsedDirs ← value? t "collapsed_dirs" asStrings base.collapsedDirs
  let templatePatterns ← value? t "template_patterns" asStrings base.templatePatterns
  let maxFileSize ← value? t "max_file_size" asSize base.maxFileSize
  if Toml.entriesInRange t then
    pure { projectsDir, templateDir, collapsedDirs, templatePatterns, maxFileSize }
  else none

/-- The configuration in a file with this text. -/
def ofToml (s : Text) : Except Error Config :=
  match (Toml.Document.parse? s).bind ofTable? with
  | some config => .ok config
  | none => .error .configSyntax

/-- Compiles patterns for file names. -/
def compile : List Text → Except Error (List Glob)
  | [] => .ok []
  | pattern :: rest =>
    match Glob.parse pattern with
    | .error fault => .error (.invalidPattern pattern fault)
    | .ok glob => (compile rest).map (glob :: ·)

/-- The compiled template patterns. -/
def templateGlobs (config : Config) : Except Error (List Glob) := compile config.templatePatterns

end Config

end PageFields
