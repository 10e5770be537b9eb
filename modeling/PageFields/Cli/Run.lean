import PageFields.Cli.Edit
import PageFields.Cli.Setup
import PageFields.Json.View

/-! # Command line: runs

`Cli.run` is the whole program as a function of its arguments, the current directory and the file
tree around it. The current directory is the workspace unless `--path` names another one. -/

namespace PageFields.Cli

/-- The name and the version of the program. -/
def versionLine : Text := Print.line "pagesmith_cli 0.3.0".toList

/-- How the program is used. -/
def usage : Text :=
  ("Usage: pagesmith [OPTIONS] COMMAND\n\n" ++
    "  init                         set up a workspace\n" ++
    "  show ITEM [--format FORMAT]  show a template, a file or a folder\n" ++
    "  edit ITEM --fingerprint F    save new content, given by --content TEXT,\n" ++
    "                               --content-file FILE or --field NAME=VALUE;\n" ++
    "                               --template NAME sets the parent, --dry-run saves nothing\n" ++
    "  create ITEM                  make an empty file, folder or project\n" ++
    "  templates ITEM [--format FORMAT]\n" ++
    "                               list the parent templates of a project\n\n" ++
    "  -p, --path DIR   the workspace\n" ++
    "  -v, --verbose    say more\n" ++
    "      --no-color   plain output\n" ++
    "  -h, --help       this text\n" ++
    "  -V, --version    the version\n").toList

/-- Shows an item. -/
def showItem (root : Text) (t : FileTree) (color : Bool) (item : Text) (format : Format) :
    Outcome :=
  .ofResult do
    let w ← Workspace.openAt t root
    let v ← w.render t item
    pure (match format with
      | .text => Print.view color v
      | .json => Print.line (Json.ofView v).pretty)

/-- Makes an item. -/
def createItem (root : Text) (t : FileTree) (color : Bool) (item : Text) : Outcome × FileTree :=
  match Workspace.openAt t root with
  | .error e => (.failed (.workspace e), t)
  | .ok w =>
    let (made, t) := w.create t item
    (.ofResult (made.map fun item => Print.line (styled color .green "Created".toList ++
      ' ' :: item.kind.label.toList ++ ' ' :: item.display)), t)

/-- Lists the parent templates of a project. -/
def listTemplates (root : Text) (t : FileTree) (item : Text) (format : Format) : Outcome :=
  .ofResult do
    let w ← Workspace.openAt t root
    let names ← w.templates t item
    let project := Path.display (← w.classify item).projectDir
    pure (match format with
      | .json => Print.line (Json.ofTemplates project names).pretty
      | .text =>
        if names = [] then
          Print.line ("No templates found in ".toList ++ project ++ '/' :: w.config.templateDir)
        else names.flatMap Print.line)

/-- Runs a command on the workspace at `root`. -/
def runCommand (here root : Text) (color : Bool) (t : FileTree) (o : Occasion) :
    Command → Outcome × FileTree
  | .init => setUp root t
  | .show item format => (showItem root t color item format, t)
  | .edit e => edit here root t color e o
  | .create item => createItem root t color item
  | .templates item format => (listTemplates root t item format, t)

/-- Runs the program in the directory `here` of a file tree; `color` says whether the output may
have colors. -/
def run (color : Bool) (here : Text) (args : List Text) (t : FileTree) (o : Occasion := {}) :
    Outcome × FileTree :=
  match Request.ofArguments args with
  | .help => ({ printed := usage }, t)
  | .version => ({ printed := versionLine }, t)
  | .nothing => (.failed .noCommand, t)
  | .misuse => (.failed .misuse, t)
  | .run root wantsColor command =>
    let root := (root.map (Path.join here)).getD here
    runCommand here root (color && wantsColor) t o command

end PageFields.Cli
