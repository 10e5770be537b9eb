import PageFields.Cli.Outcome
import PageFields.Cli.Print

/-! # Command line: setting up a workspace

`Cli.setUp` writes a configuration file unless there is one, and makes the projects directory that
the configuration names unless there is one. Nothing that exists is changed. -/

namespace PageFields.Cli

/-- The configuration file of a new workspace; all keys are commented out with their defaults. -/
def sampleConfig : Text :=
  ("# pagesmith configuration\n\n" ++
    "# Directory holding one folder per project.\n# projects_dir = \"projects\"\n\n" ++
    "# Folder inside each project with the parent templates pages can extend.\n" ++
    "# template_dir = \"templates\"\n\n" ++
    "# Top-level project folders shown collapsed. Files inside them are edited as plain text.\n" ++
    "# collapsed_dirs = [\"static\", \"templates\"]\n\n" ++
    "# File names edited through their template regions.\n# template_patterns = [\"*.html\"]\n\n" ++
    "# Largest file, in bytes, that will be read.\n# max_file_size = 10485760\n").toList

/-- What to do after the workspace was set up. -/
def nextSteps : Text :=
  ("\nNext steps:\n" ++
    "  1. Run `pagesmith create <project>` to add a project\n" ++
    "  2. Add pages and a `templates/` folder with parent templates\n" ++
    "  3. Run `pagesmith show <project>/<page>.html` to see the editable fields\n").toList

/-- The path of the configuration file of a new workspace. -/
def newConfigFile (root : Text) : Text := Path.join root "pagesmith.toml".toList

/-- Writes a configuration file unless there is one, and gives the line that says so. -/
def setUpConfig (root : Text) (t : FileTree) : Except IoFault (Text × FileTree) :=
  match Workspace.configFile? t root with
  | some file =>
    .ok (Print.line ("Config file already exists: ".toList ++ Path.relative root file), t)
  | none => do
    let r ← Route.ofText (newConfigFile root)
    let t ← t.writeFile r (Text.utf8 sampleConfig)
    pure (Print.line "Created pagesmith.toml".toList, t)

/-- Makes the projects directory unless there is one, and gives the lines that say so. What was made
on the way stays even if it fails. -/
def setUpProjects (root projects : Text) (t : FileTree) : Except IoFault Text × FileTree :=
  let shown := Path.relative root projects
  match Route.ofText projects with
  | .error fault => (.error fault, t)
  | .ok r =>
    if (t.stat r).toOption.any FileTree.isDirectory then
      (.ok (Print.line ("Projects directory already exists: ".toList ++ shown)), t)
    else match t.createDirectories r r.steps.length with
      | (.error fault, t) => (.error fault, t)
      | (.ok (), t) =>
        (.ok (Print.line ("Created projects directory: ".toList ++ shown) ++ nextSteps), t)

/-- Sets up a workspace. -/
def setUp (root : Text) (t : FileTree) : Outcome × FileTree :=
  match setUpConfig root t with
  | .error fault => (.failed (.file fault), t)
  | .ok (first, t) =>
    match Workspace.loadConfig t root with
    | .error e => ({ printed := first, failure := some (.workspace e) }, t)
    | .ok config =>
      match setUpProjects root (Path.join root config.projectsDir) t with
      | (.error fault, t) => ({ printed := first, failure := some (.file fault) }, t)
      | (.ok more, t) => ({ printed := first ++ more }, t)

end PageFields.Cli
