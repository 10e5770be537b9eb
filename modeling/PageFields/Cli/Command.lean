import PageFields.Cli.Field
import PageFields.Cli.Options
import PageFields.Edit

/-! # Command line: commands

What the arguments ask for (`Request.ofArguments`). The options `--path`, `--verbose` and
`--no-color` may stand before the command or after it; a path after it counts. An edit has exactly
one source for its content: the option `--content`, the option `--content-file`, or at least one
`--field`. -/

namespace PageFields.Cli

/-- The form in which a result is printed. -/
inductive Format
  | text
  | json
  deriving DecidableEq, Repr

/-- Where the content of an edit comes from. -/
inductive Source
  | content (text : Text)
  | file (path : Text)
  | fields (fields : List (Text × Text))
  deriving DecidableEq, Repr

/-- An edit as the command line gives it. -/
structure EditCommand where
  item : Text
  fingerprint : Text
  /-- The parent template; without it a template keeps the one it has. -/
  template : Option Text
  source : Source
  /-- The change is shown and not made. -/
  dryRun : Bool
  deriving DecidableEq, Repr

/-- A command. -/
inductive Command
  | init
  | show (item : Text) (format : Format)
  | edit (edit : EditCommand)
  | create (item : Text)
  | templates (item : Text) (format : Format)
  deriving DecidableEq, Repr

/-- What the arguments ask for. -/
inductive Request
  | help
  | version
  | run (root : Option Text) (color : Bool) (command : Command)
  /-- No command is named. -/
  | nothing
  /-- The arguments do not fit. -/
  | misuse
  deriving DecidableEq, Repr

/-! ### What the arguments may be -/

/-- A path is not empty. -/
def isPath (t : Text) : Bool := t ≠ []

/-- The format with this name. -/
def Format.ofName? (t : Text) : Option Format :=
  if t = "text".toList then some .text else if t = "json".toList then some .json else none

/-- The options that may stand before and after the command. -/
def globalOptions : List OptionSpec :=
  [{ name := "path", letter := some 'p', value := some isPath },
    { name := "verbose", letter := some 'v' }, { name := "no-color" }]

/-- The option for the form of the output. -/
def formatOption : OptionSpec :=
  { name := "format", value := some fun t => (Format.ofName? t).isSome }

/-- The options of an edit. -/
def editOptions : List OptionSpec :=
  [{ name := "fingerprint", value := some fun _ => true },
    { name := "template", value := some fun _ => true },
    { name := "content", value := some fun _ => true },
    { name := "content-file", value := some isPath },
    { name := "field", value := some fun t => (parseField t).toOption.isSome, repeats := true },
    { name := "dry-run" }]

/-- The names of the commands. -/
def commandNames : List String := ["init", "show", "edit", "create", "templates"]

/-- The arguments before the command. -/
def rootGrammar : Grammar :=
  { options := globalOptions, commands := "help" :: commandNames, version := true }

/-- The arguments after a command. -/
def grammarOf (command : String) : Grammar :=
  match command with
  | "show" | "templates" => { options := globalOptions ++ [formatOption], words := 1 }
  | "edit" => { options := globalOptions ++ editOptions, words := 1 }
  | "create" => { options := globalOptions, words := 1 }
  | _ => { options := globalOptions }

/-! ### Reading the arguments -/

namespace Level

/-- The form of the output. -/
def format (l : Level) : Format := ((l.value? "format").bind Format.ofName?).getD .text

/-- The source of the content of an edit, which must be the only one. -/
def source? (l : Level) : Option Source :=
  match l.value? "content", l.value? "content-file", l.has "field" with
  | some text, none, false => some (.content text)
  | none, some path, false => some (.file path)
  | none, none, true =>
    some (.fields ((l.values "field").filterMap fun t => (parseField t).toOption))
  | _, _, _ => none

/-- The command with this name and these arguments. -/
def command? (l : Level) (name : String) : Option Command :=
  match name, l.words with
  | "init", [] => some .init
  | "show", [item] => some (.show item l.format)
  | "create", [item] => some (.create item)
  | "templates", [item] => some (.templates item l.format)
  | "edit", [item] => do
    let fingerprint ← l.value? "fingerprint"
    let source ← l.source?
    pure (.edit { item, fingerprint, template := l.value? "template", source
                  dryRun := l.has "dry-run" })
  | _, _ => none

end Level

/-- The request for help on the commands that are named. -/
def helpOn : List Text → Request
  | [] => .help
  | [name] => if commandNames.any (·.toList = name) || name = "help".toList then .help else .misuse
  | _ => .misuse

/-- The request that a stop stands for. -/
def Request.ofStop : Stop → Request
  | .help => .help
  | .version => .version
  | .misuse => .misuse

/-- The request of a command with its arguments; `outer` is the level before it. -/
def commandRequest (outer : Level) (name : Text) (args : List Text) : Request :=
  match Level.read (grammarOf name.shown) none {} args with
  | .error stop => .ofStop stop
  | .ok inner =>
    match inner.command? name.shown with
    | none => .misuse
    | some command =>
      .run ((inner.value? "path").orElse fun _ => outer.value? "path")
        (!(inner.has "no-color" || outer.has "no-color")) command

/-- What the arguments ask for. -/
def Request.ofArguments (args : List Text) : Request :=
  match Level.read rootGrammar none {} args with
  | .error stop => .ofStop stop
  | .ok outer =>
    match outer.command with
    | none => .nothing
    | some (name, rest) =>
      if name = "help".toList then helpOn rest else commandRequest outer name rest

end PageFields.Cli
