import PageFields.Text.Basic

/-! # Command line: options

How the arguments of one level of the command line are read (`Level.read`): options with two dashes
and their whole name, options with one dash and a letter, several of which may stand together, and
words. An option that takes a value has it after an equals sign, after its letter or as the next
argument, which then must not look like an option itself. After two dashes alone every argument is a
word. The first word that is the name of a command ends the level. -/

namespace PageFields.Cli

/-- An option of the command line. -/
structure OptionSpec where
  name : String
  letter : Option Char := none
  /-- What the option accepts as its value; an option without one is a switch. -/
  value : Option (Text → Bool) := none
  /-- The option may be given more than once. -/
  repeats : Bool := false

/-- Why the reading of the arguments stops early. -/
inductive Stop
  | help
  | version
  /-- The arguments do not fit. -/
  | misuse
  deriving DecidableEq, Repr

/-- What one level of the command line may hold. -/
structure Grammar where
  options : List OptionSpec
  /-- The number of words. -/
  words : Nat := 0
  commands : List String := []
  /-- The version is printed on request. -/
  version : Bool := false

/-- One level of the command line as read. -/
structure Level where
  /-- The options with their values, the last one first; a switch has an empty value. -/
  given : List (String × Text) := []
  /-- The words, the last one first. -/
  words : List Text := []
  /-- The command that ends the level, with the arguments after it. -/
  command : Option (Text × List Text) := none
  deriving DecidableEq, Repr

namespace Level

/-- The option was given. -/
def has (l : Level) (name : String) : Bool := (l.given.lookup name).isSome

/-- The value of an option. -/
def value? (l : Level) (name : String) : Option Text := l.given.lookup name

/-- All values of an option in the order in which they were given. -/
def values (l : Level) (name : String) : List Text :=
  (l.given.filter (·.1 = name)).reverse.map Prod.snd

/-- Adds an option. -/
def add (l : Level) (o : OptionSpec) (value : Text) : Except Stop Level :=
  if l.has o.name && !o.repeats then .error .misuse
  else if o.value.all (· value) then .ok { l with given := (o.name, value) :: l.given }
  else .error .misuse

/-- Adds a word, which must not be empty. -/
def addWord (g : Grammar) (l : Level) (word : Text) : Except Stop Level :=
  if word ≠ [] ∧ l.words.length < g.words then .ok { l with words := word :: l.words }
  else .error .misuse

/-- What was read of a level up to some argument, and the option whose value comes next. -/
abbrev Reading := Level × Option OptionSpec

/-- Reads the option with this name, with the text after its equals sign. -/
def readLong (g : Grammar) (l : Level) (name : Text) (attached : Option Text) :
    Except Stop Reading :=
  match g.options.find? (·.name.toList = name), attached with
  | some o, some value =>
    if o.value.isSome then do pure (← l.add o value, none) else .error .misuse
  | some o, none => if o.value.isSome then .ok (l, some o) else do pure (← l.add o [], none)
  | none, some _ => .error .misuse
  | none, none =>
    if name = "help".toList then .error .help
    else if name = "version".toList ∧ g.version then .error .version
    else .error .misuse

/-- Reads options with one letter each that stand together. -/
def readLetters (g : Grammar) (l : Level) : Text → Except Stop Reading
  | [] => .ok (l, none)
  | c :: rest =>
    match g.options.find? (·.letter = some c) with
    | some o =>
      if o.value.isNone then do readLetters g (← l.add o []) rest
      else match rest with
        | [] => .ok (l, some o)
        | '=' :: value => do pure (← l.add o value, none)
        | value => do pure (← l.add o value, none)
    | none =>
      if c = 'h' then .error .help
      else if c = 'V' ∧ g.version then .error .version
      else .error .misuse

/-- The argument looks like an option, or it is the two dashes that end the options. -/
def isDashed : Text → Bool
  | '-' :: _ :: _ => true
  | _ => false

/-- Reads an argument that looks like an option. -/
def readDashed (g : Grammar) (l : Level) : Text → Except Stop Reading
  | '-' :: '-' :: long =>
    match Text.splitOnce? '=' long with
    | some (name, value) => readLong g l name (some value)
    | none => readLong g l long none
  | '-' :: letters => readLetters g l letters
  | _ => .error .misuse

/-- Reads the arguments of a level, of which the first may be the value of the option `awaiting`. -/
def read (g : Grammar) (awaiting : Option OptionSpec) (l : Level) : List Text → Except Stop Level
  | [] => if awaiting.isSome then .error .misuse else .ok l
  | arg :: rest =>
    match awaiting with
    | some o => if isDashed arg then .error .misuse else do read g none (← l.add o arg) rest
    | none =>
      if arg = ['-', '-'] then rest.foldlM (addWord g) l
      else if isDashed arg then do
        let (l, awaiting) ← readDashed g l arg
        read g awaiting l rest
      else if g.commands.any (·.toList = arg) then .ok { l with command := some (arg, rest) }
      else do read g none (← l.addWord g arg) rest

end Level

end PageFields.Cli
