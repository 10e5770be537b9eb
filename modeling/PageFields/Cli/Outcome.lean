import PageFields.Error

/-! # Command line: outcomes

What a run of the program leaves behind besides the file tree: an exit status, what it printed, and
why it failed if it did. -/

namespace PageFields.Cli

/-- Why a run failed. -/
inductive Failure
  /-- An operation of the workspace failed. -/
  | workspace (e : Error)
  /-- A file that the command itself reads or writes cannot be used. -/
  | file (fault : IoFault)
  /-- The arguments do not fit. -/
  | misuse
  /-- No command is named. -/
  | noCommand
  deriving DecidableEq, Repr

namespace Failure

/-- The exit status of a failure. A conflict has its own, so that a caller knows when to read the
file again. -/
def code : Failure → Nat
  | .workspace (.conflict _) => 3
  | .noCommand => 1
  | _ => 2

/-- The report of a failure, as lines. -/
def report : Failure → List String
  | .workspace e =>
    ("error: " ++ e.code ++ e.message?.elim "" (": " ++ ·)) ::
      (e.help?.map ("help: " ++ ·)).toList
  | .file fault => ["error: " ++ fault.name]
  | .misuse => ["error: the arguments do not fit, see --help"]
  | .noCommand => ["No subcommand specified. Run `pagesmith --help` for usage."]

end Failure

/-- The outcome of a run. -/
structure Outcome where
  printed : Text := []
  /-- A warning that goes beside the output. -/
  warning : Option Text := none
  failure : Option Failure := none
  deriving DecidableEq, Repr

namespace Outcome

/-- The exit status. -/
def code (o : Outcome) : Nat := o.failure.elim 0 Failure.code

/-- A run that failed before it printed anything. -/
def failed (f : Failure) : Outcome := { failure := some f }

/-- A run that printed a text, or failed in the workspace before it printed anything. -/
def ofResult : Except Error Text → Outcome
  | .ok text => { printed := text }
  | .error e => failed (.workspace e)

end Outcome

end PageFields.Cli
