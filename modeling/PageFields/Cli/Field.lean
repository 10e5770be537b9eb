import PageFields.Text.Blank

/-! # Command line: fields

A field is given as its name and its content with an equals sign between them. The content is taken
as it is, with further equals signs; space around the name does not count. -/

namespace PageFields.Cli

/-- Why an argument is no field. -/
inductive FieldFault
  | noEqualsSign (argument : Text)
  | emptyName
  deriving DecidableEq, Repr

/-- The wording of a fault. -/
def FieldFault.message : FieldFault → Text
  | .noEqualsSign argument => "expected `NAME=VALUE`, found `".toList ++ argument ++ ['\x60']
  | .emptyName => "the field name is empty".toList

/-- Reads a field, as its name and its content. -/
def parseField (argument : Text) : Except FieldFault (Text × Text) :=
  match Text.splitOnce? '=' argument with
  | none => .error (.noEqualsSign argument)
  | some (before, content) =>
    let name := Text.trimBlank before
    if name = [] then .error .emptyName else .ok (name, content)

end PageFields.Cli
