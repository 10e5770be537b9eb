import PageFields.Text.Basic

/-! # Command line: colors

Parts of the output are set in a color or in bold by control sequences around them, unless the
output is to be plain. -/

namespace PageFields.Cli

/-- The look of a part of the output. -/
inductive Style
  | bold
  | red
  | green
  | yellow
  deriving DecidableEq, Repr

/-- The control sequence with this number. -/
def control (number : String) : Text := '\x1b' :: '[' :: number.toList ++ ['m']

/-- The control sequence that begins a style. -/
def Style.on : Style → Text
  | .bold => control "1"
  | .red => control "31"
  | .green => control "32"
  | .yellow => control "33"

/-- The control sequence that ends a style. -/
def Style.off : Style → Text
  | .bold => control "0"
  | .red | .green | .yellow => control "39"

/-- Sets a text in a style if the output has colors. -/
def styled (color : Bool) (style : Style) (t : Text) : Text :=
  if color then style.on ++ t ++ style.off else t

end PageFields.Cli
