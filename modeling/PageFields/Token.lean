import PageFields.Text.Quoted

/-! # Tokens

A token is a piece of a template with its kind and the line it starts on. Only directives have an
inner structure: all that stands outside of them, comments included, is `TokenKind.text`. -/

namespace PageFields

/-- The kinds of tokens. -/
inductive TokenKind
  /-- Text outside directives. -/
  | text
  /-- The opening delimiter of a directive, with its whitespace mark. -/
  | directiveOpen
  /-- The closing delimiter of a directive, with its whitespace mark. -/
  | directiveClose
  /-- An identifier inside a directive. -/
  | name
  /-- A quoted string inside a directive. -/
  | string
  /-- A run of spaces, tabs and line breaks inside a directive. -/
  | whitespace
  /-- Any other single character inside a directive. -/
  | other
  deriving DecidableEq, Repr

/-- A piece of a template. -/
structure Token where
  /-- The line, counted from one, on which the token starts. -/
  line : Nat
  kind : TokenKind
  value : Text
  deriving DecidableEq, Repr

namespace Token

/-- The token is the identifier `name`. -/
def isName (t : Token) (name : Text) : Bool := t.kind = .name && t.value = name

/-- The token is not whitespace. -/
def isSignificant (t : Token) : Bool := t.kind ≠ .whitespace

/-- The text that a string token stands for. -/
def stringValue? (t : Token) : Option Text :=
  if t.kind = .string then Quoted.value? t.value else none

end Token

end PageFields
