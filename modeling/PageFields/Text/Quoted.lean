import PageFields.Text.Basic

/-! # Text: quoted strings

A quoted string stands for the text between its quotes. Without a backslash that text is taken as
it is. With one, a string in double quotes is read like a word of a shell (`unquote?`), with escapes
inside double quotes only, and a string in single quotes has the escapes of the quote and of the
backslash (`unescapeSingle`). `escape` writes a text so that double quotes around it stand for
it. -/

namespace PageFields.Quoted

/-- Where the reading of a shell word stands; `code` collects the digits of `\u{…}`. -/
inductive Within
  | bare
  | single
  | double
  | code (digits : Text)

/-- The value of a hexadecimal digit. -/
def hexDigit? (c : Char) : Option Nat :=
  if '0' ≤ c ∧ c ≤ '9' then some (c.toNat - 48)
  else if 'a' ≤ c ∧ c ≤ 'f' then some (c.toNat - 87)
  else if 'A' ≤ c ∧ c ≤ 'F' then some (c.toNat - 55)
  else none

/-- The number with these hexadecimal digits. -/
def hexValue? (digits : Text) : Option Nat :=
  digits.foldlM (fun n c => (hexDigit? c).map (16 * n + ·)) 0

/-- The character with this code point, which must be a Unicode scalar value. -/
def scalar? (n : Nat) : Option Char :=
  if n.isValidChar then some (Char.ofNat n) else none

/-- The character that the text between the braces of `\u{…}` names; a plus sign may lead. -/
def codePoint? (digits : Text) : Option Char :=
  match digits with
  | '+' :: d :: rest => (hexValue? (d :: rest)).bind scalar?
  | d :: rest => (hexValue? (d :: rest)).bind scalar?
  | [] => none

/-- The character that a backslash and `c` stand for inside double quotes. -/
def simpleEscape? (c : Char) : Option Char :=
  match c with
  | 'a' => some '\x07'
  | 'b' => some '\x08'
  | 'v' => some '\x0b'
  | 'f' => some '\x0c'
  | 'n' => some '\n'
  | 'r' => some '\r'
  | 't' => some '\t'
  | 'e' | 'E' => some '\x1b'
  | '\\' | '\x27' | '"' | '$' | '\x60' | ' ' => some c
  | _ => none

/-- Reads a shell word: quoted and unquoted parts stand next to each other, a part may be left open
at the end, and only double quotes know escapes. -/
def unquote? : Within → Text → Option Text
  | .code digits, [] => (codePoint? digits).map ([·])
  | .code digits, '}' :: rest =>
    (codePoint? digits).bind fun c => (unquote? .double rest).map (c :: ·)
  | .code digits, c :: rest => unquote? (.code (digits ++ [c])) rest
  | _, [] => some []
  | .bare, '\x27' :: rest => unquote? .single rest
  | .bare, '"' :: rest => unquote? .double rest
  | .bare, c :: rest => (unquote? .bare rest).map (c :: ·)
  | .single, '\x27' :: rest => unquote? .bare rest
  | .single, c :: rest => (unquote? .single rest).map (c :: ·)
  | .double, '"' :: rest => unquote? .bare rest
  | .double, '\\' :: 'u' :: '{' :: rest => unquote? (.code []) rest
  | .double, '\\' :: c :: rest =>
    (simpleEscape? c).bind fun d => (unquote? .double rest).map (d :: ·)
  | .double, ['\\'] => none
  | .double, c :: rest => (unquote? .double rest).map (c :: ·)

/-- The text between single quotes with its escaped quotes and backslashes rewritten. -/
def unescapeSingle (inner : Text) : Text :=
  Text.replacePair '\\' '\\' '\\' (Text.replacePair '\\' '\x27' '\x27' inner)

/-- The text that a quoted string stands for; `none` when its escapes are malformed or it is too
short to have two quotes. -/
def value? : Text → Option Text
  | [] | [_] => none
  | quote :: c :: rest =>
    let inner := (c :: rest).dropLast
    if '\\' ∉ inner then some inner
    else if quote = '"' then unquote? .bare (quote :: c :: rest)
    else some (unescapeSingle inner)

/-- Writes a text for between double quotes. -/
def escape (t : Text) : Text :=
  t.flatMap fun c => if c = '\\' ∨ c = '"' then ['\\', c] else [c]

end PageFields.Quoted
