import PageFields.Text.Quoted

/-! # TOML: strings

A string stands in double quotes, with escapes, or in single quotes, without. Three quotes instead
of one let it run over several lines; a line feed right after them is not part of it, and up to two
quotes may stand before the closing three. Each reader starts after the opening quotes and gives the
text and what follows the closing ones. -/

namespace PageFields.Toml

/-- A character that may stand in strings and comments: a tab, or no control character. -/
def isPlain (c : Char) : Bool := c = '\t' || ' ' ≤ c && c ≠ '\x7f'

/-- Puts a character in front of what a reader gives. -/
def prepend (c : Char) : Option (Text × Text) → Option (Text × Text) :=
  Option.map fun (t, rest) => (c :: t, rest)

/-- The character with these hexadecimal digits. -/
def hexChar? (digits : Text) : Option Char := (Quoted.hexValue? digits).bind Quoted.scalar?

/-- The character that a backslash and `c` stand for. -/
def shortEscape? (c : Char) : Option Char :=
  match c with
  | 'b' => some '\x08'
  | 't' => some '\t'
  | 'n' => some '\n'
  | 'f' => some '\x0c'
  | 'r' => some '\r'
  | 'e' => some '\x1b'
  | '"' | '\\' => some c
  | _ => none

/-- Reads a string in double quotes. -/
def readBasic? : Text → Option (Text × Text)
  | [] => none
  | '"' :: rest => some ([], rest)
  | '\\' :: 'x' :: a :: b :: rest =>
    (hexChar? [a, b]).bind fun c => prepend c (readBasic? rest)
  | '\\' :: 'u' :: a :: b :: c :: d :: rest =>
    (hexChar? [a, b, c, d]).bind fun x => prepend x (readBasic? rest)
  | '\\' :: 'U' :: a :: b :: c :: d :: e :: f :: g :: h :: rest =>
    (hexChar? [a, b, c, d, e, f, g, h]).bind fun x => prepend x (readBasic? rest)
  | '\\' :: c :: rest => (shortEscape? c).bind fun x => prepend x (readBasic? rest)
  | c :: rest => if isPlain c ∧ c ≠ '\\' then prepend c (readBasic? rest) else none

/-- Reads a string in single quotes. -/
def readLiteral? : Text → Option (Text × Text)
  | [] => none
  | c :: rest =>
    if c = '\x27' then some ([], rest)
    else if isPlain c then prepend c (readLiteral? rest)
    else none

/-- A line break follows the spaces and tabs at the front. -/
def endsLine (t : Text) : Bool :=
  match t.dropWhile (fun c => c = ' ' || c = '\t') with
  | '\n' :: _ => true
  | '\r' :: '\n' :: _ => true
  | _ => false

/-- The quotes before three closing ones, of which up to two belong to the string. -/
def closing (quote : Char) (rest : Text) : Text × Text :=
  match rest with
  | a :: b :: after =>
    if a = quote ∧ b = quote then ([quote, quote], after)
    else if a = quote then ([quote], b :: after)
    else ([], rest)
  | [a] => if a = quote then ([quote], []) else ([], rest)
  | [] => ([], [])

/-- Reads a string in three double quotes. After a backslash at the end of a line, which `skipping`
remembers, all space up to the next other character is left out. -/
def readMultiBasic? (skipping : Bool) : Text → Option (Text × Text)
  | [] => none
  | '"' :: '"' :: '"' :: rest => some (closing '"' rest)
  | '\\' :: 'x' :: a :: b :: rest =>
    (hexChar? [a, b]).bind fun c => prepend c (readMultiBasic? false rest)
  | '\\' :: 'u' :: a :: b :: c :: d :: rest =>
    (hexChar? [a, b, c, d]).bind fun x => prepend x (readMultiBasic? false rest)
  | '\\' :: 'U' :: a :: b :: c :: d :: e :: f :: g :: h :: rest =>
    (hexChar? [a, b, c, d, e, f, g, h]).bind fun x => prepend x (readMultiBasic? false rest)
  | '\\' :: c :: rest =>
    if endsLine (c :: rest) then readMultiBasic? true (c :: rest)
    else (shortEscape? c).bind fun x => prepend x (readMultiBasic? false rest)
  | '\r' :: '\n' :: rest =>
    if skipping then readMultiBasic? true rest
    else prepend '\r' (prepend '\n' (readMultiBasic? false rest))
  | c :: rest =>
    if skipping ∧ (c = ' ' ∨ c = '\t' ∨ c = '\n') then readMultiBasic? true rest
    else if (isPlain c ∧ c ≠ '\\') ∨ c = '\n' then prepend c (readMultiBasic? false rest)
    else none

/-- Reads a string in three single quotes. -/
def readMultiLiteral? : Text → Option (Text × Text)
  | [] => none
  | '\x27' :: '\x27' :: '\x27' :: rest => some (closing '\x27' rest)
  | '\r' :: '\n' :: rest => prepend '\r' (prepend '\n' (readMultiLiteral? rest))
  | c :: rest => if isPlain c ∨ c = '\n' then prepend c (readMultiLiteral? rest) else none

/-- Drops a line break at the front. -/
def dropBreak : Text → Text
  | '\n' :: rest => rest
  | '\r' :: '\n' :: rest => rest
  | t => t

/-- Reads a string of one line, from its opening quote on. -/
def readLineString? : Text → Option (Text × Text)
  | '"' :: rest => readBasic? rest
  | '\x27' :: rest => readLiteral? rest
  | _ => none

/-- Reads a string, from its opening quotes on. -/
def readString? : Text → Option (Text × Text)
  | '"' :: '"' :: '"' :: rest => readMultiBasic? false (dropBreak rest)
  | '\x27' :: '\x27' :: '\x27' :: rest => readMultiLiteral? (dropBreak rest)
  | t => readLineString? t

end PageFields.Toml
