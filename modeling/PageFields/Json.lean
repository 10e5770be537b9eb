import PageFields.Text.Basic

/-! # JSON: values and their printed form

`Value.pretty` prints a value on several lines: each member of an array or object has a line of its
own, indented by two spaces for each level, and the members of an object keep their order. Only what
JSON does not allow inside a string is escaped; all other characters stand for themselves. -/

namespace PageFields.Json

/-- A JSON value; there are no numbers but counts. -/
inductive Value
  | null
  | boolean (b : Bool)
  | count (n : Nat)
  | string (t : Text)
  | array (items : List Value)
  | object (members : List (Text × Value))

/-- A text, or null for none. -/
def Value.ofText? : Option Text → Value
  | none => .null
  | some t => .string t

/-- An array of texts. -/
def Value.ofTexts (texts : List Text) : Value := .array (texts.map .string)

/-! ### Strings -/

/-- A digit of a hexadecimal number. -/
def hexDigit (n : Nat) : Char := (Nat.toDigits 16 (n % 16)).headD '0'

/-- A character as it stands in a string. -/
def escapeChar (c : Char) : Text :=
  if c = '"' then ['\\', '"']
  else if c = '\\' then ['\\', '\\']
  else if c = '\n' then ['\\', 'n']
  else if c = '\r' then ['\\', 'r']
  else if c = '\t' then ['\\', 't']
  else if c.toNat = 8 then ['\\', 'b']
  else if c.toNat = 12 then ['\\', 'f']
  else if c.toNat < 32 then ['\\', 'u', '0', '0', hexDigit (c.toNat / 16), hexDigit c.toNat]
  else [c]

/-- A string in its quotes. -/
def quoted (t : Text) : Text := '"' :: t.flatMap escapeChar ++ ['"']

/-! ### Layout -/

/-- The break before a line at a level. -/
def lineAt (level : Nat) : Text := '\n' :: List.replicate (2 * level) ' '

/-- Members in brackets, one on a line. -/
def bracketed (opening closing : Char) (level : Nat) (members : List Text) : Text :=
  if members = [] then [opening, closing]
  else
    opening :: Text.join [','] (members.map (lineAt (level + 1) ++ ·)) ++ lineAt level ++ [closing]

mutual

/-- The printed form of a value whose lines are indented to a level. -/
def Value.prettyAt (level : Nat) : Value → Text
  | .null => "null".toList
  | .boolean b => (if b then "true" else "false").toList
  | .count n => Nat.toDigits 10 n
  | .string t => quoted t
  | .array items => bracketed '[' ']' level (prettyItems (level + 1) items)
  | .object members => bracketed '\x7b' '\x7d' level (prettyMembers (level + 1) members)

/-- The printed forms of the values of an array. -/
def prettyItems (level : Nat) : List Value → List Text
  | [] => []
  | v :: rest => v.prettyAt level :: prettyItems level rest

/-- The printed forms of the members of an object. -/
def prettyMembers (level : Nat) : List (Text × Value) → List Text
  | [] => []
  | (key, v) :: rest => (quoted key ++ ": ".toList ++ v.prettyAt level) :: prettyMembers level rest

end

/-- The printed form of a value. -/
def Value.pretty (v : Value) : Text := v.prettyAt 0

end PageFields.Json
