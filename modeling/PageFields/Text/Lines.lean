import PageFields.Text.Basic

/-! # Text: lines

A text falls into lines in two ways: with their ends (`segments`) and without them (`lines`). A line
ends after a line feed, after a carriage return, or after both in this order; `lines` only knows
line feeds. -/

namespace PageFields.Text

/-- The line has its end: it is not the last line of a text that stops within it. -/
def isEnded (line : Text) : Bool := line.getLast? = some '\n' || line.getLast? = some '\r'

/-- Puts a character in front of the first segment, which it becomes if there is none. -/
def onto (c : Char) : List Text → List Text
  | [] => [[c]]
  | line :: rest => (c :: line) :: rest

/-- The lines with their ends. -/
def segments : Text → List Text
  | [] => []
  | c :: rest =>
    if c = '\n' ∨ (c = '\r' ∧ rest.head? ≠ some '\n') then [c] :: segments rest
    else onto c (segments rest)

/-- The lines without their line feeds; what follows the last line feed is a line unless it is
empty. -/
def lines (t : Text) : List Text :=
  let pieces := splitOn '\n' t
  if pieces.getLast? = some [] then pieces.dropLast else pieces

end PageFields.Text
