import PageFields.Text.Basic

/-! # Text: the normal form

Two texts that differ in their line endings only, or in the space around them, count as the same
content. `normalize` chooses the representative: every line break is a line feed and there is no
line feed, space or tab at either end. -/

namespace PageFields.Text

/-- Writes every line break, of whatever kind, as a line feed. -/
def unifyBreaks (t : Text) : Text :=
  (replacePair '\r' '\n' '\n' t).map fun c => if c = '\r' then '\n' else c

/-- The characters that the normal form does not have at its ends. -/
def isMargin (c : Char) : Bool := c = '\n' || c = ' ' || c = '\t'

/-- The normal form of a text. -/
def normalize (t : Text) : Text := trimMatches isMargin (unifyBreaks t)

end PageFields.Text
