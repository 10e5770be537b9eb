import PageFields.Text.Basic

/-! # Text: blank characters

The characters that Unicode calls white space, as a table, and the trimming that goes with them.
The set is wider than the one of `Char.isWhitespace`: it also holds the line and page breaks and the
spaces beyond ASCII. -/

namespace PageFields.Text

/-- The characters with the Unicode property White_Space, beyond the three ranges of `isBlank`. -/
def blanks : List Nat :=
  [0x20, 0x85, 0xA0, 0x1680, 0x2028, 0x2029, 0x202F, 0x205F, 0x3000]

/-- The character is white space in the sense of Unicode. -/
def isBlank (c : Char) : Bool :=
  (9 ≤ c.toNat && c.toNat ≤ 13) || (0x2000 ≤ c.toNat && c.toNat ≤ 0x200A) || blanks.contains c.toNat

/-- Strips the white space at both ends. -/
def trimBlank (t : Text) : Text := trimMatches isBlank t

end PageFields.Text
