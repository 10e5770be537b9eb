/-! # Text: basic operations

A text is the list of its characters, so that reading it is recursion on a list and no position
has to be kept in bounds. `lineFeeds` counts lines, `replacePair` rewrites two neighbouring
characters, `trimMatches` strips both ends, and `utf8` and `ofUtf8?` go to bytes and back. -/

namespace PageFields

/-- A text is the list of its characters. -/
abbrev Text := List Char

namespace Text

/-- The text as a string, for messages. -/
def shown (t : Text) : String := String.ofList t

/-- The number of line feeds of a text. -/
def lineFeeds (t : Text) : Nat := t.count '\n'

/-- Replaces the pair `a b` by `r`, from left to right and without overlap. -/
def replacePair (a b r : Char) : Text → Text
  | [] => []
  | [c] => [c]
  | c :: d :: rest =>
    if c = a ∧ d = b then r :: replacePair a b r rest else c :: replacePair a b r (d :: rest)

/-- Drops the characters with `p` at both ends. -/
def trimMatches (p : Char → Bool) (t : Text) : Text :=
  ((t.dropWhile p).reverse.dropWhile p).reverse

/-- The part before the first `c` and the part after it, if `c` occurs. -/
def splitOnce? (c : Char) : Text → Option (Text × Text)
  | [] => none
  | d :: rest =>
    if d = c then some ([], rest) else (splitOnce? c rest).map fun (before, after) =>
      (d :: before, after)

/-- The pieces between the occurrences of `c`; one more than there are occurrences. -/
def splitOn (c : Char) : Text → List Text
  | [] => [[]]
  | d :: rest =>
    if d = c then [] :: splitOn c rest
    else match splitOn c rest with
      | [] => [[d]]
      | piece :: pieces => (d :: piece) :: pieces

/-- The texts one after another with `sep` between neighbours. -/
def join (sep : Text) : List Text → Text
  | [] => []
  | [t] => t
  | t :: u :: rest => t ++ sep ++ join sep (u :: rest)

/-- The UTF-8 bytes of a text. -/
def utf8 (t : Text) : ByteArray := (String.ofList t).toUTF8

/-- The text with these UTF-8 bytes, if they are valid UTF-8. -/
def ofUtf8? (bytes : ByteArray) : Option Text := (String.fromUTF8? bytes).map String.toList

/-- The order of texts by their characters, which is also the order of their UTF-8 bytes. -/
def le : Text → Text → Bool
  | [], _ => true
  | _ :: _, [] => false
  | a :: s, b :: t => if a = b then le s t else decide (a < b)

/-- Inserts a text into an ordered list unless it is there already. -/
def insertSorted (t : Text) : List Text → List Text
  | [] => [t]
  | u :: rest =>
    if t = u then u :: rest else if le t u then t :: u :: rest else u :: insertSorted t rest

/-! ### Small laws -/

@[simp] theorem lineFeeds_append (s t : Text) : lineFeeds (s ++ t) = lineFeeds s + lineFeeds t := by
  simp [lineFeeds]

@[simp] theorem ofUtf8?_utf8 (t : Text) : ofUtf8? (utf8 t) = some t := by
  have h : String.fromUTF8? (String.ofList t).toUTF8 = some (String.ofList t) := by
    simp only [String.fromUTF8?, String.toUTF8_eq_toByteArray,
      dif_pos (String.ofList t).isValidUTF8]
    rfl
  rw [ofUtf8?, utf8, h, Option.map_some, String.toList_ofList]

end Text

end PageFields
