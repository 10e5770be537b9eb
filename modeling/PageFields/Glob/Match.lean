import PageFields.Glob.Pattern

/-! # Globs: matching

A glob is matched against the UTF-8 bytes of a whole file name, case-sensitively. `Piece.rests`
gives what may remain of a name after a piece has taken its part of the front; a glob matches when
nothing may remain after its last piece. A class holds bytes too, so it is never a whole character
beyond ASCII. Branches that stand for nothing at all are left out of their group.

A name that ends in the step `..` says no last step of its own. Globs that speak of the last step
(`needsLastStep`) do not match it. -/

namespace PageFields.Glob

/-- The bytes of a character. -/
def bytesOf (c : Char) : List UInt8 := (Text.utf8 [c]).toList

/-- The rest after `front`, if the bytes start with it. -/
def dropFront? : List UInt8 → List UInt8 → Option (List UInt8)
  | [], s => some s
  | _ :: _, [] => none
  | a :: front, b :: s => if a = b then dropFront? front s else none

/-- All rests, the whole and the empty one included. -/
def tails : List UInt8 → List (List UInt8)
  | [] => [[]]
  | b :: s => (b :: s) :: tails s

/-- The byte of the slash. -/
def slash : UInt8 := 47

/-- The rests that follow a slash. -/
def afterSlashes : List UInt8 → List (List UInt8)
  | [] => []
  | b :: s => if b = slash then s :: afterSlashes s else afterSlashes s

/-- The byte is in the set that a range of characters stands for: the bytes of both ends, and all
between the last byte of the lower end and the first of the upper one. -/
def inRange (b : UInt8) (range : Char × Char) : Bool :=
  let low := bytesOf range.1
  let high := bytesOf range.2
  low.contains b || (range.1 ≠ range.2 && (high.contains b ||
    (low.getLast?.any (· ≤ b) && high.head?.any (b ≤ ·))))

mutual

/-- The piece stands for nothing at all. -/
def Piece.isVoid : Piece → Bool
  | .oneOf branches => areVoid branches
  | _ => false

/-- All pieces of a branch stand for nothing. -/
def isVoidBranch : List Piece → Bool
  | [] => true
  | p :: rest => p.isVoid && isVoidBranch rest

/-- All branches stand for nothing. -/
def areVoid : List (List Piece) → Bool
  | [] => true
  | b :: rest => isVoidBranch b && areVoid rest

end

mutual

/-- What may remain of `s` after the piece. -/
def Piece.rests : Piece → List UInt8 → List (List UInt8)
  | .literal c, s => (dropFront? (bytesOf c) s).toList
  | .any, s => match s with
    | [] => []
    | _ :: rest => [rest]
  | .star, s => tails s
  | .leading, s => s :: afterSlashes s
  | .trailing, s => match s with
    | [] => []
    | b :: rest => if b = slash then tails rest else []
  | .between, s => match s with
    | [] => []
    | b :: rest => if b = slash then rest :: afterSlashes rest else []
  | .charClass negated ranges, s => match s with
    | [] => []
    | b :: rest => if ranges.any (inRange b) ≠ negated then [rest] else []
  | .oneOf branches, s => if areVoid branches then [s] else someRests branches s

/-- What may remain of one of the texts `ss` after all pieces of a branch. -/
def allRests : List Piece → List (List UInt8) → List (List UInt8)
  | [], ss => ss
  | p :: rest, ss => allRests rest (ss.flatMap fun s => p.rests s).eraseDups

/-- What may remain after one of the branches. -/
def someRests : List (List Piece) → List UInt8 → List (List UInt8)
  | [], _ => []
  | b :: rest, s => (if isVoidBranch b then [] else allRests b [s]) ++ someRests rest s

end

/-- The text of pieces that each stand for one character. -/
def literal? : List Piece → Option Text
  | [] => some []
  | .literal c :: rest => (literal? rest).map (c :: ·)
  | _ => none

/-- The pieces speak of the last step of a name: they are a literal step in any directory, or they
end in a dot. A literal name and a star before a longer literal speak of the whole name. -/
def needsLastStep (pieces : List Piece) : Bool :=
  let (anywhere, body) := match pieces with
    | .leading :: body => (true, body)
    | body => (false, body)
  let (starred, tail) := match body with
    | .star :: tail => (true, tail)
    | tail => (false, tail)
  match literal? tail with
  | some text => if starred then text == ['.'] else anywhere && !text.contains '/'
  | none => match pieces.getLast? with
    | some (.literal c) => c = '.'
    | _ => false

/-- The name says no last step of its own. -/
def lacksLastStep (name : Text) : Bool :=
  (Text.splitOn '/' name).getLast? == some ['.', '.']

end PageFields.Glob

namespace PageFields

/-- The glob matches the name. A glob of two stars alone matches every name. -/
def Glob.isMatch (g : Glob) (name : Text) : Bool :=
  match g.pieces with
  | [.leading] => true
  | pieces => (Glob.allRests pieces [(Text.utf8 name).toList]).contains [] &&
    !(Glob.needsLastStep pieces && Glob.lacksLastStep name)

end PageFields
