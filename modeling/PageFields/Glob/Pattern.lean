import PageFields.Text.Basic

/-! # Globs: patterns and their text

A glob is a list of pieces, read from its text in one pass (`Glob.parse`). Groups in braces may
nest; the reader keeps the branches that are still open as a stack of frames. Two stars next to a
slash, or to the start or end of a branch, stand for any number of directories; elsewhere they are
two single stars. A text that is no glob has the fault that the pass meets first. -/

namespace PageFields

namespace Glob

/-- What makes a text no glob. -/
inductive Fault
  | unclosedClass
  | invalidRange (low high : Char)
  | unopenedGroup
  | unclosedGroup
  | danglingEscape
  deriving DecidableEq, Repr

/-- The wording of a fault. -/
def Fault.message : Fault → String
  | .unclosedClass => "unclosed character class; missing ']'"
  | .invalidRange low high => "invalid range; '" ++ low.toString ++ "' > '" ++ high.toString ++ "'"
  | .unopenedGroup =>
    "unopened alternate group; missing '\x7b' (maybe escape '\x7d' with '[\x7d]'?)"
  | .unclosedGroup =>
    "unclosed alternate group; missing '\x7d' (maybe escape '\x7b' with '[\x7b]'?)"
  | .danglingEscape => "dangling '\\'"

/-- A piece of a glob. -/
inductive Piece
  | literal (c : Char)
  /-- One byte: `?`. -/
  | any
  /-- Any bytes: `*`. -/
  | star
  /-- Any directories at the start: `**/`. -/
  | leading
  /-- All that is below a directory: `/**` at the end. -/
  | trailing
  /-- Any directories between two names: `/**/`. -/
  | between
  /-- One byte in a set, or not in it: `[…]` and `[!…]`. -/
  | charClass (negated : Bool) (ranges : List (Char × Char))
  /-- One of several patterns: `{…,…}`. -/
  | oneOf (branches : List (List Piece))

/-- A group that is still open: the branch around it and its finished branches. -/
structure Frame where
  before : List Piece
  branches : List (List Piece)

/-- Lets the last range end at `c`. -/
def extendLast (ranges : List (Char × Char)) (c : Char) : Except Fault (List (Char × Char)) :=
  match ranges.getLast? with
  | none => .ok [(c, c)]
  | some (low, _) =>
    if c < low then .error (.invalidRange low c) else .ok (ranges.dropLast ++ [(low, c)])

/-- Reads the ranges of a class up to its closing bracket. A bracket that comes first is a member,
and so is a dash at either end. -/
def readRanges (first inRange : Bool) (ranges : List (Char × Char)) :
    Text → Except Fault (List (Char × Char) × Text)
  | [] => .error .unclosedClass
  | c :: rest =>
    if c = ']' ∧ !first then .ok (if inRange then ranges ++ [('-', '-')] else ranges, rest)
    else if inRange then
      match extendLast ranges c with
      | .error fault => .error fault
      | .ok ranges => readRanges false false ranges rest
    else if c = '-' ∧ !first then readRanges false true ranges rest
    else readRanges false false (ranges ++ [(c, c)]) rest

theorem length_readRanges {first inRange : Bool} {ranges ranges' : List (Char × Char)}
    {s rest : Text} (h : readRanges first inRange ranges s = .ok (ranges', rest)) :
    rest.length < s.length := by
  fun_induction readRanges first inRange ranges s with
  | case1 => simp at h
  | case2 => simp at h; simp [h.2]
  | case3 => simp at h
  | case4 | case5 | case6 => rename_i ih; have := ih h; simp; omega

/-- Reads a class after its opening bracket. -/
def readClass (s : Text) : Except Fault (Piece × Text) :=
  match s with
  | '!' :: rest => (readRanges true false [] rest).map fun (r, after) => (.charClass true r, after)
  | '^' :: rest => (readRanges true false [] rest).map fun (r, after) => (.charClass true r, after)
  | s => (readRanges true false [] s).map fun (r, after) => (.charClass false r, after)

theorem length_readClass {s rest : Text} {p : Piece} (h : readClass s = .ok (p, rest)) :
    rest.length < s.length := by
  have key : ∀ {s rest : Text} {b : Bool} {p : Piece}, (readRanges true false [] s).map
      (fun x => (Piece.charClass b x.1, x.2)) = .ok (p, rest) → rest.length < s.length := by
    intro s rest b p h
    match hr : readRanges true false [] s with
    | .error _ => rw [hr] at h; simp [Except.map] at h
    | .ok (r, after) =>
      rw [hr] at h; simp [Except.map] at h
      rw [← h.2]; exact length_readRanges hr
  unfold readClass at h
  split at h
  · have := key h; simp; omega
  · have := key h; simp; omega
  · exact key h

/-- Ends a branch by any number of directories; a slash before them is part of it. -/
def absorb (branch : List Piece) (p : Piece) : List Piece :=
  match branch.getLast? with
  | some .leading => branch
  | some .trailing => branch
  | _ => branch.dropLast ++ [p]

/-- Where a double star stands: what it makes of the branch, and whether it takes the slash that
follows along. -/
def doubleStar (inGroup : Bool) (prev : Option Char) (branch : List Piece) (s : Text) :
    List Piece × Bool :=
  let plain := (branch ++ [.star, .star], false)
  if branch.isEmpty then
    match s with
    | [] => ([.leading], false)
    | c :: _ => if c = '/' then ([.leading], true) else plain
  else if prev ≠ some '/' ∧ (!inGroup ∨ prev ≠ some ',' ∧ prev ≠ some '{') then plain
  else
    match s with
    | [] => (absorb branch .trailing, false)
    | c :: _ =>
      if inGroup ∧ (c = ',' ∨ c = '}') then (absorb branch .trailing, false)
      else if c = '/' then (absorb branch .between, true)
      else plain

/-- Reads a glob: `frames` are the open groups, `branch` is what the innermost branch holds so far
and `prev` the character before `s`. -/
def read (frames : List Frame) (branch : List Piece) (prev : Option Char) (s : Text) :
    Except Fault (List Piece) :=
  match s with
  | [] => if frames.isEmpty then .ok branch else .error .unclosedGroup
  | '?' :: rest => read frames (branch ++ [.any]) (some '?') rest
  | '*' :: '*' :: rest =>
    match doubleStar (!frames.isEmpty) prev branch rest with
    | (branch, false) => read frames branch (some '*') rest
    | (branch, true) => read frames branch (some '/') rest.tail
  | '*' :: rest => read frames (branch ++ [.star]) (some '*') rest
  | '[' :: rest =>
    match _h : readClass rest with
    | .error fault => .error fault
    | .ok (p, after) => read frames (branch ++ [p]) (some ']') after
  | '{' :: rest => read (⟨branch, []⟩ :: frames) [] (some '{') rest
  | '}' :: rest =>
    match frames with
    | [] => .error .unopenedGroup
    | f :: frames =>
      read frames (f.before ++ [.oneOf (f.branches ++ [branch])]) (some '}') rest
  | ',' :: rest =>
    match frames with
    | [] => read [] (branch ++ [.literal ',']) (some ',') rest
    | f :: frames => read (⟨f.before, f.branches ++ [branch]⟩ :: frames) [] (some ',') rest
  | ['\\'] => .error .danglingEscape
  | '\\' :: c :: rest => read frames (branch ++ [.literal c]) (some c) rest
  | c :: rest => read frames (branch ++ [.literal c]) (some c) rest
termination_by s.length
decreasing_by
  all_goals simp
  all_goals try have := length_readClass _h
  all_goals omega

end Glob

/-- A pattern for file names. -/
structure Glob where
  pieces : List Glob.Piece

/-- Reads a glob from its text. -/
def Glob.parse (s : Text) : Except Glob.Fault Glob := (Glob.read [] [] none s).map Glob.mk

end PageFields
