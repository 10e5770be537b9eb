import PageFields.Text.Basic

/-! # Differences: scripts

A script goes through two sequences of lines at once. Each run keeps lines that both have, deletes
lines of the old sequence or inserts lines of the new one. -/

namespace PageFields.Diff

/-- What happens to a line. -/
inductive Kind
  | keep
  | delete
  | insert
  deriving DecidableEq, Repr

/-- Lines one after another to which the same happens. -/
structure Run where
  kind : Kind
  lines : List Text
  deriving DecidableEq, Repr

/-- One line and what happens to it. -/
structure Change where
  kind : Kind
  line : Text
  deriving DecidableEq, Repr

/-- Runs one after another. -/
abbrev Script := List Run

/-- The run of these lines, if there are any. -/
def Script.some (kind : Kind) (lines : List Text) : Script :=
  if lines = [] then [] else [⟨kind, lines⟩]

/-- Puts kept lines in front of a script, into its first run if that keeps lines as well. -/
def Script.keepFirst (lines : List Text) : Script → Script
  | ⟨.keep, more⟩ :: rest => ⟨.keep, lines ++ more⟩ :: rest
  | rest => Script.some .keep lines ++ rest

end PageFields.Diff
