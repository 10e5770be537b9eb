import PageFields.Diff.Script

/-! # Differences: compact scripts

A script can often be changed without a change of its length. `compact` first moves each deletion
past the insertions beside it, so that deletions come together, and then moves each insertion up and
down through kept lines as long as they repeat its own, so that insertions come together as well.
The place in a script is kept as in a zipper: the runs before it in reverse, and those after it. -/

namespace PageFields.Diff

/-! ### Deletions -/

/-- Moves a deletion up past insertions; deletions that it meets become part of it. -/
def deleteUp : Script → List Text → Script → Script × List Text × Script
  | ⟨.insert, i⟩ :: before, d, after => deleteUp before d (⟨.insert, i⟩ :: after)
  | ⟨.delete, e⟩ :: before, d, after => deleteUp before (e ++ d) after
  | before, d, after => (before, d, after)

/-- Moves a deletion down past insertions; deletions that it meets become part of it. -/
def deleteDown : Script → List Text → Script → Script × List Text × Script
  | before, d, ⟨.insert, i⟩ :: after => deleteDown (⟨.insert, i⟩ :: before) d after
  | before, d, ⟨.delete, e⟩ :: after => deleteDown before (d ++ e) after
  | before, d, after => (before, d, after)

/-- Compacts the deletions in the runs after a place. -/
def compactDeletes : Nat → Script → Script → Script
  | 0, before, after => before.reverse ++ after
  | _ + 1, before, [] => before.reverse
  | fuel + 1, before, run :: after =>
    match run.kind with
    | .delete =>
      let (before, d, after) := deleteUp before run.lines after
      let (before, d, after) := deleteDown before d after
      compactDeletes fuel (⟨.delete, d⟩ :: before) after
    | .keep | .insert => compactDeletes fuel (run :: before) after

/-! ### Insertions -/

/-- Moves an insertion up through kept lines, given in reverse, as long as the line above is its
last one; `below` are the kept lines that come to stand below it. -/
def rollUp : List Text → List Text → List Text → List Text × List Text × List Text
  | [], i, below => ([], i, below)
  | line :: kept, i, below =>
    if i.getLast? = some line then rollUp kept (line :: i.dropLast) (line :: below)
    else (line :: kept, i, below)

/-- Moves an insertion down through kept lines as long as the line below is its first one; `above`
are the kept lines that come to stand above it, in reverse. -/
def rollDown : List Text → List Text → List Text → List Text × List Text × List Text
  | [], i, above => ([], i, above)
  | line :: kept, i, above =>
    if i.head? = some line then rollDown kept (i.tail ++ [line]) (line :: above)
    else (line :: kept, i, above)

/-- Puts kept lines at the end of the runs before a place. -/
def keepLast (lines : List Text) : Script → Script
  | ⟨.keep, more⟩ :: rest => ⟨.keep, more ++ lines⟩ :: rest
  | rest => Script.some .keep lines ++ rest

/-- Moves an insertion up as far as it goes; insertions that it meets become part of it. -/
def insertUp : Script → List Text → Script → Script × List Text × Script
  | [], i, after => ([], i, after)
  | ⟨.insert, j⟩ :: before, i, after => insertUp before (j ++ i) after
  | ⟨.delete, d⟩ :: before, i, after => insertUp before i (⟨.delete, d⟩ :: after)
  | ⟨.keep, kept⟩ :: before, i, after =>
    let (above, i, below) := rollUp kept.reverse i []
    let after := Script.keepFirst below after
    if above = [] then insertUp before i after else (⟨.keep, above.reverse⟩ :: before, i, after)

/-- Moves an insertion down as far as it goes; insertions that it meets become part of it. -/
def insertDown : Script → List Text → Script → Script × List Text × Script
  | before, i, [] => (before, i, [])
  | before, i, ⟨.insert, j⟩ :: after => insertDown before (i ++ j) after
  | before, i, ⟨.delete, d⟩ :: after => insertDown (⟨.delete, d⟩ :: before) i after
  | before, i, ⟨.keep, kept⟩ :: after =>
    let (below, i, above) := rollDown kept i []
    let before := keepLast above.reverse before
    if below = [] then insertDown before i after else (before, i, ⟨.keep, below⟩ :: after)

/-- Compacts the insertions in the runs after a place. -/
def compactInserts : Nat → Script → Script → Script
  | 0, before, after => before.reverse ++ after
  | _ + 1, before, [] => before.reverse
  | fuel + 1, before, run :: after =>
    match run.kind with
    | .insert =>
      let (before, i, after) := insertUp before run.lines after
      let (before, i, after) := insertDown before i after
      compactInserts fuel (⟨.insert, i⟩ :: before) after
    | .keep | .delete => compactInserts fuel (run :: before) after

/-- Brings deletions together and then insertions. The second walk may go back over runs that it has
passed, but only once for each insertion, which its fuel covers. -/
def compact (s : Script) : Script :=
  let s := compactDeletes s.length [] s
  compactInserts ((s.length + 1) * (3 * s.length + 1)) [] s

end PageFields.Diff
