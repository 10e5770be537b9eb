import PageFields.Diff.Compact
import PageFields.Diff.Search
import PageFields.Text.Lines

/-! # Differences of texts

`Diff.ofTexts` says line by line how one text becomes another: a shortest script (`Diff.search`)
whose insertions are brought together where that is possible (`Diff.compact`), with the deletions
first where lines are replaced by others (`Diff.ordered`). -/

namespace PageFields.Diff

/-- The changes of one line each that belong to a script. -/
def changes (script : Script) : List Change :=
  script.flatMap fun run => run.lines.map (Change.mk run.kind)

/-- The deletions, then the insertions, of the runs in front of the first kept one; `deleted` and
`inserted` are those so far. -/
def ordered (deleted inserted : Script) : Script → Script
  | [] => deleted.reverse ++ inserted.reverse
  | run :: rest =>
    match run.kind with
    | .keep => deleted.reverse ++ inserted.reverse ++ run :: ordered [] [] rest
    | .delete => ordered (run :: deleted) inserted rest
    | .insert => ordered deleted (run :: inserted) rest

/-- How the lines `old` become the lines `new`. -/
def ofLines (old new : List Text) : List Change :=
  changes (ordered [] [] (compact (search (old.length + new.length + 1) old new)))

/-- How the text `old` becomes the text `new`. -/
def ofTexts (old new : Text) : List Change := ofLines (Text.segments old) (Text.segments new)

end PageFields.Diff
