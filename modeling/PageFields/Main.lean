import PageFields.Cli.Run
import PageFields.FileTree.Listing

/-! # The program

A filter for file trees: the listing of a tree comes from the standard input, the arguments say what
to do at its top, and the listing of the tree afterwards goes to the standard output. What the
command prints goes to the error output, so that it does not mix with the listing. -/

namespace PageFields

/-- Reads a stream to its end. -/
partial def readAll (input : IO.FS.Stream) (before : String) : IO String := do
  let line ← input.getLine
  if line.isEmpty then pure before else readAll input (before ++ line)

/-- Runs the command in the arguments on the tree in the input. -/
def runOnInput (args : List String) : IO UInt32 := do
  let listing ← readAll (← IO.getStdin) ""
  let color := (← IO.getEnv "NO_COLOR").isNone
  let (outcome, tree) := Cli.run color ['/'] (args.map String.toList)
    (FileTree.ofListing listing.toList)
  IO.eprint outcome.printed.shown
  if let some warning := outcome.warning then IO.eprintln warning.shown
  if let some failure := outcome.failure then failure.report.forM IO.eprintln
  IO.print tree.listing.shown
  return outcome.code.toUInt32

end PageFields

/-- The program. -/
def main (args : List String) : IO UInt32 := PageFields.runOnInput args
