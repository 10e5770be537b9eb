import PageFields.FileTree

/-! # File trees: listings

A listing is a file tree written as text. Each entry has a line with its path, which ends with a
slash if it is a directory; the lines of a file follow its path, each behind one space. A path
cannot have a line feed, and a file has to be text. -/

namespace PageFields.FileTree

/-- The place that a path leads to. -/
def placeOf (path : Text) : List Text := (Text.splitOn '/' path).filter (· ≠ [])

/-- The lines of a listing. -/
def listingLines (t : FileTree) : List Text :=
  t.places.flatMap fun (place, e) =>
    let path := Text.join ['/'] place
    match e with
    | .directory => [path ++ ['/']]
    | .file content =>
      path :: (Text.splitOn '\n' ((Text.ofUtf8? content).getD [])).map fun l => ' ' :: l

/-- The listing of a tree. -/
def listing (t : FileTree) : Text := t.listingLines.flatMap fun l => l ++ ['\n']

/-- Puts an entry with its path and the lines below that into a tree. -/
def plantEntry (t : FileTree) (path : Text) (content : List Text) : FileTree :=
  if path.getLast? = some '/' then t.plant (placeOf path) ((t.get? (placeOf path)).getD empty)
  else t.plant (placeOf path) (.file (Text.utf8 (Text.join ['\n'] content)))

/-- The tree with a listing, read from its lines; `content` are the lines since the last path, which
comes before them, and the lines are taken from the last one on. -/
def ofReversed (content : List Text) : List Text → FileTree
  | [] => empty
  | (' ' :: l) :: rest => ofReversed (l :: content) rest
  | [] :: rest => ofReversed content rest
  | path :: rest => (ofReversed [] rest).plantEntry path content

/-- The tree with a listing. -/
def ofListing (s : Text) : FileTree :=
  ofReversed [] ((Text.splitOn '\n' s).reverse)

end PageFields.FileTree
