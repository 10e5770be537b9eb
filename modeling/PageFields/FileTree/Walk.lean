import PageFields.FileTree

/-! # File trees: walking and system calls

What a program can do with a file tree is to walk along a path and then to look at, make, write,
rename or remove what is there. Every path leads from the top of the tree. `walk` goes from
directory to directory and fails at the first step that cannot be made; a path is made ready for it
by `Route.ofText`. Each call below either fails and has changed nothing, or gives the changed tree.
-/

namespace PageFields

/-- A path made ready for walking. -/
structure Route where
  steps : List Path.Component
  /-- The path ends with a slash, so that it has to lead to a directory. -/
  slash : Bool := false
  deriving DecidableEq, Repr

/-- The length of the longest path in bytes. -/
def Route.lengthLimit : Nat := 4095

/-- Makes a path ready for walking. A text with a NUL character is no path, and neither is one that
is too long. -/
def Route.ofText (p : Text) : Except IoFault Route :=
  if p.contains '\x00' then .error .invalidInput
  else if lengthLimit < (Text.utf8 p).size then .error .invalidFilename
  else .ok { steps := Path.steps p, slash := p.getLast? = some '/' }

/-- The route to the directory above, read off the names of the path: dots do not count. -/
def Route.parent (r : Route) : Route :=
  let rising := (r.steps.reverse.dropWhile (· = .here)).tail
  { steps := (rising.dropWhile (· = .here)).reverse }

namespace FileTree

/-- The length of the longest name in bytes. -/
def nameLimit : Nat := 255

/-- A name is too long for a file. -/
def isTooLong (name : Text) : Bool := nameLimit < (Text.utf8 name).size

/-- The number of bytes that a directory takes. -/
def directorySize : Nat := 4096

/-- The directory at a place. -/
def directoryAt (t : FileTree) (place : List Text) : Except IoFault Entries :=
  match t.get? place with
  | some (.directory es) => .ok es
  | some (.file _) => .error .notADirectory
  | none => .error .notFound

/-- Walks from a place along the steps and gives the place where they lead. Above the top there is
nothing but the top itself. -/
def walk (t : FileTree) : List Text → List Path.Component → Except IoFault (List Text)
  | place, [] => .ok place
  | place, step :: steps => do
    let es ← t.directoryAt place
    match step with
    | .here => walk t place steps
    | .root => walk t [] steps
    | .up => walk t place.dropLast steps
    | .name n =>
      if isTooLong n then .error .invalidFilename
      else if (es.lookup n).isSome then walk t (place ++ [n]) steps
      else .error .notFound

/-- What a route leads to. -/
def stat (t : FileTree) (r : Route) : Except IoFault FileTree := do
  if r.steps = [] then .error .notFound
  let place ← t.walk [] r.steps
  match t.get? place with
  | none => .error .notFound
  | some (.file content) => if r.slash then .error .notADirectory else .ok (.file content)
  | some (.directory es) => .ok (.directory es)

/-- The directory that the last step of a route starts from, and that step. -/
def target (t : FileTree) (r : Route) : Except IoFault (List Text × Entries × Path.Component) :=
  match r.steps.getLast? with
  | none => .error .notFound
  | some last => do
    let dir ← t.walk [] r.steps.dropLast
    let es ← t.directoryAt dir
    .ok (dir, es, last)

/-- Reads a file. -/
def readFile (t : FileTree) (r : Route) : Except IoFault ByteArray := do
  match ← t.stat r with
  | .file content => .ok content
  | .directory _ => .error .isADirectory

/-- The names in a directory, in order. -/
def readDirectory (t : FileTree) (r : Route) : Except IoFault (List Text) := do
  match ← t.stat r with
  | .file _ => .error .notADirectory
  | .directory es => .ok ((es.map Prod.fst).mergeSort Text.le)

/-- Makes an empty file where nothing is. -/
def createFile (t : FileTree) (r : Route) : Except IoFault FileTree := do
  let (dir, es, last) ← t.target r
  match last with
  | .name n =>
    if r.slash then .error .isADirectory
    else if isTooLong n then .error .invalidFilename
    else if (es.lookup n).isSome then .error .alreadyExists
    else .ok (t.put dir n (.file ByteArray.empty))
  | _ => .error .alreadyExists

/-- Makes an empty directory where nothing is. -/
def createDirectory (t : FileTree) (r : Route) : Except IoFault FileTree := do
  let (dir, es, last) ← t.target r
  match last with
  | .name n =>
    if isTooLong n then .error .invalidFilename
    else if (es.lookup n).isSome then .error .alreadyExists
    else .ok (t.put dir n empty)
  | _ => .error .alreadyExists

/-- Makes a directory with all directories that lead to it. What was made before a failure stays, so
the tree is given beside the outcome; a directory that is already there is no failure. The fuel is
the number of steps. -/
def createDirectories (t : FileTree) (r : Route) : Nat → Except IoFault Unit × FileTree
  | 0 => (.ok (), t)
  | fuel + 1 =>
    let there (t : FileTree) : Bool := (t.stat r).toOption.any isDirectory
    if r.steps = [] then (.ok (), t)
    else match t.createDirectory r with
      | .ok t => (.ok (), t)
      | .error .notFound =>
        match createDirectories t r.parent fuel with
        | (.error fault, t) => (.error fault, t)
        | (.ok (), t) =>
          match t.createDirectory r with
          | .ok t => (.ok (), t)
          | .error fault => (if there t then .ok () else .error fault, t)
      | .error fault => (if there t then .ok () else .error fault, t)

/-- Writes a file, in place of the content it may have. -/
def writeFile (t : FileTree) (r : Route) (content : ByteArray) : Except IoFault FileTree := do
  let (dir, es, last) ← t.target r
  match last with
  | .name n =>
    if r.slash then .error .isADirectory
    else if isTooLong n then .error .invalidFilename
    else match es.lookup n with
      | some (.directory _) => .error .isADirectory
      | _ => .ok (t.put dir n (.file content))
  | _ => .error .isADirectory

/-- Gives the file at the first route the place of the second one, where another file may be. -/
def renameFile (t : FileTree) (source r : Route) : Except IoFault FileTree := do
  let (sourceDir, sourceEntries, sourceLast) ← t.target source
  let (dir, es, last) ← t.target r
  match sourceLast, last with
  | .name m, .name n =>
    match sourceEntries.lookup m with
    | some (.file content) =>
      if isTooLong n then .error .invalidFilename
      else if r.slash then .error .notADirectory
      else match es.lookup n with
        | some (.directory _) => .error .isADirectory
        | _ => .ok ((t.remove sourceDir m).put dir n (.file content))
    | _ => .error .notFound
  | _, _ => .error .resourceBusy

/-- Removes the file at a route; where none can be found, nothing changes. -/
def removeFile (t : FileTree) (r : Route) : FileTree :=
  match t.target r with
  | .ok (dir, es, .name n) =>
    if r.slash || isTooLong n then t
    else match es.lookup n with
      | some (.file _) => t.remove dir n
      | _ => t
  | _ => t

end FileTree

end PageFields
