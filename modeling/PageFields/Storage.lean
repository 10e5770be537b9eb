import PageFields.FileTree.Walk

/-! # Storage

A storage is a directory in a file tree. All its paths are relative to that directory and may not
lead out of it. A file is read only up to a size, which is checked first, and only if it is text. It
is written in two steps, so that it never holds half of a content: a temporary file beside it takes
the new content and then its place. If either step fails, the temporary file is removed again.

How a write ends does not depend on the tree only. The *occasion* of a write is the rest of it: the
process and the time, which name the temporary file, and the faults that the system meets. Nothing
is looked up to choose the name, so that a file that has it already is lost. -/

namespace PageFields

/-- A directory that holds files, and the size up to which they are read. -/
structure Storage where
  root : Text
  maxFileSize : Nat
  deriving DecidableEq, Repr

/-- What a path leads to. -/
inductive EntryKind
  | file
  | directory
  deriving DecidableEq, Repr

/-- A failure of the system to write a file, whatever the tree is. -/
inductive WriteFault
  /-- The file is not opened. -/
  | unopened (fault : IoFault)
  /-- The file is opened, but only so many bytes get into it. -/
  | cut (size : Nat) (fault : IoFault)
  deriving DecidableEq, Repr

/-- What is reported of the failure. -/
def WriteFault.fault : WriteFault → IoFault
  | .unopened fault => fault
  | .cut _ fault => fault

/-- What a write depends on besides the file tree. The default is an occasion on which the system
meets no fault. -/
structure Occasion where
  /-- The number of the process. -/
  process : Nat := 10000
  /-- The nanoseconds since the start of 1970, or zero if the clock is before that. -/
  nanos : Nat := 1000000000000000000
  writeFault : Option WriteFault := none
  renameFault : Option IoFault := none
  removeFails : Bool := false
  deriving DecidableEq, Repr

namespace Storage

/-- The error for a fault at a path. -/
def errorAt (path : Text) : IoFault → Error
  | .notFound => .notFound (Path.display path)
  | .alreadyExists => .alreadyExists (Path.display path)
  | fault => .io fault

/-- Turns faults at a path into errors. -/
def attempt {α : Type} (path : Text) (x : Except IoFault α) : Except Error α :=
  x.mapError (errorAt path)

/-- The path as seen from the top of the file tree, unless it could leave the storage. -/
def resolve (s : Storage) (path : Text) : Except Error Text :=
  if (Path.components path).any fun c => c = .root || c = .up then
    .error (.pathEscape (Path.display path))
  else .ok (Path.join s.root path)

/-- The route to a path. -/
def route (s : Storage) (path : Text) : Except Error Route := do
  let full ← s.resolve path
  attempt path (Route.ofText full)

/-- The number of bytes that a file or directory takes. -/
def sizeOf : FileTree → Nat
  | .file content => content.size
  | .directory _ => FileTree.directorySize

/-- The text of a file. -/
def read (s : Storage) (t : FileTree) (path : Text) : Except Error Text := do
  let r ← s.route path
  let found ← attempt path (t.stat r)
  if s.maxFileSize < sizeOf found then
    .error (.fileTooLarge (Path.display path) (sizeOf found) s.maxFileSize)
  else
    let content ← attempt path (t.readFile r)
    match Text.ofUtf8? content with
    | some text => .ok text
    | none => .error (.invalidEncoding (Path.display path))

/-- What is at a path, if anything is. -/
def entryKind (s : Storage) (t : FileTree) (path : Text) : Except Error (Option EntryKind) := do
  let full ← s.resolve path
  match (Route.ofText full).bind t.stat with
  | .ok (.file _) => .ok (some .file)
  | .ok (.directory _) => .ok (some .directory)
  | .error .notFound => .ok none
  | .error fault => .error (.io fault)

/-- The names in a directory, in order. -/
def list (s : Storage) (t : FileTree) (path : Text) : Except Error (List Text) := do
  let r ← s.route path
  attempt path (t.readDirectory r)

/-- Carries out a call that changes the tree; a failure leaves it as it is. -/
def commit (t : FileTree) (x : Except Error FileTree) : Except Error Unit × FileTree :=
  match x with
  | .ok t => (.ok (), t)
  | .error e => (.error e, t)

/-- Makes an empty file where nothing is. -/
def createFile (s : Storage) (t : FileTree) (path : Text) : Except Error Unit × FileTree :=
  commit t do
    let r ← s.route path
    attempt path (t.createFile r)

/-- Makes an empty directory where nothing is. -/
def createDirectory (s : Storage) (t : FileTree) (path : Text) : Except Error Unit × FileTree :=
  commit t do
    let r ← s.route path
    attempt path (t.createDirectory r)

/-! ### Writing -/

/-- The name of a file without its last extension. -/
def stem (name : Text) : Text :=
  match name.reverse.dropWhile (· ≠ '.') with
  | [] => name
  | _ :: [] => name
  | _ :: before => before.reverse

/-- The name of the temporary file beside the file `name`. -/
def temporaryName (o : Occasion) (name : Text) : Text :=
  stem name ++ ".tmp-".toList ++ Nat.toDigits 10 o.process ++ '-' :: Nat.toDigits 10 o.nanos

/-- The path of the temporary file beside the file at a path. -/
def temporaryPath (o : Occasion) (path : Text) : Text := Path.mapName (temporaryName o) path

/-- Writes the temporary file. A failure can leave a part of the content in it. -/
def writeTemporary (o : Occasion) (t : FileTree) (r : Route) (content : ByteArray) :
    Except IoFault Unit × FileTree :=
  match o.writeFault with
  | none =>
    match t.writeFile r content with
    | .ok t => (.ok (), t)
    | .error fault => (.error fault, t)
  | some (.unopened fault) => (.error fault, t)
  | some (.cut size fault) =>
    match t.writeFile r (content.extract 0 size) with
    | .ok t => (.error fault, t)
    | .error earlier => (.error earlier, t)

/-- Gives the temporary file the place of the file at the route `r`. -/
def moveTemporary (o : Occasion) (t : FileTree) (beside r : Route) : Except IoFault FileTree :=
  match o.renameFault with
  | none => t.renameFile beside r
  | some fault => .error fault

/-- Removes the temporary file after a failure. Whether it is gone then is not looked at. -/
def removeTemporary (o : Occasion) (t : FileTree) (beside : Route) : FileTree :=
  if o.removeFails then t else t.removeFile beside

/-- Replaces the content of a file. -/
def write (s : Storage) (t : FileTree) (path content : Text) (o : Occasion := {}) :
    Except Error Unit × FileTree :=
  match s.resolve path with
  | .error e => (.error e, t)
  | .ok full =>
    match Route.ofText (temporaryPath o full) with
    | .error fault => (.error (errorAt path fault), t)
    | .ok beside =>
      match writeTemporary o t beside (Text.utf8 content) with
      | (.error fault, t) => (.error (errorAt path fault), removeTemporary o t beside)
      | (.ok (), t) =>
        match (Route.ofText full).bind (moveTemporary o t beside) with
        | .error fault => (.error (.io fault), removeTemporary o t beside)
        | .ok t => (.ok (), t)

end Storage

end PageFields
