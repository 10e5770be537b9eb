import PageFields.Error
import PageFields.Path

/-! # File trees

A file tree is a file or a directory of named trees. A *place* is the list of names that leads to a
part of the tree: `get?` looks a place up, `put` and `remove` change what is there and nothing else.
`entry?` is the view of a tree that says for every place what is there without what is below it. -/

namespace PageFields

/-- A file, or a directory with its entries. -/
inductive FileTree
  | file (content : ByteArray)
  | directory (entries : List (Text × FileTree))

/-- What is at a place of a file tree. -/
inductive Entry
  | file (content : ByteArray)
  | directory

namespace FileTree

/-- The entries of a directory. -/
abbrev Entries := List (Text × FileTree)

/-- The tree without any entry. -/
def empty : FileTree := .directory []

/-- The entries of a tree; a file has none. -/
def entries : FileTree → Entries
  | .file _ => []
  | .directory es => es

/-- The tree is a directory. -/
def isDirectory : FileTree → Bool
  | .file _ => false
  | .directory _ => true

/-- The tree at a place. -/
def get? : FileTree → List Text → Option FileTree
  | t, [] => some t
  | t, name :: place => (t.entries.lookup name).bind (get? · place)

/-- What is at the top of a tree. -/
def top : FileTree → Entry
  | .file content => .file content
  | .directory _ => .directory

/-- What is at a place. -/
def entry? (t : FileTree) (place : List Text) : Option Entry := (t.get? place).map top

/-! ### Changing the entries of one directory -/

/-- Gives a name a tree, in place of the one it has, or as a further entry. -/
def putEntry (name : Text) (new : FileTree) : Entries → Entries
  | [] => [(name, new)]
  | (n, old) :: rest => if n = name then (n, new) :: rest else (n, old) :: putEntry name new rest

/-- Drops the entry of a name. -/
def removeEntry (name : Text) (es : Entries) : Entries := es.filter (·.1 ≠ name)

/-- Changes the entries of the directory at a place; without such a directory nothing changes. -/
def change (f : Entries → Entries) : List Text → FileTree → FileTree
  | _, .file content => .file content
  | [], .directory es => .directory (f es)
  | name :: place, .directory es =>
    .directory (match es.lookup name with
      | none => es
      | some t => putEntry name (change f place t) es)

/-- Puts a tree under a name into the directory at a place. -/
def put (t : FileTree) (dir : List Text) (name : Text) (new : FileTree) : FileTree :=
  change (putEntry name new) dir t

/-- Removes what is under a name in the directory at a place. -/
def remove (t : FileTree) (dir : List Text) (name : Text) : FileTree :=
  change (removeEntry name) dir t

/-- Puts a tree at a place, making the directories that lead to it. -/
def plant : FileTree → List Text → FileTree → FileTree
  | _, [], new => new
  | t, name :: place, new =>
    .directory (putEntry name (plant ((t.entries.lookup name).getD empty) place new) t.entries)

mutual

/-- All places below a tree with what is there, a directory before its entries. -/
def places : FileTree → List (List Text × Entry)
  | .file _ => []
  | .directory es => placesIn es

/-- All places in the entries of a directory. -/
def placesIn : Entries → List (List Text × Entry)
  | [] => []
  | (name, t) :: rest =>
    ([name], t.top) :: (places t).map (fun (place, e) => (name :: place, e)) ++ placesIn rest

end

end FileTree

end PageFields
