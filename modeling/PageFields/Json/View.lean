import PageFields.Json
import PageFields.Workspace

/-! # JSON: views of items

The form in which views leave the program for other programs. The key `kind` says which view it is;
an entry of a folder has the key `children` only if it has some, and `child_count` only if it is
collapsed. -/

namespace PageFields.Json

/-- An object with keys in this order. -/
def record (members : List (String × Value)) : Value :=
  .object (members.map fun (key, v) => (key.toList, v))

/-- A field. -/
def ofField (f : Field) : Value :=
  record [("name", .string f.name), ("placeholder", .string f.placeholder),
    ("value", .string f.value), ("active", .boolean f.active)]

/-- A kind of items. -/
def ofKind (kind : ItemKind) : Value := .string kind.tag.toList

mutual

/-- An entry of a folder. -/
def ofEntry : TreeEntry → Value
  | .mk name path kind children count =>
    let below := ofEntries children
    record ([("name", .string name), ("path", .string path), ("kind", ofKind kind)] ++
      (if below.isEmpty then [] else [("children", .array below)]) ++
      (count.map fun n => ("child_count", Value.count n)).toList)

/-- The entries of a folder. -/
def ofEntries : List TreeEntry → List Value
  | [] => []
  | e :: rest => ofEntry e :: ofEntries rest

end

/-- The view of an item. -/
def ofView : ItemView → Value
  | .plainFile path content fingerprint =>
    record [("kind", ofKind .plainFile), ("path", .string path), ("content", .string content),
      ("fingerprint", .string fingerprint.digits)]
  | .templateFile path descriptor templates fingerprint =>
    record [("kind", ofKind .templateFile), ("path", .string path),
      ("parent", .ofText? descriptor.parent), ("mode", .string descriptor.mode.name.toList),
      ("fields", .array (descriptor.fields.toList.map ofField)), ("templates", .ofTexts templates),
      ("fingerprint", .string fingerprint.digits)]
  | .folder path collapsed children =>
    record [("kind", ofKind .folder), ("path", .string path), ("collapsed", .boolean collapsed),
      ("children", .array (ofEntries children))]

/-- The parent templates of a project. -/
def ofTemplates (project : Text) (templates : List Text) : Value :=
  record [("project", .string project), ("templates", .ofTexts templates)]

end PageFields.Json
