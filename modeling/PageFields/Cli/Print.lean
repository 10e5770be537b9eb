import PageFields.Cli.Style
import PageFields.Diff
import PageFields.Workspace

/-! # Command line: printing for people

Views of items, and the changes that an edit would make, as text. -/

namespace PageFields.Cli.Print

/-- A line with its line feed. -/
def line (t : Text) : Text := t ++ ['\n']

/-- A blank line and a heading. -/
def heading (color : Bool) (title : Text) : Text := '\n' :: line (styled color .bold title)

/-- A label, filled up to a common width, and a value. -/
def labelled (label : String) (value : Text) : Text :=
  line (label.toList ++ List.replicate (14 - label.length) ' ' ++ ' ' :: value)

/-- The lines of a text, indented. -/
def indented (indent : Nat) (t : Text) : Text :=
  (Text.lines t).flatMap fun l => line (List.replicate indent ' ' ++ l)

/-- The lines of a text, or a remark that there are none. -/
def content (t : Text) : Text := if t = [] then line "  (empty)".toList else indented 2 t

/-- A field of a template. -/
def field (color : Bool) (f : Field) : Text :=
  let status := if f.active then styled color .green "defined".toList
    else styled color .yellow "inherited".toList
  heading color ('[' :: f.name ++ "] ".toList ++ status) ++
    (if f.active then content f.value else []) ++
    (if f.placeholder = [] then [] else line "  placeholder:".toList ++ indented 4 f.placeholder)

mutual

/-- An entry of a folder, indented to a level, with what is below it. -/
def entry (level : Nat) : TreeEntry → Text
  | .mk name _ kind children count =>
    let start := List.replicate (2 * level) ' ' ++ name
    match count with
    | some n =>
      line (start ++ "/ (".toList ++ Nat.toDigits 10 n ++
        (if n = 1 then " entry)" else " entries)").toList)
    | none =>
      if kind.isFile then line (start ++ " (".toList ++ kind.label.toList ++ [')'])
      else line (start ++ ['/']) ++ entries (level + 1) children

/-- The entries of a folder. -/
def entries (level : Nat) : List TreeEntry → Text
  | [] => []
  | e :: rest => entry level e ++ entries level rest

end

/-- The first line of a view. -/
def title (color : Bool) (path : Text) (label : String) : Text :=
  line (styled color .bold path ++ " (".toList ++ label.toList ++ [')'])

/-- The view of an item. -/
def view (color : Bool) : ItemView → Text
  | .plainFile path text fingerprint =>
    title color path "file" ++ labelled "fingerprint:" fingerprint.digits ++
      heading color "Content".toList ++ content text
  | .templateFile path descriptor templates fingerprint =>
    title color path "template" ++
      labelled "extends:" (descriptor.parent.getD "(none)".toList) ++
      labelled "mode:" descriptor.mode.name.toList ++
      labelled "fingerprint:" fingerprint.digits ++
      descriptor.fields.toList.flatMap (field color) ++
      heading color "Available templates".toList ++
      (if templates = [] then line "  (none)".toList
        else templates.flatMap fun t => line (' ' :: ' ' :: t))
  | .folder path collapsed children =>
    title color (if path = [] then ['.'] else path)
      (if collapsed then "collapsed folder" else "folder") ++
      (if children.isEmpty then line "  (empty)".toList else entries 1 children)

/-- One line of a difference. A line that has no end gets one, and a further one makes up for the
end that it lacks. -/
def change (color : Bool) (c : Diff.Change) : Text :=
  let ended := Text.isEnded c.line
  let text := if ended then c.line else line c.line
  (match c.kind with
    | .keep => "   ".toList ++ text
    | .delete => ' ' :: ' ' :: styled color .red ('-' :: text)
    | .insert => ' ' :: ' ' :: styled color .green ('+' :: text)) ++
    (if ended then [] else ['\n'])

/-- How the text `old` becomes the text `new`. -/
def difference (color : Bool) (old new : Text) : Text :=
  (Diff.ofTexts old new).flatMap (change color)

end PageFields.Cli.Print
