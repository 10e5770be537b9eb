import PageFields.Field
import PageFields.Text.Quoted

/-! # Edits: from fields back to a template

An edit submits either the whole text or a list of fields. `Edit.serialize` writes it as a template:
first the parent, then one block for each field with content. Clearing a field removes its block,
and a field submitted twice keeps its first place and takes its last content. A whole text without
any block under a parent becomes the block `content`, so that it takes the place of the inherited
one. Only names that are identifiers are written, since others would not be read back. -/

namespace PageFields

/-- What an edit submits. -/
inductive Payload
  /-- The whole text. -/
  | raw (content : Text)
  /-- Field names with their contents. -/
  | structured (fields : List (Text × Text))
  deriving DecidableEq, Repr

namespace Edit

/-- Gives the field its new content in its place, or appends it. -/
def setContent (name content : Text) : List (Text × Text) → List (Text × Text)
  | [] => [(name, content)]
  | (n, c) :: rest =>
    if n = name then (n, content) :: rest else (n, c) :: setContent name content rest

/-- Merges fields of the same name: first place, last content. -/
def mergeRepeated (fields : List (Text × Text)) : List (Text × Text) :=
  fields.foldl (fun merged (name, content) => setContent name content merged) []

/-- The name is an identifier. -/
def isFieldName : Text → Bool
  | [] => false
  | c :: rest => (c.isAlpha || c = '_') && rest.all fun d => d.isAlphanum || d = '_'

/-- Fails unless the name is an identifier. -/
def checkFieldName (name : Text) : Except Error Unit :=
  if isFieldName name then .ok () else .error (.invalidName name .notAnIdentifier)

/-- The line that names the parent. -/
def parentLine (parent : Text) : Text :=
  "\x7b% extends \"".toList ++ Quoted.escape parent ++ "\" %\x7d\n".toList

/-- A block with its content on lines of its own. -/
def blockText (name content : Text) : Text :=
  "\n\x7b% block ".toList ++ name ++ " %\x7d\n".toList ++ content ++
    "\n\x7b% endblock %\x7d\n".toList

/-- The blocks of the fields that have content. -/
def blocksText : List (Text × Text) → Except Error Text
  | [] => .ok []
  | (name, content) :: rest => do
    let content := Text.normalize content
    if content = [] then blocksText rest
    else
      checkFieldName name
      let after ← blocksText rest
      pure (blockText name content ++ after)

/-- The parent that an edit sets; an empty name is none. -/
def parentName? (parent : Option Text) : Option Text := parent.filter (· ≠ [])

/-- The template that an edit stands for. -/
def serialize (parent : Option Text) (payload : Payload) : Except Error Text := do
  let parent := parentName? parent
  let head := parent.elim [] parentLine
  match payload with
  | .structured fields => do
    let blocks ← blocksText (mergeRepeated fields)
    pure (head ++ blocks)
  | .raw content =>
    let content := Text.normalize content
    if content = [] then pure head
    else if parent.isSome ∧ ¬ containsBlock content then
      pure (head ++ blockText contentField content)
    else pure (head ++ content ++ ['\n'])

end Edit

end PageFields
