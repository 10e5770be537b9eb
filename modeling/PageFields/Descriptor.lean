import PageFields.Field

/-! # Descriptors: what an editor shows of a template

A template that names a parent shows the fields of the parent as placeholders, in the order of the
parent, overlaid by its own regions. A template without a parent shows its regions only if nothing
stands outside of them; otherwise it is one field, because saving its regions alone would lose the
rest (`standalone`). The parent is only read. -/

namespace PageFields

/-- How the fields of a template are written back. -/
inductive EditMode
  /-- The whole file is one field. -/
  | raw
  /-- Each region is a field. -/
  | structured
  deriving DecidableEq, Repr

/-- The name of a mode. -/
def EditMode.name : EditMode → String
  | .raw => "raw"
  | .structured => "structured"

/-- What an editor needs to show one template. -/
structure Descriptor where
  parent : Option Text
  mode : EditMode
  fields : Fields
  deriving DecidableEq, Repr

/-- Gives the text of a template by its name in an `extends` directive. -/
abbrev Loader := Text → Except Error Text

namespace Descriptor

/-- The fields of a template without a parent. -/
def standalone (o : Outline) (s : Text) : Descriptor :=
  if o.regions = [] ∨ o.hasOutside then
    { parent := none, mode := .raw
      fields := ⟨[{ name := contentField, value := Text.normalize s, active := true }]⟩ }
  else
    { parent := none, mode := .structured
      fields := Fields.ofList ((fieldsOf o s).map fun (name, value) =>
        { name, value, active := true }) }

/-- The inherited fields: names with the contents in the parent. -/
def inherited (parentFields : List (Text × Text)) : Fields :=
  Fields.ofList (parentFields.map fun (name, placeholder) =>
    { name, placeholder, active := false })

/-- Lays a field that the template defines itself over the fields so far. -/
def overlay (fs : Fields) (own : Text × Text) : Fields :=
  fs.upsert
    { name := own.1, value := own.2, active := true
      placeholder := ((fs.get? own.1).map Field.placeholder).getD [] }

/-- The fields of a template, seeded from its parent if it names one, with the warnings. -/
def resolveLogged (load : Loader) (s : Text) : Logged Descriptor := do
  let o ← scanAt 0 s
  match o.parent with
  | none => pure (standalone o s)
  | some parent =>
    if o.hasOutside then Logged.warn (.droppedContent parent)
    let parentText ← load parent
    let parentFields ← extractFieldsLogged parentText
    let fields := (fieldsOf o s).foldl overlay (inherited parentFields)
    pure { parent := some parent, mode := .structured, fields }

/-- The fields of a template, seeded from its parent if it names one. -/
def resolve (load : Loader) (s : Text) : Except Error Descriptor := (resolveLogged load s).outcome

end Descriptor

end PageFields
