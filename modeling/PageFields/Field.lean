import PageFields.Outline
import PageFields.Text.Normal

/-! # Fields

The fields of a template are what its regions hold, in normal form (`extractFields`). For an editor
they carry more: the content they inherit and whether the template defines them itself (`Field`).
`Fields` keeps them in order with one field for each name: a later field takes the place of an
earlier one of the same name. -/

namespace PageFields

/-- The name of the field that holds a whole text without regions. -/
def contentField : Text := "content".toList

/-- The fields of a text with the given outline, as names and contents. A text with neither regions
nor a parent is one field. -/
def fieldsOf (o : Outline) (s : Text) : List (Text × Text) :=
  if o.regions = [] ∧ o.parent = none then [(contentField, Text.normalize s)]
  else o.regions.map fun r => (r.name, Text.normalize r.content)

/-- The top-level fields of a template, with the warnings of the scan. -/
def extractFieldsLogged (s : Text) : Logged (List (Text × Text)) := do
  let o ← scanAt 0 s
  pure (fieldsOf o s)

/-- The top-level fields of a template. -/
def extractFields (s : Text) : Except Error (List (Text × Text)) := (extractFieldsLogged s).outcome

/-- The top-level fields of a template are those of its outline. -/
theorem extractFields_eq (s : Text) : extractFields s = (scan s).map fun o => fieldsOf o s := by
  unfold extractFields extractFieldsLogged scan
  rw [Logged.outcome_bind]
  cases (scanAt 0 s).outcome <;> rfl

/-- A field as an editor shows it. -/
structure Field where
  name : Text
  /-- The content of the region of this name in the parent. -/
  placeholder : Text := []
  /-- The content in the template itself. -/
  value : Text := []
  /-- The template defines the field itself. -/
  active : Bool
  deriving DecidableEq, Repr

/-- Fields in order. -/
structure Fields where
  toList : List Field := []
  deriving DecidableEq, Repr

namespace Fields

/-- The first field of this name. -/
def get? (fs : Fields) (name : Text) : Option Field := fs.toList.find? (·.name = name)

/-- The names in order. -/
def names (fs : Fields) : List Text := fs.toList.map Field.name

/-- Puts `f` in the place of the first field of its name, or at the end. -/
def upsertList (f : Field) : List Field → List Field
  | [] => [f]
  | g :: rest => if g.name = f.name then f :: rest else g :: upsertList f rest

/-- Replaces the field of the same name in its place, or appends the field. -/
def upsert (fs : Fields) (f : Field) : Fields := ⟨upsertList f fs.toList⟩

/-- Collects fields by adding one after another. -/
def ofList (l : List Field) : Fields := l.foldl upsert {}

end Fields

end PageFields
