import PageFields.Directive
import PageFields.Text.Blank
import PageFields.Warning

/-! # Outlines: the block structure of a template

The outline of a template is its parent, its top-level regions and whether anything else of weight
stands outside of them. `Scan.step` reads one segment and `scan` folds it over all of them: outside
a region it collects, inside it copies the source until the `endblock` that belongs to the region.
Blocks inside a region stay part of its content; `Region.nested` reads them in a second pass. -/

namespace PageFields

/-- A named block of a template. -/
structure Region where
  name : Text
  /-- The text between the opening and the closing directive. -/
  content : Text
  /-- How many passes over contents lie above the one that found the region. -/
  depth : Nat
  /-- The line on which the opening directive starts. -/
  line : Nat
  deriving DecidableEq, Repr

/-- The block structure of a template. -/
structure Outline where
  /-- The name in the first `extends` directive outside regions. -/
  parent : Option Text := none
  /-- The top-level regions in their order. -/
  regions : List Region := []
  /-- Text that is not blank, or a directive that is neither a block nor a parent, stands outside
  the regions. -/
  hasOutside : Bool := false
  deriving DecidableEq, Repr

namespace Scan

/-- A region whose closing directive is still to come. -/
structure OpenRegion where
  name : Text
  line : Nat
  /-- How many blocks inside the region are open. -/
  inner : Nat
  content : Text
  deriving DecidableEq, Repr

/-- What a scan knows so far. -/
structure State where
  outline : Outline := {}
  current : Option OpenRegion := none
  deriving DecidableEq, Repr

/-- Fails unless the directive has its closing delimiter. -/
def requireClosed (d : Directive) : Except Error Unit :=
  if d.isClosed then .ok () else .error (.unclosedDirective d.line)

/-- The name of the region that a `block` directive opens. -/
def blockName (d : Directive) : Except Error Text := do
  requireClosed d
  match d.argument? with
  | some t => if t.kind = .name then .ok t.value else .error (.missingBlockName d.line)
  | none => .error (.missingBlockName d.line)

/-- Checks the directive that closes the region `name`: a name in it has to be the same. -/
def checkEnd (name : Text) (d : Directive) : Except Error Unit :=
  match d.argument? with
  | some t =>
    if t.kind = .name ∧ t.value ≠ name then .error (.mismatchedEnd name t.value d.line)
    else requireClosed d
  | none => requireClosed d

/-- Takes note of an `extends` directive: the first name that can be read is the parent. -/
def addParent (o : Outline) (d : Directive) : Outline :=
  match d.argument?.bind Token.stringValue? with
  | some name => { o with parent := o.parent.or (some name) }
  | none => { o with hasOutside := true }

/-- Adds a region whose name must be new. -/
def addRegion (o : Outline) (r : Region) : Except Error Outline :=
  if o.regions.any (·.name = r.name) then .error (.duplicateBlock r.name r.line)
  else .ok { o with regions := o.regions ++ [r] }

/-- Reads a segment outside regions. -/
def stepOutside (o : Outline) : Segment → Logged State
  | .literal t =>
    if t.kind = .text ∧ Text.trimBlank t.value ≠ [] then pure ⟨{ o with hasOutside := true }, none⟩
    else pure ⟨o, none⟩
  | .directive d =>
    match d.keyword? with
    | none => do
      requireClosed d
      pure ⟨o, none⟩
    | some keyword =>
      if keyword.isName Keyword.block then do
        let name ← blockName d
        pure ⟨o, some ⟨name, d.line, 0, []⟩⟩
      else if keyword.isName Keyword.parent then do
        requireClosed d
        pure ⟨addParent o d, none⟩
      else if keyword.isName Keyword.blockEnd then do
        Logged.warn (.strayEnd d.line)
        requireClosed d
        pure ⟨o, none⟩
      else do
        requireClosed d
        pure ⟨{ o with hasOutside := true }, none⟩

/-- Reads a segment inside the region `r`, at the given depth of passes. -/
def stepInside (depth : Nat) (o : Outline) (r : OpenRegion) (s : Segment) : Except Error State :=
  let more (inner : Nat) : State := ⟨o, some { r with inner, content := r.content ++ s.source }⟩
  match s with
  | .literal _ => .ok (more r.inner)
  | .directive d =>
    if d.hasKeyword Keyword.blockEnd then
      match r.inner with
      | 0 => do
        checkEnd r.name d
        let o ← addRegion o ⟨r.name, r.content, depth, r.line⟩
        .ok ⟨o, none⟩
      | n + 1 => .ok (more n)
    else if d.hasKeyword Keyword.block then .ok (more (r.inner + 1))
    else .ok (more r.inner)

/-- Reads a segment. -/
def step (depth : Nat) (state : State) (s : Segment) : Logged State :=
  match state.current with
  | none => stepOutside state.outline s
  | some r => Logged.lift (stepInside depth state.outline r s)

/-- The outline at the end of the text, where no region may be open. -/
def finish (state : State) : Except Error Outline :=
  match state.current with
  | none => .ok state.outline
  | some r => .error (.unclosedBlock r.name r.line)

/-- The outline of the given segments, with the warnings. -/
def run (depth : Nat) (segments : List Segment) : Logged Outline := do
  let state ← segments.foldlM (step depth) {}
  finish state

end Scan

/-- The outline of a text, with the warnings, in a pass at the given depth. -/
def scanAt (depth : Nat) (s : Text) : Logged Outline := Scan.run depth (Segment.ofText s)

/-- The outline of a template. -/
def scan (s : Text) : Except Error Outline := (scanAt 0 s).outcome

/-- The regions directly inside a region. -/
def Region.nested (r : Region) : Except Error (List Region) :=
  (scanAt (r.depth + 1) r.content).outcome.map Outline.regions

/-- The text has a `block` directive. -/
def containsBlock (s : Text) : Bool :=
  (Segment.ofText s).any fun
    | .literal _ => false
    | .directive d => d.hasKeyword Keyword.block

end PageFields
