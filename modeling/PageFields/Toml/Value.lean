import PageFields.Text.Basic

/-! # TOML: values and tables

A document is a table of values. How a table came about decides what may still be added to it
(`Form`): a table with a header of its own is complete, one that only a longer header implies may
get its header later or be opened by dotted keys, one that dotted keys opened may get further dotted
keys, and an inline table is complete where it stands (`Form.enter`). `Table.update` changes the
table at the end of a path under these rules. -/

namespace PageFields.Toml

/-- How a table came about. -/
inductive Form
  /-- By a header of its own. -/
  | header
  /-- By a longer header. -/
  | implied
  /-- By dotted keys. -/
  | dotted
  /-- In braces. -/
  | inline
  deriving DecidableEq

/-- How a table counts as having come about once a path has gone through it that makes its tables
as `path`. No path goes through an inline table and no dotted key through a table with a header;
dotted keys make an implied table their own. -/
def Form.enter (path own : Form) : Option Form :=
  match path, own with
  | _, .inline => none
  | .dotted, .header => none
  | .dotted, .implied => some .dotted
  | _, own => some own

/-- A value of a document. -/
inductive Value
  | string (t : Text)
  | integer (n : Int)
  /-- A float; its size may be beyond every finite one. -/
  | float (tooLarge : Bool)
  | boolean (b : Bool)
  | datetime
  /-- An array in brackets. -/
  | array (items : List Value)
  | table (form : Form) (entries : List (Text × Value))
  /-- The tables with the same double header. -/
  | tables (items : List (List (Text × Value)))

/-- The entries of a table. -/
abbrev Table := List (Text × Value)

namespace Table

/-- The value of a key. -/
def get? (t : Table) (key : Text) : Option Value := List.lookup key t

/-- Gives a key a value, in place of the one it may have. -/
def set (key : Text) (v : Value) : Table → Table
  | [] => [(key, v)]
  | (k, w) :: rest => if k = key then (k, v) :: rest else (k, w) :: set key v rest

/-- Changes the table at the end of a path by `f`, which also learns how that table came about.
Tables that are missing on the way come about as `form`. Of several tables with the same double
header, a path goes through the last. -/
def update (form : Form) (f : Form → Table → Option Table) : List Text → Form → Table → Option Table
  | [], own, t => f own t
  | key :: path, _, t =>
    match t.get? key with
    | none => (update form f path form []).map fun u => t.set key (.table form u)
    | some (.table own u) => (form.enter own).bind fun own =>
      (update form f path own u).map fun u => t.set key (.table own u)
    | some (.tables items) => items.getLast?.bind fun u =>
      (update form f path .header u).map fun u => t.set key (.tables (items.dropLast ++ [u]))
    | some _ => none

/-- Adds a value for a key that has none. A dotted key adds to a table that dotted keys opened, and
a plain key to one that they did not. -/
def add (path : List Text) (key : Text) (v : Value) (own : Form) (t : Table) : Option Table :=
  update .dotted (fun own t =>
    if (path ≠ []) ≠ (own = .dotted) then none
    else if (t.get? key).isSome then none
    else some (t.set key v)) path own t

end Table

/-- The largest nesting of values and the largest number of parts of a key. -/
def depthLimit : Nat := 80

mutual

/-- The numbers in the value are in the range that a reader can represent. -/
def Value.inRange : Value → Bool
  | .integer n => decide (-2 ^ 127 ≤ n ∧ n < 2 ^ 128)
  | .float tooLarge => !tooLarge
  | .array items => valuesInRange items
  | .table _ entries => entriesInRange entries
  | .tables items => tablesInRange items
  | .string _ | .boolean _ | .datetime => true

/-- All values are in range. -/
def valuesInRange : List Value → Bool
  | [] => true
  | v :: rest => v.inRange && valuesInRange rest

/-- All values of a table are in range. -/
def entriesInRange : List (Text × Value) → Bool
  | [] => true
  | (_, v) :: rest => v.inRange && entriesInRange rest

/-- All values of several tables are in range. -/
def tablesInRange : List (List (Text × Value)) → Bool
  | [] => true
  | t :: rest => entriesInRange t && tablesInRange rest

end

end PageFields.Toml
