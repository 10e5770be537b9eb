import PageFields.Text.Basic

/-! # Paths

A path is a text whose names are separated by slashes. Read for walking a tree (`steps`), empty
pieces do not count but every dot does; read as a whole (`components`), a dot counts at the start
only. A path that stays below the place it starts from has names only (`names?`), and `ofNames`
writes these names again. -/

namespace PageFields.Path

/-- A part of a path. -/
inductive Component
  | root
  | here
  | up
  | name (n : Text)
  deriving DecidableEq, Repr

/-- The path starts at the root of all files. -/
def isAbsolute (p : Text) : Bool := p.head? = some '/'

/-- The parts of a path in which every dot counts. -/
def steps (p : Text) : List Component :=
  let parts := (Text.splitOn '/' p).filterMap fun piece =>
    if piece = [] then none
    else if piece = ['.'] then some .here
    else if piece = ['.', '.'] then some .up
    else some (.name piece)
  if isAbsolute p then .root :: parts else parts

/-- The parts of a path. -/
def components (p : Text) : List Component :=
  match steps p with
  | .here :: parts => .here :: parts.filter (· ≠ .here)
  | parts => parts.filter (· ≠ .here)

/-- The names of a path that has nothing but names and dots. -/
def names? (p : Text) : Option (List Text) :=
  (components p).foldr (fun part names =>
    match part with
    | .name n => names.map (n :: ·)
    | .here => names
    | .root | .up => none) (some [])

/-- The path with these names. -/
def ofNames (names : List Text) : Text := Text.join ['/'] names

/-- The path `p` as seen from `base`; an absolute one stays as it is. -/
def join (base p : Text) : Text :=
  if isAbsolute p then p
  else if base = [] ∨ base.getLast? = some '/' then base ++ p
  else base ++ '/' :: p

/-- A piece between slashes does not lead anywhere. -/
def isIdle (piece : Text) : Bool := piece = [] || piece = ['.']

/-- The part of a path from its first name on, without what does not count at its end. -/
def trimmed (p : Text) : Text :=
  Text.join ['/']
    (((Text.splitOn '/' p).dropWhile isIdle).reverse.dropWhile isIdle).reverse

/-- The path with its last name changed, without what does not count after it. A path that does not
end in a name stays as it is. -/
def mapName (f : Text → Text) (p : Text) : Text :=
  match (Text.splitOn '/' p).reverse.dropWhile isIdle with
  | [] => p
  | last :: before =>
    if last = ['.', '.'] then p else Text.join ['/'] (before.reverse ++ [f last])

/-- A path as seen from `base`, if it starts with `base` and a slash; any other path stays. -/
def relative (base p : Text) : Text :=
  let start := join base []
  if base ≠ [] ∧ start.isPrefixOf p then trimmed (p.drop start.length) else p

/-- The form of a path in messages and listings. -/
def display (p : Text) : Text := p.map fun c => if c = '\\' then '/' else c

end PageFields.Path
