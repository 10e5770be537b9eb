import PageFields.Toml.Scalar
import PageFields.Toml.String

/-! # TOML: documents

A document is read into statements, each a key with its value or a header, and the statements are
then carried out one after another (`Document.build`). A text that breaks any rule of the format is
no document; `Document.parse?` does not say which rule. -/

namespace PageFields.Toml

/-! ### Space -/

/-- Drops spaces and tabs. -/
def skipSpace (t : Text) : Text := t.dropWhile fun c => c = ' ' || c = '\t'

/-- Drops space, line breaks and comments; the flag says that the text starts inside a comment. -/
def skipLines? (inComment : Bool) : Text → Option Text
  | [] => some []
  | '\r' :: '\n' :: rest => skipLines? false rest
  | c :: rest =>
    if c = '\n' then skipLines? false rest
    else if inComment then if isPlain c then skipLines? true rest else none
    else if c = ' ' ∨ c = '\t' then skipLines? false rest
    else if c = '#' then skipLines? true rest
    else some (c :: rest)

/-- Drops the rest of a line, which may hold a comment only. -/
def endLine? (inComment : Bool) : Text → Option Text
  | [] => some []
  | '\r' :: '\n' :: rest => some rest
  | c :: rest =>
    if c = '\n' then some rest
    else if inComment then if isPlain c then endLine? true rest else none
    else if c = ' ' ∨ c = '\t' then endLine? false rest
    else if c = '#' then endLine? true rest
    else none

/-! ### Keys -/

/-- A character of a key without quotes. -/
def isBare (c : Char) : Bool := c.isAlphanum || c = '_' || c = '-'

/-- Reads one part of a key. -/
def readPart? (t : Text) : Option (Text × Text) :=
  match t.takeWhile isBare with
  | [] => if t.take 3 = ['"', '"', '"'] ∨ t.take 3 = ['\x27', '\x27', '\x27'] then none
    else readLineString? t
  | part => some (part, t.dropWhile isBare)

/-- Reads a key of at most `fuel` parts: the parts before the last one, the last one, and what
follows. -/
def readParts? : Nat → Text → Option (List Text × Text × Text)
  | 0, _ => none
  | fuel + 1, t => do
    let (part, rest) ← readPart? (skipSpace t)
    match skipSpace rest with
    | '.' :: rest =>
      let (path, key, rest) ← readParts? fuel rest
      pure (part :: path, key, rest)
    | rest => pure ([], part, rest)

/-- Reads a key: the parts before the last one, the last one, and what follows. -/
def readKey? (t : Text) : Option (List Text × Text × Text) := readParts? depthLimit t

/-! ### Values -/

/-- A character of an unquoted scalar. -/
def isAtom (c : Char) : Bool := isBare c || c = '+' || c = '.' || c = ':'

/-- Reads an unquoted scalar. A date may be followed by a space and a time. -/
def readAtom? (t : Text) : Option (Value × Text) := do
  let atom := t.takeWhile isAtom
  let rest := t.dropWhile isAtom
  match rest with
  | ' ' :: c :: more =>
    if isDate atom ∧ isDigit c then do
      let v ← readScalar? (atom ++ ' ' :: (c :: more).takeWhile isAtom)
      pure (v, (c :: more).dropWhile isAtom)
    else do
      let v ← readScalar? atom
      pure (v, rest)
  | _ => do
    let v ← readScalar? atom
    pure (v, rest)

mutual

/-- Reads a value with at most `fuel` steps, inside `depth` brackets. -/
def readValue? : Nat → Nat → Text → Option (Value × Text)
  | 0, _, _ => none
  | fuel + 1, depth, t =>
    match t with
    | '[' :: rest =>
      if depth < depthLimit then (readItems? fuel (depth + 1) rest).map fun (items, rest) =>
        (.array items, rest)
      else none
    | '{' :: rest =>
      if depth < depthLimit then (readEntries? fuel (depth + 1) [] rest).map fun (entries, rest) =>
        (.table .inline entries, rest)
      else none
    | '"' :: _ => (readString? t).map fun (s, rest) => (.string s, rest)
    | '\x27' :: _ => (readString? t).map fun (s, rest) => (.string s, rest)
    | t => readAtom? t

/-- Reads the items of an array up to its closing bracket. -/
def readItems? : Nat → Nat → Text → Option (List Value × Text)
  | 0, _, _ => none
  | fuel + 1, depth, t =>
    match skipLines? false t with
    | none => none
    | some (']' :: rest) => some ([], rest)
    | some t => do
      let (v, rest) ← readValue? fuel depth t
      match ← skipLines? false rest with
      | ',' :: rest => do
        let (items, rest) ← readItems? fuel depth rest
        pure (v :: items, rest)
      | ']' :: rest => pure ([v], rest)
      | _ => none

/-- Reads the entries of an inline table up to its closing brace, adding them to `done`. -/
def readEntries? : Nat → Nat → Table → Text → Option (Table × Text)
  | 0, _, _, _ => none
  | fuel + 1, depth, done, t =>
    match skipLines? false t with
    | none => none
    | some ('}' :: rest) => some (done, rest)
    | some t => do
      let (path, key, rest) ← readKey? t
      match rest with
      | '=' :: rest => do
        let (v, rest) ← readValue? fuel depth (skipSpace rest)
        let done ← Table.add path key v .inline done
        match ← skipLines? false rest with
        | ',' :: rest => readEntries? fuel depth done rest
        | '}' :: rest => pure (done, rest)
        | _ => none
      | _ => none

end

/-! ### Statements -/

/-- A line of a document that says something. -/
inductive Statement
  /-- A key with its value. -/
  | entry (path : List Text) (key : Text) (v : Value)
  /-- The header of a table. -/
  | header (path : List Text) (key : Text)
  /-- The header of one of several tables. -/
  | item (path : List Text) (key : Text)

/-- Reads a statement at the first character of its line. -/
def readStatement? (t : Text) : Option (Statement × Text) :=
  match t with
  | '[' :: '[' :: rest => do
    let (path, key, rest) ← readKey? rest
    match rest with
    | ']' :: ']' :: rest => pure (.item path key, rest)
    | _ => none
  | '[' :: rest => do
    let (path, key, rest) ← readKey? rest
    match rest with
    | ']' :: rest => pure (.header path key, rest)
    | _ => none
  | t => do
    let (path, key, rest) ← readKey? t
    match rest with
    | '=' :: rest =>
      let (v, rest) ← readValue? (2 * rest.length + 2) 0 (skipSpace rest)
      pure (.entry path key v, rest)
    | _ => none

/-- Reads the statements of a document with at most `fuel` of them. -/
def readStatements? : Nat → Text → Option (List Statement)
  | 0, _ => none
  | fuel + 1, t =>
    match skipLines? false t with
    | none => none
    | some [] => some []
    | some t => do
      let (s, rest) ← readStatement? t
      let rest ← endLine? false rest
      let more ← readStatements? fuel rest
      pure (s :: more)

/-! ### Carrying out -/

/-- What a document amounts to so far: the whole table without the one that is being filled, that
table, and where it belongs. -/
structure State where
  root : Table := []
  header : Option Statement := none
  current : Table := []

/-- Puts the table that is being filled in its place. -/
def State.close (s : State) : Option Table :=
  match s.header with
  | some (.header path key) =>
    Table.update .implied (fun _ t => some (t.set key (.table .header s.current)))
      path .header s.root
  | some (.item path key) =>
    Table.update .implied (fun _ t =>
      match t.get? key with
      | none => some (t.set key (.tables [s.current]))
      | some (.tables items) => some (t.set key (.tables (items ++ [s.current])))
      | some _ => none) path .header s.root
  | _ => some s.current

/-- The table that a header goes on with: none yet, or one that a longer header implied. -/
def reopen (path : List Text) (key : Text) (root : Table) : Option Table :=
  match path with
  | [] =>
    match root.get? key with
    | none => some []
    | some (.table .implied t) => some t
    | some _ => none
  | k :: path =>
    match root.get? k with
    | none => some []
    | some (.table .inline _) => none
    | some (.table _ t) => reopen path key t
    | some (.tables items) => (items.getLast?).bind (reopen path key)
    | some _ => none

/-- Carries out a statement. -/
def State.step (s : State) : Statement → Option State
  | .entry path key v =>
    (Table.add path key v .header s.current).map fun t => { s with current := t }
  | .header path key => do
    let root ← s.close
    let current ← reopen path key root
    pure { root, header := some (.header path key), current }
  | .item path key => do
    let root ← s.close
    pure { root, header := some (.item path key), current := [] }

/-- The table of a document with these statements. -/
def Document.build (statements : List Statement) : Option Table := do
  let s ← statements.foldlM State.step {}
  s.close

/-- The table of a document. A byte order mark may lead. -/
def Document.parse? (t : Text) : Option Table :=
  let t := match t with
    | '\uFEFF' :: rest => rest
    | t => t
  (readStatements? (t.length + 1) t).bind Document.build

end PageFields.Toml
