import PageFields.Token

/-! # Tokens: from text to tokens

The lexer stands outside or inside a directive (`Mode`). Outside, it takes the literal text up to
the next opening delimiter that is not in a comment (`directiveStart`), or the delimiter itself.
Inside, it takes the longest piece that is a closing delimiter, a run of whitespace, a name or a
quoted string, and else one character. Each step leaves a shorter rest (`length_rest_next`), so
`lexemes` ends; `tokenize` adds the lines. Nothing is checked here: a text may well end inside a
directive. -/

namespace PageFields.Lexer

/-- Whether the lexer is outside or inside a directive. -/
inductive Mode
  | text
  | directive
  deriving DecidableEq, Repr

/-- A piece of text with its kind. -/
structure Lexeme where
  kind : TokenKind
  value : Text
  deriving DecidableEq, Repr

/-- What one step of the lexer gives: the piece, the mode after it and the text after it. -/
structure Step where
  kind : TokenKind
  value : Text
  mode : Mode
  rest : Text

/-! ### Outside directives -/

/-- The position of the first `a` that is followed by `b`. -/
def findPair (a b : Char) : Text → Option Nat
  | [] => none
  | [_] => none
  | c :: d :: rest =>
    if c = a ∧ d = b then some 0 else (findPair a b (d :: rest)).map (· + 1)

theorem findPair_lt {a b : Char} {s : Text} {i : Nat} (h : findPair a b s = some i) :
    i + 1 < s.length := by
  fun_induction findPair a b s generalizing i with
  | case1 => simp at h
  | case2 => simp at h
  | case3 => simp_all; omega
  | case4 c d rest _ ih =>
    obtain ⟨j, hj, rfl⟩ := Option.map_eq_some_iff.1 h
    have := ih hj
    simp at this ⊢; omega

theorem eq_of_findPair_zero {a b : Char} {s : Text} (h : findPair a b s = some 0) :
    ∃ rest, s = a :: b :: rest := by
  fun_cases findPair a b s with
  | case1 => simp [findPair] at h
  | case2 => simp [findPair] at h
  | case3 c d rest hcd => exact ⟨rest, by rw [hcd.1, hcd.2]⟩
  | case4 c d rest hcd => rw [findPair, if_neg hcd] at h; simp at h

/-- The length of the literal text before the next opening delimiter. A comment that opens before it
is skipped, and one that is never closed takes the whole rest. -/
def directiveStart (s : Text) : Nat :=
  match _hd : findPair '{' '%' s, findPair '{' '#' s with
  | some d, some c =>
    if c < d then
      match findPair '#' '}' (s.drop (c + 2)) with
      | none => s.length
      | some e => c + 2 + e + 2 + directiveStart (s.drop (c + 2 + e + 2))
    else d
  | some d, none => d
  | none, _ => s.length
termination_by s.length
decreasing_by
  have := findPair_lt _hd
  simp; omega

theorem directiveStart_pos {s : Text} (hne : s ≠ [])
    (hs : ∀ rest, s ≠ '{' :: '%' :: rest) : 0 < directiveStart s := by
  have hpos : 0 < s.length := List.length_pos_iff.2 hne
  have start : ∀ d, findPair '{' '%' s = some d → 0 < d := fun d hd =>
    Nat.pos_of_ne_zero fun h => by
      obtain ⟨rest, hr⟩ := eq_of_findPair_zero (h ▸ hd)
      exact hs rest hr
  rw [directiveStart]
  split
  · split
    · split <;> omega
    · exact start _ ‹_›
  · exact start _ ‹_›
  · exact hpos

/-- One step outside directives. -/
def nextOutside (s : Text) : Step :=
  match s with
  | '{' :: '%' :: '-' :: rest => ⟨.directiveOpen, ['{', '%', '-'], .directive, rest⟩
  | '{' :: '%' :: '+' :: rest => ⟨.directiveOpen, ['{', '%', '+'], .directive, rest⟩
  | '{' :: '%' :: rest => ⟨.directiveOpen, ['{', '%'], .directive, rest⟩
  | s => ⟨.text, s.take (directiveStart s), .text, s.drop (directiveStart s)⟩

/-! ### Inside directives -/

/-- Whitespace inside a directive. -/
def isSpace (c : Char) : Bool := c = ' ' || c = '\t' || c = '\r' || c = '\n'

/-- The first character of a name. -/
def isNameStart (c : Char) : Bool := c.isAlpha || c = '_'

/-- A further character of a name. -/
def isNameRest (c : Char) : Bool := c.isAlphanum || c = '_'

/-- The rest of a quoted string after its opening `quote`, up to the closing one, and the text after
that. A backslash takes the next character along, which must not be a line feed. -/
def quotedRest? (quote : Char) : Text → Option (Text × Text)
  | [] => none
  | c :: rest =>
    if c = quote then some ([c], rest)
    else if c = '\\' then
      match rest with
      | [] => none
      | d :: rest =>
        if d = '\n' then none
        else (quotedRest? quote rest).map fun (value, after) => (c :: d :: value, after)
    else (quotedRest? quote rest).map fun (value, after) => (c :: value, after)

theorem quotedRest?_append {quote : Char} {s value after : Text}
    (h : quotedRest? quote s = some (value, after)) : s = value ++ after := by
  fun_induction quotedRest? quote s generalizing value after with
  | case1 => simp at h
  | case2 => simp at h; obtain ⟨rfl, rfl⟩ := h; rfl
  | case3 => simp at h
  | case4 => simp at h
  | case5 rest d _ _ ih =>
    obtain ⟨⟨v, a⟩, hv, he⟩ := Option.map_eq_some_iff.1 h
    simp at he; obtain ⟨rfl, rfl⟩ := he
    simp [ih hv]
  | case6 c rest _ _ ih =>
    obtain ⟨⟨v, a⟩, hv, he⟩ := Option.map_eq_some_iff.1 h
    simp at he; obtain ⟨rfl, rfl⟩ := he
    simp [ih hv]

/-- One step inside a directive, at the character `c`. -/
def nextInside (c : Char) (cs : Text) : Step :=
  let single : Step := ⟨.other, [c], .directive, cs⟩
  if c = '%' then
    match cs with
    | '}' :: rest => ⟨.directiveClose, ['%', '}'], .text, rest⟩
    | _ => single
  else if c = '-' ∨ c = '+' then
    match cs with
    | '%' :: '}' :: rest => ⟨.directiveClose, [c, '%', '}'], .text, rest⟩
    | _ => single
  else if isSpace c then
    ⟨.whitespace, c :: cs.takeWhile isSpace, .directive, cs.dropWhile isSpace⟩
  else if isNameStart c then
    ⟨.name, c :: cs.takeWhile isNameRest, .directive, cs.dropWhile isNameRest⟩
  else if c = '"' ∨ c = '\x27' then
    match quotedRest? c cs with
    | some (value, rest) => ⟨.string, c :: value, .directive, rest⟩
    | none => single
  else single

/-! ### The whole text -/

/-- One step in the given mode, on the text `c :: cs`. -/
def next (mode : Mode) (c : Char) (cs : Text) : Step :=
  match mode with
  | .text => nextOutside (c :: cs)
  | .directive => nextInside c cs

/-- A step splits the text. -/
theorem value_append_rest (mode : Mode) (c : Char) (cs : Text) :
    (next mode c cs).value ++ (next mode c cs).rest = c :: cs := by
  cases mode with
  | text =>
    simp only [next, nextOutside]
    split <;> simp_all
  | directive =>
    simp only [next, nextInside]
    split
    · split <;> simp_all
    · split
      · split <;> simp_all
      · split
        · simp
        · split
          · simp
          · split
            · split
              · rename_i h; simp [quotedRest?_append h]
              · simp
            · simp

/-- A step takes at least one character. -/
theorem value_ne_nil (mode : Mode) (c : Char) (cs : Text) : (next mode c cs).value ≠ [] := by
  cases mode with
  | text =>
    simp only [next, nextOutside]
    split
    · simp
    · simp
    · simp
    · rename_i hs
      have := directiveStart_pos (s := c :: cs) (by simp) hs
      simp; omega
  | directive =>
    simp only [next, nextInside]
    split
    · split <;> simp
    · split
      · split <;> simp
      · split
        · simp
        · split
          · simp
          · split
            · split <;> simp
            · simp

theorem length_rest_next (mode : Mode) (c : Char) (cs : Text) :
    (next mode c cs).rest.length ≤ cs.length := by
  have h := congrArg List.length (value_append_rest mode c cs)
  have hpos := List.length_pos_iff.2 (value_ne_nil mode c cs)
  simp at h; omega

/-- The pieces of a text that starts in the given mode. -/
def lexemes (mode : Mode) (s : Text) : List Lexeme :=
  match s with
  | [] => []
  | c :: cs =>
    ⟨(next mode c cs).kind, (next mode c cs).value⟩ ::
      lexemes (next mode c cs).mode (next mode c cs).rest
termination_by s.length
decreasing_by
  have := length_rest_next mode c cs
  simp; omega

/-- Adds to each piece the line on which it starts. -/
def number (line : Nat) : List Lexeme → List Token
  | [] => []
  | l :: rest => ⟨line, l.kind, l.value⟩ :: number (line + Text.lineFeeds l.value) rest

/-! ### Nothing is lost -/

@[simp] theorem lexemes_nil (mode : Mode) : lexemes mode [] = [] := by rw [lexemes]

theorem lexemes_cons (mode : Mode) (c : Char) (cs : Text) :
    lexemes mode (c :: cs) = ⟨(next mode c cs).kind, (next mode c cs).value⟩ ::
      lexemes (next mode c cs).mode (next mode c cs).rest := by rw [lexemes]

theorem flatMap_value_lexemes (mode : Mode) (s : Text) :
    (lexemes mode s).flatMap Lexeme.value = s := by
  fun_induction lexemes mode s with
  | case1 => rfl
  | case2 mode c cs ih => rw [List.flatMap_cons, ih, value_append_rest]

theorem value_ne_nil_of_mem_lexemes {mode : Mode} {s : Text} {l : Lexeme}
    (h : l ∈ lexemes mode s) : l.value ≠ [] := by
  fun_induction lexemes mode s with
  | case1 => simp at h
  | case2 mode c cs ih =>
    rcases List.mem_cons.1 h with rfl | h
    · exact value_ne_nil mode c cs
    · exact ih h

theorem flatMap_value_number (line : Nat) (ls : List Lexeme) :
    (number line ls).flatMap Token.value = ls.flatMap Lexeme.value := by
  induction ls generalizing line with
  | nil => rfl
  | cons l ls ih => simp [number, ih]

theorem mem_number {line : Nat} {ls : List Lexeme} {t : Token} (h : t ∈ number line ls) :
    ⟨t.kind, t.value⟩ ∈ ls := by
  induction ls generalizing line with
  | nil => simp [number] at h
  | cons l ls ih =>
    rcases List.mem_cons.1 h with rfl | h
    · exact List.mem_cons_self
    · exact List.mem_cons_of_mem _ (ih h)

end PageFields.Lexer

namespace PageFields

/-- The tokens of a template. -/
def tokenize (s : Text) : List Token := Lexer.number 1 (Lexer.lexemes .text s)

/-- The values of the tokens, one after another, are the text. -/
theorem flatMap_value_tokenize (s : Text) : (tokenize s).flatMap Token.value = s := by
  rw [tokenize, Lexer.flatMap_value_number, Lexer.flatMap_value_lexemes]

theorem value_ne_nil_of_mem_tokenize {s : Text} {t : Token} (h : t ∈ tokenize s) :
    t.value ≠ [] :=
  Lexer.value_ne_nil_of_mem_lexemes (Lexer.mem_number h)

end PageFields
