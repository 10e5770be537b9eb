import PageFields.Token.Lexer

/-! # Directives

Seen from further away, a template is a sequence of segments: literal tokens, and directives from
their opening delimiter to their closing one. What a directive means hangs on its first tokens that
are not whitespace (`Directive.words`): a keyword and what follows it. A directive that has no
closing delimiter is the last segment. -/

namespace PageFields

/-- A directive of a template. -/
structure Directive where
  opening : Token
  /-- The tokens between the delimiters. -/
  inner : List Token
  /-- The closing delimiter; a text may end before it. -/
  closing : Option Token
  deriving DecidableEq, Repr

/-- A part of a template. -/
inductive Segment
  | literal (token : Token)
  | directive (d : Directive)
  deriving DecidableEq, Repr

/-! ### Keywords -/

namespace Keyword

/-- The keyword that opens a block. -/
def block : Text := "block".toList

/-- The keyword that closes a block. -/
def blockEnd : Text := "endblock".toList

/-- The keyword that names the parent template. -/
def parent : Text := "extends".toList

end Keyword

namespace Directive

/-- The line on which a directive starts. -/
def line (d : Directive) : Nat := d.opening.line

/-- The tokens that count: those between the delimiters that are not whitespace. -/
def words (d : Directive) : List Token := d.inner.filter Token.isSignificant

/-- The first token that counts. -/
def keyword? (d : Directive) : Option Token := d.words.head?

/-- The second token that counts. -/
def argument? (d : Directive) : Option Token := d.words.tail.head?

/-- The directive has this keyword. -/
def hasKeyword (d : Directive) (name : Text) : Bool := d.keyword?.any (·.isName name)

/-- The directive has a closing delimiter. -/
def isClosed (d : Directive) : Bool := d.closing.isSome

/-- The text of a directive. -/
def source (d : Directive) : Text :=
  d.opening.value ++ d.inner.flatMap Token.value ++ (d.closing.elim [] Token.value)

end Directive

namespace Segment

/-- The text of a segment. -/
def source : Segment → Text
  | .literal t => t.value
  | .directive d => d.source

/-- The tokens of a segment. -/
def tokens : Segment → List Token
  | .literal t => [t]
  | .directive d => d.opening :: d.inner ++ d.closing.toList

/-- The token does not close a directive. -/
def staysInside (t : Token) : Bool := t.kind ≠ .directiveClose

/-- Groups tokens into segments. -/
def ofTokens : List Token → List Segment
  | [] => []
  | t :: ts =>
    if t.kind = .directiveOpen then
      match _h : ts.dropWhile staysInside with
      | [] => [.directive ⟨t, ts, none⟩]
      | close :: rest => .directive ⟨t, ts.takeWhile staysInside, some close⟩ :: ofTokens rest
    else .literal t :: ofTokens ts
termination_by ts => ts.length
decreasing_by
  · have := (List.dropWhile_suffix (l := ts) staysInside).length_le
    rw [_h] at this
    simp at this ⊢; omega
  · simp

/-- The segments of a template. -/
def ofText (s : Text) : List Segment := ofTokens (tokenize s)

/-- Grouping loses no token. -/
theorem flatMap_tokens_ofTokens (ts : List Token) : (ofTokens ts).flatMap tokens = ts := by
  fun_induction ofTokens ts with
  | case1 => rfl
  | case2 => simp [tokens]
  | case3 t ts _ close rest h ih =>
    have split := List.takeWhile_append_dropWhile (p := staysInside) (l := ts)
    rw [h] at split
    simp [tokens, ih, split]
  | case4 t ts _ ih => simp [tokens, ih]

theorem source_eq (seg : Segment) : seg.source = seg.tokens.flatMap Token.value := by
  match seg with
  | .literal t => simp [source, tokens]
  | .directive ⟨o, i, c⟩ => cases c <;> simp [source, tokens, Directive.source]

/-- The sources of the segments, one after another, are the text. -/
theorem flatMap_source_ofText (s : Text) : (ofText s).flatMap source = s := by
  have h := congrArg (List.flatMap Token.value) (flatMap_tokens_ofTokens (tokenize s))
  rw [flatMap_value_tokenize, List.flatMap_assoc] at h
  rw [ofText, ← h]
  congr 1
  · exact funext source_eq
  · rw [h]

theorem source_ne_nil_of_mem_ofText {s : Text} {seg : Segment} (h : seg ∈ ofText s) :
    seg.source ≠ [] := by
  have key : ∀ t ∈ seg.tokens, t.value ≠ [] := fun t ht =>
    value_ne_nil_of_mem_tokenize (s := s) (by
      rw [← flatMap_tokens_ofTokens (tokenize s)]
      exact List.mem_flatMap.2 ⟨seg, h, ht⟩)
  match seg with
  | .literal t => exact key t (by simp [tokens])
  | .directive d =>
    have := key d.opening (by simp [tokens])
    simp [source, Directive.source, this]

end Segment

end PageFields
