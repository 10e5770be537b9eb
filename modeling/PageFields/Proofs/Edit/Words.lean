import PageFields.Edit
import PageFields.Proofs.Directive.Nesting
import PageFields.Proofs.Text.Quoted

/-! # Edits: the directives that are written

An edit writes a directive as its words with one space around each (`directiveText`). Names and
strings are words. The lexer gives the words back (`ofTextFrom_directiveText`), so the directive has
the keyword and the argument that were written. -/

namespace PageFields.Edit

open Lexer Segment

/-- One space. -/
def space : Lexeme := ⟨.whitespace, [' ']⟩

/-- The closing delimiter without a whitespace mark. -/
def close : Lexeme := ⟨.directiveClose, ['%', '}']⟩

/-- The opening delimiter without a whitespace mark. -/
def opening : Lexeme := ⟨.directiveOpen, ['{', '%']⟩

/-- The piece is a name or a string. -/
structure IsWord (w : Lexeme) : Prop where
  shape : Shape .directive w
  kind : w.kind = .name ∨ w.kind = .string

/-- The pieces between the delimiters. -/
def spaced (words : List Lexeme) : List Lexeme := space :: words.flatMap fun w => [w, space]

/-- A directive with these words. -/
def directiveText (words : List Lexeme) : Text :=
  opening.value ++ Lexer.source (spaced words) ++ close.value

theorem isWord_name {c : Char} {cs : Text} (h : isNameStart c = true)
    (hs : ∀ d ∈ cs, isNameRest d = true) : IsWord ⟨.name, c :: cs⟩ :=
  ⟨⟨c, cs, rfl, h, hs⟩, Or.inl rfl⟩

theorem isWord_of_isFieldName {name : Text} (h : isFieldName name = true) :
    IsWord ⟨.name, name⟩ := by
  match name, h with
  | c :: cs, h =>
    simp only [isFieldName, Bool.and_eq_true, List.all_eq_true] at h
    exact isWord_name h.1 h.2

theorem isWord_quoted (t : Text) : IsWord ⟨.string, '"' :: (Quoted.escape t ++ ['"'])⟩ :=
  ⟨⟨'"', _, rfl, Or.inl rfl, Quoted.quotedRest?_quoted t []⟩, Or.inr rfl⟩

theorem IsWord.head? {w : Lexeme} (h : IsWord w) (t : Text) :
    ∀ c ∈ (w.value ++ t).head?, isSpace c = false := by
  obtain ⟨kind, v⟩ := w
  obtain ⟨hs, rfl | rfl⟩ := h
  · obtain ⟨c, cs, rfl, hc, -⟩ := hs
    rintro d ⟨⟩
    exact (not_mark_of_isNameStart hc).2.2
  · obtain ⟨q, cs, rfl, hq, -⟩ := hs
    rintro d ⟨⟩
    exact (not_mark_of_isQuote hq).2.2.1

theorem IsWord.endsBefore_space {w : Lexeme} (h : IsWord w) (t : Text) :
    EndsBefore w (' ' :: t) := by
  obtain ⟨kind, v⟩ := w
  obtain ⟨-, rfl | rfl⟩ := h
  · rintro c ⟨⟩
    decide
  · trivial

theorem IsWord.modeAfter {w : Lexeme} (h : IsWord w) : modeAfter w.kind = .directive := by
  rcases h.kind with hk | hk <;> rw [hk] <;> rfl

theorem shape_space : Shape .directive space := ⟨by simp [space], List.forall_mem_singleton.2 rfl⟩

theorem reads_spaced {words : List Lexeme} (h : ∀ w ∈ words, IsWord w) :
    Reads .directive (spaced words ++ [close]) [] := by
  induction words with
  | nil =>
    refine ⟨shape_space, ?_, Or.inl rfl, trivial, trivial⟩
    rintro c ⟨⟩
    decide
  | cons w words ih =>
    have hw := h w List.mem_cons_self
    have hrest := ih fun x hx => h x (List.mem_cons_of_mem _ hx)
    refine ⟨shape_space, ?_, hw.shape, ?_, ?_⟩
    · rw [List.append_nil]
      exact hw.head? (Lexer.source (spaced words ++ [close]))
    · exact hw.endsBefore_space _
    · rw [hw.modeAfter]
      exact hrest

theorem isSignificant_of_isWord {w : Lexeme} (h : IsWord w) (line : Nat) :
    Token.isSignificant ⟨line, w.kind, w.value⟩ = true := by
  rcases h.kind with hk | hk <;> simp [Token.isSignificant, hk]

theorem filter_number_spaced {words : List Lexeme} (h : ∀ w ∈ words, IsWord w) (line : Nat) :
    ((number line (spaced words)).filter Token.isSignificant).map
      (fun t => (⟨t.kind, t.value⟩ : Lexeme)) = words := by
  have skip : ∀ (line : Nat) (ls : List Lexeme),
      (number line (space :: ls)).filter Token.isSignificant =
        (number (line + 0) ls).filter Token.isSignificant := fun _ _ => rfl
  induction words generalizing line with
  | nil => rfl
  | cons w words ih =>
    have hw := isSignificant_of_isWord (h w List.mem_cons_self) line
    have hrest := ih (fun x hx => h x (List.mem_cons_of_mem _ hx)) (line + Text.lineFeeds w.value)
    rw [spaced, List.flatMap_cons, skip, Nat.add_zero, List.cons_append, number,
      List.filter_cons_of_pos hw, List.map_cons]
    congr 1

/-- **The lexer gives the words back.** -/
theorem lexemes_directiveText {words : List Lexeme} (h : ∀ w ∈ words, IsWord w) :
    lexemes .text (directiveText words) = opening :: (spaced words ++ [close]) := by
  have hread : Reads .text (opening :: (spaced words ++ [close])) [] := by
    refine ⟨Or.inl rfl, fun _ => ?_, reads_spaced h⟩
    exact ⟨nofun, nofun⟩
  have := hread.lexemes_source
  rwa [source_cons, source_append] at this

theorem mem_spaced {words : List Lexeme} (h : ∀ w ∈ words, IsWord w) :
    ∀ l ∈ spaced words, l.kind = .whitespace ∨ l.kind = .name ∨ l.kind = .string := by
  intro l hl
  rcases List.mem_cons.1 hl with rfl | hl
  · exact Or.inl rfl
  obtain ⟨w, hw, hl⟩ := List.mem_flatMap.1 hl
  rcases List.mem_cons.1 hl with rfl | hl
  · exact Or.inr (h l hw).kind
  · rw [List.mem_singleton.1 hl]
    exact Or.inl rfl

theorem settled_directiveText {words : List Lexeme} (h : ∀ w ∈ words, IsWord w) :
    Settled (directiveText words) := by
  constructor
  · rw [lexemes_directiveText h, ← List.cons_append]
    intro l hl
    rw [List.getLast?_concat] at hl
    cases hl
    exact Or.inl rfl
  · rw [lexemes_directiveText h]
    rintro l hl ⟨hk, -⟩
    rcases List.mem_cons.1 hl with rfl | hl
    · cases hk
    rcases List.mem_append.1 hl with hl | hl
    · rcases mem_spaced h l hl with hl | hl | hl <;> rw [hl] at hk <;> cases hk
    · rw [List.mem_singleton.1 hl] at hk
      cases hk

/-- **A written directive is one segment**, with the words that were written. -/
theorem ofTextFrom_directiveText {words : List Lexeme} (h : ∀ w ∈ words, IsWord w) (line : Nat) :
    ∃ d, ofTextFrom line (directiveText words) = [.directive d] ∧ d.isClosed = true ∧
      d.line = line ∧ d.words.map (fun t => (⟨t.kind, t.value⟩ : Lexeme)) = words := by
  have hin : ∀ l ∈ spaced words, l.kind ≠ .directiveClose := by
    intro l hl hk
    rcases mem_spaced h l hl with hl | hl | hl <;> rw [hl] at hk <;> cases hk
  rw [ofTextFrom, lexemes_directiveText h, number, number_append, number, number,
    ofTokens_closed rfl (staysInside_of_number hin) rfl, ofTokens]
  exact ⟨_, rfl, rfl, rfl, filter_number_spaced h _⟩

end PageFields.Edit
