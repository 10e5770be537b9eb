import Mathlib.Data.List.Chain
import PageFields.Proofs.Directive.Grammar

/-! # Tokens: the stream of a text

The lexer has two modes, and so have the kinds of the tokens that it gives: outside there is at most
one literal before the next directive, and inside a directive there are words, spaces and single
characters up to its closing delimiter (`IsStream`). Only at the end of the text a directive may
lack that. Whatever the text is, the tokens are such a stream, their values cut the text at
characters, and their lines are counted by the line feeds before them (`tokenize_stream`). -/

namespace PageFields

/-! ### The kinds of a stream -/

/-- The kind is one of what stands between the delimiters of a directive. -/
def TokenKind.IsInner (kind : TokenKind) : Prop :=
  kind = .name ∨ kind = .string ∨ kind = .whitespace ∨ kind = .other

/-- At most one literal. -/
def IsLiteral (kinds : List TokenKind) : Prop := kinds = [] ∨ kinds = [.text]

/-- Any number of directives, with at most one literal behind each. The last directive may lack its
closing delimiter, and it is the end of the stream then. -/
inductive IsDirectives : List TokenKind → Prop
  | nil : IsDirectives []
  | unclosed {inner : List TokenKind} (hinner : ∀ kind ∈ inner, kind.IsInner) :
    IsDirectives (.directiveOpen :: inner)
  | closed {inner literal rest : List TokenKind} (hinner : ∀ kind ∈ inner, kind.IsInner)
    (hliteral : IsLiteral literal) (hrest : IsDirectives rest) :
    IsDirectives (.directiveOpen :: (inner ++ .directiveClose :: (literal ++ rest)))

/-- At most one literal, and then directives. -/
def IsStream (kinds : List TokenKind) : Prop :=
  ∃ literal rest, IsLiteral literal ∧ IsDirectives rest ∧ kinds = literal ++ rest

/-- Two neighbours are not both literals. -/
def NotBothText (kind kind' : TokenKind) : Prop := ¬ (kind = .text ∧ kind' = .text)

theorem TokenKind.IsInner.ne_text {kind : TokenKind} (h : kind.IsInner) : kind ≠ .text := by
  rcases h with rfl | rfl | rfl | rfl <;> decide

theorem isChain_of_ne_text {kinds : List TokenKind} (h : ∀ kind ∈ kinds, kind ≠ .text) :
    kinds.IsChain NotBothText := by
  induction kinds with
  | nil => exact List.isChain_nil
  | cons kind kinds ih =>
    rw [List.forall_mem_cons] at h
    exact List.isChain_cons.2 ⟨fun _ _ hboth => h.1 hboth.1, ih h.2⟩

theorem IsDirectives.head?_ne {kinds : List TokenKind} (h : IsDirectives kinds) :
    kinds.head? ≠ some .text := by
  cases h <;> simp

theorem isChain_literal_append {literal rest : List TokenKind} (hliteral : IsLiteral literal)
    (hrest : rest.IsChain NotBothText) (hhead : rest.head? ≠ some .text) :
    (literal ++ rest).IsChain NotBothText := by
  rcases hliteral with rfl | rfl
  · exact hrest
  · cases rest with
    | nil => exact List.isChain_singleton _
    | cons kind rest =>
      refine List.isChain_cons_cons.2 ⟨fun hboth => hhead ?_, hrest⟩
      rw [List.head?_cons, hboth.2]

theorem IsDirectives.isChain {kinds : List TokenKind} (h : IsDirectives kinds) :
    kinds.IsChain NotBothText := by
  induction h with
  | nil => exact List.isChain_nil
  | unclosed hinner =>
    refine isChain_of_ne_text (List.forall_mem_cons.2 ⟨by decide, fun kind hk => ?_⟩)
    exact (hinner kind hk).ne_text
  | @closed inner literal rest hinner hliteral hrest ih =>
    have hdirective : ∀ kind ∈ TokenKind.directiveOpen :: inner ++ [.directiveClose],
        kind ≠ .text := by
      intro kind hk
      rcases List.mem_append.1 hk with hk | hk
      · rcases List.mem_cons.1 hk with rfl | hk
        · decide
        · exact (hinner kind hk).ne_text
      · rw [List.mem_singleton.1 hk]
        decide
    have hsplit : TokenKind.directiveOpen :: (inner ++ .directiveClose :: (literal ++ rest)) =
        (.directiveOpen :: inner ++ [.directiveClose]) ++ (literal ++ rest) := by simp
    rw [hsplit, List.isChain_append]
    refine ⟨isChain_of_ne_text hdirective,
      isChain_literal_append hliteral ih hrest.head?_ne, fun kind hk _ _ hboth => ?_⟩
    exact hdirective kind (List.mem_of_mem_getLast? hk) hboth.1

/-- **Two literals are never next to each other.** -/
theorem IsStream.isChain {kinds : List TokenKind} (h : IsStream kinds) :
    kinds.IsChain NotBothText := by
  obtain ⟨literal, rest, hliteral, hrest, rfl⟩ := h
  exact isChain_literal_append hliteral hrest.isChain hrest.head?_ne

/-! ### The stream of a text -/

namespace Lexer

/-- What the lexer gives in a directive before its closing delimiter. -/
theorem isInner_of_reads {ls : List Lexeme} {t : Text} (hr : Reads .directive ls t)
    (h : ∀ l ∈ ls, l.kind ≠ .directiveClose) : ∀ kind ∈ ls.map Lexeme.kind, kind.IsInner := by
  induction ls with
  | nil => exact nofun
  | cons l ls ih =>
    obtain ⟨kind, v⟩ := l
    obtain ⟨hs, -, hr⟩ := hr
    rw [List.forall_mem_cons] at h
    rw [(Segment.isInner_of_shape hs h.1 1).1] at hr
    refine List.forall_mem_cons.2 ⟨?_, ih hr h.2⟩
    cases kind with
    | text | directiveOpen => exact hs.elim
    | directiveClose => exact absurd rfl h.1
    | name => exact .inl rfl
    | string => exact .inr (.inl rfl)
    | whitespace => exact .inr (.inr (.inl rfl))
    | other => exact .inr (.inr (.inr rfl))

theorem kind_of_head? {v : Text} {ls : List Lexeme} (h : Reads .text (⟨.text, v⟩ :: ls) []) :
    ∀ l ∈ ls.head?, l.kind = .directiveOpen := by
  obtain ⟨-, hends, hr⟩ := h
  rintro l hl
  obtain ⟨ls, rfl⟩ := List.head?_eq_some_iff.1 hl
  obtain ⟨kind, u⟩ := l
  rcases hends with hnil | ⟨-, r, hmark⟩
  · rw [List.append_nil] at hnil
    exact absurd hnil (hr.source_ne_nil (List.cons_ne_nil _ _))
  · rcases Segment.kind_of_shape hr.1 with rfl | rfl
    · -- A second literal would start with the delimiter that ends the first one.
      have hlen : literalLength false (u ++ (source ls ++ [])) = u.length :=
        literalLength_append_iff.2 ⟨hr.1.2, hr.2.1⟩
      rw [source_cons, List.append_assoc] at hmark
      rw [hmark, literalLength_eq_zero.2 (.inr ⟨rfl, r, rfl⟩)] at hlen
      exact absurd (List.length_eq_zero_iff.1 hlen.symm) hr.1.1
    · rfl

/-- **What the lexer gives is a stream.** The induction is on the number of pieces: a directive is
taken up to its closing delimiter. -/
theorem isStream_of_reads {ls : List Lexeme} (h : Reads .text ls []) :
    IsStream (ls.map Lexeme.kind) := by
  induction hn : ls.length using Nat.strongRecOn generalizing ls with
  | ind n ih =>
    subst hn
    cases ls with
    | nil => exact ⟨[], [], .inl rfl, .nil, rfl⟩
    | cons l ls =>
      obtain ⟨kind, v⟩ := l
      rcases Segment.kind_of_shape h.1 with rfl | rfl
      · obtain ⟨literal, rest, hliteral, hrest, hls⟩ := ih ls.length (by simp) h.2.2 rfl
        have hnil : literal = [] := by
          refine hliteral.resolve_right ?_
          rintro rfl
          cases ls with
          | nil => cases hls
          | cons l ls =>
            have hkind := kind_of_head? h l rfl
            rw [List.map_cons, hkind] at hls
            cases hls
        subst hnil
        exact ⟨[.text], rest, .inr rfl, hrest, congrArg _ hls⟩
      · have hr := h.2.2
        rcases Segment.exists_close ls with hopen | ⟨inner, w, rest, rfl, hinner⟩
        · exact ⟨[], _, .inl rfl, .unclosed (isInner_of_reads hr hopen), rfl⟩
        · obtain ⟨hri, -, -, hrr⟩ := reads_append.1 hr
          have hlength : rest.length <
              (⟨.directiveOpen, v⟩ :: (inner ++ ⟨.directiveClose, w⟩ :: rest)).length := by
            simp only [List.length_cons, List.length_append]
            omega
          obtain ⟨literal, rest', hliteral, hrest, hkinds⟩ := ih rest.length hlength hrr rfl
          refine ⟨[], _, .inl rfl, .closed (isInner_of_reads hri hinner) hliteral hrest, ?_⟩
          rw [← hkinds]
          simp

theorem map_kind_number (line : Nat) (ls : List Lexeme) :
    (number line ls).map Token.kind = ls.map Lexeme.kind := by
  rw [← congrArg (List.map Lexeme.kind) (Segment.map_number line ls), List.map_map]
  rfl

theorem length_lexemes_le (m : Mode) (s : Text) : (lexemes m s).length ≤ s.length := by
  fun_induction lexemes m s with
  | case1 => exact Nat.le_refl 0
  | case2 m c cs ih =>
    have hrest := length_rest_next m c cs
    rw [List.length_cons, List.length_cons]
    omega

end Lexer

open Lexer

theorem line_eq {s : Text} {before after : List Token} {t : Token}
    (h : tokenize s = before ++ t :: after) :
    t.line = 1 + Text.lineFeeds (before.flatMap Token.value) := by
  obtain ⟨la, lb, -, rfl, hlb⟩ := Segment.number_eq_append h
  cases lb with
  | nil => cases hlb
  | cons l lb =>
    rw [← (List.cons.inj hlb).1, flatMap_value_number]
    rfl

theorem isValid_of_cut {s : Text} {before after : List Token} (h : tokenize s = before ++ after) :
    String.Pos.Raw.IsValid (String.ofList s)
      ⟨(Text.utf8 (before.flatMap Token.value)).size⟩ := by
  have hs := flatMap_value_tokenize s
  rw [h, List.flatMap_append] at hs
  refine String.Pos.Raw.isValid_iff_exists_append.2
    ⟨String.ofList (before.flatMap Token.value), String.ofList (after.flatMap Token.value), ?_, rfl⟩
  rw [← String.ofList_append, hs]

/-- **The tokens of a text.** There are at most as many as the text has characters. None is empty,
and together they are the text, which is cut at characters only. Their lines are counted by the line
feeds before them, and their kinds are a stream, in which no two literals are neighbours. -/
theorem tokenize_stream (s : Text) :
    (tokenize s).length ≤ s.length ∧
      (tokenize s).flatMap Token.value = s ∧
      (∀ t ∈ tokenize s, t.value ≠ []) ∧
      (∀ before after, tokenize s = before ++ after →
        String.Pos.Raw.IsValid (String.ofList s)
          ⟨(Text.utf8 (before.flatMap Token.value)).size⟩) ∧
      (∀ before t after, tokenize s = before ++ t :: after →
        t.line = 1 + Text.lineFeeds (before.flatMap Token.value)) ∧
      IsStream ((tokenize s).map Token.kind) ∧
      ((tokenize s).map Token.kind).IsChain NotBothText := by
  have hstream : IsStream ((tokenize s).map Token.kind) := by
    rw [tokenize, map_kind_number]
    exact isStream_of_reads (reads_lexemes .text s)
  have hlength : (tokenize s).length ≤ s.length := by
    have hkinds := congrArg List.length (map_kind_number 1 (lexemes .text s))
    rw [List.length_map, List.length_map] at hkinds
    rw [tokenize, hkinds]
    exact length_lexemes_le .text s
  exact ⟨hlength, flatMap_value_tokenize s, fun _ => value_ne_nil_of_mem_tokenize,
    fun _ _ => isValid_of_cut, fun _ _ _ => line_eq, hstream, hstream.isChain⟩

end PageFields
