import PageFields.Proofs.Directive.Grammar
import PageFields.Proofs.Text.Quoted

/-! # Tokens: strings in single quotes

The escapes of a string in single quotes are rewritten in two passes over the whole string, first
those of the quote and then those of the backslash. Between the quotes that the lexer pairs, a quote
stands only where a backslash escapes it (`IsSingleQuoted`), so that no pass takes anything for an
escape that is none: the two come to the same as one reading from left to right (`unescapeOnce`). -/

namespace PageFields

namespace Quoted

/-- Reads a text once from left to right: an escaped quote or backslash stands for itself, and
before any other character a backslash is kept. -/
def unescapeOnce : Text → Text
  | '\\' :: '\x27' :: rest => '\x27' :: unescapeOnce rest
  | '\\' :: '\\' :: rest => '\\' :: unescapeOnce rest
  | '\\' :: c :: rest => '\\' :: c :: unescapeOnce rest
  | c :: rest => c :: unescapeOnce rest
  | [] => []

/-- What can stand between single quotes: plain characters, and backslashes that take the next
character along. -/
inductive IsSingleQuoted : Text → Prop
  | nil : IsSingleQuoted []
  | plain {c : Char} {rest : Text} (hquote : c ≠ '\x27') (hslash : c ≠ '\\')
    (hrest : IsSingleQuoted rest) : IsSingleQuoted (c :: rest)
  | escape (c : Char) {rest : Text} (hrest : IsSingleQuoted rest) :
    IsSingleQuoted ('\\' :: c :: rest)

variable {c : Char} {s inner : Text}

theorem IsSingleQuoted.head?_ne (h : IsSingleQuoted inner) : inner.head? ≠ some '\x27' := by
  cases h with
  | nil => exact nofun
  | plain hquote hslash hrest => simpa using hquote
  | escape c hrest => simp

/-- **The lexer finds such a text** up to the closing quote. -/
theorem exists_isSingleQuoted (h : Lexer.quotedRest? '\x27' s = some (s, [])) :
    ∃ inner, s = inner ++ ['\x27'] ∧ IsSingleQuoted inner := by
  have key : ∀ {s v a : Text}, Lexer.quotedRest? '\x27' s = some (v, a) →
      ∃ inner, v = inner ++ ['\x27'] ∧ IsSingleQuoted inner := by
    intro s v a h
    fun_induction Lexer.quotedRest? '\x27' s generalizing v a with
    | case1 => cases h
    | case2 rest =>
      obtain ⟨rfl, -⟩ : ['\x27'] = v ∧ rest = a := by simpa using h
      exact ⟨[], rfl, .nil⟩
    | case3 => cases h
    | case4 => cases h
    | case5 d rest hd hquote ih =>
      obtain ⟨⟨v', a'⟩, hv, he⟩ := Option.map_eq_some_iff.1 h
      obtain ⟨rfl, -⟩ : '\\' :: d :: v' = v ∧ a' = a := by simpa using he
      obtain ⟨inner, rfl, hinner⟩ := ih hv
      exact ⟨'\\' :: d :: inner, rfl, .escape d hinner⟩
    | case6 c rest hquote hslash ih =>
      obtain ⟨⟨v', a'⟩, hv, he⟩ := Option.map_eq_some_iff.1 h
      obtain ⟨rfl, -⟩ : c :: v' = v ∧ a' = a := by simpa using he
      obtain ⟨inner, rfl, hinner⟩ := ih hv
      exact ⟨c :: inner, rfl, .plain hquote hslash hinner⟩
  exact key h

/-! ### One pass after the other -/

theorem replacePair_pair (a b r : Char) (s : Text) :
    Text.replacePair a b r (a :: b :: s) = r :: Text.replacePair a b r s := by
  rw [Text.replacePair, if_pos ⟨rfl, rfl⟩]

theorem replacePair_cons {a b : Char} (h : c = a → s.head? ≠ some b) (r : Char) :
    Text.replacePair a b r (c :: s) = c :: Text.replacePair a b r s := by
  cases s with
  | nil => rfl
  | cons d s =>
    have hpair : ¬ (c = a ∧ d = b) := fun hcd => h hcd.1 (congrArg some hcd.2)
    rw [Text.replacePair, if_neg hpair]

theorem unescapeSingle_plain (hslash : c ≠ '\\') (s : Text) :
    unescapeSingle (c :: s) = c :: unescapeSingle s := by
  unfold unescapeSingle
  rw [replacePair_cons fun hc => absurd hc hslash, replacePair_cons fun hc => absurd hc hslash]

theorem unescapeSingle_quote (s : Text) :
    unescapeSingle ('\\' :: '\x27' :: s) = '\x27' :: unescapeSingle s := by
  unfold unescapeSingle
  rw [replacePair_pair, replacePair_cons fun hc => absurd hc (by decide)]

/-- The first pass leaves an escaped backslash alone, unless a quote follows it. -/
theorem unescapeSingle_slash (h : s.head? ≠ some '\x27') :
    unescapeSingle ('\\' :: '\\' :: s) = '\\' :: unescapeSingle s := by
  unfold unescapeSingle
  rw [replacePair_cons fun _ => by simp, replacePair_cons fun _ => h, replacePair_pair]

theorem unescapeSingle_other (hquote : c ≠ '\x27') (hslash : c ≠ '\\') (s : Text) :
    unescapeSingle ('\\' :: c :: s) = '\\' :: c :: unescapeSingle s := by
  unfold unescapeSingle
  rw [replacePair_cons fun _ => by simpa using hquote, replacePair_cons fun hc => absurd hc hslash,
    replacePair_cons fun _ => by simpa using hslash, replacePair_cons fun hc => absurd hc hslash]

/-- **Both passes come to the same as one reading.** -/
theorem unescapeSingle_eq (h : IsSingleQuoted inner) :
    unescapeSingle inner = unescapeOnce inner := by
  induction h with
  | nil => rfl
  | @plain c rest hquote hslash hrest ih =>
    rw [unescapeSingle_plain hslash, ih, unescapeOnce]
    · exact fun _ hc => absurd hc hslash
    · exact fun _ hc => absurd hc hslash
    · exact fun _ _ hc => absurd hc hslash
  | @escape c rest hrest ih =>
    by_cases hquote : c = '\x27'
    · subst hquote
      rw [unescapeSingle_quote, ih, unescapeOnce]
    by_cases hslash : c = '\\'
    · subst hslash
      rw [unescapeSingle_slash hrest.head?_ne, ih, unescapeOnce]
    · rw [unescapeSingle_other hquote hslash, ih, unescapeOnce]
      · exact hquote
      · exact hslash

theorem unescapeOnce_of_not_mem (h : '\\' ∉ inner) : unescapeOnce inner = inner := by
  induction inner with
  | nil => rfl
  | cons c inner ih =>
    rw [List.mem_cons, not_or] at h
    have hslash : c ≠ '\\' := Ne.symm h.1
    rw [unescapeOnce, ih h.2]
    · exact fun _ hc => absurd hc hslash
    · exact fun _ hc => absurd hc hslash
    · exact fun _ _ hc => absurd hc hslash

theorem value?_single (h : IsSingleQuoted inner) :
    value? ('\x27' :: (inner ++ ['\x27'])) = some (unescapeOnce inner) := by
  have hne : '\x27' ≠ '"' := by decide
  rw [value?_concat, if_neg hne]
  by_cases hslash : '\\' ∈ inner
  · rw [if_neg (not_not.2 hslash), unescapeSingle_eq h]
  · rw [if_pos hslash, unescapeOnce_of_not_mem hslash]

end Quoted

/-! ### The strings of a text -/

open Quoted

/-- **A string in single quotes stands for what one reading makes of it.** Whatever the text is,
each of its string tokens that starts with a single quote also ends with one, and stands for the
text between the two, read once from left to right with the escapes of the quote and of the
backslash. -/
theorem stringValue?_single {s : Text} {t : Token} (ht : t ∈ tokenize s) (hkind : t.kind = .string)
    (hquote : t.value.head? = some '\x27') :
    ∃ inner, t.value = '\x27' :: (inner ++ ['\x27']) ∧
      t.stringValue? = some (unescapeOnce inner) := by
  obtain ⟨m, hshape⟩ := Lexer.shape_of_mem_lexemes (Lexer.mem_number ht)
  rw [hkind] at hshape
  match m, hshape with
  | .directive, ⟨q, cs, hvalue, _, hread⟩ =>
    have hvalue : t.value = q :: cs := hvalue
    obtain rfl : q = '\x27' := by
      rw [hvalue, List.head?_cons] at hquote
      exact Option.some.inj hquote
    obtain ⟨inner, rfl, hinner⟩ := exists_isSingleQuoted hread
    refine ⟨inner, hvalue, ?_⟩
    rw [Token.stringValue?, if_pos hkind, hvalue, value?_single hinner]

/-- An odd run of backslashes before a quote, an even one at the end, and one that is kept. -/
def slashes : Text := "a\\\\\\'b\\n\\\\".toList

theorem stringValue?_single_slashes :
    ∃ t ∈ tokenize ("\x7b% x '".toList ++ slashes ++ "' %\x7d".toList), t.kind = .string ∧
      t.value.head? = some '\x27' ∧ t.stringValue? = some "a\\'b\\n\\".toList := by
  have ht : (⟨1, .string, '\x27' :: (slashes ++ ['\x27'])⟩ : Token) ∈
      tokenize ("\x7b% x '".toList ++ slashes ++ "' %\x7d".toList) := by decide +kernel
  refine ⟨_, ht, rfl, rfl, ?_⟩
  obtain ⟨inner, hvalue, hstands⟩ := stringValue?_single ht rfl rfl
  obtain rfl : slashes = inner := List.append_cancel_right (List.cons.inj hvalue).2
  rw [hstands]
  decide +kernel

end PageFields
