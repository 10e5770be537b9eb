import PageFields.Proofs.Text.Normal
import PageFields.Proofs.Token.Concat

/-! # Line breaks do not change how a text is read

A line break stands in literal text, in whitespace or in a string, and writing all breaks as line
feeds leaves it there: `lexemes_unifyBreaks` says that the pieces of the unified text are the
unified pieces of the text. One thing could go wrong and is excluded by a hypothesis: in a string, a
backslash must not meet a line feed. A quote without a partner finds none in the unified text
either, as a line feed can only take one away (`quotedRest?_unifyBreaks_eq_none`). -/

namespace PageFields

/-- A backslash stands directly before a carriage return. -/
def HasEscapedReturn (s : Text) : Prop := ['\\', '\r'] <:+: s

instance (s : Text) : Decidable (HasEscapedReturn s) :=
  inferInstanceAs (Decidable (['\\', '\r'] <:+: s))

namespace Lexer

open Text

/-- The piece with its line breaks unified. -/
def Lexeme.unified (l : Lexeme) : Lexeme := ⟨l.kind, unifyBreaks l.value⟩

/-! ### Literal text -/

theorem literalLength_false_cons (c : Char) (s : Text) :
    literalLength false (c :: s) =
      if c = '{' ∧ s.head? = some '%' then 0
      else if c = '{' ∧ s.head? = some '#' then literalLength true s.tail + 2
      else literalLength false s + 1 := by
  cases s with
  | nil => simp [literalLength]
  | cons d s => simp [literalLength]

theorem literalLength_true_cons (c : Char) (s : Text) :
    literalLength true (c :: s) =
      if c = '#' ∧ s.head? = some '}' then literalLength false s.tail + 2
      else literalLength true s + 1 := by
  cases s with
  | nil => simp [literalLength]
  | cons d s => simp [literalLength]

theorem inComment_false_cons (c : Char) (s : Text) :
    inComment false (c :: s) =
      if c = '{' ∧ s.head? = some '#' then inComment true s.tail else inComment false s := by
  cases s with
  | nil => simp [inComment]
  | cons d s => simp [inComment]

theorem inComment_true_cons (c : Char) (s : Text) :
    inComment true (c :: s) =
      if c = '#' ∧ s.head? = some '}' then inComment false s.tail else inComment true s := by
  cases s with
  | nil => simp [inComment]
  | cons d s => simp [inComment]

theorem literal_of_plain {c : Char} (h : c ≠ '{') (h' : c ≠ '#') (b : Bool) (s : Text) :
    literalLength b (c :: s) = literalLength b s + 1 ∧ inComment b (c :: s) = inComment b s := by
  cases b with
  | false => rw [literalLength_false_cons, inComment_false_cons]; simp [h]
  | true => rw [literalLength_true_cons, inComment_true_cons]; simp [h']

theorem literal_unifyBreaks_return {b : Bool} {s : Text}
    (hl : literalLength b (unifyBreaks s) = (unifyBreaks s).length)
    (hc : inComment b (unifyBreaks s) = inComment b s) :
    literalLength b (unifyBreaks ('\r' :: s)) = (unifyBreaks ('\r' :: s)).length ∧
      inComment b (unifyBreaks ('\r' :: s)) = inComment b ('\r' :: s) := by
  rw [(literal_of_plain (c := '\r') (by decide) (by decide) b s).2]
  rcases unifyBreaks_return_cases s with hs | hs
  · obtain ⟨e1, e2⟩ := literal_of_plain (c := '\n') (by decide) (by decide) b (unifyBreaks s)
    rw [hs, e1, e2, hl]
    exact ⟨rfl, hc⟩
  · rw [hs]
    exact ⟨hl, hc⟩

/-- Literal text stays literal text, and ends in a comment or not as before. -/
theorem literal_unifyBreaks {b : Bool} {v : Text} (h : literalLength b v = v.length) :
    literalLength b (unifyBreaks v) = (unifyBreaks v).length ∧
      inComment b (unifyBreaks v) = inComment b v := by
  -- a character that starts no mark here starts none in the unified text either
  have keep : ∀ {c d : Char} {rest : Text}, c ≠ '\r' →
      unifyBreaks (c :: d :: rest) = c :: unifyBreaks (d :: rest) := fun hc => unifyBreaks_cons hc _
  have mark : ∀ (rest : Text) {d e : Char}, e ≠ '\n' → e ≠ '\r' →
      ((unifyBreaks (d :: rest)).head? = some e ↔ d = e) := by
    intro rest d e he he'
    rw [head?_unifyBreaks_eq_some he he']
    simp
  fun_induction literalLength b v with
  | case1 b => exact ⟨rfl, rfl⟩
  | case2 b c =>
    by_cases hc : c = '\r'
    · subst hc; exact ⟨rfl, rfl⟩
    · rw [unifyBreaks_cons hc, unifyBreaks_nil]; exact ⟨rfl, rfl⟩
  | case3 c d rest h1 => simp at h
  | case4 c d rest h1 h2 ih =>
    obtain ⟨rfl, rfl⟩ := h2
    obtain ⟨e1, e2⟩ := ih (by simpa using h)
    rw [unifyBreaks_cons (by decide), unifyBreaks_cons (by decide)]
    simp [literalLength, inComment, e1, e2]
  | case5 c d rest h1 h2 ih =>
    have ih := ih (by simpa using h)
    by_cases hc : c = '\r'
    · subst hc; exact literal_unifyBreaks_return ih.1 ih.2
    · have h1' := fun h => h1 (And.imp_right (mark rest (by decide) (by decide)).1 h)
      have h2' := fun h => h2 (And.imp_right (mark rest (by decide) (by decide)).1 h)
      rw [keep hc, literalLength_false_cons, inComment_false_cons, if_neg h1', if_neg h2',
        if_neg h2', inComment, if_neg h2, ih.1]
      exact ⟨rfl, ih.2⟩
  | case6 c d rest h1 ih =>
    obtain ⟨rfl, rfl⟩ := h1
    obtain ⟨e1, e2⟩ := ih (by simpa using h)
    rw [unifyBreaks_cons (by decide), unifyBreaks_cons (by decide)]
    simp [literalLength, inComment, e1, e2]
  | case7 c d rest h1 ih =>
    have ih := ih (by simpa using h)
    by_cases hc : c = '\r'
    · subst hc; exact literal_unifyBreaks_return ih.1 ih.2
    · have h1' := fun h => h1 (And.imp_right (mark rest (by decide) (by decide)).1 h)
      rw [keep hc, literalLength_true_cons, inComment_true_cons, if_neg h1', if_neg h1', inComment,
        if_neg h1, ih.1]
      exact ⟨rfl, ih.2⟩

/-! ### Strings -/

/-- A string without a backslash before a carriage return stays a string. -/
theorem quotedRest?_unifyBreaks {q : Char} {s : Text} (hq : IsQuote q)
    (h : quotedRest? q s = some (s, [])) (he : ¬ HasEscapedReturn s) :
    quotedRest? q (unifyBreaks s) = some (unifyBreaks s, []) := by
  have tail : ∀ {c : Char} {s : Text}, ¬ HasEscapedReturn (c :: s) → ¬ HasEscapedReturn s :=
    fun h h' => h (h'.trans (List.suffix_cons _ _).isInfix)
  obtain ⟨hqr, hqn⟩ := hq.ne_break
  fun_induction quotedRest? q s with
  | case1 => cases h
  | case2 rest =>
    obtain rfl : rest = [] := by simpa using h
    rw [unifyBreaks_cons hqr, unifyBreaks_nil, quotedRest?_close]
  | case3 => cases h
  | case4 => cases h
  | case5 d rest hd hqb ih =>
    have hdr : d ≠ '\r' := by
      rintro rfl
      exact he ⟨[], rest, rfl⟩
    have hrest : quotedRest? q rest = some (rest, []) := by simpa using h
    rw [unifyBreaks_cons (by decide), unifyBreaks_cons hdr, quotedRest?_escape (Ne.symm hqb) hd,
      ih hrest (tail (tail he))]
    rfl
  | case6 c rest hcq hcb ih =>
    have hrest : quotedRest? q rest = some (rest, []) := by simpa using h
    have ih := ih hrest (tail he)
    by_cases hc : c = '\r'
    · subst hc
      rcases unifyBreaks_return_cases rest with hs | hs
      · rw [hs, quotedRest?_plain (Ne.symm hqn) (by decide), ih]
        rfl
      · rwa [hs]
    · rw [unifyBreaks_cons hc, quotedRest?_plain hcq hcb, ih]
      rfl

/-- A quote without a partner stays without one. -/
theorem quotedRest?_unifyBreaks_eq_none {q : Char} {s : Text} (hq : IsQuote q)
    (h : quotedRest? q s = none) : quotedRest? q (unifyBreaks s) = none := by
  obtain ⟨hqr, hqn⟩ := hq.ne_break
  fun_induction quotedRest? q s with
  | case1 => rfl
  | case2 rest => cases h
  | case3 hqb =>
    rw [unifyBreaks_cons (by decide), unifyBreaks_nil]
    simp [quotedRest?, hqb]
  | case4 rest hqb =>
    rw [unifyBreaks_cons (by decide), unifyBreaks_cons (by decide)]
    simp [quotedRest?, hqb]
  | case5 d rest hd hqb ih =>
    rw [Option.map_eq_none_iff] at h
    rw [unifyBreaks_cons (by decide)]
    by_cases hdr : d = '\r'
    · -- the escaped character becomes a line feed, which cannot be escaped
      subst hdr
      obtain ⟨u, hu⟩ := exists_unifyBreaks_return rest
      rw [hu]
      simp [quotedRest?, hqb]
    · rw [unifyBreaks_cons hdr, quotedRest?_escape (Ne.symm hqb) hd, ih h]
      rfl
  | case6 c rest hcq hcb ih =>
    rw [Option.map_eq_none_iff] at h
    by_cases hc : c = '\r'
    · subst hc
      rcases unifyBreaks_return_cases rest with hs | hs
      · rw [hs, quotedRest?_plain (Ne.symm hqn) (by decide), ih h]
        rfl
      · rw [hs]
        exact ih h
    · rw [unifyBreaks_cons hc, quotedRest?_plain hcq hcb, ih h]
      rfl

theorem getLast?_of_quoted {q : Char} {s : Text} (h : quotedRest? q s = some (s, [])) :
    s.getLast? = some q := by
  fun_induction quotedRest? q s with
  | case1 => cases h
  | case2 rest =>
    obtain rfl : rest = [] := by simpa using h
    rfl
  | case3 => cases h
  | case4 => cases h
  | case5 d rest hd hq ih =>
    have hrest : quotedRest? q rest = some (rest, []) := by simpa using h
    rw [List.getLast?_cons, List.getLast?_cons, ih hrest]
    rfl
  | case6 c rest hcq hcb ih =>
    have hrest : quotedRest? q rest = some (rest, []) := by simpa using h
    rw [List.getLast?_cons, ih hrest]
    rfl

/-! ### Pieces -/

theorem ne_return_of_not_isSpace {c : Char} (h : isSpace c = false) : c ≠ '\r' ∧ c ≠ '\n' := by
  constructor
  · rintro rfl; exact absurd h (by decide)
  · rintro rfl; exact absurd h (by decide)

theorem ne_return_of_isNameRest {c : Char} (h : isNameRest c = true) : c ≠ '\r' := by
  rintro rfl
  exact absurd h (by decide)

theorem isSpace_unifyBreaks {v : Text} (h : ∀ c ∈ v, isSpace c = true) :
    ∀ c ∈ unifyBreaks v, isSpace c = true := by
  induction v using breaks_induction with
  | nil => simp [unifyBreaks_nil]
  | pair s ih =>
    rw [unifyBreaks_pair]
    rintro c (_ | ⟨_, hc⟩)
    · decide
    · exact ih (fun d hd => h d (List.mem_cons_of_mem _ (List.mem_cons_of_mem _ hd))) c hc
  | lone s hs ih =>
    rw [unifyBreaks_return hs]
    rintro c (_ | ⟨_, hc⟩)
    · decide
    · exact ih (fun d hd => h d (List.mem_cons_of_mem _ hd)) c hc
  | cons c s hc ih =>
    rw [unifyBreaks_cons hc]
    rintro d (_ | ⟨_, hd⟩)
    · exact h c List.mem_cons_self
    · exact ih (fun x hx => h x (List.mem_cons_of_mem _ hx)) d hd

theorem unifyBreaks_ne_nil {v : Text} (h : v ≠ []) : unifyBreaks v ≠ [] := by
  intro hu
  obtain ⟨c, s, rfl⟩ := List.exists_cons_of_ne_nil h
  have := head?_unifyBreaks (c :: s)
  rw [hu] at this
  cases this

theorem not_mem_name {m : Mode} {v : Text} (h : Shape m ⟨.name, v⟩) : '\r' ∉ v := by
  match m, h with
  | .directive, ⟨c, cs, hv, hc, hcs⟩ =>
    obtain rfl : v = _ := hv
    rintro (_ | ⟨_, hr⟩)
    · exact absurd hc (by decide)
    · exact ne_return_of_isNameRest (hcs _ hr) rfl

/-- In a string no backslash meets a carriage return. -/
def KeepsEscapes (l : Lexeme) : Prop := l.kind = .string → ¬ HasEscapedReturn l.value

theorem shape_unified {m : Mode} {l : Lexeme} (h : Shape m l) (he : KeepsEscapes l) :
    Shape m l.unified := by
  obtain ⟨kind, v⟩ := l
  match m, kind, h with
  | .text, .text, h => exact ⟨unifyBreaks_ne_nil h.1, (literal_unifyBreaks h.2).1⟩
  | .text, .directiveOpen, h =>
    rcases h with hv | hv | hv <;> obtain rfl : v = _ := hv
    · exact Or.inl rfl
    · exact Or.inr (Or.inl rfl)
    · exact Or.inr (Or.inr rfl)
  | .directive, .directiveClose, h =>
    rcases h with hv | hv | hv <;> obtain rfl : v = _ := hv
    · exact Or.inl rfl
    · exact Or.inr (Or.inl rfl)
    · exact Or.inr (Or.inr rfl)
  | .directive, .whitespace, h => exact ⟨unifyBreaks_ne_nil h.1, isSpace_unifyBreaks h.2⟩
  | .directive, .name, h =>
    have : unifyBreaks v = v := unifyBreaks_of_not_mem (not_mem_name h)
    unfold Lexeme.unified
    rw [this]
    exact h
  | .directive, .string, ⟨q, cs, hv, hq, hs⟩ =>
    obtain rfl : v = _ := hv
    have hqr := hq.ne_break.1
    have hcs : ¬ HasEscapedReturn cs :=
      fun h' => he rfl (h'.trans (List.suffix_cons _ _).isInfix)
    exact ⟨q, unifyBreaks cs, unifyBreaks_cons hqr cs, hq, quotedRest?_unifyBreaks hq hs hcs⟩
  | .directive, .other, ⟨c, hv, hs, hn⟩ =>
    obtain rfl : v = _ := hv
    exact ⟨c, unifyBreaks_cons (ne_return_of_not_isSpace hs).1 [], hs, hn⟩

/-- A line break does not reach over the end of a piece. -/
theorem break_ends {m : Mode} {l : Lexeme} {t : Text} (h : Shape m l) (he : EndsBefore l t) :
    l.value.getLast? = some '\r' → t.head? ≠ some '\n' := by
  obtain ⟨kind, v⟩ := l
  intro hl
  simp only at hl
  match m, kind, h with
  | .text, .text, h =>
    rcases he with rfl | ⟨-, r, rfl⟩
    · exact nofun
    · exact nofun
  | .text, .directiveOpen, h =>
    rcases h with hv | hv | hv <;> obtain rfl : v = _ := hv <;> cases hl
  | .directive, .directiveClose, h =>
    rcases h with hv | hv | hv <;> obtain rfl : v = _ := hv <;> cases hl
  | .directive, .whitespace, h =>
    intro ht
    exact absurd (he _ ht) (by decide)
  | .directive, .name, h => exact absurd (List.mem_of_getLast? hl) (not_mem_name h)
  | .directive, .string, ⟨q, cs, hv, hq, hs⟩ =>
    obtain rfl : v = _ := hv
    have hqr := hq.ne_break.1
    rw [List.getLast?_cons, getLast?_of_quoted hs] at hl
    exact absurd (by simpa using hl) hqr
  | .directive, .other, ⟨c, hv, hs, _⟩ =>
    obtain rfl : v = _ := hv
    exact absurd (by simpa using hl) (ne_return_of_not_isSpace hs).1

/-- A closing delimiter in the unified text was there before. -/
theorem take_two_of_unifyBreaks {t : Text} (h : (unifyBreaks t).take 2 = ['%', '}']) :
    t.take 2 = ['%', '}'] := by
  cases t with
  | nil => cases h
  | cons c t =>
    have hc : (unifyBreaks (c :: t)).head? = some '%' := by
      simpa [List.head?_take] using congrArg List.head? h
    rw [head?_unifyBreaks_eq_some (by decide) (by decide)] at hc
    obtain rfl : c = '%' := by simpa using hc
    rw [unifyBreaks_cons (by decide)] at h
    have ht : (unifyBreaks t).head? = some '}' := by
      simpa [List.head?_take] using congrArg List.head? (List.cons.inj h).2
    rw [head?_unifyBreaks_eq_some (by decide) (by decide)] at ht
    obtain ⟨t, rfl⟩ := List.head?_eq_some_iff.1 ht
    rfl

theorem endsBefore_unified {m : Mode} {l : Lexeme} {t : Text} (h : Shape m l)
    (he : EndsBefore l t) : EndsBefore l.unified (unifyBreaks t) := by
  obtain ⟨kind, v⟩ := l
  match m, kind, h with
  | .text, .text, h =>
    rcases he with rfl | ⟨hc, r, rfl⟩
    · exact Or.inl rfl
    · refine Or.inr ⟨(literal_unifyBreaks h.2).2.trans hc, unifyBreaks r, ?_⟩
      rw [unifyBreaks_cons (by decide), unifyBreaks_cons (by decide)]
  | .text, .directiveOpen, h =>
    intro hv
    have hv' : v = ['{', '%'] := by
      rcases h with h | h | h <;> obtain rfl : v = _ := h
      · rfl
      · cases hv
      · cases hv
    obtain ⟨h1, h2⟩ := he hv'
    rw [Ne, Ne, head?_unifyBreaks_eq_some (by decide) (by decide),
      head?_unifyBreaks_eq_some (by decide) (by decide)]
    exact ⟨h1, h2⟩
  | .directive, .directiveClose, h => trivial
  | .directive, .string, h => trivial
  | .directive, .whitespace, h =>
    intro c hc
    have hc : (unifyBreaks t).head? = some c := hc
    rw [head?_unifyBreaks] at hc
    obtain ⟨d, hd, rfl⟩ := Option.map_eq_some_iff.1 hc
    have := he d hd
    rwa [if_neg (ne_return_of_not_isSpace this).1]
  | .directive, .name, h =>
    intro c hc
    have hc : (unifyBreaks t).head? = some c := hc
    rw [head?_unifyBreaks] at hc
    obtain ⟨d, hd, rfl⟩ := Option.map_eq_some_iff.1 hc
    by_cases hr : d = '\r'
    · rw [if_pos hr]; decide
    · rw [if_neg hr]; exact he d hd
  | .directive, .other, ⟨c, hv, hs, _⟩ =>
    obtain rfl : v = _ := hv
    have hu : (Lexeme.unified ⟨.other, [c]⟩).value = [c] :=
      unifyBreaks_cons (ne_return_of_not_isSpace hs).1 []
    obtain ⟨h1, h2, h3⟩ := he
    refine ⟨fun hc => ?_, fun hc => ?_, fun q hq hc => ?_⟩
    · rw [Ne, head?_unifyBreaks_eq_some (by decide) (by decide)]
      exact h1 (hu.symm.trans hc)
    · rw [hu] at hc
      exact fun ht => h2 hc (take_two_of_unifyBreaks ht)
    · exact quotedRest?_unifyBreaks_eq_none hq (h3 q hq (hu.symm.trans hc))

theorem Reads.source_unified {m : Mode} {ls : List Lexeme} {t : Text} (h : Reads m ls t) :
    source (ls.map Lexeme.unified) ++ unifyBreaks t = unifyBreaks (source ls ++ t) := by
  induction ls generalizing m with
  | nil => rfl
  | cons l ls ih =>
    obtain ⟨hs, hb, hr⟩ := h
    rw [List.map_cons, source_cons, source_cons, List.append_assoc, List.append_assoc, ih hr,
      unifyBreaks_append (break_ends hs hb)]
    rfl

theorem Reads.break_ends {m : Mode} {ls : List Lexeme} {t : Text} (h : Reads m ls t) :
    (source ls).getLast? = some '\r' → t.head? ≠ some '\n' := by
  rcases List.eq_nil_or_concat' ls with rfl | ⟨la, l, rfl⟩
  · exact nofun
  · obtain ⟨hs, hb⟩ := h.shape_last
    rw [source_append, source_cons, source_nil, List.append_nil,
      List.getLast?_append_of_ne_nil _ (value_ne_nil_of_shape hs)]
    exact Lexer.break_ends hs hb

theorem Reads.source_map_unified {m : Mode} {ls : List Lexeme} {t : Text} (h : Reads m ls t) :
    source (ls.map Lexeme.unified) = unifyBreaks (source ls) := by
  have := h.source_unified
  rw [unifyBreaks_append h.break_ends] at this
  exact List.append_cancel_right this

/-- **A reading of a text is, with its line breaks unified, one of the unified text.** -/
theorem Reads.unified {m : Mode} {ls : List Lexeme} {t : Text} (h : Reads m ls t)
    (he : ∀ l ∈ ls, KeepsEscapes l) : Reads m (ls.map Lexeme.unified) (unifyBreaks t) := by
  induction ls generalizing m with
  | nil => trivial
  | cons l ls ih =>
    obtain ⟨hs, hb, hr⟩ := h
    refine ⟨shape_unified hs (he l List.mem_cons_self), ?_,
      ih hr fun x hx => he x (List.mem_cons_of_mem _ hx)⟩
    rw [hr.source_unified]
    exact endsBefore_unified hs hb

theorem isInfix_of_mem_lexemes {m : Mode} {s : Text} {l : Lexeme} (h : l ∈ lexemes m s) :
    l.value <:+: s := by
  obtain ⟨la, lb, hl⟩ := List.append_of_mem h
  refine ⟨source la, source lb, ?_⟩
  rw [← source_lexemes m s, hl]
  simp

theorem keepsEscapes_of_mem {m : Mode} {s : Text} (he : ¬ HasEscapedReturn s) :
    ∀ l ∈ lexemes m s, KeepsEscapes l :=
  fun _ hl _ h => he (h.trans (isInfix_of_mem_lexemes hl))

/-- **Unifying the line breaks of a text unifies those of its pieces.** -/
theorem lexemes_unifyBreaks {s : Text} (he : ∀ l ∈ lexemes .text s, KeepsEscapes l) :
    lexemes .text (unifyBreaks s) = (lexemes .text s).map Lexeme.unified := by
  have hread := reads_lexemes .text s
  have hsrc := hread.source_unified
  rw [unifyBreaks_nil, List.append_nil, List.append_nil, source_lexemes] at hsrc
  rw [← hsrc]
  exact (hread.unified he).lexemes_source

end Lexer

end PageFields
