import PageFields.Proofs.Text.Normal
import PageFields.Proofs.Token.Breaks

/-! # Margins do not change how a text is read

Line feeds, spaces and tabs around a text are literal text before it (`literal_margin_append`) and
more of the last piece, or one more piece, after it. Outside directives they are literal text,
possibly joined with the one before (`lexemes_append_margin`); inside a directive that the text
leaves open they are whitespace (`lexemes_append_space`). Neither a comment nor a quote without its
partner makes a difference. -/

namespace PageFields.Lexer

variable {l m r : Text}

/-! ### Before a text -/

theorem not_mark_of_isMargin {c : Char} (h : Text.isMargin c = true) :
    c ≠ '{' ∧ c ≠ '#' ∧ c ≠ '%' ∧ c ≠ '}' := by
  refine ⟨?_, ?_, ?_, ?_⟩ <;> · rintro rfl; exact absurd h (by decide)

theorem literal_margin_append (h : ∀ c ∈ l, Text.isMargin c = true) (b : Bool) (t : Text) :
    literalLength b (l ++ t) = l.length + literalLength b t ∧
      inComment b (l ++ t) = inComment b t := by
  induction l with
  | nil => simp
  | cons c l ih =>
    obtain ⟨h1, h2, -, -⟩ := not_mark_of_isMargin (h c List.mem_cons_self)
    obtain ⟨e1, e2⟩ := literal_of_plain h1 h2 b (l ++ t)
    obtain ⟨i1, i2⟩ := ih fun d hd => h d (List.mem_cons_of_mem _ hd)
    rw [List.cons_append, e1, e2, i1, i2, List.length_cons]
    exact ⟨by omega, rfl⟩

theorem literal_margin (h : ∀ c ∈ l, Text.isMargin c = true) (b : Bool) :
    literalLength b l = l.length ∧ inComment b l = b := by
  have hnil : literalLength b [] = 0 ∧ inComment b [] = b := by cases b <;> exact ⟨rfl, rfl⟩
  have := literal_margin_append h b []
  rwa [List.append_nil, hnil.1, hnil.2] at this

theorem lexemes_margin (h : ∀ c ∈ l, Text.isMargin c = true) (hne : l ≠ []) :
    lexemes .text l = [⟨.text, l⟩] := by
  have hread : Reads .text [⟨.text, l⟩] [] :=
    ⟨⟨hne, (literal_margin h false).1⟩, Or.inl rfl, trivial⟩
  have := hread.lexemes_source
  rwa [source_cons, source_nil, List.append_nil] at this

theorem settled_margin (h : ∀ c ∈ l, Text.isMargin c = true) : Settled l := by
  by_cases hne : l = []
  · subst hne
    exact ⟨by rw [lexemes_nil]; exact nofun, by simp⟩
  · constructor
    · rw [lexemes_margin h hne]
      rintro x ⟨⟩
      exact Or.inr ⟨rfl, (literal_margin h false).2⟩
    · rw [lexemes_margin h hne]
      rintro x hx ⟨hk, -⟩
      rw [List.mem_singleton.1 hx] at hk
      cases hk

theorem seam_margin_left (h : ∀ c ∈ l, Text.isMargin c = true) (t : Text) : Seam l t := by
  intro hl
  exact absurd rfl (not_mark_of_isMargin (h _ (List.mem_of_getLast? hl))).1

theorem seam_margin_right (h : ∀ c ∈ r, Text.isMargin c = true) (t : Text) : Seam t r := by
  intro _
  constructor
  · intro hr
    exact absurd rfl (not_mark_of_isMargin (h _ (List.mem_of_head? hr))).2.2.1
  · intro hr
    exact absurd rfl (not_mark_of_isMargin (h _ (List.mem_of_head? hr))).2.1

theorem endsOutside_of_margin_glue (h : ∀ c ∈ l, Text.isMargin c = true) {ls : List Lexeme}
    (ho : EndsOutside (glue [⟨.text, l⟩] ls)) : EndsOutside ls := by
  intro x hx
  rcases glue_cases [⟨.text, l⟩] ls with happ | ⟨la, v, w, lb, hl, rfl⟩
  · refine ho x ?_
    rw [happ, List.getLast?_append, Option.mem_def.1 hx]
    rfl
  obtain ⟨rfl, rfl⟩ : la = [] ∧ v = l := by
    cases la with
    | nil => simpa using hl.symm
    | cons y la => simp at hl
  rw [← List.nil_append [_], glue_text, List.nil_append] at ho
  cases lb with
  | nil =>
    cases hx
    rcases ho ⟨.text, v ++ w⟩ rfl with hk | ⟨-, hc⟩
    · cases hk
    · rw [(literal_margin_append h false w).2] at hc
      exact Or.inr ⟨rfl, hc⟩
  | cons y lb =>
    rw [List.getLast?_cons_cons] at hx
    exact ho x (by rw [List.getLast?_cons_cons]; exact hx)

/-! ### After a text -/

theorem ne_of_head_margin (hr : ∀ c ∈ r, Text.isMargin c = true) {c : Char}
    (hc : Text.isMargin c = false) : r.head? ≠ some c := by
  intro h
  rw [hr c (List.mem_of_head? h)] at hc
  cases hc

theorem literalLength_append_margin (hr : ∀ c ∈ r, Text.isMargin c = true) {v : Text}
    (h : literalLength false v = v.length) :
    literalLength false (v ++ r) = (v ++ r).length := by
  have hp := ne_of_head_margin hr (c := '%') (by decide)
  have hh := ne_of_head_margin hr (c := '#') (by decide)
  have hb := ne_of_head_margin hr (c := '\x7d') (by decide)
  rw [literalLength_append h (fun _ _ => ⟨hp, hh⟩) fun _ _ => hb, (literal_margin hr _).1,
    List.length_append]

theorem inComment_append_margin (hr : ∀ c ∈ r, Text.isMargin c = true) (b : Bool) (v : Text) :
    inComment b (v ++ r) = inComment b v := by
  have hh := ne_of_head_margin hr (c := '#') (by decide)
  have hb := ne_of_head_margin hr (c := '\x7d') (by decide)
  rw [inComment_append (fun _ => hh) (fun _ _ => hb), (literal_margin hr _).2]

theorem endsOutside_of_glue_margin (hr : ∀ c ∈ r, Text.isMargin c = true) {ls : List Lexeme}
    (hm : endMode .text ls = .text) (ho : EndsOutside (glue ls [⟨.text, r⟩])) :
    EndsOutside ls := by
  rintro ⟨kind, v⟩ hx
  obtain ⟨la, rfl⟩ := List.getLast?_eq_some_iff.1 hx
  rw [endMode_append] at hm
  rcases modeAfter_eq_text hm with hk | hk
  · exact Or.inl hk
  obtain rfl : kind = .text := hk
  rw [glue_text] at ho
  rcases ho ⟨.text, v ++ r⟩ List.getLast?_concat with hk | ⟨-, hc⟩
  · cases hk
  · rw [inComment_append_margin hr] at hc
    exact Or.inr ⟨rfl, hc⟩

theorem quotedRest?_append_margin (hr : ∀ c ∈ r, Text.isMargin c = true) {q : Char} (hq : IsQuote q)
    {t : Text} (h : quotedRest? q t = none) : quotedRest? q (t ++ r) = none := by
  refine quotedRest?_append_of_not_mem hq (fun hm => ?_) h
  have hmargin := hr q hm
  rcases hq with rfl | rfl <;> cases hmargin

theorem endsBefore_append_margin (hr : ∀ c ∈ r, Text.isMargin c = true) {x : Lexeme} {t : Text}
    (h : EndsBefore x t) (hx : t = [] → x.kind ≠ .text ∧ x.kind ≠ .whitespace) :
    EndsBefore x (t ++ r) := by
  have head : ∀ c, Text.isMargin c = false → t.head? ≠ some c → (t ++ r).head? ≠ some c := by
    intro c hc ht
    cases t with
    | nil => exact ne_of_head_margin hr hc
    | cons d t => exact ht
  obtain ⟨kind, v⟩ := x
  cases kind with
  | text =>
    rcases h with rfl | ⟨hc, u, rfl⟩
    · exact absurd rfl (hx rfl).1
    · exact Or.inr ⟨hc, u ++ r, rfl⟩
  | directiveOpen =>
    intro hv
    exact ⟨head _ (by decide) (h hv).1, head _ (by decide) (h hv).2⟩
  | directiveClose => trivial
  | string => trivial
  | whitespace =>
    cases t with
    | nil => exact absurd rfl (hx rfl).2
    | cons d t => exact h
  | name =>
    intro c hc
    cases t with
    | nil =>
      have hm := hr c (List.mem_of_head? hc)
      by_contra hn
      simp only [Text.isMargin, Bool.or_eq_true, decide_eq_true_eq] at hm
      rcases hm with (rfl | rfl) | rfl <;> exact hn (by decide)
    | cons d t => exact h c hc
  | other =>
    obtain ⟨h1, h2, h3⟩ := h
    refine ⟨fun hv => head _ (by decide) (h1 hv), fun hv ht => ?_,
      fun q hq hv => quotedRest?_append_margin hr hq (h3 q hq hv)⟩
    match t with
    | [] =>
      refine ne_of_head_margin hr (c := '%') (by decide) ?_
      simpa [List.head?_take] using congrArg List.head? ht
    | [d] =>
      rw [List.singleton_append, List.take_succ_cons] at ht
      refine ne_of_head_margin hr (c := '\x7d') (by decide) ?_
      simpa [List.head?_take] using congrArg List.head? (List.cons.inj ht).2
    | d :: e :: t => exact h2 hv ht

/-- A reading stays one before a margin, unless its last piece goes on in the margin. -/
theorem Reads.append_margin (hr : ∀ c ∈ r, Text.isMargin c = true) {md : Mode} {ls : List Lexeme}
    {t : Text} (h : Reads md ls t)
    (hlast : t = [] → ∀ x ∈ ls.getLast?, x.kind ≠ .text ∧ x.kind ≠ .whitespace) :
    Reads md ls (t ++ r) := by
  induction ls generalizing md with
  | nil => trivial
  | cons x ls ih =>
    obtain ⟨hs, he, hrest⟩ := h
    refine ⟨hs, ?_, ih hrest fun ht y hy => hlast ht y ?_⟩
    · rw [← List.append_assoc]
      refine endsBefore_append_margin hr he fun hnil => ?_
      obtain ⟨hsrc, ht⟩ := List.append_eq_nil_iff.1 hnil
      have hls : ls = [] := by
        by_contra hne
        exact hrest.source_ne_nil hne hsrc
      exact hlast ht x (by rw [hls]; rfl)
    · rw [List.getLast?_cons, Option.mem_def.1 hy]
      rfl

theorem Reads.append_text (hr : ∀ c ∈ r, Text.isMargin c = true) {la : List Lexeme} {v : Text}
    (h : Reads .text (la ++ [⟨.text, v⟩]) []) : Reads .text (la ++ [⟨.text, v ++ r⟩]) [] := by
  obtain ⟨hla, -⟩ := reads_append.1 h
  have hs := h.shape_last.1
  have hmode := mode_of_text hs
  rw [hmode] at hs
  rw [source_cons, source_nil, List.append_nil, List.append_nil] at hla
  refine reads_append.2 ⟨?_, ?_⟩
  · rw [source_cons, source_nil, List.append_nil, List.append_nil]
    exact hla.append_margin hr fun hnil => absurd hnil hs.1
  · rw [hmode]
    exact ⟨⟨by simp [hs.1], literalLength_append_margin hr hs.2⟩, Or.inl rfl, trivial⟩

/-- One more piece after a text, none of whose pieces goes on in it. -/
theorem lexemes_concat {x : Lexeme} (hm : Reads .text (lexemes .text m) x.value)
    (hx : Reads (endMode .text (lexemes .text m)) [x] []) :
    lexemes .text (m ++ x.value) = lexemes .text m ++ [x] := by
  have hread : Reads .text (lexemes .text m ++ [x]) [] := by
    refine reads_append.2 ⟨?_, hx⟩
    rwa [source_cons, source_nil, List.append_nil, List.append_nil]
  have := hread.lexemes_source
  rwa [source_append, source_lexemes, source_cons, source_nil, List.append_nil] at this

/-- **A margin after a text that ends outside directives** is literal text. -/
theorem lexemes_append_margin (hr : ∀ c ∈ r, Text.isMargin c = true)
    (hm : endMode .text (lexemes .text m) = .text) :
    lexemes .text (m ++ r) = glue (lexemes .text m) (lexemes .text r) := by
  by_cases hne : r = []
  · subst hne
    rw [List.append_nil, lexemes_nil, glue_of_head (by simp), List.append_nil]
  have hread := reads_lexemes .text m
  by_cases hla : ∃ la v, lexemes .text m = la ++ [⟨.text, v⟩]
  · -- the margin is joined with the literal text before it
    obtain ⟨la, v, hla⟩ := hla
    have hsrc := source_lexemes .text m
    rw [hla] at hread hsrc
    have := (hread.append_text hr).lexemes_source
    rw [source_append, source_cons, source_nil, List.append_nil] at this hsrc
    rw [lexemes_margin hr hne, hla, glue_text, ← this, ← hsrc, List.append_assoc]
  · have hlast : ∀ x ∈ (lexemes .text m).getLast?, x.kind = .directiveClose := by
      rintro ⟨kind, v⟩ hx
      obtain ⟨la, h⟩ := List.getLast?_eq_some_iff.1 hx
      rw [h, endMode_append] at hm
      rcases modeAfter_eq_text hm with hk | hk
      · exact hk
      · obtain rfl : kind = .text := hk
        exact absurd ⟨la, v, h⟩ hla
    have hkind : ∀ x ∈ (lexemes .text m).getLast?, x.kind ≠ .text ∧ x.kind ≠ .whitespace := by
      intro x hx
      rw [hlast x hx]
      exact ⟨nofun, nofun⟩
    have hmargin := reads_lexemes .text r
    rw [lexemes_margin hr hne, ← hm] at hmargin
    rw [lexemes_margin hr hne, glue_of_last fun x hx => (hkind x hx).1]
    exact lexemes_concat (hread.append_margin hr fun _ => hkind) hmargin

theorem kind_of_getLast? (hm : endMode .text (lexemes .text m) = .directive)
    (hlast : ∀ c ∈ m.getLast?, isSpace c = false) :
    ∀ x ∈ (lexemes .text m).getLast?, x.kind ≠ .text ∧ x.kind ≠ .whitespace := by
  rintro ⟨kind, v⟩ hx
  obtain ⟨la, hla⟩ := List.getLast?_eq_some_iff.1 hx
  have hread := reads_lexemes .text m
  have hsrc := source_lexemes .text m
  rw [hla, source_append, source_cons, source_nil, List.append_nil] at hsrc
  rw [hla, endMode_append] at hm
  rw [hla] at hread
  constructor
  · rintro rfl
    cases hm
  · rintro rfl
    match endMode .text la, hread.shape_last.1 with
    | .directive, ⟨hv, hspace⟩ =>
      have hend : m.getLast? = some (v.getLast hv) := by
        rw [← hsrc, List.getLast?_append_of_ne_nil _ hv, List.getLast?_eq_some_getLast hv]
      have := hlast _ hend
      rw [hspace _ (List.getLast_mem hv)] at this
      cases this

/-- **A margin after a text that ends in a directive**, but not in whitespace, is whitespace. -/
theorem lexemes_append_space (hr : ∀ c ∈ r, Text.isMargin c = true) (hne : r ≠ [])
    (hm : endMode .text (lexemes .text m) = .directive)
    (hlast : ∀ c ∈ m.getLast?, isSpace c = false) :
    lexemes .text (m ++ r) = lexemes .text m ++ [⟨.whitespace, r⟩] := by
  have hspace : ∀ c ∈ r, isSpace c = true := by
    intro c hc
    have := hr c hc
    simp only [Text.isMargin, Bool.or_eq_true, decide_eq_true_eq] at this
    rcases this with (rfl | rfl) | rfl <;> decide
  refine lexemes_concat (x := ⟨.whitespace, r⟩) ?_ ?_
  · exact (reads_lexemes .text m).append_margin hr fun _ => kind_of_getLast? hm hlast
  · rw [hm]
    exact ⟨⟨hne, hspace⟩, nofun, trivial⟩

end PageFields.Lexer
