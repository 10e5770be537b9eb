import PageFields.Proofs.Token.Reading

/-! # Lexing a concatenation

A text is *settled* if it ends outside directives and comments and no quote in it waits for its
partner (`Settled`). What follows such a text does not change how it is read, except that literal
text on both sides of the seam becomes one piece: `lexemes_append` says that the pieces of `a ++ b`
are those of `a` and of `b`, joined by `glue`. The seam itself must not complete a mark (`Seam`).
For one text `b` it is enough that no quote in `a` finds its partner in `b` (`SettledBefore`). -/

namespace PageFields.Lexer

/-- The last piece, if there is one, is a closing delimiter or literal text outside comments. -/
def EndsOutside (ls : List Lexeme) : Prop :=
  ∀ l ∈ ls.getLast?, l.kind = .directiveClose ∨ l.kind = .text ∧ inComment false l.value = false

/-- The pieces of the text are not changed by what follows. -/
structure Settled (s : Text) : Prop where
  outside : EndsOutside (lexemes .text s)
  paired : ∀ l ∈ lexemes .text s, ¬ LoneQuote l

/-- The pieces of `a` are not changed when `b` follows. -/
structure SettledBefore (a b : Text) : Prop where
  outside : EndsOutside (lexemes .text a)
  quotes : NoPartner (lexemes .text a) [] b

theorem Settled.before {a : Text} (h : Settled a) (b : Text) : SettledBefore a b :=
  ⟨h.outside, .of_paired h.paired _ _⟩

/-- The two texts do not meet in the middle of a mark. -/
def Seam (a b : Text) : Prop := a.getLast? = some '{' → b.head? ≠ some '%' ∧ b.head? ≠ some '#'

/-- Joins two lists of pieces, and literal text at the seam to one piece. -/
def glue (ls ls' : List Lexeme) : List Lexeme :=
  match ls.getLast?, ls' with
  | some ⟨.text, v⟩, ⟨.text, w⟩ :: rest => ls.dropLast ++ ⟨.text, v ++ w⟩ :: rest
  | _, _ => ls ++ ls'

@[simp] theorem glue_text (ls rest : List Lexeme) (v w : Text) :
    glue (ls ++ [⟨.text, v⟩]) (⟨.text, w⟩ :: rest) = ls ++ ⟨.text, v ++ w⟩ :: rest := by
  simp [glue]

theorem glue_of_last {ls ls' : List Lexeme} (h : ∀ l ∈ ls.getLast?, l.kind ≠ .text) :
    glue ls ls' = ls ++ ls' := by
  rw [glue.eq_def]
  split
  · rename_i v w rest hv
    exact absurd rfl (h _ hv)
  · rfl

theorem glue_of_head {ls ls' : List Lexeme} (h : ∀ l ∈ ls'.head?, l.kind ≠ .text) :
    glue ls ls' = ls ++ ls' := by
  rw [glue.eq_def]
  split
  · rename_i v w rest hv
    exact absurd rfl (h ⟨.text, w⟩ rfl)
  · rfl

theorem glue_cases (ls ls' : List Lexeme) :
    glue ls ls' = ls ++ ls' ∨ ∃ la v w lb, ls = la ++ [⟨.text, v⟩] ∧ ls' = ⟨.text, w⟩ :: lb := by
  rw [glue.eq_def]
  split
  · rename_i v w rest hv
    obtain ⟨la, rfl⟩ := List.getLast?_eq_some_iff.1 hv
    exact Or.inr ⟨la, v, w, rest, rfl, rfl⟩
  · exact Or.inl rfl

theorem mem_glue {ls ls' : List Lexeme} {l : Lexeme} (hk : l.kind ≠ .text) :
    l ∈ glue ls ls' ↔ l ∈ ls ∨ l ∈ ls' := by
  rcases glue_cases ls ls' with happ | ⟨la, v, w, lb, rfl, rfl⟩
  · rw [happ, List.mem_append]
  · have hne : ∀ v, l ≠ ⟨.text, v⟩ := by
      rintro v rfl
      exact hk rfl
    simp [hne]

theorem endsBefore_nil (l : Lexeme) : EndsBefore l [] := by
  obtain ⟨kind, v⟩ := l
  cases kind with
  | text => exact Or.inl rfl
  | directiveOpen => exact fun _ => by simp
  | whitespace => exact fun _ h => by simp at h
  | name => exact fun _ h => by simp at h
  | other => exact ⟨fun _ => by simp, fun _ => by simp, fun q _ _ => rfl⟩
  | directiveClose => trivial
  | string => trivial

theorem endMode_eq_text {ls : List Lexeme} (h : EndsOutside ls) : endMode .text ls = .text := by
  cases hl : ls.getLast? with
  | none => rw [List.getLast?_eq_none_iff.1 hl]; rfl
  | some l =>
    obtain ⟨ls', rfl⟩ := List.getLast?_eq_some_iff.1 hl
    rw [endMode_append, endMode, endMode]
    rcases h l hl with hk | ⟨hk, -⟩ <;> rw [hk] <;> rfl

theorem Reads.shape_last {m : Mode} {ls : List Lexeme} {l : Lexeme} {t : Text}
    (h : Reads m (ls ++ [l]) t) : Shape (endMode m ls) l ∧ EndsBefore l t := by
  obtain ⟨-, hs, he, -⟩ := reads_append.1 h
  exact ⟨hs, he⟩

theorem mode_of_text {m : Mode} {v : Text} (h : Shape m ⟨.text, v⟩) : m = .text := by
  cases m with
  | text => rfl
  | directive => exact h.elim

theorem not_mark_of_text {v t r : Text} (h : Shape .text ⟨.text, v⟩)
    (he : EndsBefore ⟨.text, v⟩ t) : v ++ t ≠ '{' :: '%' :: r := by
  intro hr
  have hlen : literalLength false (v ++ t) = v.length := literalLength_append_iff.2 ⟨h.2, he⟩
  rw [hr, literalLength_eq_zero.2 (Or.inr ⟨rfl, r, rfl⟩)] at hlen
  exact h.1 (List.length_eq_zero_iff.1 hlen.symm)

theorem modeAfter_eq_text {kind : TokenKind} (h : modeAfter kind = .text) :
    kind = .directiveClose ∨ kind = .text := by
  cases kind <;> first | exact .inl rfl | exact .inr rfl | cases h

theorem Reads.close_of_text {ls : List Lexeme} {v t : Text}
    (h : Reads .text (ls ++ [⟨.text, v⟩]) t) : ∀ l ∈ ls.getLast?, l.kind = .directiveClose := by
  intro l hl
  obtain ⟨ls, rfl⟩ := List.getLast?_eq_some_iff.1 hl
  obtain ⟨hs, he⟩ := h.shape_last
  obtain ⟨hr, -⟩ := reads_append.1 h
  obtain ⟨hs', he'⟩ := hr.shape_last
  have hm := mode_of_text hs
  rw [hm] at hs
  rw [endMode_append, endMode, endMode] at hm
  obtain ⟨kind, w⟩ := l
  rcases modeAfter_eq_text hm with hk | hk <;> obtain rfl : kind = _ := hk
  · rfl
  · rcases he' with hnil | ⟨-, r, hr'⟩
    · exact absurd (List.append_eq_nil_iff.1 hnil).1 (by simpa using hs.1)
    · exact absurd (by simpa using hr') (not_mark_of_text hs he)

theorem endsBefore_of_close {l : Lexeme} (h : l.kind = .directiveClose) (t : Text) :
    EndsBefore l t := by
  rw [EndsBefore, h]
  trivial

/-- Literal text ends before a text that does not go on with literal text. -/
theorem endsBefore_of_head {v t : Text} (hc : inComment false v = false)
    (ht : ∀ l ∈ (lexemes .text t).head?, l.kind ≠ .text) : EndsBefore ⟨.text, v⟩ t := by
  have hr := reads_lexemes .text t
  match hls : lexemes .text t with
  | [] => exact Or.inl (by rw [← source_lexemes .text t, hls]; rfl)
  | ⟨kind, w⟩ :: ls =>
    rw [hls] at hr ht
    refine Or.inr ⟨hc, ?_⟩
    rw [← source_lexemes .text t, hls, source_cons]
    match kind, hr.1 with
    | .text, _ => exact absurd rfl (ht _ rfl)
    | .directiveOpen, hs =>
      rcases hs with hv | hv | hv <;> obtain rfl : w = _ := hv <;> exact ⟨_, rfl⟩

theorem Reads.mode_before_text {ls : List Lexeme} {v t : Text}
    (h : Reads .text (ls ++ [⟨.text, v⟩]) t) : endMode .text ls = .text :=
  mode_of_text h.shape_last.1

theorem Reads.before_text {ls : List Lexeme} {v t t' : Text}
    (h : Reads .text (ls ++ [⟨.text, v⟩]) t) (hq : NoPartner ls (v ++ t) t') :
    Reads .text ls t' := by
  have hr := (reads_append.1 h).1
  rw [source_cons, source_nil, List.append_nil] at hr
  exact hr.before h.mode_before_text
    (fun l hl => endsBefore_of_close (h.close_of_text l hl) t') hq

/-- Literal text on both sides of the seam becomes one piece. -/
theorem Reads.join {la lb : List Lexeme} {v w : Text} (ha : Reads .text (la ++ [⟨.text, v⟩]) [])
    (hb : Reads .text (⟨.text, w⟩ :: lb) []) (hc : inComment false v = false) (hvw : Seam v w)
    (hq : NoPartner la [] (w ++ source lb)) : Reads .text (la ++ ⟨.text, v ++ w⟩ :: lb) [] := by
  have hm := ha.mode_before_text
  have hla : Reads .text la (v ++ (w ++ source lb)) := ha.before_text (hq.append v)
  obtain ⟨hsv, -⟩ := ha.shape_last
  rw [hm] at hsv
  obtain ⟨hsw, hew, hlb⟩ := hb
  refine reads_append.2 ⟨by simpa using hla, ?_⟩
  rw [hm]
  refine ⟨⟨by simp [hsv.1], ?_⟩, ?_, hlb⟩
  · simp only
    rw [literalLength_append hsv.2 (fun _ => hvw) (fun h => by rw [hc] at h; cases h), hc, hsw.2,
      List.length_append]
  · refine hew.imp_right fun ⟨hcw, hr⟩ => ⟨?_, hr⟩
    simp only
    rw [inComment_append (fun h => (hvw h).2) (fun h => by rw [hc] at h; cases h), hc, hcw]

/-- **Lexing a concatenation.** -/
theorem SettledBefore.lexemes_append {a b : Text} (ha : SettledBefore a b) (hab : Seam a b) :
    lexemes .text (a ++ b) = glue (lexemes .text a) (lexemes .text b) := by
  have hra := reads_lexemes .text a
  have hrb := reads_lexemes .text b
  have hm := endMode_eq_text ha.outside
  -- the pieces of `a` stand unchanged when the last one does
  have keep : (∀ l ∈ (lexemes .text a).getLast?, EndsBefore l b) →
      lexemes .text (a ++ b) = lexemes .text a ++ lexemes .text b := fun hl => by
    have := (hra.before hm hl ha.quotes).lexemes_eq
    rwa [source_lexemes, hm] at this
  cases hl : (lexemes .text a).getLast? with
  | none => rw [keep (by rw [hl]; simp), glue_of_last (by rw [hl]; simp)]
  | some l =>
    obtain ⟨la, hla⟩ := List.getLast?_eq_some_iff.1 hl
    rcases ha.outside l hl with hk | ⟨hk, hc⟩
    · rw [keep, glue_of_last]
      · rw [hl]; rintro _ ⟨⟩; rw [hk]; exact nofun
      · rw [hl]; rintro _ ⟨⟩; exact endsBefore_of_close hk b
    obtain ⟨kind, v⟩ := l
    obtain rfl : kind = .text := hk
    by_cases hb : ∃ w lb, lexemes .text b = ⟨.text, w⟩ :: lb
    · -- literal text on both sides
      obtain ⟨w, lb, hlb⟩ := hb
      rw [hla] at hra
      rw [hlb] at hrb
      have hva : a = source la ++ v := by rw [← source_lexemes .text a, hla]; simp
      have hwb : b = w ++ source lb := by rw [← source_lexemes .text b, hlb]; rfl
      have hseam : Seam v w := fun h => by
        obtain ⟨c, w, rfl⟩ := List.exists_cons_of_ne_nil (value_ne_nil_of_shape hrb.1)
        have := hab (by rw [hva, List.getLast?_append, h]; rfl)
        rwa [hwb] at this
      have hquotes : NoPartner la [] (w ++ source lb) := by
        rw [← hwb]
        exact ha.quotes.mono (by rw [hla]; exact List.subset_append_left _ _)
      have hread : Reads .text (la ++ ⟨.text, v ++ w⟩ :: lb) [] := hra.join hrb hc hseam hquotes
      have := hread.lexemes_source
      rw [hla, hlb, glue_text, ← this]
      congr 1
      rw [hva, hwb]
      simp
    · -- a directive or nothing follows
      have hhead : ∀ l ∈ (lexemes .text b).head?, l.kind ≠ .text := by
        rintro ⟨kind, w⟩ hl' rfl
        obtain ⟨lb, hlb⟩ := List.head?_eq_some_iff.1 hl'
        exact hb ⟨w, lb, hlb⟩
      rw [glue_of_head hhead, keep]
      rw [hl]
      rintro _ ⟨⟩
      exact endsBefore_of_head hc hhead

theorem lexemes_append {a b : Text} (ha : Settled a) (hab : Seam a b) :
    lexemes .text (a ++ b) = glue (lexemes .text a) (lexemes .text b) :=
  (ha.before b).lexemes_append hab

end PageFields.Lexer
