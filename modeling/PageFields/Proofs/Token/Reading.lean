import Mathlib.Data.List.TakeWhile
import PageFields.Proofs.Token.Literal

/-! # Readings: what the lexer does with a stretch of text

A step of the lexer is settled by the piece it takes (`Shape`) and by the few characters after it
that could have made the piece longer (`EndsBefore`). A list of pieces is a *reading* before the
text `t` if every piece has its shape and ends before what follows it (`Reads`); then the lexer
gives exactly these pieces and goes on with `t` (`Reads.lexemes_eq`). A reading that ends outside
directives does not depend on `t` (`Reads.before`): what follows may be cut off, or be replaced as
long as no quote that waits for its partner finds it there (`NoPartner`). -/

namespace PageFields.Lexer

/-- The mode after a piece of this kind. -/
def modeAfter : TokenKind → Mode
  | .text | .directiveClose => .text
  | _ => .directive

/-- The character opens and closes a quoted string. -/
def IsQuote (c : Char) : Prop := c = '"' ∨ c = '\x27'

/-- The lexer takes such a piece in this mode. -/
def Shape (mode : Mode) (l : Lexeme) : Prop :=
  match mode, l.kind with
  | .text, .text => l.value ≠ [] ∧ literalLength false l.value = l.value.length
  | .text, .directiveOpen =>
    l.value = ['{', '%'] ∨ l.value = ['{', '%', '-'] ∨ l.value = ['{', '%', '+']
  | .directive, .directiveClose =>
    l.value = ['%', '}'] ∨ l.value = ['-', '%', '}'] ∨ l.value = ['+', '%', '}']
  | .directive, .whitespace => l.value ≠ [] ∧ ∀ c ∈ l.value, isSpace c = true
  | .directive, .name =>
    ∃ c cs, l.value = c :: cs ∧ isNameStart c = true ∧ ∀ d ∈ cs, isNameRest d = true
  | .directive, .string => ∃ q cs, l.value = q :: cs ∧ IsQuote q ∧ quotedRest? q cs = some (cs, [])
  | .directive, .other => ∃ c, l.value = [c] ∧ isSpace c = false ∧ isNameStart c = false
  | _, _ => False

/-- The text `t` after the piece does not make it longer. -/
def EndsBefore (l : Lexeme) (t : Text) : Prop :=
  match l.kind with
  | .text => t = [] ∨ inComment false l.value = false ∧ ∃ r, t = '{' :: '%' :: r
  | .directiveOpen => l.value = ['{', '%'] → t.head? ≠ some '-' ∧ t.head? ≠ some '+'
  | .whitespace => ∀ c ∈ t.head?, isSpace c = false
  | .name => ∀ c ∈ t.head?, isNameRest c = false
  | .other =>
    (l.value = ['%'] → t.head? ≠ some '}') ∧
      (l.value = ['-'] ∨ l.value = ['+'] → t.take 2 ≠ ['%', '}']) ∧
      ∀ q, IsQuote q → l.value = [q] → quotedRest? q t = none
  | .directiveClose | .string => True

/-! ### One step -/

variable {α : Type} {p : α → Bool}

theorem takeWhile_of_ends {w t : List α} (hw : ∀ c ∈ w, p c = true)
    (ht : ∀ c ∈ t.head?, p c = false) :
    (w ++ t).takeWhile p = w ∧ (w ++ t).dropWhile p = t := by
  have hnil : t.takeWhile p = [] ∧ t.dropWhile p = t := by
    cases t with
    | nil => simp
    | cons c t => simp [ht c (by simp)]
  rw [List.takeWhile_append_of_pos hw, List.dropWhile_append_of_pos hw, hnil.1, hnil.2]
  simp

theorem head?_dropWhile_not (s : List α) :
    ∀ c ∈ (s.dropWhile p).head?, p c = false := by
  intro c hc
  have := List.head?_dropWhile_not p s
  rw [hc] at this
  simpa using this

theorem nextOutside_of_literal {s : Text} (h : 0 < literalLength false s) :
    nextOutside s =
      ⟨.text, s.take (literalLength false s), .text, s.drop (literalLength false s)⟩ := by
  have hs : ∀ r, s ≠ '{' :: '%' :: r := by
    rintro r rfl
    exact absurd (literalLength_eq_zero.2 (Or.inr ⟨rfl, r, rfl⟩)) (Nat.ne_of_gt h)
  rw [nextOutside, directiveStart_eq] <;> exact fun r hr => hs _ hr

theorem not_mark_of_isSpace {c : Char} (h : isSpace c = true) :
    c ≠ '%' ∧ ¬ (c = '-' ∨ c = '+') := by
  refine ⟨?_, ?_⟩
  · rintro rfl; exact absurd h (by decide)
  · rintro (rfl | rfl) <;> exact absurd h (by decide)

theorem not_mark_of_isNameStart {c : Char} (h : isNameStart c = true) :
    c ≠ '%' ∧ ¬ (c = '-' ∨ c = '+') ∧ isSpace c = false := by
  refine ⟨?_, ?_, ?_⟩
  · rintro rfl; exact absurd h (by decide)
  · rintro (rfl | rfl) <;> exact absurd h (by decide)
  · by_contra hc
    simp only [Bool.not_eq_false, isSpace, Bool.or_eq_true, decide_eq_true_eq] at hc
    rcases hc with ((rfl | rfl) | rfl) | rfl <;> exact absurd h (by decide)

theorem IsQuote.ne_break {c : Char} (h : IsQuote c) : c ≠ '\r' ∧ c ≠ '\n' := by
  rcases h with rfl | rfl <;> decide

theorem not_mark_of_isQuote {c : Char} (h : IsQuote c) :
    c ≠ '%' ∧ ¬ (c = '-' ∨ c = '+') ∧ isSpace c = false ∧ isNameStart c = false := by
  rcases h with rfl | rfl <;> decide

theorem quotedRest?_close (q : Char) (s : Text) : quotedRest? q (q :: s) = some ([q], s) := by
  rw [quotedRest?.eq_def]; simp

theorem quotedRest?_escape {q d : Char} (hq : q ≠ '\\') (hd : d ≠ '\n') (s : Text) :
    quotedRest? q ('\\' :: d :: s) =
      (quotedRest? q s).map fun (v, a) => ('\\' :: d :: v, a) := by
  rw [quotedRest?.eq_def]; simp [hq.symm, hd]

theorem quotedRest?_plain {q c : Char} (hq : c ≠ q) (hc : c ≠ '\\') (s : Text) :
    quotedRest? q (c :: s) = (quotedRest? q s).map fun (v, a) => (c :: v, a) := by
  rw [quotedRest?.eq_def]; simp [hq, hc]

theorem quotedRest?_append_right {q : Char} {s t v a : Text} (h : quotedRest? q s = some (v, a)) :
    quotedRest? q (s ++ t) = some (v, a ++ t) := by
  fun_induction quotedRest? q s generalizing v a with
  | case1 => simp at h
  | case2 rest =>
    obtain ⟨rfl, rfl⟩ : [q] = v ∧ rest = a := by simpa using h
    rw [List.cons_append, quotedRest?_close]
  | case3 => simp at h
  | case4 => simp at h
  | case5 d rest hd hq ih =>
    obtain ⟨⟨v', a'⟩, hv, he⟩ := Option.map_eq_some_iff.1 h
    obtain ⟨rfl, rfl⟩ : '\\' :: d :: v' = v ∧ a' = a := by simpa using he
    rw [List.cons_append, List.cons_append, quotedRest?_escape (Ne.symm hq) hd, ih hv,
      Option.map_some]
  | case6 c rest hq hc ih =>
    obtain ⟨⟨v', a'⟩, hv, he⟩ := Option.map_eq_some_iff.1 h
    obtain ⟨rfl, rfl⟩ : c :: v' = v ∧ a' = a := by simpa using he
    rw [List.cons_append, quotedRest?_plain hq hc, ih hv, Option.map_some]

theorem quotedRest?_self {q : Char} {s v a : Text} (h : quotedRest? q s = some (v, a)) :
    quotedRest? q v = some (v, []) := by
  fun_induction quotedRest? q s generalizing v a with
  | case1 => simp at h
  | case2 rest =>
    obtain ⟨rfl, -⟩ : [q] = v ∧ rest = a := by simpa using h
    exact quotedRest?_close q []
  | case3 => simp at h
  | case4 => simp at h
  | case5 d rest hd hq ih =>
    obtain ⟨⟨v', a'⟩, hv, he⟩ := Option.map_eq_some_iff.1 h
    obtain ⟨rfl, -⟩ : '\\' :: d :: v' = v ∧ a' = a := by simpa using he
    rw [quotedRest?_escape (Ne.symm hq) hd, ih hv, Option.map_some]
  | case6 c rest hq hc ih =>
    obtain ⟨⟨v', a'⟩, hv, he⟩ := Option.map_eq_some_iff.1 h
    obtain ⟨rfl, -⟩ : c :: v' = v ∧ a' = a := by simpa using he
    rw [quotedRest?_plain hq hc, ih hv, Option.map_some]

theorem quotedRest?_of_not_mem {q : Char} (hq : IsQuote q) {s : Text} (h : q ∉ s) :
    quotedRest? q s = none := by
  have hqb : q ≠ '\\' := by rcases hq with rfl | rfl <;> decide
  fun_induction quotedRest? q s with
  | case1 => rfl
  | case2 rest => exact absurd List.mem_cons_self h
  | case3 => rfl
  | case4 => rfl
  | case5 d rest _ _ ih =>
    rw [ih fun hm => h (List.mem_cons_of_mem _ (List.mem_cons_of_mem _ hm))]
    rfl
  | case6 c rest _ _ ih =>
    rw [ih fun hm => h (List.mem_cons_of_mem _ hm)]
    rfl

theorem quotedRest?_append_of_not_mem {q : Char} (hq : IsQuote q) {s t : Text} (ht : q ∉ t)
    (h : quotedRest? q s = none) : quotedRest? q (s ++ t) = none := by
  fun_induction quotedRest? q s with
  | case1 => exact quotedRest?_of_not_mem hq ht
  | case2 rest => cases h
  | case3 hqb =>
    -- the last backslash takes a character of the text along
    cases t with
    | nil => simp [quotedRest?, hqb]
    | cons d t =>
      by_cases hd : d = '\n'
      · simp [quotedRest?, hqb, hd]
      · rw [List.singleton_append, quotedRest?_escape (Ne.symm hqb) hd,
          quotedRest?_of_not_mem hq fun hm => ht (List.mem_cons_of_mem _ hm)]
        rfl
  | case4 rest hqb => simp [quotedRest?, hqb]
  | case5 d rest hd hqb ih =>
    rw [Option.map_eq_none_iff] at h
    rw [List.cons_append, List.cons_append, quotedRest?_escape (Ne.symm hqb) hd, ih h]
    rfl
  | case6 c rest hcq hcb ih =>
    rw [Option.map_eq_none_iff] at h
    rw [List.cons_append, quotedRest?_plain hcq hcb, ih h]
    rfl

theorem nextOutside_of_open {v t : Text} (hs : Shape .text ⟨.directiveOpen, v⟩)
    (ht : EndsBefore ⟨.directiveOpen, v⟩ t) :
    nextOutside (v ++ t) = ⟨.directiveOpen, v, .directive, t⟩ := by
  rcases hs with hv | hv | hv <;> obtain rfl : v = _ := hv
  · obtain ⟨h1, h2⟩ := ht rfl
    cases t with
    | nil => rfl
    | cons d t =>
      simp only [List.head?_cons, ne_eq, Option.some.injEq] at h1 h2
      simp [nextOutside, h1, h2]
  · rfl
  · rfl

/-- A character is a piece of its own when it starts no longer one. -/
theorem nextInside_of_other {c : Char} {t : Text} (hs : isSpace c = false)
    (hn : isNameStart c = false) (ht : EndsBefore ⟨.other, [c]⟩ t) :
    nextInside c t = ⟨.other, [c], .directive, t⟩ := by
  obtain ⟨hclose, hmark, hquote⟩ := ht
  by_cases h1 : c = '%'
  · have hx : t.head? ≠ some '}' := hclose (by rw [h1])
    simp only [nextInside, h1, if_true]
    split
    · simp at hx
    · rfl
  by_cases h2 : c = '-' ∨ c = '+'
  · have hx : t.take 2 ≠ ['%', '}'] := hmark (by simpa using h2)
    simp only [nextInside, h1, h2, if_true, if_false]
    split
    · simp at hx
    · rfl
  by_cases h3 : c = '"' ∨ c = '\x27'
  · simp [nextInside, h1, h2, h3, hs, hn, hquote c h3 rfl]
  · simp [nextInside, h1, h2, h3, hs, hn]

/-- A piece of the right shape that ends before `t` is the one that the lexer takes. -/
theorem next_of_shape {m : Mode} {l : Lexeme} {t : Text} (hs : Shape m l) (ht : EndsBefore l t)
    {c : Char} {cs : Text} (h : l.value ++ t = c :: cs) :
    next m c cs = ⟨l.kind, l.value, modeAfter l.kind, t⟩ := by
  obtain ⟨kind, v⟩ := l
  simp only at h
  match m, kind, hs with
  | .text, .text, hs =>
    have hlen : literalLength false (v ++ t) = v.length := literalLength_append_iff.2 ⟨hs.2, ht⟩
    have hpos : 0 < literalLength false (v ++ t) := hlen ▸ List.length_pos_iff.2 hs.1
    rw [next, ← h, nextOutside_of_literal hpos, hlen]
    simp [modeAfter]
  | .text, .directiveOpen, hs =>
    rw [next, ← h]
    exact nextOutside_of_open hs ht
  | .directive, .directiveClose, hs =>
    rcases hs with hv | hv | hv <;> obtain rfl : v = _ := hv <;> cases h <;> rfl
  | .directive, .whitespace, hs =>
    obtain ⟨d, w, rfl⟩ := List.exists_cons_of_ne_nil hs.1
    obtain ⟨rfl, rfl⟩ : d = c ∧ w ++ t = cs := by simpa using h
    have hd : isSpace d = true := hs.2 d (by simp)
    obtain ⟨h1, h2⟩ := not_mark_of_isSpace hd
    obtain ⟨e1, e2⟩ := takeWhile_of_ends (fun x hx => hs.2 x (List.mem_cons_of_mem _ hx)) ht
    simp only [next, nextInside, h1, h2, hd, e1, e2, modeAfter, if_false, if_true]
  | .directive, .name, hs =>
    obtain ⟨d, w, hv, hd, hw⟩ := hs
    obtain rfl : v = _ := hv
    obtain ⟨rfl, rfl⟩ : d = c ∧ w ++ t = cs := by simpa using h
    obtain ⟨h1, h2, h3⟩ := not_mark_of_isNameStart hd
    obtain ⟨e1, e2⟩ := takeWhile_of_ends hw ht
    simp only [next, nextInside, h1, h2, h3, hd, e1, e2, modeAfter, if_false, if_true,
      Bool.false_eq_true]
  | .directive, .string, hs =>
    obtain ⟨q, w, hv, hq, hw⟩ := hs
    obtain rfl : v = _ := hv
    obtain ⟨rfl, rfl⟩ : q = c ∧ w ++ t = cs := by simpa using h
    obtain ⟨h1, h2, h3, h4⟩ := not_mark_of_isQuote hq
    have hq' : q = '"' ∨ q = '\x27' := hq
    simp only [next, nextInside, h1, h2, h3, h4, hq', quotedRest?_append_right hw, List.nil_append,
      modeAfter, if_false, if_true, Bool.false_eq_true]
  | .directive, .other, hs =>
    obtain ⟨d, hv, hd, hn⟩ := hs
    obtain rfl : v = _ := hv
    obtain ⟨rfl, rfl⟩ : d = c ∧ t = cs := by simpa using h
    exact nextInside_of_other hd hn ht

/-- A step takes a piece of its shape that ends before the rest. -/
structure Step.Fits (m : Mode) (s : Step) : Prop where
  shape : Shape m ⟨s.kind, s.value⟩
  ends : EndsBefore ⟨s.kind, s.value⟩ s.rest
  mode : s.mode = modeAfter s.kind

theorem fits_nextOutside {s : Text} (hne : s ≠ []) : (nextOutside s).Fits .text := by
  rw [nextOutside.eq_def]
  split
  · exact ⟨Or.inr (Or.inl rfl), fun h => by simp at h, rfl⟩
  · exact ⟨Or.inr (Or.inr rfl), fun h => by simp at h, rfl⟩
  · rename_i rest h1 h2
    refine ⟨Or.inl rfl, fun _ => ⟨fun h => ?_, fun h => ?_⟩, rfl⟩
    · obtain ⟨t, rfl⟩ := List.head?_eq_some_iff.1 h
      exact h1 t rfl
    · obtain ⟨t, rfl⟩ := List.head?_eq_some_iff.1 h
      exact h2 t rfl
  · rename_i hs
    set n := directiveStart s with hn
    have hpos : 0 < n := directiveStart_pos hne fun r h => hs r h
    have hlen : (s.take n).length = n := by
      rw [List.length_take, hn, directiveStart_eq]
      exact Nat.min_eq_left (literalLength_le _ _)
    have hlit : literalLength false (s.take n ++ s.drop n) = (s.take n).length := by
      rw [List.take_append_drop, hlen, hn, directiveStart_eq]
    obtain ⟨h1, h2⟩ := literalLength_append_iff.1 hlit
    exact ⟨⟨List.length_pos_iff.1 (by rw [hlen]; exact hpos), h1⟩, h2, rfl⟩

theorem fits_nextInside (c : Char) (cs : Text) : (nextInside c cs).Fits .directive := by
  rw [nextInside.eq_def]
  by_cases h1 : c = '%'
  · subst h1
    simp only [if_true]
    split
    · exact ⟨Or.inl rfl, trivial, rfl⟩
    · rename_i h
      refine ⟨⟨'%', rfl, by decide, by decide⟩, ⟨fun _ hc => ?_, fun hc => ?_, fun q hq hc => ?_⟩,
        rfl⟩
      · obtain ⟨t, rfl⟩ := List.head?_eq_some_iff.1 hc
        exact h t rfl
      · simp at hc
      · rcases hq with rfl | rfl <;> simp at hc
  by_cases h2 : c = '-' ∨ c = '+'
  · simp only [h1, h2, if_true, if_false]
    split
    · exact ⟨Or.inr (by rcases h2 with rfl | rfl <;> simp), trivial, rfl⟩
    · rename_i h
      refine ⟨⟨c, rfl, ?_, ?_⟩, ⟨fun hc => ?_, fun _ hc => ?_, fun q hq hc => ?_⟩, rfl⟩
      · rcases h2 with rfl | rfl <;> decide
      · rcases h2 with rfl | rfl <;> decide
      · exact absurd (by simpa using hc) h1
      · have := List.take_append_drop 2 cs
        rw [hc] at this
        exact h _ this.symm
      · rcases hq with rfl | rfl <;> simp_all
  by_cases h3 : isSpace c = true
  · simp only [h1, h2, h3, if_true, if_false]
    refine ⟨⟨by simp, fun d hd => ?_⟩, head?_dropWhile_not cs, rfl⟩
    rcases List.mem_cons.1 hd with rfl | hd
    · exact h3
    · exact List.mem_takeWhile_imp hd
  by_cases h4 : isNameStart c = true
  · simp only [h1, h2, h3, h4, if_true, if_false, Bool.false_eq_true]
    exact ⟨⟨c, _, rfl, h4, fun d hd => List.mem_takeWhile_imp hd⟩, head?_dropWhile_not cs, rfl⟩
  have single : ∀ h : ∀ q, IsQuote q → c = q → quotedRest? q cs = none,
      (⟨.other, [c], .directive, cs⟩ : Step).Fits .directive := by
    intro h
    refine ⟨⟨c, rfl, by simpa using h3, by simpa using h4⟩,
      ⟨fun hc => ?_, fun hc => ?_, fun q hq hc => ?_⟩, rfl⟩
    · exact absurd (by simpa using hc) h1
    · exact absurd (by simpa using hc) h2
    · exact h q hq (by simpa using hc)
  by_cases h5 : c = '"' ∨ c = '\x27'
  · simp only [h1, h2, h3, h4, h5, if_true, if_false, Bool.false_eq_true]
    split
    · rename_i v a h
      exact ⟨⟨c, v, rfl, h5, quotedRest?_self h⟩, trivial, rfl⟩
    · rename_i h
      exact single fun q _ hc => hc ▸ h
  · simp only [h1, h2, h3, h4, h5, if_false, Bool.false_eq_true]
    exact single fun q hq hc => absurd (hc ▸ hq) h5

theorem fits_next (m : Mode) (c : Char) (cs : Text) : (next m c cs).Fits m := by
  cases m with
  | text => exact fits_nextOutside (List.cons_ne_nil c cs)
  | directive => exact fits_nextInside c cs

/-! ### Many steps -/

/-- The text of a list of pieces. -/
def source (ls : List Lexeme) : Text := ls.flatMap Lexeme.value

/-- The mode after a list of pieces. -/
def endMode : Mode → List Lexeme → Mode
  | m, [] => m
  | _, l :: ls => endMode (modeAfter l.kind) ls

/-- The pieces have their shapes, and each ends before what follows it; after the last one comes
`t`. -/
def Reads : Mode → List Lexeme → Text → Prop
  | _, [], _ => True
  | m, l :: ls, t => Shape m l ∧ EndsBefore l (source ls ++ t) ∧ Reads (modeAfter l.kind) ls t

@[simp] theorem source_nil : source [] = [] := rfl

@[simp] theorem source_cons (l : Lexeme) (ls : List Lexeme) :
    source (l :: ls) = l.value ++ source ls := rfl

@[simp] theorem source_append (ls ls' : List Lexeme) :
    source (ls ++ ls') = source ls ++ source ls' := List.flatMap_append

theorem source_lexemes (m : Mode) (s : Text) : source (lexemes m s) = s :=
  flatMap_value_lexemes m s

theorem endMode_append (m : Mode) (ls ls' : List Lexeme) :
    endMode m (ls ++ ls') = endMode (endMode m ls) ls' := by
  induction ls generalizing m with
  | nil => rfl
  | cons l ls ih => exact ih _

theorem value_ne_nil_of_shape {m : Mode} {l : Lexeme} (h : Shape m l) : l.value ≠ [] := by
  obtain ⟨kind, v⟩ := l
  match m, kind, h with
  | .text, .text, h => exact h.1
  | .text, .directiveOpen, h => rcases h with h | h | h <;> rw [h] <;> exact List.cons_ne_nil _ _
  | .directive, .directiveClose, h =>
    rcases h with h | h | h <;> rw [h] <;> exact List.cons_ne_nil _ _
  | .directive, .whitespace, h => exact h.1
  | .directive, .name, ⟨c, cs, h, _⟩ => rw [h]; exact List.cons_ne_nil _ _
  | .directive, .string, ⟨c, cs, h, _⟩ => rw [h]; exact List.cons_ne_nil _ _
  | .directive, .other, ⟨c, h, _⟩ => rw [h]; exact List.cons_ne_nil _ _

theorem reads_append {m : Mode} {ls ls' : List Lexeme} {t : Text} :
    Reads m (ls ++ ls') t ↔ Reads m ls (source ls' ++ t) ∧ Reads (endMode m ls) ls' t := by
  induction ls generalizing m with
  | nil => simp [Reads, endMode]
  | cons l ls ih => simp only [List.cons_append, Reads, endMode, ih, source_append,
      List.append_assoc, and_assoc]

theorem Reads.source_ne_nil {m : Mode} {ls : List Lexeme} {t : Text} (h : Reads m ls t)
    (hne : ls ≠ []) : source ls ≠ [] := by
  obtain ⟨l, ls, rfl⟩ := List.exists_cons_of_ne_nil hne
  simp [value_ne_nil_of_shape h.1]

/-- **The pieces that the lexer gives are a reading.** -/
theorem reads_lexemes (m : Mode) (s : Text) : Reads m (lexemes m s) [] := by
  fun_induction lexemes m s with
  | case1 => trivial
  | case2 m c cs ih =>
    have fits := fits_next m c cs
    refine ⟨fits.shape, ?_, fits.mode ▸ ih⟩
    rw [source_lexemes, List.append_nil]
    exact fits.ends

theorem shape_of_mem_lexemes {m : Mode} {s : Text} {l : Lexeme} (h : l ∈ lexemes m s) :
    ∃ m', Shape m' l := by
  obtain ⟨la, lb, hls⟩ := List.append_of_mem h
  have hr := reads_lexemes m s
  rw [hls] at hr
  exact ⟨_, (reads_append.1 hr).2.1⟩

/-- **A reading is what the lexer gives.** -/
theorem Reads.lexemes_eq {m : Mode} {ls : List Lexeme} {t : Text} (h : Reads m ls t) :
    lexemes m (source ls ++ t) = ls ++ lexemes (endMode m ls) t := by
  induction ls generalizing m with
  | nil => rfl
  | cons l ls ih =>
    obtain ⟨hs, he, hr⟩ := h
    obtain ⟨c, cs, hv⟩ := List.exists_cons_of_ne_nil (value_ne_nil_of_shape hs)
    have hcs : l.value ++ (source ls ++ t) = c :: (cs ++ (source ls ++ t)) := by
      rw [hv, List.cons_append]
    rw [source_cons, List.append_assoc, hcs, lexemes_cons, next_of_shape hs he hcs, ih hr]
    rfl

theorem Reads.lexemes_source {m : Mode} {ls : List Lexeme} (h : Reads m ls []) :
    lexemes m (source ls) = ls := by
  have := h.lexemes_eq
  rwa [List.append_nil, lexemes_nil, List.append_nil] at this

/-! ### What follows a reading -/

/-- The piece is a quote without its partner. -/
def LoneQuote (l : Lexeme) : Prop := l.kind = .other ∧ ∃ q, IsQuote q ∧ l.value = [q]

theorem LoneQuote.kind_ne_text {l : Lexeme} (h : LoneQuote l) : l.kind ≠ .text := by
  rw [h.1]
  decide

/-- No quote among the pieces that finds no partner in what `t` ends finds one where `t'` stands
instead. -/
def NoPartner (ls : List Lexeme) (t t' : Text) : Prop :=
  ∀ l ∈ ls, LoneQuote l → ∀ q s, IsQuote q → quotedRest? q (s ++ t) = none →
    quotedRest? q (s ++ t') = none

theorem NoPartner.of_paired {ls : List Lexeme} (h : ∀ l ∈ ls, ¬ LoneQuote l) (t t' : Text) :
    NoPartner ls t t' :=
  fun l hl hlone => absurd hlone (h l hl)

theorem NoPartner.of_cut (ls : List Lexeme) {t t' : Text} (h : t' <+: t) :
    NoPartner ls t t' := by
  obtain ⟨u, rfl⟩ := h
  intro l hl hlone q s hq hnone
  cases hv : quotedRest? q (s ++ t') with
  | none => rfl
  | some va =>
    rw [← List.append_assoc, quotedRest?_append_right hv] at hnone
    cases hnone

theorem NoPartner.of_not_mem (ls : List Lexeme) {t : Text} (h : ∀ c ∈ t, ¬ IsQuote c) :
    NoPartner ls [] t := by
  intro l hl hlone q s hq hnone
  rw [List.append_nil] at hnone
  exact quotedRest?_append_of_not_mem hq (fun hm => h q hm hq) hnone

theorem NoPartner.append {ls : List Lexeme} {t t' : Text} (h : NoPartner ls t t') (v : Text) :
    NoPartner ls (v ++ t) (v ++ t') := by
  intro l hl hlone q s hq hnone
  rw [← List.append_assoc] at hnone ⊢
  exact h l hl hlone q (s ++ v) hq hnone

theorem NoPartner.mono {ls ls' : List Lexeme} {t t' : Text} (h : NoPartner ls t t')
    (hsub : ls' ⊆ ls) : NoPartner ls' t t' :=
  fun l hl => h l (hsub hl)

theorem endsBefore_congr {l : Lexeme} {t t' : Text} (h : EndsBefore l t)
    (htake : t'.take 2 = t.take 2)
    (hquote : LoneQuote l → ∀ q, IsQuote q → quotedRest? q t = none → quotedRest? q t' = none) :
    EndsBefore l t' := by
  have hhead : t'.head? = t.head? := by
    simpa [List.head?_take] using congrArg List.head? htake
  have hmark : (∃ r, t = '{' :: '%' :: r) → ∃ r, t' = '{' :: '%' :: r := by
    rintro ⟨r, rfl⟩
    have := List.take_append_drop 2 t'
    rw [htake] at this
    exact ⟨_, this.symm⟩
  obtain ⟨kind, v⟩ := l
  match kind, h with
  | .text, h =>
    rcases h with rfl | ⟨hc, hr⟩
    · exact Or.inl (by simpa using htake)
    · exact Or.inr ⟨hc, hmark hr⟩
  | .directiveOpen, h => exact fun hv => by rw [hhead]; exact h hv
  | .whitespace, h => exact fun c hc => h c (by rwa [hhead] at hc)
  | .name, h => exact fun c hc => h c (by rwa [hhead] at hc)
  | .other, ⟨h1, h2, h3⟩ =>
    refine ⟨fun hv => by rw [hhead]; exact h1 hv, fun hv => by rw [htake]; exact h2 hv, ?_⟩
    exact fun q hq hv => hquote ⟨rfl, q, hq, hv⟩ q hq (h3 q hq hv)
  | .directiveClose, _ => trivial
  | .string, _ => trivial

/-- A reading that leads out of a directive has a closing delimiter. -/
theorem Reads.two_le {ls : List Lexeme} {t : Text} (h : Reads .directive ls t)
    (hm : endMode .directive ls = .text) : 2 ≤ (source ls).length := by
  induction ls with
  | nil => simp [endMode] at hm
  | cons l ls ih =>
    obtain ⟨hs, -, hr⟩ := h
    rw [source_cons, List.length_append]
    by_cases hc : l.kind = .directiveClose
    · obtain ⟨kind, v⟩ := l
      obtain rfl : kind = _ := hc
      rcases hs with hv | hv | hv <;> rw [hv, List.length_cons, List.length_cons] <;> omega
    · have hd : modeAfter l.kind = .directive := by
        obtain ⟨kind, v⟩ := l
        match kind, hs with
        | .whitespace, _ | .name, _ | .string, _ | .other, _ => rfl
        | .directiveClose, _ => exact absurd rfl hc
      rw [endMode, hd] at hm
      rw [hd] at hr
      have := ih hr hm
      omega

theorem Reads.two_le_of_mark {ls : List Lexeme} {t r : Text} (h : Reads .text ls t)
    (hne : ls ≠ []) (hr : source ls ++ t = '{' :: '%' :: r) : 2 ≤ (source ls).length := by
  obtain ⟨⟨kind, v⟩, ls, rfl⟩ := List.exists_cons_of_ne_nil hne
  obtain ⟨hs, he, -⟩ := h
  rw [source_cons, List.append_assoc] at hr
  match kind, hs with
  | .text, hs =>
    have hlen : literalLength false (v ++ (source ls ++ t)) = v.length :=
      literalLength_append_iff.2 ⟨hs.2, he⟩
    rw [hr, literalLength_eq_zero.2 (Or.inr ⟨rfl, r, rfl⟩)] at hlen
    exact absurd (List.length_eq_zero_iff.1 hlen.symm) hs.1
  | .directiveOpen, hs =>
    rcases hs with hv | hv | hv <;> obtain rfl : v = _ := hv <;> simp

/-- **A reading that ends outside directives does not depend on what follows**, as long as the last
piece ends there too and no quote may find a partner. -/
theorem Reads.before {m : Mode} {ls : List Lexeme} {t t' : Text} (h : Reads m ls t)
    (hm : endMode m ls = .text) (hlast : ∀ l ∈ ls.getLast?, EndsBefore l t')
    (hquote : NoPartner ls t t') : Reads m ls t' := by
  induction ls generalizing m with
  | nil => trivial
  | cons l ls ih =>
    obtain ⟨hs, he, hr⟩ := h
    by_cases hne : ls = []
    · subst hne
      exact ⟨hs, hlast l rfl, trivial⟩
    have hlast' : ∀ l ∈ ls.getLast?, EndsBefore l t' := fun x hx =>
      hlast x (by rw [List.getLast?_cons]; simp [Option.mem_def.1 hx])
    refine ⟨hs, ?_, ih hr hm hlast' (hquote.mono (List.subset_cons_self l ls))⟩
    -- two characters of the following pieces decide, but for a quote
    have htake : 2 ≤ (source ls).length → EndsBefore l (source ls ++ t') := by
      intro h2
      refine endsBefore_congr he ?_ fun hl q => hquote l List.mem_cons_self hl q (source ls)
      rw [List.take_append_of_le_length h2, List.take_append_of_le_length h2]
    obtain ⟨kind, v⟩ := l
    match m, kind, hs with
    | .text, .text, _ =>
      rcases he with hnil | ⟨-, r, hr'⟩
      · exact absurd (List.append_eq_nil_iff.1 hnil).1 (hr.source_ne_nil hne)
      · exact htake (hr.two_le_of_mark hne hr')
    | .text, .directiveOpen, _ => exact htake (hr.two_le hm)
    | .directive, .whitespace, _ => exact htake (hr.two_le hm)
    | .directive, .name, _ => exact htake (hr.two_le hm)
    | .directive, .string, _ => trivial
    | .directive, .other, _ => exact htake (hr.two_le hm)
    | .directive, .directiveClose, _ => trivial

end PageFields.Lexer
