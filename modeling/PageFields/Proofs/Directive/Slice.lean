import PageFields.Directive
import PageFields.Proofs.Token.Concat

/-! # Slices: the segments of parts of a text

A text is cut at the boundary of two segments. Read on its own, the first part has the segments
before the cut, and the second part has those after it with the line numbers that go on
(`ofTextFrom_split`): the lexer is outside directives at the boundary, and what it had seen beyond
it did not matter. In the other direction, reading a concatenation step by step is reading its parts
one after another, for every step that takes literal text in portions (`foldlM_ofTextFrom_append`).
-/

namespace PageFields

/-- The token `k` lines further down. -/
def Token.moved (k : Nat) (t : Token) : Token := { t with line := t.line + k }

/-- The token on another line. -/
def Token.relined (g : Nat → Nat) (t : Token) : Token := { t with line := g t.line }

/-- The directive with its tokens changed. -/
def Directive.map (f : Token → Token) (d : Directive) : Directive :=
  ⟨f d.opening, d.inner.map f, d.closing.map f⟩

namespace Segment

open Lexer

/-- The segment with its tokens changed. -/
def map (f : Token → Token) : Segment → Segment
  | literal t => literal (f t)
  | directive d => directive (d.map f)

/-- The segments of a text that starts on the given line. -/
def ofTextFrom (line : Nat) (s : Text) : List Segment := ofTokens (number line (lexemes .text s))

theorem ofTextFrom_one (s : Text) : ofTextFrom 1 s = ofText s := rfl

/-- The text of a list of segments. -/
def sources (segs : List Segment) : Text := segs.flatMap source

@[simp] theorem sources_nil : sources [] = [] := rfl

@[simp] theorem sources_cons (seg : Segment) (segs : List Segment) :
    sources (seg :: segs) = seg.source ++ sources segs := rfl

@[simp] theorem sources_append (segs segs' : List Segment) :
    sources (segs ++ segs') = sources segs ++ sources segs' := List.flatMap_append

/-- A segment with its closing delimiter. -/
def isClosed : Segment → Bool
  | literal _ => true
  | directive d => d.isClosed

/-! ### Lines -/

theorem sources_of_number {line : Nat} {ls : List Lexeme} {segs : List Segment}
    (h : number line ls = segs.flatMap tokens) : sources segs = Lexer.source ls := by
  rw [sources, funext source_eq, ← List.flatMap_assoc, ← h, flatMap_value_number]
  rfl

theorem sources_ofTextFrom (line : Nat) (s : Text) : sources (ofTextFrom line s) = s := by
  rw [ofTextFrom, sources_of_number (flatMap_tokens_ofTokens _).symm, source_lexemes]

theorem number_add (line k : Nat) (ls : List Lexeme) :
    number (line + k) ls = (number line ls).map (Token.moved k) := by
  induction ls generalizing line with
  | nil => rfl
  | cons l ls ih =>
    rw [number, number, List.map_cons, Nat.add_right_comm, ih]
    rfl

theorem number_append (line : Nat) (ls ls' : List Lexeme) :
    number line (ls ++ ls') =
      number line ls ++ number (line + Text.lineFeeds (Lexer.source ls)) ls' := by
  induction ls generalizing line with
  | nil => rfl
  | cons l ls ih =>
    rw [List.cons_append, number, ih, number, source_cons, Text.lineFeeds_append, Nat.add_assoc]
    rfl

theorem map_number (line : Nat) (ls : List Lexeme) :
    (number line ls).map (fun t => (⟨t.kind, t.value⟩ : Lexeme)) = ls := by
  induction ls generalizing line with
  | nil => rfl
  | cons l ls ih => rw [number, List.map_cons, ih]

/-! ### Grouping -/

theorem staysInside_of_mem {ts : List Token} (h : ts.dropWhile staysInside = []) :
    ∀ t ∈ ts, staysInside t = true := by
  simpa [List.dropWhile_eq_nil_iff] using h

theorem not_staysInside {t : Token} (h : t.kind = .directiveClose) : staysInside t = false := by
  simp [staysInside, h]

theorem kind_of_dropWhile {t : Token} {ts rest : List Token}
    (h : ts.dropWhile staysInside = t :: rest) : t.kind = .directiveClose := by
  have := head?_dropWhile_not ts t (by rw [h]; rfl)
  simpa [staysInside] using this

theorem ofTokens_literal {t : Token} (h : t.kind ≠ .directiveOpen) (ts : List Token) :
    ofTokens (t :: ts) = .literal t :: ofTokens ts := by
  rw [ofTokens, if_neg h]

theorem ofTokens_unclosed {t : Token} {ts : List Token} (ho : t.kind = .directiveOpen)
    (hs : ∀ u ∈ ts, staysInside u = true) : ofTokens (t :: ts) = [.directive ⟨t, ts, none⟩] := by
  have hd : ts.dropWhile staysInside = [] := List.dropWhile_eq_nil_iff.2 hs
  rw [ofTokens, if_pos ho]
  split
  · rfl
  · rename_i h; rw [hd] at h; cases h

theorem ofTokens_closed {t c : Token} {ts : List Token} (ho : t.kind = .directiveOpen)
    (hs : ∀ u ∈ ts, staysInside u = true) (hc : c.kind = .directiveClose) (rest : List Token) :
    ofTokens (t :: (ts ++ c :: rest)) = .directive ⟨t, ts, some c⟩ :: ofTokens rest := by
  have hd : (ts ++ c :: rest).dropWhile staysInside = c :: rest := by
    rw [List.dropWhile_append_of_pos hs, List.dropWhile_cons, not_staysInside hc]
    rfl
  have ht : (ts ++ c :: rest).takeWhile staysInside = ts := by
    rw [List.takeWhile_append_of_pos hs, List.takeWhile_cons, not_staysInside hc]
    simp
  rw [ofTokens, if_pos ho]
  split
  · rename_i h; rw [hd] at h; cases h
  · rename_i h; rw [hd] at h; cases h; rw [ht]

/-- The tokens are grouped to this segment, whatever follows. -/
def IsWhole : Segment → Prop
  | literal t => t.kind ≠ .directiveOpen
  | directive d => d.opening.kind = .directiveOpen ∧ (∀ t ∈ d.inner, staysInside t = true) ∧
      ∃ t, d.closing = some t ∧ t.kind = .directiveClose

theorem ofTokens_tokens_append {seg : Segment} (h : seg.IsWhole) (ts : List Token) :
    ofTokens (seg.tokens ++ ts) = seg :: ofTokens ts := by
  match seg, h with
  | .literal t, h => exact ofTokens_literal h ts
  | .directive ⟨o, i, some c⟩, ⟨ho, hi, _, rfl, hc⟩ =>
    simpa [tokens] using ofTokens_closed ho hi hc ts

theorem ofTokens_flatMap_append {segs : List Segment} (h : ∀ seg ∈ segs, seg.IsWhole)
    (ts : List Token) : ofTokens (segs.flatMap tokens ++ ts) = segs ++ ofTokens ts := by
  induction segs with
  | nil => rfl
  | cons seg segs ih =>
    rw [List.flatMap_cons, List.append_assoc, ofTokens_tokens_append (h seg List.mem_cons_self),
      ih fun x hx => h x (List.mem_cons_of_mem _ hx), List.cons_append]

theorem isWhole_of_mem {ts : List Token} {seg : Segment} (h : seg ∈ ofTokens ts)
    (hc : seg.isClosed = true) : seg.IsWhole := by
  fun_induction ofTokens ts with
  | case1 => simp at h
  | case2 t ts ho hd =>
    rw [List.mem_singleton.1 h] at hc
    cases hc
  | case3 t ts ho c rest hd ih =>
    rcases List.mem_cons.1 h with rfl | h
    · exact ⟨ho, fun u hu => List.mem_takeWhile_imp hu, c, rfl, kind_of_dropWhile hd⟩
    · exact ih h
  | case4 t ts ho ih =>
    rcases List.mem_cons.1 h with rfl | h
    · exact ho
    · exact ih h

/-- Only the last segment may lack its closing delimiter. -/
theorem isClosed_of_ofTokens {ts : List Token} {segs segs' : List Segment}
    (h : ofTokens ts = segs ++ segs') (hne : segs' ≠ []) : ∀ seg ∈ segs, seg.isClosed = true := by
  fun_induction ofTokens ts generalizing segs with
  | case1 => exact absurd (List.append_eq_nil_iff.1 h.symm).2 hne
  | case2 t ts ho hd =>
    obtain rfl : segs = [] := by
      cases segs with
      | nil => rfl
      | cons seg segs =>
        have := (List.cons.inj h).2.symm
        exact absurd (List.append_eq_nil_iff.1 this).2 hne
    simp
  | case3 t ts ho c rest hd ih =>
    cases segs with
    | nil => simp
    | cons seg segs =>
      obtain ⟨rfl, h'⟩ := List.cons.inj h
      rintro x (_ | ⟨_, hx⟩)
      · rfl
      · exact ih h' x hx
  | case4 t ts ho ih =>
    cases segs with
    | nil => simp
    | cons seg segs =>
      obtain ⟨rfl, h'⟩ := List.cons.inj h
      rintro x (_ | ⟨_, hx⟩)
      · rfl
      · exact ih h' x hx

/-- One more token after a directive without its closing delimiter stands in the directive. -/
theorem ofTokens_concat {ts : List Token} {w : Token} (hw : staysInside w = true)
    (h : ¬ ∀ seg ∈ ofTokens ts, seg.isClosed = true) :
    ∃ segs d, ofTokens ts = segs ++ [.directive d] ∧
      ofTokens (ts ++ [w]) = segs ++ [.directive { d with inner := d.inner ++ [w] }] := by
  fun_induction ofTokens ts with
  | case1 => exact absurd (by simp) h
  | case2 t ts ho hd =>
    have hin : ∀ u ∈ ts ++ [w], staysInside u = true := by
      intro u hu
      rcases List.mem_append.1 hu with hu | hu
      · exact staysInside_of_mem hd u hu
      · rwa [List.mem_singleton.1 hu]
    exact ⟨[], ⟨t, ts, none⟩, rfl, ofTokens_unclosed ho hin⟩
  | case3 t ts ho c rest hd ih =>
    obtain ⟨segs, d, h1, h2⟩ := ih fun hrest =>
      h (by simpa [isClosed, Directive.isClosed] using hrest)
    have hts := List.takeWhile_append_dropWhile (p := staysInside) (l := ts)
    rw [hd] at hts
    refine ⟨.directive ⟨t, ts.takeWhile staysInside, some c⟩ :: segs, d, by rw [h1]; rfl, ?_⟩
    conv_lhs => rw [← hts, List.cons_append, List.append_assoc, List.cons_append]
    rw [ofTokens_closed ho (fun u hu => List.mem_takeWhile_imp hu) (kind_of_dropWhile hd), h2]
    rfl
  | case4 t ts ho ih =>
    obtain ⟨segs, d, h1, h2⟩ := ih fun hrest => h (by simpa [isClosed] using hrest)
    refine ⟨.literal t :: segs, d, by rw [h1]; rfl, ?_⟩
    rw [List.cons_append, ofTokens_literal ho, h2]
    rfl

/-! ### Changing tokens -/

theorem ofTokens_map {f : Token → Token} (hf : ∀ t, (f t).kind = t.kind) (ts : List Token) :
    ofTokens (ts.map f) = (ofTokens ts).map (map f) := by
  have hmap : ∀ us : List Token, (∀ u ∈ us, staysInside u = true) →
      ∀ u ∈ us.map f, staysInside u = true := by
    intro us hus u hu
    obtain ⟨v, hv, rfl⟩ := List.mem_map.1 hu
    have := hus v hv
    unfold staysInside at this ⊢
    rwa [hf]
  fun_induction ofTokens ts with
  | case1 => rw [List.map_nil, List.map_nil, ofTokens]
  | case2 t ts ho hd =>
    rw [List.map_cons, ofTokens_unclosed ((hf t).trans ho) (hmap ts (staysInside_of_mem hd))]
    rfl
  | case3 t ts ho c rest hd ih =>
    have hts := List.takeWhile_append_dropWhile (p := staysInside) (l := ts)
    rw [hd] at hts
    have hin : ∀ u ∈ ts.takeWhile staysInside, staysInside u = true :=
      fun u hu => List.mem_takeWhile_imp hu
    have hc : c.kind = .directiveClose := kind_of_dropWhile hd
    rw [List.map_cons, List.map_cons, ← ih]
    conv_lhs => rw [← hts, List.map_append, List.map_cons]
    exact ofTokens_closed ((hf t).trans ho) (hmap _ hin) ((hf c).trans hc) _
  | case4 t ts ho ih =>
    rw [List.map_cons, ofTokens_literal (by rwa [hf]), ih]
    rfl

theorem flatMap_tokens_map (f : Token → Token) (segs : List Segment) :
    (segs.map (map f)).flatMap tokens = (segs.flatMap tokens).map f := by
  have htokens : ∀ seg : Segment, (seg.map f).tokens = seg.tokens.map f := by
    intro seg
    match seg with
    | .literal t => rfl
    | .directive ⟨o, i, c⟩ => cases c <;> simp [map, Directive.map, tokens]
  rw [List.flatMap_map, List.map_flatMap]
  simp only [htokens]

theorem source_map {f : Token → Token} (hf : ∀ t, (f t).value = t.value) (seg : Segment) :
    (seg.map f).source = seg.source := by
  match seg with
  | .literal t => exact hf t
  | .directive ⟨o, i, c⟩ =>
    simp only [map, Directive.map, source, Directive.source, List.flatMap_map, hf]
    cases c with
    | none => rfl
    | some t => simp [hf]

theorem sources_map {f : Token → Token} (hf : ∀ t, (f t).value = t.value) (segs : List Segment) :
    sources (segs.map (map f)) = sources segs := by
  rw [sources, List.flatMap_map]
  simp only [source_map hf]
  rfl

theorem ofTextFrom_add (line k : Nat) (s : Text) :
    ofTextFrom (line + k) s = (ofTextFrom line s).map (map (Token.moved k)) := by
  rw [ofTextFrom, number_add, ofTokens_map (f := Token.moved k) (fun _ => rfl), ofTextFrom]

theorem ofTextFrom_eq_map (line : Nat) (s : Text) :
    ofTextFrom line s = (ofTextFrom 0 s).map (map (Token.moved line)) := by
  rw [← ofTextFrom_add, Nat.zero_add]

/-! ### Cutting -/

theorem number_eq_append {line : Nat} {ls : List Lexeme} {ts ts' : List Token}
    (h : number line ls = ts ++ ts') :
    ∃ la lb, ls = la ++ lb ∧ number line la = ts ∧
      number (line + Text.lineFeeds (Lexer.source la)) lb = ts' := by
  induction ts generalizing line ls with
  | nil => exact ⟨[], ls, rfl, rfl, h⟩
  | cons t ts ih =>
    cases ls with
    | nil => simp [number] at h
    | cons l ls =>
      obtain ⟨rfl, h'⟩ := List.cons.inj h
      obtain ⟨la, lb, rfl, rfl, rfl⟩ := ih h'
      refine ⟨l :: la, lb, rfl, rfl, ?_⟩
      rw [source_cons, Text.lineFeeds_append, Nat.add_assoc]

theorem endMode_directive {ls : List Lexeme} {t : Text} (hr : Reads .directive ls t)
    (h : ∀ l ∈ ls, l.kind ≠ .directiveClose) : endMode .directive ls = .directive := by
  induction ls with
  | nil => rfl
  | cons l ls ih =>
    obtain ⟨hs, -, hr⟩ := hr
    have hm : modeAfter l.kind = .directive := by
      have hc := h l List.mem_cons_self
      obtain ⟨kind, v⟩ := l
      match kind, hs with
      | .whitespace, _ | .name, _ | .string, _ | .other, _ => rfl
      | .directiveClose, _ => exact absurd rfl hc
    rw [hm] at hr
    rw [endMode, hm, ih hr fun x hx => h x (List.mem_cons_of_mem _ hx)]

theorem staysInside_of_number {line : Nat} {ls : List Lexeme}
    (h : ∀ l ∈ ls, l.kind ≠ .directiveClose) : ∀ t ∈ number line ls, staysInside t = true := by
  intro t ht
  have := h _ (mem_number ht)
  simpa [staysInside] using this

theorem exists_close (ls : List Lexeme) :
    (∀ l ∈ ls, l.kind ≠ .directiveClose) ∨ ∃ inner v rest,
      ls = inner ++ ⟨.directiveClose, v⟩ :: rest ∧ ∀ l ∈ inner, l.kind ≠ .directiveClose := by
  induction ls with
  | nil => exact Or.inl (by simp)
  | cons l ls ih =>
    obtain ⟨kind, v⟩ := l
    by_cases hk : kind = .directiveClose
    · exact Or.inr ⟨[], v, ls, by rw [hk]; rfl, by simp⟩
    rcases ih with h | ⟨inner, w, rest, rfl, h⟩
    · exact Or.inl (by simpa [hk] using h)
    · exact Or.inr ⟨⟨kind, v⟩ :: inner, w, rest, rfl, by simpa [hk] using h⟩

theorem ofTokens_number_text (line : Nat) (v : Text) (ls : List Lexeme) :
    ofTokens (number line (⟨.text, v⟩ :: ls)) =
      .literal ⟨line, .text, v⟩ :: ofTokens (number (line + Text.lineFeeds v) ls) := by
  have hk : TokenKind.text ≠ .directiveOpen := by decide
  rw [number, ofTokens_literal hk]

/-- All segments are closed exactly when the lexer ends outside directives. -/
theorem isClosed_iff {ls : List Lexeme} {t : Text} (hr : Reads .text ls t) (line : Nat) :
    (∀ seg ∈ ofTokens (number line ls), seg.isClosed = true) ↔ endMode .text ls = .text := by
  induction hn : ls.length using Nat.strongRecOn generalizing ls line with
  | ind n ih =>
    subst hn
    match ls, hr with
    | [], _ => simp [number, ofTokens, endMode]
    | ⟨.text, v⟩ :: ls, ⟨_, _, hr⟩ =>
      rw [ofTokens_number_text]
      have := ih ls.length (by simp) hr (line + Text.lineFeeds v) rfl
      simpa [isClosed, endMode, modeAfter] using this
    | ⟨.directiveOpen, v⟩ :: ls, ⟨_, _, hr⟩ =>
      change Reads .directive ls _ at hr
      change _ ↔ endMode .directive ls = .text
      rw [number]
      rcases exists_close ls with h | ⟨inner, w, rest, rfl, h⟩
      · rw [ofTokens_unclosed rfl (staysInside_of_number h), endMode_directive hr h]
        simp [isClosed, Directive.isClosed]
      · obtain ⟨hri, -, -, hrr⟩ := reads_append.1 hr
        rw [number_append, number, ofTokens_closed rfl (staysInside_of_number h) rfl,
          endMode_append]
        change _ ↔ endMode .text rest = .text
        have := ih rest.length (by simp only [List.length_append, List.length_cons]; omega) hrr
          (line + Text.lineFeeds v + Text.lineFeeds (Lexer.source inner) + Text.lineFeeds w) rfl
        rw [← this]
        simp [isClosed, Directive.isClosed]

theorem ofTokens_number_append {ls : List Lexeme} {t : Text} (hr : Reads .text ls t)
    (hm : endMode .text ls = .text) (line : Nat) (ts : List Token) :
    ofTokens (number line ls ++ ts) = ofTokens (number line ls) ++ ofTokens ts := by
  have hc := (isClosed_iff hr line).2 hm
  have := ofTokens_flatMap_append (fun seg hseg => isWhole_of_mem hseg (hc seg hseg)) ts
  rwa [flatMap_tokens_ofTokens] at this

/-- **The pieces on both sides of a boundary of segments** are read alike without the other side,
and a comment does not reach over the boundary. -/
theorem lexemes_split {line : Nat} {s : Text} {segs segs' : List Segment}
    (h : ofTextFrom line s = segs ++ segs') (hc : ∀ seg ∈ segs, seg.isClosed = true) :
    lexemes .text s = lexemes .text (sources segs) ++ lexemes .text (sources segs') ∧
      number line (lexemes .text (sources segs)) = segs.flatMap tokens ∧
      number (line + Text.lineFeeds (sources segs)) (lexemes .text (sources segs')) =
        segs'.flatMap tokens ∧
      (sources segs' ≠ [] → EndsOutside (lexemes .text (sources segs))) := by
  have htok : number line (lexemes .text s) = segs.flatMap tokens ++ segs'.flatMap tokens := by
    rw [← List.flatMap_append, ← h, ofTextFrom, flatMap_tokens_ofTokens]
  have hwhole : ∀ seg ∈ segs, seg.IsWhole := fun seg hseg =>
    isWhole_of_mem (by rw [ofTextFrom] at h; rw [h]; exact List.mem_append_left _ hseg)
      (hc seg hseg)
  obtain ⟨la, lb, hls, hla, hlb⟩ := number_eq_append htok
  have hread := reads_lexemes .text s
  rw [hls] at hread
  obtain ⟨hra, hrb⟩ := reads_append.1 hread
  have hm : endMode .text la = .text := by
    rw [← isClosed_iff hra line, hla]
    have := ofTokens_flatMap_append hwhole []
    rw [List.append_nil, ofTokens, List.append_nil] at this
    rw [this]
    exact hc
  have hea : lexemes .text (sources segs) = la := by
    rw [sources_of_number hla]
    exact (hra.before hm (fun l _ => endsBefore_nil l) (.of_cut _ (by simp))).lexemes_source
  have heb : lexemes .text (sources segs') = lb := by
    rw [hm] at hrb
    rw [sources_of_number hlb, hrb.lexemes_source]
  rw [hea, heb, sources_of_number hla]
  refine ⟨hls, hla, hlb, fun hne l hl => ?_⟩
  obtain ⟨la, rfl⟩ := List.getLast?_eq_some_iff.1 hl
  obtain ⟨hs, he⟩ := hra.shape_last
  rw [endMode_append, endMode, endMode] at hm
  obtain ⟨kind, v⟩ := l
  rcases modeAfter_eq_text hm with hk | hk <;> obtain rfl : kind = _ := hk
  · exact Or.inl rfl
  · rcases he with hnil | ⟨hv, -⟩
    · rw [sources_of_number hlb] at hne
      exact absurd (by simpa using hnil) hne
    · exact Or.inr ⟨rfl, hv⟩

/-- **The segments on both sides of a boundary** are those of the two texts. -/
theorem ofTextFrom_split {line : Nat} {s : Text} {segs segs' : List Segment}
    (h : ofTextFrom line s = segs ++ segs') (hc : ∀ seg ∈ segs, seg.isClosed = true) :
    ofTextFrom line (sources segs) = segs ∧
      ofTextFrom (line + Text.lineFeeds (sources segs)) (sources segs') = segs' := by
  obtain ⟨hls, hla, hlb, -⟩ := lexemes_split h hc
  have hwhole : ∀ seg ∈ segs, seg.IsWhole := fun seg hseg =>
    isWhole_of_mem (by rw [ofTextFrom] at h; rw [h]; exact List.mem_append_left _ hseg)
      (hc seg hseg)
  have e1 : ofTextFrom line (sources segs) = segs := by
    rw [ofTextFrom, hla, ← List.append_nil (segs.flatMap tokens), ofTokens_flatMap_append hwhole,
      ofTokens, List.append_nil]
  refine ⟨e1, ?_⟩
  have hs : number line (lexemes .text s) = segs.flatMap tokens ++ segs'.flatMap tokens := by
    rw [hls, number_append, hla, source_lexemes, hlb]
  rw [ofTextFrom, hs, ofTokens_flatMap_append hwhole] at h
  rw [ofTextFrom, hlb]
  exact List.append_cancel_left h

variable {line : Nat} {s : Text} {seg : Segment} {rest : List Segment}

theorem ofTextFrom_cons (h : ofTextFrom line s = seg :: rest) (hc : seg.isClosed = true) :
    s = seg.source ++ sources rest ∧
      ofTextFrom (line + Text.lineFeeds seg.source) (sources rest) = rest := by
  have hsrc := sources_ofTextFrom line s
  rw [h, sources_cons] at hsrc
  have h' : ofTextFrom line s = [seg] ++ rest := h
  have hsplit := (ofTextFrom_split h' (by simpa using hc)).2
  rw [sources_cons, sources_nil, List.append_nil] at hsplit
  exact ⟨hsrc.symm, hsplit⟩

theorem line_of_ofTextFrom {d : Directive} (h : ofTextFrom line s = .directive d :: rest) :
    d.line = line := by
  have htok : Lexer.number line (Lexer.lexemes .text s) =
      (Segment.directive d :: rest).flatMap tokens := by
    rw [← h, ofTextFrom, flatMap_tokens_ofTokens]
  rw [List.flatMap_cons, tokens, List.cons_append, List.cons_append] at htok
  cases hl : Lexer.lexemes .text s with
  | nil =>
    rw [hl] at htok
    cases htok
  | cons l ls =>
    rw [hl, Lexer.number] at htok
    rw [Directive.line, ← (List.cons.inj htok).1]

/-! ### Joining -/

variable {σ : Type} {m : Type → Type} [Monad m] [LawfulMonad m]

/-- The step takes literal text in portions. -/
def TakesPortions (f : σ → Segment → m σ) : Prop :=
  ∀ x line v w, f x (.literal ⟨line, .text, v ++ w⟩) =
    f x (.literal ⟨line, .text, v⟩) >>= fun y =>
      f y (.literal ⟨line + Text.lineFeeds v, .text, w⟩)

/-- Where the pieces of the parts are joined, reading goes from one part to the other. -/
theorem foldlM_ofTextFrom_glue {f : σ → Segment → m σ} (hf : TakesPortions f) {a b : Text}
    (hm : endMode .text (lexemes .text a) = .text)
    (hglue : lexemes .text (a ++ b) = glue (lexemes .text a) (lexemes .text b)) (line : Nat)
    (x : σ) : (ofTextFrom line (a ++ b)).foldlM f x =
      (ofTextFrom line a).foldlM f x >>= fun y =>
        (ofTextFrom (line + Text.lineFeeds a) b).foldlM f y := by
  have hra := reads_lexemes .text a
  rcases glue_cases (lexemes .text a) (lexemes .text b) with happ | ⟨la, v, w, lb, hla, hlb⟩
  · rw [happ] at hglue
    rw [ofTextFrom, hglue, number_append, ofTokens_number_append hra hm, source_lexemes,
      List.foldlM_append, ofTextFrom, ofTextFrom]
  -- literal text on both sides
  rw [hla, hlb, glue_text] at hglue
  rw [hla] at hra
  have hmla : endMode .text la = .text := mode_of_text hra.shape_last.1
  have hrla := (reads_append.1 hra).1
  have hlines : line + Text.lineFeeds a = line + Text.lineFeeds (Lexer.source la) +
      Text.lineFeeds v := by
    rw [← source_lexemes .text a, hla]
    simp [Nat.add_assoc]
  rw [ofTextFrom, hglue, ofTextFrom, hla, ofTextFrom, hlb, number_append, number_append,
    ofTokens_number_append hrla hmla, ofTokens_number_append hrla hmla, ofTokens_number_text,
    ofTokens_number_text, ofTokens_number_text, number, ofTokens, List.foldlM_append,
    List.foldlM_append, hlines, Text.lineFeeds_append, ← Nat.add_assoc]
  simp only [List.foldlM_cons, List.foldlM_nil, hf _ _ v w, bind_assoc, bind_pure]

/-- **Reading a concatenation** is reading its parts one after another. -/
theorem foldlM_ofTextFrom_before {f : σ → Segment → m σ} (hf : TakesPortions f) {a b : Text}
    (ha : SettledBefore a b) (hab : Seam a b) (line : Nat) (x : σ) :
    (ofTextFrom line (a ++ b)).foldlM f x =
      (ofTextFrom line a).foldlM f x >>= fun y =>
        (ofTextFrom (line + Text.lineFeeds a) b).foldlM f y :=
  foldlM_ofTextFrom_glue hf (endMode_eq_text ha.outside) (ha.lexemes_append hab) line x

theorem foldlM_ofTextFrom_append {f : σ → Segment → m σ} (hf : TakesPortions f) {a b : Text}
    (ha : Settled a) (hab : Seam a b) (line : Nat) (x : σ) :
    (ofTextFrom line (a ++ b)).foldlM f x =
      (ofTextFrom line a).foldlM f x >>= fun y =>
        (ofTextFrom (line + Text.lineFeeds a) b).foldlM f y :=
  foldlM_ofTextFrom_before hf (ha.before b) hab line x

end Segment

end PageFields
