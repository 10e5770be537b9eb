import PageFields.Proofs.Directive.Nesting
import PageFields.Proofs.Token.Margin

/-! # The normal form of a self-contained text

Normalizing unifies line breaks, which keeps all pieces (`SelfContained.unifyBreaks`), and cuts off
the margins at both ends, which are literal text (`SelfContained.of_margin_append`,
`SelfContained.of_append_margin`). So the normal form of a self-contained text is self-contained, as
long as no backslash meets a line feed that was a carriage return before. -/

namespace PageFields

open Lexer Segment

/-! ### Line breaks -/

/-- The token without its line and with its line breaks unified; a name has none. -/
def Token.unified (t : Token) : Token :=
  ⟨0, t.kind, if t.kind = .name then t.value else Text.unifyBreaks t.value⟩

namespace Segment

theorem keepsNames_unified : KeepsNames Token.unified :=
  ⟨fun _ => rfl, fun t ht => by rw [Token.unified, if_pos ht]⟩

theorem value_unified {line : Nat} {s : Text} {t : Token} (h : t ∈ number line (lexemes .text s)) :
    t.unified.value = Text.unifyBreaks t.value := by
  obtain ⟨m, hs⟩ := shape_of_mem_lexemes (mem_number h)
  obtain ⟨line, kind, v⟩ := t
  unfold Token.unified
  split
  · rename_i hk
    obtain rfl : kind = .name := hk
    exact (Text.unifyBreaks_of_not_mem (not_mem_name hs)).symm
  · rfl

theorem map_relined_number (ls : List Lexeme) (line line' : Nat)
    (h : ∀ t ∈ number line' ls, t.unified.value = Text.unifyBreaks t.value) :
    (number line (ls.map Lexeme.unified)).map (Token.relined fun _ => 0) =
      (number line' ls).map Token.unified := by
  induction ls generalizing line line' with
  | nil => rfl
  | cons l ls ih =>
    rw [number] at h
    rw [List.map_cons, number, number, List.map_cons, List.map_cons,
      ih _ _ fun t ht => h t (List.mem_cons_of_mem _ ht)]
    congr 1
    exact congrArg (Token.mk 0 l.kind) (h _ List.mem_cons_self).symm

/-- **Unifying the line breaks of a text unifies those of its segments**, on other lines. -/
theorem ofText_unifyBreaks {s : Text} (he : ∀ l ∈ lexemes .text s, KeepsEscapes l) :
    (ofText (Text.unifyBreaks s)).map (map (Token.relined fun _ => 0)) =
      (ofText s).map (map Token.unified) := by
  rw [← ofTextFrom_one, ← ofTextFrom_one, ofTextFrom, ofTextFrom, lexemes_unifyBreaks he,
    ← ofTokens_map (keepsNames_relined _).kind, ← ofTokens_map keepsNames_unified.kind,
    map_relined_number _ 1 1 fun _ ht => value_unified ht]

theorem sources_map_unified {s : Text} {segs : List Segment} (h : segs <:+: ofText s) :
    sources (segs.map (map Token.unified)) = Text.unifyBreaks (sources segs) := by
  obtain ⟨a, b, hab⟩ := h
  have htok : number 1 (lexemes .text s) =
      a.flatMap tokens ++ (segs.flatMap tokens ++ b.flatMap tokens) := by
    rw [← List.flatMap_append, ← List.flatMap_append, ← List.append_assoc, hab, ofText,
      flatMap_tokens_ofTokens]
    rfl
  obtain ⟨la, lrest, hls, -, hrest⟩ := number_eq_append htok
  obtain ⟨lc, lb, rfl, hc, -⟩ := number_eq_append hrest
  have hread := reads_lexemes .text s
  rw [hls] at hread
  have hread := (reads_append.1 (reads_append.1 hread).2).1
  have hvalue : ∀ t ∈ number (1 + Text.lineFeeds (Lexer.source la)) lc,
      t.unified.value = Text.unifyBreaks t.value := by
    intro t ht
    have hmem : t ∈ number 1 (lexemes .text s) := by
      rw [htok, ← hc]
      exact List.mem_append_right _ (List.mem_append_left _ ht)
    exact value_unified hmem
  have hmap : (segs.map (map Token.unified)).flatMap tokens =
      (number 1 (lc.map Lexeme.unified)).map (Token.relined fun _ => 0) := by
    rw [flatMap_tokens_map, ← hc, map_relined_number _ 1 _ hvalue]
  rw [sources_of_number hc, ← hread.source_map_unified, sources, funext source_eq,
    ← List.flatMap_assoc, hmap, List.flatMap_map]
  exact flatMap_value_number _ _

theorem depthAfter_unifyBreaks {s : Text} (he : ∀ l ∈ lexemes .text s, KeepsEscapes l) (n : Nat) :
    depthAfter n (ofText (Text.unifyBreaks s)) = depthAfter n (ofText s) := by
  rw [← depthAfter_map (keepsNames_relined fun _ => 0), ofText_unifyBreaks he,
    depthAfter_map keepsNames_unified]

/-! ### Margins -/

variable {m r : Text}

theorem ofTextFrom_margin (hr : ∀ c ∈ r, Text.isMargin c = true) (line : Nat) :
    ofTextFrom line r = [] ∨ ofTextFrom line r = [.literal ⟨line, .text, r⟩] := by
  by_cases hne : r = []
  · subst hne
    rw [ofTextFrom, lexemes_nil, number, ofTokens]
    exact Or.inl rfl
  · rw [ofTextFrom, lexemes_margin hr hne, ofTokens_number_text, number, ofTokens]
    exact Or.inr rfl

/-- A margin after a directive that is left open stands in the directive, and none of its words
changes. -/
theorem ofText_append_space (hr : ∀ c ∈ r, Text.isMargin c = true)
    (hm : endMode .text (lexemes .text m) = .directive)
    (hlast : ∀ c ∈ m.getLast?, isSpace c = false) :
    ∃ segs d inner, ofText m = segs ++ [.directive d] ∧
      ofText (m ++ r) = segs ++ [.directive { d with inner }] ∧
      Directive.words { d with inner } = d.words := by
  have hopen : ¬ ∀ seg ∈ ofText m, seg.isClosed = true := by
    rw [ofText, tokenize, isClosed_iff (reads_lexemes .text m), hm]
    simp
  by_cases hne : r = []
  · obtain ⟨segs, d, hd, -⟩ := ofTokens_concat (w := ⟨0, .whitespace, []⟩) rfl hopen
    exact ⟨segs, d, d.inner, hd, by rw [hne, List.append_nil]; exact hd, rfl⟩
  · let w : Token := ⟨1 + Text.lineFeeds (Lexer.source (lexemes .text m)), .whitespace, r⟩
    obtain ⟨segs, d, hd, hd'⟩ := ofTokens_concat (w := w) rfl hopen
    refine ⟨segs, d, d.inner ++ [w], hd, ?_, ?_⟩
    · rw [← ofTextFrom_one, ofTextFrom, lexemes_append_space hr hne hm hlast, number_append]
      exact hd'
    · simp [Directive.words, Token.isSignificant, w]

end Segment

namespace SelfContained

theorem loneQuote_of_unified {m : Mode} {l : Lexeme} (hs : Shape m l) (h : LoneQuote l.unified) :
    LoneQuote l := by
  obtain ⟨kind, v⟩ := l
  obtain ⟨hk, q, hq, hv⟩ := h
  obtain rfl : kind = .other := hk
  match m, hs with
  | .directive, ⟨c, hc, hsp, _⟩ =>
    obtain rfl : v = _ := hc
    have hu : (Lexeme.unified ⟨.other, [c]⟩).value = [c] :=
      Text.unifyBreaks_cons (ne_return_of_not_isSpace hsp).1 []
    exact ⟨rfl, q, hq, hu.symm.trans hv⟩

theorem unifyBreaks {s : Text} (h : SelfContained s) (he : ¬ HasEscapedReturn s) :
    SelfContained (Text.unifyBreaks s) := by
  obtain ⟨⟨ho, hq⟩, hn⟩ := iff_settled.1 h
  have hls := lexemes_unifyBreaks (keepsEscapes_of_mem he)
  refine iff_settled.2 ⟨⟨fun l hl => ?_, fun l hl hlone => ?_⟩, ?_⟩
  · rw [hls, List.getLast?_map] at hl
    obtain ⟨l, hlast, rfl⟩ := Option.map_eq_some_iff.1 hl
    rcases ho l hlast with hk | ⟨hk, hc⟩
    · exact Or.inl hk
    · obtain ⟨m, hs⟩ := shape_of_mem_lexemes (List.mem_of_getLast? hlast)
      obtain ⟨kind, v⟩ := l
      obtain rfl : kind = .text := hk
      match m, hs with
      | .text, hs => exact Or.inr ⟨rfl, (literal_unifyBreaks hs.2).2.trans hc⟩
  · rw [hls] at hl
    obtain ⟨l, hmem, rfl⟩ := List.mem_map.1 hl
    obtain ⟨m, hs⟩ := shape_of_mem_lexemes hmem
    exact hq l hmem (loneQuote_of_unified hs hlone)
  · rw [depthAfter_unifyBreaks (keepsEscapes_of_mem he)]
    exact hn

/-! ### Margins -/

variable {l m r : Text}

theorem depthAfter_margin (h : ∀ c ∈ l, Text.isMargin c = true) (n : Nat) :
    depthAfter n (ofText l) = some n := by
  rcases ofTextFrom_margin h 1 with hl | hl
  · rw [← ofTextFrom_one, hl, depthAfter_nil]
  · rw [← ofTextFrom_one, hl]
    rfl

theorem of_margin_append (hl : ∀ c ∈ l, Text.isMargin c = true) (h : SelfContained (l ++ m)) :
    SelfContained m := by
  obtain ⟨⟨ho, hq⟩, hn⟩ := iff_settled.1 h
  have hsl := settled_margin hl
  have hseam := seam_margin_left hl m
  rw [depthAfter_text_append hsl hseam, depthAfter_margin hl, Option.bind_some] at hn
  by_cases hne : l = []
  · subst hne
    exact h
  have hglue := lexemes_append hsl hseam
  rw [lexemes_margin hl hne] at hglue
  rw [hglue] at ho hq
  refine iff_settled.2 ⟨⟨endsOutside_of_margin_glue hl ho, fun x hx hlone => ?_⟩, hn⟩
  exact hq x ((mem_glue hlone.kind_ne_text).2 (Or.inr hx)) hlone

theorem getLast?_close {m : Mode} {l : Lexeme} (h : Shape m l) (hk : l.kind = .directiveClose) :
    l.value.getLast? = some '}' := by
  obtain ⟨kind, v⟩ := l
  obtain rfl : kind = _ := hk
  match m, h with
  | .directive, h => rcases h with hv | hv | hv <;> obtain rfl : v = _ := hv <;> rfl

theorem getLast?_source {la : List Lexeme} {t : Text} {m : Mode} (h : Reads m la t)
    {l : Lexeme} (hl : la.getLast? = some l) (hk : l.kind = .directiveClose) :
    (Lexer.source la).getLast? = some '}' := by
  obtain ⟨lb, rfl⟩ := List.getLast?_eq_some_iff.1 hl
  rw [source_append, source_cons, source_nil, List.append_nil, List.getLast?_append,
    getLast?_close h.shape_last.1 hk]
  rfl

/-- Where a text goes on with a margin, its last piece holds the margin. -/
theorem exists_last_text {t : Text} (hr : ∀ c ∈ r, Text.isMargin c = true) (hne : r ≠ [])
    (h : EndsOutside (lexemes .text (t ++ r))) : ∃ la v, t = Lexer.source la ++ v ∧
      lexemes .text (t ++ r) = la ++ [⟨.text, v ++ r⟩] := by
  have hread := reads_lexemes .text (t ++ r)
  have hsrc := source_lexemes .text (t ++ r)
  have margin : ∀ {u : Text}, (∀ c ∈ u, c ∈ r) → u.getLast? ≠ some '}' := fun hu hc =>
    absurd rfl (not_mark_of_isMargin (hr _ (hu _ (List.mem_of_getLast? hc)))).2.2.2
  obtain ⟨la, x, hla⟩ : ∃ la x, lexemes .text (t ++ r) = la ++ [x] := by
    rcases List.eq_nil_or_concat' (lexemes .text (t ++ r)) with hnil | hcons
    · rw [hnil] at hsrc
      exact absurd (List.append_eq_nil_iff.1 hsrc.symm).2 hne
    · exact hcons
  rw [hla] at hread hsrc
  rcases h x (by rw [hla, List.getLast?_concat]; rfl) with hk | ⟨hk, -⟩
  · have hlast := getLast?_source hread List.getLast?_concat hk
    rw [hsrc, List.getLast?_append_of_ne_nil t hne] at hlast
    exact absurd hlast (margin fun _ hc => hc)
  obtain ⟨kind, w⟩ := x
  obtain rfl : kind = .text := hk
  rw [source_append, source_cons, source_nil, List.append_nil] at hsrc
  rcases List.append_eq_append_iff.1 hsrc with ⟨v, ht, hw⟩ | ⟨u, hla', hru⟩
  · exact ⟨la, v, ht, by rw [hla]; exact congrArg (fun w => la ++ [⟨.text, w⟩]) hw⟩
  -- the piece before the text is a directive, and its last character is no margin
  by_cases hu : u = []
  · subst hu
    refine ⟨la, [], by simpa using hla'.symm, ?_⟩
    rw [hla, hru]
    rfl
  · exfalso
    have hmem : ∀ c ∈ u, c ∈ r := fun c hc => hru ▸ List.mem_append_left _ hc
    cases hy : la.getLast? with
    | none =>
      rw [List.getLast?_eq_none_iff.1 hy] at hla'
      exact hu (List.append_eq_nil_iff.1 hla'.symm).2
    | some y =>
      have hlast := getLast?_source (reads_append.1 hread).1 hy (hread.close_of_text y hy)
      rw [hla', List.getLast?_append_of_ne_nil t hu] at hlast
      exact margin hmem hlast

theorem settled_source {la : List Lexeme} {w t : Text} (h : Reads .text (la ++ [⟨.text, w⟩]) t)
    (hq : ∀ l ∈ la, ¬ LoneQuote l) : Settled (Lexer.source la) := by
  have hls := (h.before_text (.of_paired hq _ [])).lexemes_source
  constructor
  · rw [hls]
    exact fun l hl => Or.inl (h.close_of_text l hl)
  · rwa [hls]

/-- Literal text in which a margin is cut off is settled. -/
theorem settled_source_append {la : List Lexeme} {v t : Text}
    (hr : ∀ c ∈ r, Text.isMargin c = true) (h : Reads .text (la ++ [⟨.text, v ++ r⟩]) t)
    (hc : inComment false (v ++ r) = false) (hq : ∀ l ∈ la, ¬ LoneQuote l) :
    Settled (Lexer.source la ++ v) := by
  by_cases hv : v = []
  · subst hv
    rw [List.append_nil]
    exact settled_source h hq
  have hm := h.mode_before_text
  have hs := h.shape_last.1
  rw [hm] at hs
  have hlit : literalLength false v = v.length :=
    literalLength_of_append (by rw [hs.2, List.length_append]; omega)
  have hls : lexemes .text (Lexer.source la ++ v) = la ++ [⟨.text, v⟩] := by
    have hread : Reads .text (la ++ [⟨.text, v⟩]) [] :=
      reads_append.2 ⟨h.before_text (.of_paired hq _ _),
        by rw [hm]; exact ⟨⟨hv, hlit⟩, Or.inl rfl, trivial⟩⟩
    have := hread.lexemes_source
    rwa [source_append, source_cons, source_nil, List.append_nil] at this
  rw [inComment_append_margin hr] at hc
  constructor
  · rw [hls]
    intro x hx
    rw [List.getLast?_concat] at hx
    cases hx
    exact Or.inr ⟨rfl, hc⟩
  · rw [hls]
    intro x hx
    rcases List.mem_append.1 hx with hx | hx
    · exact hq x hx
    · rw [List.mem_singleton.1 hx]
      rintro ⟨hk, -⟩
      cases hk

theorem of_append_margin (hr : ∀ c ∈ r, Text.isMargin c = true) (h : SelfContained (m ++ r)) :
    SelfContained m := by
  by_cases hne : r = []
  · subst hne
    rwa [List.append_nil] at h
  obtain ⟨⟨ho, hq⟩, hn⟩ := iff_settled.1 h
  obtain ⟨la, v, rfl, hls⟩ := exists_last_text hr hne ho
  have hread := reads_lexemes .text (Lexer.source la ++ v ++ r)
  rw [hls] at hread ho hq
  have hc : inComment false (v ++ r) = false := by
    rcases ho ⟨.text, v ++ r⟩ List.getLast?_concat with hk | ⟨-, hc⟩
    · cases hk
    · exact hc
  have settled := settled_source_append hr hread hc fun l hl => hq l (List.mem_append_left _ hl)
  refine iff_settled.2 ⟨settled, ?_⟩
  rw [depthAfter_text_append settled (seam_margin_right hr _)] at hn
  cases hd : depthAfter 0 (ofText (Lexer.source la ++ v)) with
  | none => rw [hd] at hn; cases hn
  | some n =>
    rw [hd, Option.bind_some, depthAfter_margin hr] at hn
    exact hn

/-- **The normal form of a self-contained text is self-contained.** -/
theorem normalize {s : Text} (h : SelfContained s) (he : ¬ HasEscapedReturn s) :
    SelfContained (Text.normalize s) := by
  have hu := h.unifyBreaks he
  obtain ⟨l, r, hlr, hl, hr⟩ := Text.exists_trimMatches Text.isMargin (Text.unifyBreaks s)
  rw [hlr] at hu
  exact of_margin_append hl (of_append_margin hr hu)

end SelfContained

end PageFields
