import PageFields.Proofs.Directive.Slice

/-! # Grammar: which tokens make up the segments of a text

A list of tokens can be grouped into segments whatever their kinds are. The lexer gives fewer lists:
a literal is literal text, and between the delimiters of a directive there are words, spaces and
single characters, but no delimiter (`Segment.IsLexed`). So an opening delimiter among the tokens of
a text starts a directive (`exists_directive`), and what follows it up to the closing delimiter is
what stands inside this directive. -/

namespace PageFields

/-- The token is of a kind that stands between the delimiters of a directive. -/
def Token.isInner (t : Token) : Prop :=
  t.kind ≠ .text ∧ t.kind ≠ .directiveOpen ∧ t.kind ≠ .directiveClose

namespace Segment

open Lexer

/-- The tokens of the segment have the kinds that the lexer gives. -/
def IsLexed : Segment → Prop
  | literal t => t.kind = .text
  | directive d => d.opening.kind = .directiveOpen ∧ (∀ t ∈ d.inner, t.isInner) ∧
      ∀ t ∈ d.closing, t.kind = .directiveClose

theorem kind_of_shape {l : Lexeme} (hs : Shape .text l) :
    l.kind = .text ∨ l.kind = .directiveOpen := by
  obtain ⟨kind, v⟩ := l
  cases kind with
  | text => exact Or.inl rfl
  | directiveOpen => exact Or.inr rfl
  | _ => exact hs.elim

theorem isInner_of_shape {l : Lexeme} (hs : Shape .directive l) (hc : l.kind ≠ .directiveClose)
    (line : Nat) : modeAfter l.kind = .directive ∧ Token.isInner ⟨line, l.kind, l.value⟩ := by
  obtain ⟨kind, v⟩ := l
  cases kind with
  | text | directiveOpen => exact hs.elim
  | directiveClose => exact absurd rfl hc
  | whitespace | name | string | other => simp [modeAfter, Token.isInner]

theorem isInner_of_reads {ls : List Lexeme} {t : Text} (hr : Reads .directive ls t)
    (h : ∀ l ∈ ls, l.kind ≠ .directiveClose) (line : Nat) :
    ∀ u ∈ number line ls, u.isInner := by
  induction ls generalizing line with
  | nil => simp [number]
  | cons l ls ih =>
    obtain ⟨hs, -, hr⟩ := hr
    have hl := isInner_of_shape hs (h l List.mem_cons_self) line
    rw [hl.1] at hr
    intro u hu
    rcases List.mem_cons.1 hu with rfl | hu
    · exact hl.2
    · exact ih hr (fun x hx => h x (List.mem_cons_of_mem _ hx)) _ u hu

/-- **What the lexer gives is grouped into lexed segments.** -/
theorem isLexed_of_reads {ls : List Lexeme} {t : Text} (hr : Reads .text ls t) (line : Nat) :
    ∀ seg ∈ ofTokens (number line ls), seg.IsLexed := by
  induction hn : ls.length using Nat.strongRecOn generalizing ls line with
  | ind n ih =>
    subst hn
    cases ls with
    | nil => simp [number, ofTokens]
    | cons l ls =>
      obtain ⟨hs, -, hr⟩ := hr
      obtain ⟨kind, v⟩ := l
      obtain rfl | rfl : kind = .text ∨ kind = .directiveOpen := kind_of_shape hs
      · rw [ofTokens_number_text]
        intro seg hseg
        rcases List.mem_cons.1 hseg with rfl | hseg
        · rfl
        · exact ih ls.length (by simp) hr _ rfl seg hseg
      · rw [number]
        rcases exists_close ls with h | ⟨inner, w, rest, rfl, h⟩
        · rw [ofTokens_unclosed rfl (staysInside_of_number h)]
          intro seg hseg
          rw [List.mem_singleton.1 hseg]
          exact ⟨rfl, isInner_of_reads hr h _, by simp⟩
        · obtain ⟨hri, -, -, hrr⟩ := reads_append.1 hr
          rw [number_append, number, ofTokens_closed rfl (staysInside_of_number h) rfl]
          intro seg hseg
          rcases List.mem_cons.1 hseg with rfl | hseg
          · refine ⟨rfl, isInner_of_reads hri h _, ?_⟩
            rintro _ ⟨⟩
            rfl
          · exact ih rest.length (by simp only [List.length_append, List.length_cons]; omega) hrr _
              rfl seg hseg

theorem isLexed_of_mem {line : Nat} {s : Text} {seg : Segment} (h : seg ∈ ofTextFrom line s) :
    seg.IsLexed :=
  isLexed_of_reads (reads_lexemes .text s) line seg h

theorem exists_source_eq {line : Nat} {s : Text} {d : Directive}
    (h : .directive d ∈ ofTextFrom line s) : ∃ v, d.source = '{' :: '%' :: v := by
  have hmem : d.opening ∈ number line (lexemes .text s) := by
    rw [← flatMap_tokens_ofTokens (number line _)]
    exact List.mem_flatMap.2 ⟨.directive d, h, List.mem_cons_self⟩
  obtain ⟨m, hs⟩ := shape_of_mem_lexemes (mem_number hmem)
  rw [(isLexed_of_mem h).1] at hs
  have hvalue : ∃ v, d.opening.value = '{' :: '%' :: v := by
    cases m with
    | text =>
      rcases hs with hv | hv | hv
      · exact ⟨_, hv⟩
      · exact ⟨_, hv⟩
      · exact ⟨_, hv⟩
    | directive => exact hs.elim
  obtain ⟨v, hv⟩ := hvalue
  rw [Directive.source, hv]
  exact ⟨_, rfl⟩

/-! ### Opening delimiters -/

theorem exists_of_flatMap_eq {α β : Type} {f : β → List α} {l : List β} {a b : List α} {x : α}
    (h : l.flatMap f = a ++ x :: b) : ∃ l₁ y l₂ c e, l = l₁ ++ y :: l₂ ∧ f y = c ++ x :: e ∧
      b = e ++ l₂.flatMap f := by
  induction l generalizing a with
  | nil => simp at h
  | cons y l ih =>
    rw [List.flatMap_cons] at h
    rcases List.append_eq_append_iff.1 h with ⟨a', rfl, hl⟩ | ⟨c', hy, hx⟩
    · obtain ⟨l₁, z, l₂, c, e, rfl, hz, hb⟩ := ih hl
      exact ⟨y :: l₁, z, l₂, c, e, rfl, hz, hb⟩
    · cases c' with
      | nil =>
        obtain ⟨l₁, z, l₂, c, e, rfl, hz, hb⟩ := ih (a := []) hx.symm
        exact ⟨y :: l₁, z, l₂, c, e, rfl, hz, hb⟩
      | cons z c' =>
        obtain ⟨rfl, rfl⟩ := List.cons.inj hx
        exact ⟨[], y, l, a, c', rfl, hy, rfl⟩

theorem IsLexed.eq_directive {seg : Segment} {a b : List Token} {t : Token} (h : seg.IsLexed)
    (hseg : seg.tokens = a ++ t :: b) (ht : t.kind = .directiveOpen) :
    ∃ d, seg = .directive d ∧ t = d.opening ∧ b = d.inner ++ d.closing.toList := by
  cases seg with
  | literal u =>
    have hmem : t ∈ [u] := by
      rw [show [u] = a ++ t :: b from hseg]
      simp
    rw [List.mem_singleton.1 hmem, show u.kind = .text from h] at ht
    cases ht
  | directive d =>
    obtain ⟨-, hi, hc⟩ := h
    rw [tokens, List.cons_append] at hseg
    cases a with
    | nil =>
      obtain ⟨rfl, rfl⟩ := List.cons.inj hseg
      exact ⟨d, rfl, rfl, rfl⟩
    | cons u a =>
      have hmem : t ∈ d.inner ++ d.closing.toList := by
        rw [(List.cons.inj hseg).2]
        simp
      rcases List.mem_append.1 hmem with hm | hm
      · exact absurd ht (hi t hm).2.1
      · rw [hc t (Option.mem_toList.1 hm)] at ht
        cases ht

/-- **An opening delimiter among the tokens starts a directive.** Behind it stand the tokens of the
directive, its closing delimiter, if there is one, and the tokens of the segments after it. -/
theorem exists_directive {s : Text} {before after : List Token} {t : Token}
    (h : tokenize s = before ++ t :: after) (ht : t.kind = .directiveOpen) :
    ∃ segs d rest, ofText s = segs ++ .directive d :: rest ∧ t = d.opening ∧
      after = d.inner ++ (d.closing.toList ++ rest.flatMap tokens) ∧
      (d.closing = none → rest = []) := by
  rw [← flatMap_tokens_ofTokens (tokenize s)] at h
  obtain ⟨segs, seg, rest, c, e, hsegs, hseg, rfl⟩ := exists_of_flatMap_eq h
  have hmem : seg ∈ ofTextFrom 1 s := by
    rw [ofTextFrom_one, ofText, hsegs]
    exact List.mem_append_right _ List.mem_cons_self
  have hlexed := isLexed_of_mem hmem
  obtain ⟨d, rfl, rfl, rfl⟩ := hlexed.eq_directive hseg ht
  refine ⟨segs, d, rest, hsegs, rfl, List.append_assoc _ _ _, fun hnone => ?_⟩
  -- only the last segment may lack its closing delimiter
  by_contra hne
  have hsegs' : ofTokens (tokenize s) = (segs ++ [.directive d]) ++ rest := by
    rw [hsegs, List.append_assoc]
    rfl
  have := isClosed_of_ofTokens hsegs' hne (.directive d) (by simp)
  simp [isClosed, Directive.isClosed, hnone] at this

end Segment

end PageFields
