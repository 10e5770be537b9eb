import PageFields.Fingerprint
import PageFields.Proofs.Text.Normal

/-! # Text: the normal form is canonical

The normal form of a text is what one reading from left to right makes of its line breaks
(`lineFeedsOnly`), without the margins at both ends. Line breaks, spaces and tabs around a text do
not change it, although a line break can reach over the seam: what they add in front
(`exists_unifyBreaks_before`) and behind (`exists_unifyBreaks_after`) is no more than a margin. So
texts that differ in this have the same fingerprint (`normalize_canonical`). -/

namespace PageFields.Text

/-! ### One reading -/

/-- Reads a text once from left to right and writes each line break, of whatever kind, as one line
feed. -/
def lineFeedsOnly : Text → Text
  | '\r' :: '\n' :: rest => '\n' :: lineFeedsOnly rest
  | '\r' :: rest => '\n' :: lineFeedsOnly rest
  | c :: rest => c :: lineFeedsOnly rest
  | [] => []

theorem unifyBreaks_eq (t : Text) : unifyBreaks t = lineFeedsOnly t := by
  induction t using breaks_induction with
  | nil => rfl
  | pair s ih => rw [unifyBreaks_pair, ih, lineFeedsOnly]
  | lone s h ih =>
    rw [unifyBreaks_return h, ih, lineFeedsOnly]
    rintro rest rfl
    exact h rfl
  | cons c s h ih =>
    rw [unifyBreaks_cons h, ih, lineFeedsOnly]
    · exact fun _ hc => absurd hc h
    · exact h

section Trimming

variable {p : Char → Bool} {l m r t : Text}

/-- **The trimmed text** is the only one that makes the text with margins around it and has none
itself. -/
theorem trimMatches_eq_iff : trimMatches p t = m ↔
    ∃ l r, t = l ++ m ++ r ∧ (∀ c ∈ l, p c = true) ∧ (∀ c ∈ r, p c = true) ∧ IsTrimmed p m := by
  constructor
  · rintro rfl
    obtain ⟨l, r, hlr, hl, hr⟩ := exists_trimMatches p t
    exact ⟨l, r, hlr, hl, hr, isTrimmed_trimMatches t⟩
  · rintro ⟨l, r, rfl, hl, hr, hm⟩
    exact trimMatches_append hl hr hm

theorem trimMatches_between (hl : ∀ c ∈ l, p c = true) (hr : ∀ c ∈ r, p c = true) (t : Text) :
    trimMatches p (l ++ t ++ r) = trimMatches p t := by
  obtain ⟨l', r', hlr, hl', hr', hm⟩ := trimMatches_eq_iff.1 (rfl : trimMatches p t = _)
  refine trimMatches_eq_iff.2 ⟨l ++ l', r' ++ r, ?_, ?_, ?_, hm⟩
  · conv_lhs => rw [hlr]
    simp only [List.append_assoc]
  · exact List.forall_mem_append.2 ⟨hl, hl'⟩
  · exact List.forall_mem_append.2 ⟨hr', hr⟩

end Trimming

/-! ### Blank space around a text -/

/-- A line break of any kind, a space or a tab. -/
def IsSpacing (c : Char) : Prop := c = '\r' ∨ isMargin c = true

/-- Spacing in front of a text becomes a margin in front of it. -/
theorem exists_unifyBreaks_before {before : Text} (h : ∀ c ∈ before, IsSpacing c) (t : Text) :
    ∃ l, (∀ c ∈ l, isMargin c = true) ∧ unifyBreaks (before ++ t) = l ++ unifyBreaks t := by
  induction before with
  | nil => exact ⟨[], nofun, rfl⟩
  | cons c before ih =>
    rw [List.forall_mem_cons] at h
    obtain ⟨l, hl, heq⟩ := ih h.2
    rw [List.cons_append]
    by_cases hc : c = '\r'
    · subst hc
      rcases unifyBreaks_return_cases (before ++ t) with hbreak | hbreak
      · refine ⟨'\n' :: l, List.forall_mem_cons.2 ⟨by decide, hl⟩, ?_⟩
        rw [hbreak, heq, List.cons_append]
      · -- The line feed of the break is the first character of the rest.
        exact ⟨l, hl, by rw [hbreak, heq]⟩
    · refine ⟨c :: l, List.forall_mem_cons.2 ⟨h.1.resolve_left hc, hl⟩, ?_⟩
      rw [unifyBreaks_cons hc, heq, List.cons_append]

/-- Spacing behind a text becomes a margin behind it, or goes into its last line break. -/
theorem exists_unifyBreaks_after {after : Text} (h : ∀ c ∈ after, IsSpacing c) (t : Text) :
    ∃ r, (∀ c ∈ r, isMargin c = true) ∧ unifyBreaks (t ++ after) = unifyBreaks t ++ r := by
  have hmargin : ∀ {s : Text}, (∀ c ∈ s, IsSpacing c) → ∀ c ∈ unifyBreaks s, isMargin c = true := by
    intro s hs
    obtain ⟨l, hl, heq⟩ := exists_unifyBreaks_before hs []
    rw [List.append_nil, unifyBreaks_nil, List.append_nil] at heq
    rwa [heq]
  induction t using breaks_induction with
  | nil => exact ⟨unifyBreaks after, hmargin h, rfl⟩
  | pair s ih =>
    obtain ⟨r, hr, heq⟩ := ih
    refine ⟨r, hr, ?_⟩
    rw [List.cons_append, List.cons_append, unifyBreaks_pair, unifyBreaks_pair, heq,
      List.cons_append]
  | lone s hs ih =>
    rw [unifyBreaks_return hs, List.cons_append]
    by_cases hseam : (s ++ after).head? = some '\n'
    · -- The break reaches over the seam, and the text ends with its carriage return.
      obtain rfl : s = [] := by
        by_contra hne
        rw [List.head?_append_of_ne_nil s hne] at hseam
        exact hs hseam
      obtain ⟨rest, rfl⟩ := List.head?_eq_some_iff.1 hseam
      rw [List.forall_mem_cons] at h
      exact ⟨unifyBreaks rest, hmargin h.2, unifyBreaks_pair rest⟩
    · obtain ⟨r, hr, heq⟩ := ih
      refine ⟨r, hr, ?_⟩
      rw [unifyBreaks_return hseam, heq, List.cons_append]
  | cons c s hc ih =>
    obtain ⟨r, hr, heq⟩ := ih
    refine ⟨r, hr, ?_⟩
    rw [List.cons_append, unifyBreaks_cons hc, unifyBreaks_cons hc, heq, List.cons_append]

/-- **Blank space around a text does not change its normal form.** -/
theorem normalize_between {before after : Text} (hbefore : ∀ c ∈ before, IsSpacing c)
    (hafter : ∀ c ∈ after, IsSpacing c) (t : Text) :
    normalize (before ++ t ++ after) = normalize t := by
  obtain ⟨l, hl, hleft⟩ := exists_unifyBreaks_before hbefore t
  obtain ⟨r, hr, hright⟩ := exists_unifyBreaks_after hafter (before ++ t)
  unfold normalize
  rw [hright, hleft, trimMatches_between hl hr]

/-- **The normal form is canonical.** It is the text after one reading that writes each line break
as a line feed, without the line feeds, spaces and tabs at both ends. It is its own normal form, has
no carriage return and neither starts nor ends with a line feed, a space or a tab. Whatever line
breaks, spaces and tabs are put around a text, its normal form stays the same, and so does its
fingerprint. -/
theorem normalize_canonical (t : Text) :
    (∀ m, normalize t = m ↔ ∃ l r, lineFeedsOnly t = l ++ m ++ r ∧
        (∀ c ∈ l, isMargin c = true) ∧ (∀ c ∈ r, isMargin c = true) ∧ IsTrimmed isMargin m) ∧
      normalize (normalize t) = normalize t ∧
      '\r' ∉ normalize t ∧
      ((∀ c ∈ (normalize t).head?, isMargin c = false) ∧
        ∀ c ∈ (normalize t).getLast?, isMargin c = false) ∧
      ∀ before after, (∀ c ∈ before, IsSpacing c) → (∀ c ∈ after, IsSpacing c) →
        normalize (before ++ t ++ after) = normalize t ∧
          Fingerprint.of (before ++ t ++ after) = Fingerprint.of t := by
  have hnormal := isNormal_normalize t
  refine ⟨fun m => ?_, normalize_normalize t, hnormal.unified, hnormal.trimmed,
    fun before after hbefore hafter => ?_⟩
  · rw [← unifyBreaks_eq]
    exact trimMatches_eq_iff
  · have hsame := normalize_between hbefore hafter t
    refine ⟨hsame, ?_⟩
    unfold Fingerprint.of
    rw [hsame]

/-- Two line breaks reach over the seams between a text and what stands around it. -/
theorem normalize_canonical_seams :
    normalize ("\t\r".toList ++ "\nx\r\ry\r".toList ++ "\n ".toList) = "x\n\ny".toList ∧
      Fingerprint.of ("\t\r".toList ++ "\nx\r\ry\r".toList ++ "\n ".toList) =
        Fingerprint.of "\nx\r\ry\r".toList := by
  have hbefore : ∀ c ∈ "\t\r".toList, IsSpacing c := by
    simp [IsSpacing, isMargin]
  have hafter : ∀ c ∈ "\n ".toList, IsSpacing c := by
    simp [IsSpacing, isMargin]
  obtain ⟨-, -, -, -, hspacing⟩ := normalize_canonical "\nx\r\ry\r".toList
  obtain ⟨hnormal, hfingerprint⟩ := hspacing _ _ hbefore hafter
  exact ⟨hnormal.trans (by decide), hfingerprint⟩

end PageFields.Text
