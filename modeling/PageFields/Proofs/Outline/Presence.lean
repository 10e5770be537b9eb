import PageFields.Proofs.Directive.Grammar
import PageFields.Proofs.Outline.Normal
import PageFields.Proofs.Outline.Partition

/-! # Outlines: the check for blocks

Whether a text has a block can be told without a scan (`containsBlock`). The check agrees with the
scan. The blocks of a text that scans are its regions, and the gaps between them open no block
(`containsBlock_iff_regions`). Where no block is opened, every segment is only taken note of, so a
directive without its closing delimiter is all that can fail (`resume_of_noBlock`). On the tokens
the check asks whether an opening delimiter is followed by the keyword, with nothing but whitespace
between them (`containsBlock_iff_tokens`). -/

namespace PageFields

open Segment

/-- The keyword is the first token between the delimiters that is not whitespace. -/
theorem Directive.keyword?_eq (d : Directive) : d.keyword? = d.inner.find? Token.isSignificant :=
  List.head?_filter

theorem Token.find?_isSignificant {spaces after : List Token} {t : Token}
    (h : ∀ u ∈ spaces, u.kind = .whitespace) (ht : t.isSignificant = true) :
    (spaces ++ t :: after).find? Token.isSignificant = some t := by
  have hskip : spaces.find? Token.isSignificant = none := by
    rw [List.find?_eq_none]
    intro u hu
    simp [Token.isSignificant, h u hu]
  rw [List.find?_append, hskip, Option.none_or, List.find?_cons_of_pos ht]

/-- A name that is the first token to count behind the opening delimiter is the keyword: it does not
stand behind the closing delimiter, which counts too. -/
theorem Directive.keyword?_of_find? {d : Directive} {after : List Token} {t : Token}
    (hd : (Segment.directive d).IsLexed) (hlast : d.closing = none → after = [])
    (h : (d.inner ++ (d.closing.toList ++ after)).find? Token.isSignificant = some t)
    (ht : t.kind = .name) : d.keyword? = some t := by
  rw [List.find?_append, ← keyword?_eq, Option.or_eq_some_iff] at h
  rcases h with h | ⟨-, h⟩
  · exact h
  cases hc : d.closing with
  | none =>
    rw [hc, hlast hc] at h
    cases h
  | some c =>
    have hkind : c.kind = .directiveClose := hd.2.2 c hc
    have hcount : c.isSignificant = true := by simp [Token.isSignificant, hkind]
    rw [hc, Option.toList_some, List.singleton_append, List.find?_cons_of_pos hcount] at h
    cases h
    rw [ht] at hkind
    cases hkind

namespace Scan

variable {depth : Nat} {o : Outline} {segs : List Segment} {s : Text}

/-! ### With a block and without -/

theorem opensBlock_eq_true {seg : Segment} :
    opensBlock seg = true ↔ ∃ d, seg = .directive d ∧ d.hasKeyword Keyword.block = true := by
  match seg with
  | .literal t => simp [opensBlock]
  | .directive d => simp [opensBlock]

theorem containsBlock_eq_true : containsBlock s = true ↔
    ∃ d, .directive d ∈ ofText s ∧ d.hasKeyword Keyword.block = true := by
  rw [containsBlock_eq, List.any_eq_true]
  simp only [opensBlock_eq_true]
  constructor
  · rintro ⟨seg, hseg, d, rfl, hd⟩
    exact ⟨d, hseg, hd⟩
  · rintro ⟨d, hseg, hd⟩
    exact ⟨.directive d, hseg, d, rfl, hd⟩

/-- **A text that scans has a block exactly when it has a region.** -/
theorem containsBlock_iff_regions (h : scan s = .ok o) :
    containsBlock s = true ↔ o.regions ≠ [] := by
  obtain ⟨gap, blocks, hcuts, hregions⟩ := exists_cuts_of_scanAt h
  have hnil : o.regions = [] ↔ blocks = [] := by rw [hregions, List.map_eq_nil_iff]
  rw [containsBlock_eq_true, hcuts.segments, ne_eq, hnil]
  constructor
  · rintro ⟨d, hd, hblock⟩ rfl
    -- all segments stand in the first gap
    rw [hcuts.noBlock d hd] at hblock
    cases hblock
  · intro hne
    obtain ⟨b, hb⟩ := List.exists_mem_of_ne_nil blocks hne
    have hmem : Segment.directive b.opening ∈ b.segments := List.mem_cons_self
    exact ⟨b.opening, List.mem_append_right _ (List.mem_flatMap.2 ⟨b, hb, hmem⟩),
      (hcuts.closes b hb).opens.1⟩

/-- **Where no block is opened** a scan goes on to the end, or to a directive that is not closed. -/
theorem resume_of_noBlock (h : ∀ seg ∈ segs, opensBlock seg = false) :
    (∃ p, resume depth o segs = .ok p) ∨
      ∃ line, resume depth o segs = .error (.unclosedDirective line) := by
  induction segs generalizing o with
  | nil => exact Or.inl ⟨o, resume_nil⟩
  | cons seg segs ih =>
    have hb : ∀ d, seg = .directive d → d.hasKeyword Keyword.block = false := by
      rintro d rfl
      exact h _ List.mem_cons_self
    have hrest := ih (o := note o seg) fun x hx => h x (List.mem_cons_of_mem _ hx)
    rw [resume_other hb]
    match seg with
    | .literal t => exact hrest
    | .directive d =>
      by_cases hc : d.isClosed = true
      · have hclosed : checkClosed (.directive d) = .ok () := checkClosed_eq_ok.2 hc
        rw [hclosed]
        exact hrest
      · have hopen : checkClosed (.directive d) = .error (.unclosedDirective d.line) := if_neg hc
        rw [hopen]
        exact Or.inr ⟨d.line, rfl⟩

theorem scan_of_not_containsBlock (h : containsBlock s = false) :
    (∃ o, scan s = .ok o) ∨ ∃ line, scan s = .error (.unclosedDirective line) := by
  rw [scan_eq_resume]
  rw [containsBlock_eq, List.any_eq_false] at h
  exact resume_of_noBlock fun seg hseg => Bool.eq_false_iff.2 (h seg hseg)

/-! ### On the tokens -/

/-- **A text has a block exactly when an opening delimiter is followed by the keyword**, with
nothing but whitespace between them. -/
theorem containsBlock_iff_tokens : containsBlock s = true ↔
    ∃ before opening spaces keyword after,
      tokenize s = before ++ opening :: (spaces ++ keyword :: after) ∧
        opening.kind = .directiveOpen ∧ (∀ t ∈ spaces, t.kind = .whitespace) ∧
          keyword.isName Keyword.block = true := by
  rw [containsBlock_eq_true]
  constructor
  · rintro ⟨d, hd, hblock⟩
    obtain ⟨t, ht, hk, hv⟩ := hasKeyword_iff.1 hblock
    rw [Directive.keyword?_eq, List.find?_eq_some_iff_append] at ht
    obtain ⟨-, spaces, inner, hinner, hspaces⟩ := ht
    obtain ⟨segs, rest, hsegs⟩ := List.append_of_mem hd
    have htok := flatMap_tokens_ofTokens (tokenize s)
    change (ofText s).flatMap tokens = tokenize s at htok
    rw [hsegs, List.flatMap_append, List.flatMap_cons, tokens, hinner] at htok
    refine ⟨segs.flatMap tokens, d.opening, spaces, t,
      inner ++ d.closing.toList ++ rest.flatMap tokens, ?_, (isLexed_of_mem hd).1, ?_, ?_⟩
    · rw [← htok]
      simp
    · intro u hu
      simpa [Token.isSignificant] using hspaces u hu
    · simp [Token.isName, hk, hv]
  · rintro ⟨before, opening, spaces, keyword, after, htok, hopen, hspaces, hkeyword⟩
    obtain ⟨segs, d, rest, hsegs, rfl, hafter, hlast⟩ := exists_directive htok hopen
    have hd : Segment.directive d ∈ ofText s := by
      rw [hsegs]
      exact List.mem_append_right _ List.mem_cons_self
    have hname : keyword.kind = .name := by
      simp only [Token.isName, Bool.and_eq_true, decide_eq_true_eq] at hkeyword
      exact hkeyword.1
    have hfind : (spaces ++ keyword :: after).find? Token.isSignificant = some keyword :=
      Token.find?_isSignificant hspaces (by simp [Token.isSignificant, hname])
    rw [hafter] at hfind
    have hrest : d.closing = none → rest.flatMap tokens = [] := by
      intro hc
      rw [hlast hc]
      rfl
    have hk := Directive.keyword?_of_find? (isLexed_of_mem hd) hrest hfind hname
    refine ⟨d, hd, ?_⟩
    rw [Directive.hasKeyword, hk]
    exact hkeyword

end Scan

/-- **The check for blocks agrees with the scan.** In a text that scans it finds a block exactly
when there is a region. Without a block a scan can only fail at a directive that is not closed. What
the check looks for is an opening delimiter that is followed, after whitespace only, by the keyword.
-/
theorem containsBlock_agrees (s : Text) :
    (∀ o, scan s = .ok o → (containsBlock s = true ↔ o.regions ≠ [])) ∧
      (containsBlock s = false →
        (∃ o, scan s = .ok o) ∨ ∃ line, scan s = .error (.unclosedDirective line)) ∧
      (containsBlock s = true ↔ ∃ before opening spaces keyword after,
        tokenize s = before ++ opening :: (spaces ++ keyword :: after) ∧
          opening.kind = .directiveOpen ∧ (∀ t ∈ spaces, t.kind = .whitespace) ∧
            keyword.isName Keyword.block = true) :=
  ⟨fun _ => Scan.containsBlock_iff_regions, Scan.scan_of_not_containsBlock,
    Scan.containsBlock_iff_tokens⟩

/-- A text with a block, one with a block only in a comment and one that is cut off: in the first
the check finds the region, in the others nothing, and only the last fails to scan. -/
theorem containsBlock_agrees_commented :
    let s := "x\x7b%-\n block a %\x7d\x7b% endblock %\x7d".toList
    let t := "\x7b# \x7b% block a %\x7d #\x7d\x7b% if block %\x7d".toList
    let u := "\x7b% endblock %\x7d\n\x7b% if".toList
    (containsBlock s = true ∧ ∃ o, scan s = .ok o ∧ o.regions ≠ []) ∧
      (containsBlock t = false ∧ ∃ o, scan t = .ok o ∧ o.regions = []) ∧
      (containsBlock u = false ∧ ∃ line, scan u = .error (.unclosedDirective line)) := by
  intro s t u
  have hs : scan s = .ok ⟨none, [⟨"a".toList, [], 0, 1⟩], true⟩ :=
    toOption_eq_some.1 (by decide +kernel)
  have ht : scan t = .ok ⟨none, [], true⟩ := toOption_eq_some.1 (by decide +kernel)
  have hno : containsBlock t = false :=
    Bool.eq_false_iff.2 fun h => ((containsBlock_agrees t).1 _ ht).1 h rfl
  have hu : containsBlock u = false := by decide +kernel
  have hfail : (scan u).toOption = none := by decide +kernel
  have hyes : containsBlock s = true := ((containsBlock_agrees s).1 _ hs).2 (by simp)
  refine ⟨⟨hyes, _, hs, by simp⟩, ⟨hno, _, ht, rfl⟩, hu, ?_⟩
  rcases (containsBlock_agrees u).2.1 hu with ⟨o, ho⟩ | hline
  · rw [ho] at hfail
    cases hfail
  · exact hline

end PageFields
