import PageFields.Proofs.Edit.Parent

/-! # Edits: the whole text of a file

An edit that submits the whole text of a template, under the parent that the template has, should
leave the template as it is. It does where there is no parent to write (`normalize_body`). A parent
is written in front of the text even if the text names it already, so a child grows by a directive
with each such edit: the new text has more delimiters than the old one
(`normalize_ne_of_parent`). -/

namespace PageFields.Edit

variable {t b : Text}

theorem normalize_body {parent : Option Text} (hp : parentName? parent = none)
    (h : body parent (.raw t) = .ok b) : Text.normalize b = Text.normalize t := by
  simp only [body, hp] at h
  by_cases hnil : Text.normalize t = []
  · rw [if_pos hnil] at h
    cases h
    rw [hnil]
    rfl
  · have hnot : ¬ ((none : Option Text).isSome = true ∧
        ¬ containsBlock (Text.normalize t) = true) := fun hc => Bool.false_ne_true hc.1
    rw [if_neg hnil, if_neg hnot] at h
    cases h
    have hline := Text.normalize_append (l := []) (by simp) Text.isMargin_newline
      (Text.isNormal_normalize t)
    rwa [List.nil_append] at hline

theorem isInfix_body {parent : Option Text} (h : body parent (.raw t) = .ok b) :
    Text.normalize t <:+: b := by
  simp only [body] at h
  split at h
  · rename_i hnil
    rw [hnil]
    exact List.nil_infix
  · split at h
    · cases h
      unfold blockText
      exact ⟨_, _, rfl⟩
    · cases h
      exact (List.prefix_append _ _).isInfix

/-- **A parent in front of a text changes its normal form**: there is one more delimiter. -/
theorem normalize_ne_of_parent {parent : Option Text} (p : Text)
    (h : body parent (.raw t) = .ok b) : Text.normalize (parentLine p ++ b) ≠ Text.normalize t := by
  intro heq
  have hmargin : Text.isMargin '%' = false := by decide
  have hline : 0 < (parentLine p).count '%' := by
    rw [List.count_pos_iff, parentLine_eq, directiveText_eq]
    simp
  have hle := (isInfix_body h).sublist.count_le '%'
  have hcount := congrArg (List.count '%') heq
  rw [Text.count_normalize hmargin (by decide), List.count_append] at hcount
  omega

/-- Whatever the parent, a whole text is written without an error, and it keeps its normal form
exactly if there is no parent to write. -/
theorem serialize_raw (parent : Option Text) (t : Text) :
    ∃ out, serialize parent (.raw t) = .ok out ∧
      (Text.normalize out = Text.normalize t ↔ parentName? parent = none) := by
  obtain ⟨b, hb⟩ : ∃ b, body parent (.raw t) = .ok b := by
    simp only [body]
    split
    · exact ⟨_, rfl⟩
    · split
      · exact ⟨_, rfl⟩
      · exact ⟨_, rfl⟩
  refine ⟨_, by rw [serialize_eq, hb]; rfl, ?_⟩
  cases hp : parentName? parent with
  | none =>
    have hbody := normalize_body hp hb
    simpa using hbody
  | some p =>
    have hne := normalize_ne_of_parent p hb
    simpa using hne

/-- **A whole text is saved as it is exactly if it names no parent.** A text that scans is written
under its own parent without an error. What is written has the normal form of the text, unless the
text names a parent: then this parent is written once more, in front of the text. -/
theorem serialize_whole {t : Text} {o : Outline} (_ : scan t = .ok o) :
    ∃ out, serialize o.parent (.raw t) = .ok out ∧
      (Text.normalize out = Text.normalize t ↔ parentName? o.parent = none) :=
  serialize_raw o.parent t

/-- A page with a block and no parent is saved as it is; with a parent that is not empty it is not.
-/
theorem serialize_whole_pages :
    let t := "\x7b% extends \"\" %\x7d\n\x7b% block a %\x7dx\x7b% endblock %\x7d y".toList
    let u := "\x7b% extends \"b\" %\x7d\n\x7b% block a %\x7dx\x7b% endblock %\x7d".toList
    (∃ o out, scan t = .ok o ∧ serialize o.parent (.raw t) = .ok out ∧
        Text.normalize out = Text.normalize t) ∧
      ∃ o out, scan u = .ok o ∧ serialize o.parent (.raw u) = .ok out ∧
        Text.normalize out ≠ Text.normalize u := by
  intro t u
  have ht : scan t = .ok ⟨some [], [⟨"a".toList, "x".toList, 0, 2⟩], true⟩ :=
    toOption_eq_some.1 (by decide +kernel)
  have hu : scan u = .ok ⟨some "b".toList, [⟨"a".toList, "x".toList, 0, 2⟩], false⟩ :=
    toOption_eq_some.1 (by decide +kernel)
  obtain ⟨out, hout, hiff⟩ := serialize_whole ht
  obtain ⟨out', hout', hiff'⟩ := serialize_whole hu
  refine ⟨⟨_, out, ht, hout, hiff.2 (by decide)⟩, _, out', hu, hout', fun h => ?_⟩
  exact absurd (hiff'.1 h) (by decide)

/-- A child that is saved with its own text under its own parent names this parent twice. -/
theorem not_serialize_whole :
    let t := "\x7b% extends \"b\" %\x7d\n\x7b% block a %\x7dx\x7b% endblock %\x7d".toList
    scan t = .ok ⟨some "b".toList, [⟨"a".toList, "x".toList, 0, 2⟩], false⟩ ∧
      serialize (some "b".toList) (.raw t) =
        .ok ("\x7b% extends \"b\" %\x7d\n".toList ++ t ++ ['\n']) ∧
      Text.normalize ("\x7b% extends \"b\" %\x7d\n".toList ++ t ++ ['\n']) ≠ Text.normalize t := by
  intro t
  exact ⟨toOption_eq_some.1 (by decide +kernel), toOption_eq_some.1 (by decide +kernel),
    by decide +kernel⟩

end PageFields.Edit
