import PageFields.Proofs.Edit.Blocks
import PageFields.Proofs.Outline.Restart

/-! # Edits: the parent is read back

An edit with a parent starts with the directive that names it, whatever it submits
(`serialize_eq`). The lexer gives a written directive back in front of any other text
(`number_directiveText_append`), and a string that is written with escapes has its value back. So
the directive tells the parent for every name, and no other directive behind it counts: a scan takes
the first parent that it finds. -/

namespace PageFields.Edit

open Lexer Segment Scan

/-! ### Behind the parent -/

/-- What an edit writes behind the parent. -/
def body (parent : Option Text) : Payload → Except Error Text
  | .structured fields => blocksText (mergeRepeated fields)
  | .raw content =>
    let content := Text.normalize content
    if content = [] then .ok []
    else if (parentName? parent).isSome ∧ ¬ containsBlock content then
      .ok (blockText contentField content)
    else .ok (content ++ ['\n'])

/-- **The parent is written first**, and what follows does not depend on its name. -/
theorem serialize_eq (parent : Option Text) (payload : Payload) : serialize parent payload =
    (body parent payload).map ((parentName? parent).elim [] parentLine ++ ·) := by
  match payload with
  | .structured fields =>
    unfold serialize body
    cases blocksText (mergeRepeated fields) <;> rfl
  | .raw content =>
    simp only [serialize, body]
    split
    · exact congrArg Except.ok (List.append_nil _).symm
    · split
      · rfl
      · exact congrArg Except.ok (List.append_assoc _ _ _)

/-! ### The directive -/

/-- **A written directive is read back, whatever follows it.** -/
theorem number_directiveText_append {words : List Lexeme} (h : ∀ w ∈ words, IsWord w) (line : Nat)
    (rest : Text) : ∃ d, number line (lexemes .text (directiveText words ++ rest)) =
        (Segment.directive d).tokens ++
          number (line + Text.lineFeeds (directiveText words)) (lexemes .text rest) ∧
      (Segment.directive d).IsWhole ∧
      d.words.map (fun t => (⟨t.kind, t.value⟩ : Lexeme)) = words := by
  obtain ⟨d, hd, hc, -, hwords⟩ := ofTextFrom_directiveText h line
  have hmem : .directive d ∈ ofTextFrom line (directiveText words) := by
    rw [hd]
    exact List.mem_singleton_self _
  have hwhole : (Segment.directive d).IsWhole := isWhole_of_mem hmem hc
  have htokens : number line (lexemes .text (directiveText words)) =
      (Segment.directive d).tokens := by
    rw [← flatMap_tokens_ofTokens (number line _), ← ofTextFrom, hd, List.flatMap_singleton]
  have hlast : ∀ l ∈ (lexemes .text (directiveText words)).getLast?, l.kind ≠ .text := by
    rw [lexemes_directiveText h, ← List.cons_append, List.getLast?_concat]
    rintro l ⟨⟩
    decide
  refine ⟨d, ?_, hwhole, hwords⟩
  rw [lexemes_append (settled_directiveText h) (seam_directiveText words rest), glue_of_last hlast,
    number_append, htokens, source_lexemes]

theorem words_of_parentWords {d : Directive} {parent : Text}
    (h : d.words.map (fun t => (⟨t.kind, t.value⟩ : Lexeme)) = parentWords parent) :
    ∃ keyword name, d.words = [keyword, name] ∧ keyword.isName Keyword.parent = true ∧
      name.kind = .string ∧ name.stringValue? = some parent := by
  obtain ⟨keyword, ts, hwords, hkeyword, hts⟩ := List.map_eq_cons_iff.1 h
  obtain ⟨name, us, rfl, hname, hus⟩ := List.map_eq_cons_iff.1 hts
  obtain ⟨hk, hv⟩ := Lexeme.mk.inj hkeyword
  obtain ⟨hk', hv'⟩ := Lexeme.mk.inj hname
  rw [List.map_eq_nil_iff.1 hus] at hwords
  refine ⟨keyword, name, hwords, by simp [Token.isName, hk, hv], hk', ?_⟩
  rw [Token.stringValue?, if_pos hk', hv']
  exact Quoted.value?_quoted parent

theorem parent_of_scan_parentLine {parent rest : Text} {o : Outline}
    (h : scan (parentLine parent ++ rest) = .ok o) : o.parent = some parent := by
  have hread := scanAt_eq_ok.1 h
  change (readFrom 0 {} 1 (parentLine parent ++ rest)).outcome = _ at hread
  obtain ⟨line, hline⟩ := readFrom_parentLine_append 0 {} parent 1 rest
  rw [hline] at hread
  exact parent_of_restart hread rfl

/-- **The parent survives the write.** For every name that is not empty, with whatever characters,
and whatever the edit submits, the text that is written starts with a directive whose words are the
keyword and a string with this name as its value, up to the next closing delimiter. If the text
scans, this is the parent, whatever other directives of this kind there are. -/
theorem serialize_parent {parent : Text} (hp : parent ≠ []) {payload : Payload} {out : Text}
    (h : serialize (some parent) payload = .ok out) :
    (∃ d after, tokenize out = (Segment.directive d).tokens ++ after ∧
        (Segment.directive d).IsWhole ∧
        ∃ keyword name, d.words = [keyword, name] ∧ keyword.isName Keyword.parent = true ∧
          name.kind = .string ∧ name.stringValue? = some parent) ∧
      ∀ o, scan out = .ok o → o.parent = some parent := by
  have hname : parentName? (some parent) = some parent :=
    parentName?_of_ne fun hnil => hp (Option.some.inj hnil)
  rw [serialize_eq, hname, map_eq_ok] at h
  obtain ⟨text, -, rfl⟩ := h
  refine ⟨?_, fun o ho => parent_of_scan_parentLine ho⟩
  obtain ⟨d, htokens, hwhole, hwords⟩ :=
    number_directiveText_append (isWord_parentWords parent) 1 (['\n'] ++ text)
  rw [Option.elim_some, parentLine_eq, List.append_assoc]
  exact ⟨d, _, htokens, hwhole, words_of_parentWords hwords⟩

/-- The same for a name with quotes, a backslash at its end, a line break and the delimiters of a
directive, before a text that names another parent. -/
theorem serialize_parent_quoted :
    let parent := "a\"\\\" %\x7d\n\x7b% 'b\\".toList
    let content := "\x7b% extends \"q\" %\x7d\x7b% block x %\x7d\x7b% endblock %\x7d".toList
    let out := parentLine parent ++ content ++ ['\n']
    parent ≠ [] ∧ serialize (some parent) (.raw content) = .ok out ∧
      (∃ d after, tokenize out = (Segment.directive d).tokens ++ after ∧
        d.argument?.bind Token.stringValue? = some parent) ∧
      ∃ o, scan out = .ok o ∧ o.parent = some parent := by
  intro parent content out
  have hp : parent ≠ [] := by decide
  have hout : serialize (some parent) (.raw content) = .ok out :=
    toOption_eq_some.1 (by decide +kernel)
  obtain ⟨⟨d, after, htokens, -, keyword, name, hwords, -, -, hvalue⟩, hparent⟩ :=
    serialize_parent hp hout
  have hargument : d.argument? = some name := by
    rw [Directive.argument?, hwords]
    rfl
  have hscan : (scan out).toOption.isSome = true := by decide +kernel
  obtain ⟨o, ho⟩ := Option.isSome_iff_exists.1 hscan
  refine ⟨hp, hout, ⟨d, after, htokens, ?_⟩, o, toOption_eq_some.1 ho,
    hparent o (toOption_eq_some.1 ho)⟩
  rw [hargument, Option.bind_some, hvalue]

end PageFields.Edit
