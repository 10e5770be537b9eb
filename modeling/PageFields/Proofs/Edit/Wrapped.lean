import PageFields.Proofs.Edit.Isolation
import PageFields.Proofs.Outline.Presence

/-! # Edits: when a wrapped text is read back

Under a parent a whole text without a block is written as the block `content`. The block is read
back as it was written exactly if the text lets it end (`isReadBack_singleton`): the text ends
outside directives and comments and closes no block itself. A quote that waits for its partner does
no harm, since behind the last block no quote follows. -/

namespace PageFields.Edit

open Lexer Segment

variable {f : Text × Text} {fields : List (Text × Text)}

/-! ### One block -/

theorem isReadBack_nil : IsReadBack [] :=
  ⟨{}, toOption_eq_some.1 (by decide +kernel), rfl⟩

theorem not_isQuote_blockTail : ∀ c ∈ blockTail [], ¬ IsQuote c := by
  have hquotes : '"' ∉ blockTail [] ∧ '\x27' ∉ blockTail [] := by decide
  rintro c hc (rfl | rfl)
  · exact hquotes.1 hc
  · exact hquotes.2 hc

/-- **One field is read back** exactly if its content ends outside directives and comments and
nests. -/
theorem isReadBack_singleton (hf : IsKept f) : IsReadBack [f] ↔
    EndsOutside (lexemes .text f.2) ∧ depthAfter 0 (ofText f.2) = some 0 := by
  constructor
  · intro h
    obtain ⟨henclosed, -⟩ := h.tail (List.forall_mem_singleton.2 hf)
    exact ⟨endsOutside_enclosed hf.normal henclosed, depthAfter_enclosed hf.normal henclosed⟩
  · rintro ⟨ho, hn⟩
    have hbefore : SettledBefore f.2 (blockTail []) :=
      ⟨ho, .of_not_mem _ not_isQuote_blockTail⟩
    exact isReadBack_nil.cons_before hf hbefore hn List.not_mem_nil

theorem extractFields_written_iff {parent : Option Text} (hne : fields ≠ []) :
    extractFields (parent.elim [] parentLine ++ written fields) = .ok fields ↔
      IsReadBack fields := by
  refine ⟨isReadBack_of_extractFields, fun h => ?_⟩
  rw [extractFields_written h, if_neg]
  exact fun hnil => hne (eq_nil_of_written (List.append_eq_nil_iff.1 hnil).2)

/-! ### The wrapped text -/

theorem serialize_raw_of_not_containsBlock {p text : Text} (hp : p ≠ [])
    (hne : Text.normalize text ≠ []) (hb : containsBlock (Text.normalize text) = false) :
    serialize (some p) (.raw text) =
      .ok ((some p).elim [] parentLine ++ written [(contentField, Text.normalize text)]) := by
  have hname : parentName? (some p) = some p :=
    parentName?_of_ne fun hnil => hp (Option.some.inj hnil)
  have hbody : body (some p) (.raw text) = .ok (blockText contentField (Text.normalize text)) := by
    simp only [body]
    rw [if_neg hne, if_pos ⟨by rw [hname]; rfl, by rw [hb]; exact Bool.false_ne_true⟩]
  have hwritten : written [(contentField, Text.normalize text)] =
      blockText contentField (Text.normalize text) := List.append_nil _
  rw [serialize_eq, hbody, hname, hwritten]
  rfl

theorem not_block_of_not_containsBlock {s : Text} (h : containsBlock s = false) :
    ∀ d, .directive d ∈ ofText s → d.hasKeyword Keyword.block = false := by
  intro d hd
  by_contra hk
  have hyes := Scan.containsBlock_eq_true.2 ⟨d, hd, by simpa using hk⟩
  rw [h] at hyes
  cases hyes

/-- **When wrapping a text is faithful.** Under a parent that is not empty, a text whose normal form
is not empty and has no block is written as the block `content`, and this block is read back as the
one field with the normal form as its content, exactly if the normal form ends outside directives,
does not end inside a comment and has no directive that closes a block. -/
theorem serialize_wrapped {p text : Text} (hp : p ≠ []) (hne : Text.normalize text ≠ [])
    (hb : containsBlock (Text.normalize text) = false) :
    ∃ out, serialize (some p) (.raw text) = .ok out ∧
      (extractFields out = .ok [(contentField, Text.normalize text)] ↔
        (∀ t ∈ (tokenize (Text.normalize text)).getLast?,
          t.kind = .text ∨ t.kind = .directiveClose) ∧
        (∀ t ∈ (tokenize (Text.normalize text)).getLast?,
          t.kind = .text → inComment false t.value = false) ∧
        ∀ d, .directive d ∈ ofText (Text.normalize text) →
          d.hasKeyword Keyword.blockEnd = false) := by
  refine ⟨_, serialize_raw_of_not_containsBlock hp hne hb, ?_⟩
  have hname : isFieldName contentField = true := by decide
  have hkept : IsKept (contentField, Text.normalize text) :=
    ⟨hname, Text.isNormal_normalize text, hne⟩
  rw [extractFields_written_iff (List.cons_ne_nil _ _), isReadBack_singleton hkept,
    depthAfter_zero_iff (not_block_of_not_containsBlock hb), endsOutside_iff, ← and_assoc]
  refine and_congr_left fun _ => ⟨fun h => ⟨fun t ht => ?_, fun t ht hk => ?_⟩, fun h t ht => ?_⟩
  · exact (h t ht).symm.imp_left And.left
  · rcases h t ht with hclose | ⟨-, hc⟩
    · rw [hk] at hclose
      cases hclose
    · exact hc
  · rcases h.1 t ht with hk | hk
    · exact Or.inr ⟨hk, h.2 t ht hk⟩
    · exact Or.inl hk

/-- A quote without its partner and a block in a comment come back, and a text that closes the block
does not. -/
theorem serialize_wrapped_commented :
    let p := "p".toList
    let text := "\x7b% x ' %\x7d\x7b# \x7b% block a %\x7d\x7b% endblock %\x7d #\x7d y\r\n".toList
    let closing := "x\x7b% endblock %\x7dy".toList
    (∃ out, serialize (some p) (.raw text) = .ok out ∧
        extractFields out = .ok [(contentField, Text.normalize text)]) ∧
      ∃ out, serialize (some p) (.raw closing) = .ok out ∧
        extractFields out ≠ .ok [(contentField, Text.normalize closing)] := by
  intro p text closing
  have hb : containsBlock (Text.normalize text) = false := by decide +kernel
  have hb' : containsBlock (Text.normalize closing) = false := by decide +kernel
  obtain ⟨out, hout, hiff⟩ := serialize_wrapped (p := p) (by decide) (by decide +kernel) hb
  obtain ⟨out', hout', hiff'⟩ := serialize_wrapped (p := p) (by decide) (by decide +kernel) hb'
  have hopen : depthAfter 0 (ofText (Text.normalize text)) = some 0 := by decide +kernel
  have hclosed : depthAfter 0 (ofText (Text.normalize closing)) ≠ some 0 := by decide +kernel
  refine ⟨⟨out, hout, hiff.2 ⟨by decide +kernel, by decide +kernel, ?_⟩⟩, out', hout', fun h => ?_⟩
  · exact (depthAfter_zero_iff (not_block_of_not_containsBlock hb)).1 hopen
  · exact hclosed ((depthAfter_zero_iff (not_block_of_not_containsBlock hb')).2 (hiff'.1 h).2.2)

end PageFields.Edit
