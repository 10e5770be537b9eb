import PageFields.Proofs.Descriptor.Resave
import PageFields.Proofs.Directive.Grammar
import PageFields.Proofs.Edit.Parent
import PageFields.Proofs.Outline.Normal

/-! # Edits: where a written block ends

Any text can be written as the content of a block, also one that closes the block itself. But if the
first region that is read back has the content that was written, then it ends where it was written
to end: what it holds is a margin, the content and a margin before the next delimiter, and there is
only one such place (`content_eq`). So the content nests and ends outside directives (`Enclosed`),
and the text behind the block is read as a text of its own (`exists_scan_behind`). -/

namespace PageFields.Edit

open Lexer Segment Scan

variable {x y t z : Text}

/-! ### The place of the content -/

theorem eq_of_margins {l l' r r' u u' : Text} (hl : ∀ c ∈ l, Text.isMargin c = true)
    (hl' : ∀ c ∈ l', Text.isMargin c = true) (hr : ∀ c ∈ r, Text.isMargin c = true)
    (hr' : ∀ c ∈ r', Text.isMargin c = true) (hx : Text.IsNormal x) (hne : x ≠ [])
    (hu : ∀ c ∈ u.head?, Text.isMargin c = false) (hu' : ∀ c ∈ u'.head?, Text.isMargin c = false)
    (h : l ++ (x ++ (r ++ u)) = l' ++ (x ++ (r' ++ u'))) : l = l' ∧ r = r' := by
  have hhead : ∀ v, ∀ c ∈ (x ++ v).head?, Text.isMargin c = false := by
    intro v c hc
    rw [List.head?_append_of_ne_nil x hne] at hc
    exact hx.trimmed.1 c hc
  have hleft : l = l' := by
    rw [← (takeWhile_of_ends hl (hhead (r ++ u))).1, h, (takeWhile_of_ends hl' (hhead _)).1]
  subst hleft
  have hrest : r ++ u = r' ++ u' := List.append_cancel_left (List.append_cancel_left h)
  exact ⟨rfl, by rw [← (takeWhile_of_ends hr hu).1, hrest, (takeWhile_of_ends hr' hu').1]⟩

/-- **The content has one place.** What stands before a delimiter and has the written content as its
normal form is the content with the line feeds around it. -/
theorem content_eq (hx : Text.IsNormal x) (hne : x ≠ []) (hy : Text.normalize y = x)
    (hreturn : '\r' ∉ y) (h : y ++ '{' :: z = '\n' :: x ++ '\n' :: '{' :: t) :
    y = '\n' :: x ++ ['\n'] := by
  obtain ⟨l, r, hlr, hl, hr⟩ := Text.exists_trimMatches Text.isMargin y
  have htrim : Text.trimMatches Text.isMargin y = x := by
    rw [← hy, Text.normalize, Text.unifyBreaks_of_not_mem hreturn]
  rw [htrim] at hlr
  have hmark : ∀ v, ∀ c ∈ ('{' :: v : Text).head?, Text.isMargin c = false := by
    rintro v c ⟨⟩
    decide
  have heq : l ++ (x ++ (r ++ '{' :: z)) = ['\n'] ++ (x ++ (['\n'] ++ '{' :: t)) := by
    rw [hlr] at h
    simpa using h
  obtain ⟨rfl, rfl⟩ := eq_of_margins hl Text.isMargin_newline hr Text.isMargin_newline hx hne
    (hmark z) (hmark t) heq
  simpa using hlr

/-! ### Enclosed contents -/

/-- Between its line feeds the content nests and ends outside directives and comments. -/
structure Enclosed (x : Text) : Prop where
  outside : EndsOutside (lexemes .text ('\n' :: x ++ ['\n']))
  nested : depthAfter 0 (ofText ('\n' :: x ++ ['\n'])) = some 0

theorem endMode_glue (m : Mode) (ls ls' : List Lexeme) :
    endMode m (glue ls ls') = endMode (endMode m ls) ls' := by
  rcases glue_cases ls ls' with happ | ⟨la, v, w, lb, rfl, rfl⟩
  · rw [happ, endMode_append]
  · rw [glue_text, endMode_append, endMode_append]
    rfl

/-- A text that does not end in whitespace is outside directives at its end, if it is with a margin
behind it. -/
theorem endMode_of_append_margin {m r : Text} (hr : ∀ c ∈ r, Text.isMargin c = true)
    (hlast : ∀ c ∈ m.getLast?, isSpace c = false)
    (h : endMode .text (lexemes .text (m ++ r)) = .text) :
    endMode .text (lexemes .text m) = .text := by
  cases hm : endMode .text (lexemes .text m) with
  | text => rfl
  | directive =>
    obtain ⟨segs, d, inner, hsegs, hsegs', -⟩ := ofText_append_space hr hm hlast
    have hclosed := (isClosed_iff (reads_lexemes .text (m ++ r)) 1).2 h
    have hd : d.isClosed = true := hclosed (.directive { d with inner }) (by
      rw [← ofTextFrom, ofTextFrom_one, hsegs']
      exact List.mem_append_right _ (List.mem_singleton_self _))
    -- then the text is closed without the margin too
    have hm' := (isClosed_iff (reads_lexemes .text m) 1).1 fun seg hseg => by
      rw [← ofTextFrom, ofTextFrom_one, hsegs] at hseg
      rcases List.mem_append.1 hseg with hseg | hseg
      · exact isClosed_of_ofTokens hsegs (by simp) seg hseg
      · rw [List.mem_singleton.1 hseg]
        exact hd
    exact hm.symm.trans hm'

theorem isSpace_of_getLast?_normal (hx : Text.IsNormal x) :
    ∀ c ∈ x.getLast?, isSpace c = false := by
  intro c hc
  rw [← Text.normalize_of_isNormal hx] at hc
  exact isSpace_of_getLast?_normalize hc

theorem lexemes_enclosed (x : Text) : lexemes .text ('\n' :: x ++ ['\n']) =
    glue (lexemes .text ['\n']) (lexemes .text (x ++ ['\n'])) :=
  lexemes_append settled_newline (seam_newline _)

section Enclosed

variable (hx : Text.IsNormal x) (h : Enclosed x)
include hx h

theorem endMode_enclosed : endMode .text (lexemes .text x) = .text := by
  have hmode := endMode_eq_text h.outside
  rw [lexemes_enclosed, lexemes_newline, endMode_glue] at hmode
  exact endMode_of_append_margin Text.isMargin_newline (isSpace_of_getLast?_normal hx) hmode

theorem lexemes_enclosed_append :
    lexemes .text (x ++ ['\n']) = glue (lexemes .text x) (lexemes .text ['\n']) :=
  lexemes_append_margin Text.isMargin_newline (endMode_enclosed hx h)

theorem endsOutside_enclosed : EndsOutside (lexemes .text x) := by
  have ho := h.outside
  rw [lexemes_enclosed, lexemes_newline] at ho
  have hbehind := endsOutside_of_margin_glue Text.isMargin_newline ho
  rw [lexemes_enclosed_append hx h, lexemes_newline] at hbehind
  exact endsOutside_of_glue_margin Text.isMargin_newline (endMode_enclosed hx h) hbehind

theorem depthAfter_enclosed : depthAfter 0 (ofText x) = some 0 := by
  have hn : depthAfter 0 (ofText (['\n'] ++ (x ++ ['\n']))) = some 0 := h.nested
  rw [depthAfter_text_append settled_newline (seam_newline _), depthAfter_newline,
    Option.bind_some, depthAfter_text_glue (endMode_enclosed hx h) (lexemes_enclosed_append hx h)]
    at hn
  obtain ⟨n, hcontent, hnewline⟩ := Option.bind_eq_some_iff.1 hn
  rw [depthAfter_newline] at hnewline
  rw [hcontent, Option.some.inj hnewline]

end Enclosed

/-- **An enclosed content whose quotes have their partners is self-contained.** -/
theorem Enclosed.selfContained (h : Enclosed x) (hx : Text.IsNormal x) (hq : PairedQuotes x) :
    SelfContained x :=
  SelfContained.iff_settled.2
    ⟨⟨endsOutside_enclosed hx h, pairedQuotes_iff.1 hq⟩, depthAfter_enclosed hx h⟩

/-! ### The text behind the block -/

theorem ownFields_append (o p : Outline) : Descriptor.ownFields (o.append p) =
    Descriptor.ownFields o ++ Descriptor.ownFields p := List.map_append

theorem ownFields_relined (g : Nat → Nat) (o : Outline) :
    Descriptor.ownFields (o.relined g) = Descriptor.ownFields o := by
  rw [Descriptor.ownFields, Outline.relined, List.map_map]
  rfl

theorem exists_ofTextFrom_append {words : List Lexeme} (h : ∀ w ∈ words, IsWord w) (line : Nat)
    (t : Text) : ∃ d, ofTextFrom line (directiveText words ++ t) =
      .directive d :: ofTextFrom (line + Text.lineFeeds (directiveText words)) t := by
  obtain ⟨d, hnumber, hwhole, -⟩ := number_directiveText_append h line t
  exact ⟨d, by rw [ofTextFrom, hnumber, ofTokens_tokens_append hwhole, ofTextFrom]⟩

/-- The text behind the opening directive of a written block. -/
def blockRest (x t : Text) : Text := ['\n'] ++ (x ++ (['\n'] ++ (directiveText endWords ++
  (['\n'] ++ t))))

theorem not_mem_blockRest (hx : Text.IsNormal x) (ht : '\r' ∉ t) : '\r' ∉ blockRest x t := by
  have hend : '\r' ∉ directiveText endWords := by decide
  simp [blockRest, hx.unified, hend, ht]

/-- The region that a written block opens ends where it was written to end, if its content is the
one that was written. -/
theorem sources_eq_of_normalize {line : Nat} {inner rest : List Segment} {e : Directive}
    (hsegs : ofTextFrom line (blockRest x t) = inner ++ .directive e :: rest)
    (hx : Text.IsNormal x) (hne : x ≠ []) (ht : '\r' ∉ t)
    (hi : Text.normalize (sources inner) = x) : sources inner = '\n' :: x ++ ['\n'] ∧
      sources (.directive e :: rest) = directiveText endWords ++ (['\n'] ++ t) := by
  have hsource : sources inner ++ sources (.directive e :: rest) = blockRest x t := by
    rw [← sources_append, ← hsegs, sources_ofTextFrom]
  have hmem : .directive e ∈ ofTextFrom line (blockRest x t) := by
    rw [hsegs]
    exact List.mem_append_right _ List.mem_cons_self
  obtain ⟨v, hv⟩ := exists_source_eq hmem
  have hreturn : '\r' ∉ sources inner := fun h =>
    not_mem_blockRest hx ht (hsource ▸ List.mem_append_left _ h)
  obtain ⟨u, hu⟩ : ∃ u, directiveText endWords ++ (['\n'] ++ t) = '{' :: u := ⟨_, rfl⟩
  have hplace : sources inner ++ '{' :: ('%' :: v ++ sources rest) =
      '\n' :: x ++ '\n' :: '{' :: u := by
    rw [sources_cons, Segment.source, hv, blockRest, hu] at hsource
    simpa using hsource
  have hcontent := content_eq hx hne hi hreturn hplace
  refine ⟨hcontent, ?_⟩
  rw [hcontent] at hsource
  have hrest : '\n' :: x ++ ['\n'] ++ (directiveText endWords ++ (['\n'] ++ t)) =
      blockRest x t := by
    simp [blockRest]
  exact List.append_cancel_left (hsource.trans hrest.symm)

/-- **A written block that is read back as it was written** ends where it was written to end: behind
it the text is read on its own. -/
theorem exists_scan_behind {name : Text} (hname : isFieldName name = true) (hx : Text.IsNormal x)
    (hne : x ≠ []) (ht : '\r' ∉ t) {w : Outline} (h : scan (blockText name x ++ t) = .ok w)
    {fields : List (Text × Text)} (hw : Descriptor.ownFields w = (name, x) :: fields) :
    Enclosed x ∧ ∃ p, scan t = .ok p ∧ Descriptor.ownFields p = fields := by
  have hrun := scanAt_eq_ok.1 h
  change (readFrom 0 {} 1 (blockText name x ++ t)).outcome = _ at hrun
  rw [blockText_append, readFrom_newline_append,
    readFrom_append (settled_directiveText (isWord_blockWords hname)) (seam_directiveText _ _),
    readFrom_open hname, pure_bind] at hrun
  obtain ⟨inner, e, rest, hsegs, hi, -, -, hrun⟩ := exists_end rfl hrun
  have hclosed := isClosed_of_ofTokens hsegs (by simp)
  -- the first region holds the text up to the directive that ends it
  have hnormal : Text.normalize (sources inner) = x := by
    obtain ⟨regions, hregions⟩ := prefix_of_foldlM hrun
    rw [Descriptor.ownFields, ← hregions] at hw
    simpa using (List.cons.inj hw).1
  obtain ⟨hcontent, hbehind⟩ := sources_eq_of_normalize hsegs hx hne ht hnormal
  obtain ⟨hinner, hrest⟩ := ofTextFrom_split hsegs hclosed
  rw [hcontent] at hinner hrest
  rw [hbehind] at hrest
  refine ⟨⟨?_, ?_⟩, ?_⟩
  · rw [← hcontent]
    refine (lexemes_split hsegs hclosed).2.2.2 ?_
    rw [hbehind]
    exact List.cons_ne_nil _ _
  · rw [← depthAfter_ofTextFrom, hinner]
    exact hi
  · obtain ⟨d, hd⟩ := exists_ofTextFrom_append isWord_endWords _ (['\n'] ++ t)
    rw [hd] at hrest
    rw [← (List.cons.inj hrest).2] at hrun
    change (readFrom 0 _ _ (['\n'] ++ t)).outcome = _ at hrun
    rw [readFrom_newline_append] at hrun
    obtain ⟨p, hp, -, rfl⟩ := foldlM_restart.1 hrun
    rw [ownFields_append, ownFields_relined] at hw
    exact ⟨p, hp, (List.cons.inj hw).2⟩

end PageFields.Edit
