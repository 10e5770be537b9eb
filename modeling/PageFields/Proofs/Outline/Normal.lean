import PageFields.Proofs.Directive.Normal
import PageFields.Proofs.Outline.Resume
import PageFields.Proofs.Text.Quoted

/-! # Outlines: the normal form decides the fields

Two texts with the same normal form count as the same content, so they should have the same fields
(`extractFields_of_normalize`). Unifying the line breaks changes tokens only in ways that a scan
does not see (`sketch_unifyBreaks`); a margin in front puts everything on other lines
(`sketch_margin_append`), and one at the end is blank text or whitespace in a directive that fails
anyway (`scan_append_margin`). The exception is a string in which a backslash stands before a
carriage return: with a line feed in its place it is no string
(`not_extractFields_of_normalize`). -/

namespace PageFields

open Lexer Segment

namespace Scan

variable {s l m r : Text}

/-- What a scan tells about the fields; of an error the line is left out. -/
def sketch (s : Text) : Except Error (List (Text × Text) × Bool) :=
  reported (fun _ => 0) Outline.normal (scan s)

theorem scan_eq_resume (s : Text) : scan s = resume 0 {} (ofText s) := outcome_run

/-! ### Line breaks -/

/-- A string token has a value with its line breaks unified exactly when it has one. -/
theorem isSome_stringValue?_unified {t : Token} (h : t ∈ tokenize s) :
    t.unified.stringValue?.isSome = t.stringValue?.isSome := by
  have hvalue : t.unified.value = Text.unifyBreaks t.value := value_unified h
  obtain ⟨m, hs⟩ := shape_of_mem_lexemes (mem_number h)
  unfold Token.stringValue?
  rw [keepsNames_unified.kind, hvalue]
  split
  · rename_i hk
    rw [hk] at hs
    match m, hs with
    | .directive, ⟨q, cs, hv, hq, hrest⟩ =>
      obtain ⟨inner, rfl⟩ := List.getLast?_eq_some_iff.1 (getLast?_of_quoted hrest)
      rw [show t.value = q :: (inner ++ [q]) from hv]
      exact Quoted.isSome_value?_unifyBreaks hq inner
  · rfl

theorem sketch_unifyBreaks (he : ∀ l ∈ lexemes .text s, KeepsEscapes l) :
    sketch (Text.unifyBreaks s) = sketch s := by
  have hlines : (resume 0 {} ((ofText (Text.unifyBreaks s)).map
      (map (Token.relined fun _ => 0)))).map Outline.normal = sketch (Text.unifyBreaks s) := by
    rw [sketch, scan_eq_resume]
    refine resume_map (keepsNames_relined _) (fun _ => rfl) (fun _ _ _ _ => rfl) (fun inner _ => ?_)
      rfl
    rw [sources_map (f := Token.relined fun _ => 0) fun _ => rfl]
  have hbreaks : (resume 0 {} ((ofText s).map (map Token.unified))).map Outline.normal =
      sketch s := by
    rw [sketch, scan_eq_resume]
    refine resume_map keepsNames_unified (fun _ => rfl) (fun seg hseg t ht => ?_)
      (fun inner hinner => ?_) rfl
    · refine isSome_stringValue?_unified (s := s) ?_
      rw [← flatMap_tokens_ofTokens (tokenize s)]
      exact List.mem_flatMap.2 ⟨seg, hseg, ht⟩
    · rw [sources_map_unified hinner, Text.normalize, Text.unifyBreaks_unifyBreaks]
      rfl
  rw [← hlines, ofText_unifyBreaks he, hbreaks]

/-! ### Margins -/

theorem trimBlank_margin (h : ∀ c ∈ l, Text.isMargin c = true) : Text.trimBlank l = [] := by
  refine Text.trimMatches_eq_nil.2 fun c hc => ?_
  have := h c hc
  simp only [Text.isMargin, Bool.or_eq_true, decide_eq_true_eq] at this
  rcases this with (rfl | rfl) | rfl <;> decide

theorem sketch_margin_append (hl : ∀ c ∈ l, Text.isMargin c = true) :
    sketch (l ++ m) = sketch m := by
  have hstart : ((ofTextFrom 1 l).foldlM (step 0) {}).outcome = .ok {} := by
    rcases ofTextFrom_margin hl 1 with h | h
    · rw [h]
      rfl
    · rw [h, List.foldlM_cons, step_outside, stepOutside_blank (trimBlank_margin hl)]
      rfl
  have hscan : scan (l ++ m) = resume 0 {} (ofTextFrom (1 + Text.lineFeeds l) m) := by
    rw [scan_eq_resume, resume, ← ofTextFrom_one, foldlM_ofTextFrom_append (takesPortions_step 0)
      (settled_margin hl) (seam_margin_left hl m), Logged.outcome_bind, hstart]
    rfl
  have hmoved : (resume 0 {} ((ofText m).map (map (Token.moved (Text.lineFeeds l))))).map
      Outline.normal =
        reported (· + Text.lineFeeds l) Outline.normal (resume 0 {} (ofText m)) :=
    resume_map (keepsNames_moved _) (fun _ => rfl) (fun _ _ _ _ => rfl)
      (fun _ _ => by rw [sources_map (f := Token.moved _) fun _ => rfl]) rfl
  rw [← ofTextFrom_one, ← ofTextFrom_add, ← hscan, ofTextFrom_one, ← scan_eq_resume] at hmoved
  rw [sketch, reported, hmoved, sketch]
  cases scan m with
  | ok o => rfl
  | error e => exact congrArg Except.error (Error.relined_relined _ _ e)

theorem finish_margin (hr : ∀ c ∈ r, Text.isMargin c = true) (line : Nat) (σ : State) :
    (((ofTextFrom line r).foldlM (step 0) σ).outcome >>= finish) = finish σ := by
  rcases ofTextFrom_margin hr line with h | h
  · rw [h]
    rfl
  · obtain ⟨o, c⟩ := σ
    rw [h, List.foldlM_cons]
    match c with
    | none =>
      rw [step_outside, stepOutside_blank (trimBlank_margin hr)]
      rfl
    | some r => rfl

/-- Only the words of the last directive matter to a scan. -/
theorem finish_words {d : Directive} {inner : List Token}
    (hw : Directive.words { d with inner } = d.words) (σ : State) :
    (((step 0 σ (.directive { d with inner })).outcome) >>= finish) =
      ((step 0 σ (.directive d)).outcome >>= finish) := by
  have hk : Directive.keyword? { d with inner } = d.keyword? := by
    unfold Directive.keyword?
    rw [hw]
  have ha : Directive.argument? { d with inner } = d.argument? := by
    unfold Directive.argument?
    rw [hw]
  have hclosed : requireClosed { d with inner } = requireClosed d := rfl
  obtain ⟨o, c⟩ := σ
  match c with
  | none =>
    simp only [step, stepOutside, blockName, addParent, hk, ha, hclosed]
    rfl
  | some r =>
    have hkey : ∀ name, Directive.hasKeyword { d with inner } name = d.hasKeyword name := by
      intro name
      rw [Directive.hasKeyword, hk]
      rfl
    have hnest : nest r.inner (.directive { d with inner }) = nest r.inner (.directive d) := by
      simp only [nest, hkey]
    rw [step_inside, step_inside]
    cases hn : nest r.inner (.directive d) with
    | some n =>
      -- the region stays open, and its content is not told
      rw [stepInside_of_nest hn, stepInside_of_nest (hnest.trans hn)]
      rfl
    | none =>
      obtain ⟨h0, e, he, hd⟩ := nest_eq_none hn
      cases he
      have hcheck : checkEnd r.name { d with inner } = checkEnd r.name d := by
        simp only [checkEnd, ha, hclosed]
        rfl
      rw [stepInside_end hd h0, stepInside_end ((hkey _).trans hd) h0, hcheck]

/-- A margin at the end does not matter, unless it continues whitespace. -/
theorem scan_append_margin (hr : ∀ c ∈ r, Text.isMargin c = true)
    (hlast : ∀ c ∈ m.getLast?, isSpace c = false) : scan (m ++ r) = scan m := by
  cases hm : endMode .text (lexemes .text m) with
  | text =>
    have hrun := foldlM_ofTextFrom_glue (takesPortions_step 0) hm (lexemes_append_margin hr hm) 1 {}
    rw [scan_eq_resume, scan_eq_resume, resume, resume, ← ofTextFrom_one, hrun, ofTextFrom_one,
      Logged.outcome_bind, bind_assoc]
    simp only [finish_margin hr]
  | directive =>
    obtain ⟨segs, d, inner, h, h', hw⟩ := ofText_append_space hr hm hlast
    rw [scan_eq_resume, scan_eq_resume, resume, resume, h, h', List.foldlM_append,
      List.foldlM_append, Logged.outcome_bind, Logged.outcome_bind, bind_assoc, bind_assoc]
    simp only [List.foldlM_cons, List.foldlM_nil, bind_pure, finish_words hw]

/-! ### Blocks -/

/-- The segment opens a block. -/
def opensBlock : Segment → Bool
  | .literal _ => false
  | .directive d => d.hasKeyword Keyword.block

theorem containsBlock_eq (s : Text) : containsBlock s = (ofText s).any opensBlock := rfl

theorem any_opensBlock_map {f : Token → Token} (hf : KeepsNames f) (segs : List Segment) :
    (segs.map (map f)).any opensBlock = segs.any opensBlock := by
  have hmap : ∀ seg : Segment, opensBlock (seg.map f) = opensBlock seg := by
    intro seg
    match seg with
    | .literal t => rfl
    | .directive d => exact hasKeyword_map hf d _
  rw [List.any_map, show opensBlock ∘ map f = opensBlock from funext hmap]

theorem containsBlock_unifyBreaks (he : ∀ l ∈ lexemes .text s, KeepsEscapes l) :
    containsBlock (Text.unifyBreaks s) = containsBlock s := by
  rw [containsBlock_eq, containsBlock_eq, ← any_opensBlock_map (keepsNames_relined fun _ => 0),
    ofText_unifyBreaks he, any_opensBlock_map keepsNames_unified]

/-- Reads segments as long as none opens a block. -/
def avoid (_ : Unit) (seg : Segment) : Option Unit := if opensBlock seg then none else some ()

theorem foldlM_avoid (segs : List Segment) (u : Unit) :
    segs.foldlM avoid u = if segs.any opensBlock then none else some () := by
  induction segs with
  | nil => rfl
  | cons seg segs ih =>
    rw [List.foldlM_cons, avoid, List.any_cons]
    cases opensBlock seg with
    | true => rfl
    | false => exact ih

theorem takesPortions_avoid : TakesPortions avoid := fun _ _ _ _ => rfl

theorem any_opensBlock_ofTextFrom (line : Nat) (s : Text) :
    (ofTextFrom line s).any opensBlock = containsBlock s := by
  rw [containsBlock_eq, ← ofTextFrom_one, ofTextFrom_eq_map line, ofTextFrom_eq_map 1,
    any_opensBlock_map (keepsNames_moved _), any_opensBlock_map (keepsNames_moved _)]

theorem containsBlock_glue {a b : Text} (hm : endMode .text (lexemes .text a) = .text)
    (hglue : lexemes .text (a ++ b) = glue (lexemes .text a) (lexemes .text b)) :
    containsBlock (a ++ b) = (containsBlock a || containsBlock b) := by
  have hrun := foldlM_ofTextFrom_glue takesPortions_avoid hm hglue 1 ()
  simp only [foldlM_avoid, any_opensBlock_ofTextFrom] at hrun
  cases ha : containsBlock a with
  | true => simpa [ha] using hrun
  | false => cases hb : containsBlock b <;> simpa [ha, hb] using hrun

theorem containsBlock_margin (hr : ∀ c ∈ r, Text.isMargin c = true) : containsBlock r = false := by
  rw [← any_opensBlock_ofTextFrom 1]
  rcases ofTextFrom_margin hr 1 with h | h <;> rw [h] <;> rfl

theorem containsBlock_margin_append (hl : ∀ c ∈ l, Text.isMargin c = true) :
    containsBlock (l ++ m) = containsBlock m := by
  have hs := settled_margin hl
  rw [containsBlock_glue (endMode_eq_text hs.outside) (lexemes_append hs (seam_margin_left hl m)),
    containsBlock_margin hl, Bool.false_or]

theorem containsBlock_append_margin (hr : ∀ c ∈ r, Text.isMargin c = true)
    (hlast : ∀ c ∈ m.getLast?, isSpace c = false) : containsBlock (m ++ r) = containsBlock m := by
  cases hm : endMode .text (lexemes .text m) with
  | text =>
    rw [containsBlock_glue hm (lexemes_append_margin hr hm), containsBlock_margin hr, Bool.or_false]
  | directive =>
    obtain ⟨segs, d, inner, h, h', hw⟩ := ofText_append_space hr hm hlast
    have hkey : Directive.hasKeyword { d with inner } Keyword.block =
        d.hasKeyword Keyword.block := by
      unfold Directive.hasKeyword Directive.keyword?
      rw [hw]
    rw [containsBlock_eq, containsBlock_eq, h, h', List.any_append, List.any_append, List.any_cons,
      List.any_cons, opensBlock, opensBlock, hkey]

/-! ### The normal form -/

theorem isSpace_of_getLast?_normalize {c : Char} (hc : c ∈ (Text.normalize s).getLast?) :
    isSpace c = false := by
  obtain ⟨hr, -, hmargin⟩ := Text.isNormal_normalize s
  have hm := hmargin c hc
  have hne : c ≠ '\r' := by
    rintro rfl
    exact hr (List.mem_of_getLast? hc)
  simp only [Text.isMargin, Bool.or_eq_false_iff, decide_eq_false_iff_not] at hm
  simp [isSpace, hm, hne]

theorem sketch_normalize (he : ∀ l ∈ lexemes .text s, KeepsEscapes l) :
    sketch (Text.normalize s) = sketch s ∧ containsBlock (Text.normalize s) = containsBlock s := by
  obtain ⟨l, r, hlr, hl, hr⟩ := Text.exists_trimMatches Text.isMargin (Text.unifyBreaks s)
  have hlast : ∀ c ∈ (Text.normalize s).getLast?, isSpace c = false :=
    fun c => isSpace_of_getLast?_normalize
  have hlr : Text.unifyBreaks s = l ++ (Text.normalize s ++ r) := by
    rw [← List.append_assoc]
    exact hlr
  rw [← sketch_unifyBreaks he, ← containsBlock_unifyBreaks he, hlr, sketch_margin_append hl,
    containsBlock_margin_append hl, containsBlock_append_margin hr hlast]
  refine ⟨?_, rfl⟩
  rw [sketch, sketch, scan_append_margin hr hlast]

end Scan

/-! ### The fields -/

/-- In no string of the text a backslash stands before a carriage return. -/
def KeepsStrings (s : Text) : Prop :=
  ∀ t ∈ tokenize s, t.kind = .string → ¬ HasEscapedReturn t.value

instance (s : Text) : Decidable (KeepsStrings s) :=
  inferInstanceAs (Decidable (∀ t ∈ tokenize s, t.kind = .string → ¬ HasEscapedReturn t.value))

theorem KeepsStrings.keepsEscapes {s : Text} (h : KeepsStrings s) :
    ∀ l ∈ lexemes .text s, KeepsEscapes l := by
  intro l hl hk
  rw [← map_tokenize] at hl
  obtain ⟨t, ht, rfl⟩ := List.mem_map.1 hl
  exact h t ht hk

/-- What a scan tells about two texts with the same normal form decides their fields. -/
theorem extractFields_congr {t u : Text} (hs : Scan.sketch t = Scan.sketch u)
    (hn : Text.normalize t = Text.normalize u) :
    (extractFields t).mapError (Error.relined fun _ => 0) =
      (extractFields u).mapError (Error.relined fun _ => 0) := by
  rw [extractFields_eq, extractFields_eq]
  unfold Scan.sketch Scan.reported at hs
  cases ht : scan t with
  | error e =>
    rw [ht] at hs
    cases hu : scan u with
    | error e' =>
      rw [hu] at hs
      exact congrArg Except.error (Except.error.inj hs)
    | ok p =>
      rw [hu] at hs
      cases hs
  | ok o =>
    rw [ht] at hs
    cases hu : scan u with
    | error e' =>
      rw [hu] at hs
      cases hs
    | ok p =>
      rw [hu] at hs
      exact congrArg Except.ok (fieldsOf_congr (Except.ok.inj hs) hn)

/-- **The normal form decides the fields** of a text, and whether it has a block, as long as no
escaped carriage return stands in a string: two texts with the same normal form have the same fields
or fail alike, up to the line in the error. -/
theorem extractFields_of_normalize {t u : Text} (ht : KeepsStrings t) (hu : KeepsStrings u)
    (h : Text.normalize t = Text.normalize u) :
    containsBlock t = containsBlock u ∧
      (extractFields t).mapError (Error.relined fun _ => 0) =
        (extractFields u).mapError (Error.relined fun _ => 0) := by
  obtain ⟨hst, hbt⟩ := Scan.sketch_normalize ht.keepsEscapes
  obtain ⟨hsu, hbu⟩ := Scan.sketch_normalize hu.keepsEscapes
  rw [h] at hst hbt
  exact ⟨hbt.symm.trans hbu, extractFields_congr (hst.symm.trans hsu) h⟩

/-- A text with a line break in a string and in a region, with two kinds of breaks. -/
theorem extractFields_of_normalize_breaks :
    let t := ("\n\x7b% extends 'p\r\nq' %\x7d\r\n" ++
      "\x7b% block x %\x7d\r u \r\n\x7b% endblock %\x7d\r\n ").toList
    let u := "\x7b% extends 'p\nq' %\x7d\n\x7b% block x %\x7d\n u \n\x7b% endblock %\x7d".toList
    containsBlock t = containsBlock u ∧
      (extractFields t).mapError (Error.relined fun _ => 0) =
        (extractFields u).mapError (Error.relined fun _ => 0) := by
  intro t u
  exact extractFields_of_normalize (by decide +kernel) (by decide +kernel) (by decide +kernel)

/-- An escaped carriage return in a string hides a block that its normal form shows. -/
theorem not_extractFields_of_normalize :
    let t := ("\x7b% block a %\x7d\x7b% x 'y\\\r%\x7d\x7b% endblock %\x7d" ++
      "\x7b% block b %\x7d' %\x7d\x7b% endblock %\x7d").toList
    let u := ("\x7b% block a %\x7d\x7b% x 'y\\\n%\x7d\x7b% endblock %\x7d" ++
      "\x7b% block b %\x7d' %\x7d\x7b% endblock %\x7d").toList
    Text.normalize t = Text.normalize u ∧
      (extractFields t).toOption = some [("a".toList,
        "\x7b% x 'y\\\n%\x7d\x7b% endblock %\x7d\x7b% block b %\x7d' %\x7d".toList)] ∧
      (extractFields u).toOption = some [("a".toList, "\x7b% x 'y\\\n%\x7d".toList),
        ("b".toList, "' %\x7d".toList)] := by
  intro t u
  exact ⟨by decide +kernel, by decide +kernel, by decide +kernel⟩

end PageFields
