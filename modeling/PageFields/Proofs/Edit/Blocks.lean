import PageFields.Proofs.Edit.Kept
import PageFields.Proofs.Edit.Words
import PageFields.Proofs.Outline.Scan

/-! # Edits: written blocks are read back

A scan of a written block passes the opening directive, copies the self-contained content and is
outside again after the closing directive (`readFrom_block`). So it finds the written blocks in
their order, each with its content between two line feeds, and nothing else (`scanAt_written`). -/

namespace PageFields.Edit

open Lexer Segment Scan

/-! ### The pieces of the text -/

/-- The directive that opens a block. -/
def blockWords (name : Text) : List Lexeme := [⟨.name, Keyword.block⟩, ⟨.name, name⟩]

/-- The directive that closes a block. -/
def endWords : List Lexeme := [⟨.name, Keyword.blockEnd⟩]

/-- The directive that names the parent. -/
def parentWords (parent : Text) : List Lexeme :=
  [⟨.name, Keyword.parent⟩, ⟨.string, '"' :: (Quoted.escape parent ++ ['"'])⟩]

theorem isWord_blockWords {name : Text} (h : isFieldName name = true) :
    ∀ w ∈ blockWords name, IsWord w := by
  intro w hw
  rcases List.mem_cons.1 hw with rfl | hw
  · exact isWord_of_isFieldName (by decide)
  · rw [List.mem_singleton.1 hw]
    exact isWord_of_isFieldName h

theorem isWord_endWords : ∀ w ∈ endWords, IsWord w := by
  intro w hw
  rw [List.mem_singleton.1 hw]
  exact isWord_of_isFieldName (by decide)

theorem isWord_parentWords (parent : Text) : ∀ w ∈ parentWords parent, IsWord w := by
  intro w hw
  rcases List.mem_cons.1 hw with rfl | hw
  · exact isWord_of_isFieldName (by decide)
  · rw [List.mem_singleton.1 hw]
    exact isWord_quoted parent

theorem source_spaced_cons (w : Lexeme) (words : List Lexeme) :
    Lexer.source (spaced (w :: words)) = ' ' :: (w.value ++ Lexer.source (spaced words)) := rfl

theorem directiveText_eq (words : List Lexeme) :
    directiveText words = '{' :: '%' :: (Lexer.source (spaced words) ++ ['%', '}']) := rfl

theorem blockText_eq (name content : Text) :
    blockText name content = ['\n'] ++ (directiveText (blockWords name) ++ (['\n'] ++
      (content ++ (['\n'] ++ (directiveText endWords ++ ['\n']))))) := by
  have h1 : "\n\x7b% block ".toList = '\n' :: '{' :: '%' :: ' ' :: (Keyword.block ++ [' ']) := by
    decide
  have h2 : " %\x7d\n".toList = [' ', '%', '}', '\n'] := by decide
  have h3 : "\n\x7b% endblock %\x7d\n".toList =
      '\n' :: '{' :: '%' :: ' ' :: (Keyword.blockEnd ++ [' ', '%', '}', '\n']) := by decide
  have h4 : Lexer.source (spaced []) = [' '] := rfl
  unfold blockText blockWords endWords
  rw [h1, h2, h3, directiveText_eq, directiveText_eq]
  simp only [source_spaced_cons, h4, List.cons_append, List.append_assoc, List.nil_append]

theorem parentLine_eq (parent : Text) :
    parentLine parent = directiveText (parentWords parent) ++ ['\n'] := by
  have h1 : "\x7b% extends \"".toList = '{' :: '%' :: ' ' :: (Keyword.parent ++ [' ', '"']) := by
    decide
  have h2 : "\" %\x7d\n".toList = ['"', ' ', '%', '}', '\n'] := by decide
  have h4 : Lexer.source (spaced []) = [' '] := rfl
  unfold parentLine parentWords
  rw [h1, h2, directiveText_eq]
  simp only [source_spaced_cons, h4, List.cons_append, List.append_assoc, List.nil_append]

/-! ### Reading piece after piece -/

variable {depth : Nat} {o : Outline} {r : OpenRegion}

/-- What a scan does with a text that starts on the given line. -/
def readFrom (depth : Nat) (σ : State) (line : Nat) (s : Text) : Logged State :=
  (ofTextFrom line s).foldlM (step depth) σ

theorem readFrom_append {a b : Text} (ha : Settled a) (hab : Seam a b) (σ : State) (line : Nat) :
    readFrom depth σ line (a ++ b) =
      readFrom depth σ line a >>= fun τ => readFrom depth τ (line + Text.lineFeeds a) b :=
  foldlM_ofTextFrom_append (takesPortions_step depth) ha hab line σ

theorem readFrom_before {a b : Text} (ha : SettledBefore a b) (hab : Seam a b) (σ : State)
    (line : Nat) : readFrom depth σ line (a ++ b) =
      readFrom depth σ line a >>= fun τ => readFrom depth τ (line + Text.lineFeeds a) b :=
  foldlM_ofTextFrom_before (takesPortions_step depth) ha hab line σ

theorem lexemes_newline : lexemes .text ['\n'] = [⟨.text, ['\n']⟩] := by
  have hread : Reads .text [⟨.text, ['\n']⟩] [] := ⟨⟨by simp, rfl⟩, Or.inl rfl, trivial⟩
  exact hread.lexemes_source

theorem ofTextFrom_newline (line : Nat) :
    ofTextFrom line ['\n'] = [.literal ⟨line, .text, ['\n']⟩] := by
  rw [ofTextFrom, lexemes_newline, ofTokens_number_text, number, ofTokens]

theorem settled_newline : Settled ['\n'] := by
  constructor
  · rw [lexemes_newline]
    rintro l ⟨⟩
    exact Or.inr ⟨rfl, rfl⟩
  · rw [lexemes_newline]
    rintro l hl ⟨hk, -⟩
    rw [List.mem_singleton.1 hl] at hk
    cases hk

theorem seam_newline (b : Text) : Seam ['\n'] b := nofun

theorem seam_directiveText (words : List Lexeme) (b : Text) : Seam (directiveText words) b := by
  intro h
  rw [directiveText, List.getLast?_append] at h
  cases h

theorem seam_before_newline (a b : Text) : Seam a (['\n'] ++ b) := fun _ => ⟨nofun, nofun⟩

theorem readFrom_newline_outside (line : Nat) :
    readFrom depth ⟨o, none⟩ line ['\n'] = pure ⟨o, none⟩ := by
  have hblank : Text.trimBlank ['\n'] = [] := by decide
  unfold readFrom
  rw [ofTextFrom_newline, List.foldlM_cons, step_outside, stepOutside_blank hblank, pure_bind,
    List.foldlM_nil]

theorem readFrom_newline_append (line : Nat) (rest : Text) :
    readFrom depth ⟨o, none⟩ line (['\n'] ++ rest) =
      readFrom depth ⟨o, none⟩ (line + Text.lineFeeds ['\n']) rest := by
  rw [readFrom_append settled_newline (seam_newline _), readFrom_newline_outside, pure_bind]

theorem readFrom_inside {s : Text} (h : depthAfter r.inner (ofText s) = some r.inner)
    (line : Nat) : readFrom depth ⟨o, some r⟩ line s =
      pure ⟨o, some { r with content := r.content ++ s }⟩ := by
  rw [← depthAfter_ofTextFrom _ line] at h
  unfold readFrom
  rw [foldlM_inside h, sources_ofTextFrom]

theorem depthAfter_newline (n : Nat) : depthAfter n (ofText ['\n']) = some n := by
  rw [← ofTextFrom_one, ofTextFrom_newline]
  rfl

theorem readFrom_directiveText (depth : Nat) {words : List Lexeme} (h : ∀ w ∈ words, IsWord w)
    (line : Nat) (σ : State) : ∃ d, d.isClosed = true ∧ d.line = line ∧
      d.words.map (fun t => (⟨t.kind, t.value⟩ : Lexeme)) = words ∧
      readFrom depth σ line (directiveText words) = step depth σ (.directive d) := by
  obtain ⟨d, hd, hc, hl, hw⟩ := ofTextFrom_directiveText h line
  refine ⟨d, hc, hl, hw, ?_⟩
  unfold readFrom
  rw [hd, List.foldlM_cons]
  simp

theorem hasKeyword_of_words {d : Directive} {name : Text} {ws : List Lexeme}
    (h : d.words.map (fun t => (⟨t.kind, t.value⟩ : Lexeme)) = ⟨.name, name⟩ :: ws) :
    d.hasKeyword name = true := by
  obtain ⟨t, ts, hts, ht, -⟩ := List.map_eq_cons_iff.1 h
  obtain ⟨hk, hv⟩ := Lexeme.mk.inj ht
  exact hasKeyword_iff.2 ⟨t, by rw [Directive.keyword?, hts]; rfl, hk, hv⟩

theorem argument?_of_words {d : Directive} {w w' : Lexeme} {ws : List Lexeme}
    (h : d.words.map (fun t => (⟨t.kind, t.value⟩ : Lexeme)) = w :: w' :: ws) :
    ∃ t, d.argument? = some t ∧ t.kind = w'.kind ∧ t.value = w'.value := by
  obtain ⟨t, ts, hts, -, h'⟩ := List.map_eq_cons_iff.1 h
  obtain ⟨u, us, rfl, rfl, -⟩ := List.map_eq_cons_iff.1 h'
  exact ⟨u, by rw [Directive.argument?, hts]; rfl, rfl, rfl⟩

theorem argument?_of_word {d : Directive} {w : Lexeme}
    (h : d.words.map (fun t => (⟨t.kind, t.value⟩ : Lexeme)) = [w]) : d.argument? = none := by
  obtain ⟨t, ts, hts, -, h'⟩ := List.map_eq_cons_iff.1 h
  rw [List.map_eq_nil_iff.1 h'] at hts
  rw [Directive.argument?, hts]
  rfl

theorem readFrom_open {name : Text} (h : isFieldName name = true) (line : Nat) :
    readFrom depth ⟨o, none⟩ line (directiveText (blockWords name)) =
      pure ⟨o, some ⟨name, line, 0, []⟩⟩ := by
  obtain ⟨d, hc, hl, hw, hread⟩ :=
    readFrom_directiveText depth (isWord_blockWords h) line ⟨o, none⟩
  obtain ⟨t, ht, hk, hv⟩ := argument?_of_words hw
  have hname : blockName d = .ok name := blockName_eq_ok.2 ⟨hc, t, ht, hk, hv⟩
  rw [hread, step_outside, stepOutside_block (hasKeyword_of_words hw), hname, hl]
  rfl

theorem readFrom_end (hi : r.inner = 0) (hn : r.name ∉ o.regions.map Region.name) (line : Nat) :
    readFrom depth ⟨o, some r⟩ line (directiveText endWords) =
      pure ⟨{ o with regions := o.regions ++ [⟨r.name, r.content, depth, r.line⟩] }, none⟩ := by
  obtain ⟨d, hc, -, hw, hread⟩ :=
    readFrom_directiveText depth isWord_endWords line ⟨o, some r⟩
  have hcheck : checkEnd r.name d = .ok () :=
    checkEnd_eq_ok.2 ⟨hc, by rw [argument?_of_word hw]; exact nofun⟩
  have hadd : addRegion o ⟨r.name, r.content, depth, r.line⟩ =
      .ok { o with regions := o.regions ++ [⟨r.name, r.content, depth, r.line⟩] } :=
    addRegion_eq_ok.2 ⟨hn, rfl⟩
  rw [hread, step_inside, stepInside_end (hasKeyword_of_words hw) hi, hcheck, hadd]
  rfl

theorem readFrom_parent (parent : Text) (line : Nat) :
    readFrom depth ⟨o, none⟩ line (directiveText (parentWords parent)) =
      pure ⟨{ o with parent := o.parent.or (some parent) }, none⟩ := by
  obtain ⟨d, hc, -, hw, hread⟩ :=
    readFrom_directiveText depth (isWord_parentWords parent) line ⟨o, none⟩
  obtain ⟨t, ht, hk, hv⟩ := argument?_of_words hw
  have hvalue : t.stringValue? = some parent := by
    rw [Token.stringValue?, if_pos hk, hv]
    exact Quoted.value?_quoted parent
  have hadd : addParent o d = { o with parent := o.parent.or (some parent) } := by
    rw [addParent, ht, Option.bind_some, hvalue]
  obtain ⟨u, hu, huk, huv⟩ := hasKeyword_iff.1 (hasKeyword_of_words hw)
  have hblock : u.isName Keyword.block = false := by
    have : Keyword.parent ≠ Keyword.block := by decide
    simpa [Token.isName, huk, huv] using this
  have hparent : u.isName Keyword.parent = true := by simp [Token.isName, huk, huv]
  rw [hread, step_outside]
  unfold stepOutside
  simp only [hu, hblock, hparent, Bool.false_eq_true, if_false, if_true, requireClosed, hc, hadd]
  rfl

theorem readFrom_parentLine_append (depth : Nat) (o : Outline) (parent : Text) (line : Nat)
    (rest : Text) :
    ∃ line', readFrom depth ⟨o, none⟩ line (parentLine parent ++ rest) =
      readFrom depth ⟨{ o with parent := o.parent.or (some parent) }, none⟩ line' rest := by
  have hhead := settled_directiveText (isWord_parentWords parent)
  rw [parentLine_eq, List.append_assoc, readFrom_append hhead (seam_directiveText _ _),
    readFrom_parent, pure_bind, readFrom_newline_append]
  exact ⟨_, rfl⟩

/-- The text behind the content of a written block, with what follows the block. -/
def blockTail (rest : Text) : Text := ['\n'] ++ (directiveText endWords ++ (['\n'] ++ rest))

theorem blockText_append (name content rest : Text) : blockText name content ++ rest =
    ['\n'] ++ (directiveText (blockWords name) ++ (['\n'] ++ (content ++ blockTail rest))) := by
  rw [blockText_eq, blockTail]
  simp only [List.append_assoc]

/-- **A written block is read as one region**, if the content is read alike before the directive
that closes the block. -/
theorem readFrom_block_before (depth : Nat) {o : Outline} {name content rest : Text}
    (hn : isFieldName name = true) (hc : SettledBefore content (blockTail rest))
    (hnested : depthAfter 0 (ofText content) = some 0)
    (hnew : name ∉ o.regions.map Region.name) (line : Nat) :
    ∃ line' line'', readFrom depth ⟨o, none⟩ line (blockText name content ++ rest) =
      readFrom depth
        ⟨{ o with regions := o.regions ++ [⟨name, '\n' :: content ++ ['\n'], depth, line'⟩] }, none⟩
        line'' rest := by
  have hopen := settled_directiveText (isWord_blockWords hn)
  have hclose := settled_directiveText isWord_endWords
  rw [blockText_append, readFrom_newline_append,
    readFrom_append hopen (seam_directiveText _ _), readFrom_open hn, pure_bind,
    readFrom_append settled_newline (seam_newline _), readFrom_inside (depthAfter_newline 0),
    pure_bind, readFrom_before hc (seam_before_newline _ _), readFrom_inside hnested,
    pure_bind, blockTail, readFrom_append settled_newline (seam_newline _),
    readFrom_inside (depthAfter_newline 0), pure_bind,
    readFrom_append hclose (seam_directiveText _ _), readFrom_end rfl hnew, pure_bind,
    readFrom_newline_append]
  exact ⟨_, _, rfl⟩

theorem readFrom_block (depth : Nat) {o : Outline} {name content : Text}
    (hn : isFieldName name = true) (hc : SelfContained content)
    (hnew : name ∉ o.regions.map Region.name) (line : Nat) (rest : Text) :
    ∃ line' line'', readFrom depth ⟨o, none⟩ line (blockText name content ++ rest) =
      readFrom depth
        ⟨{ o with regions := o.regions ++ [⟨name, '\n' :: content ++ ['\n'], depth, line'⟩] }, none⟩
        line'' rest :=
  readFrom_block_before depth hn (hc.settled.before _) hc.nested hnew line

/-- **Written blocks are read in their order**, and nothing else. -/
theorem readFrom_written (depth : Nat) (o : Outline) {fields : List (Text × Text)}
    (hn : ∀ f ∈ fields, isFieldName f.1 = true) (hc : ∀ f ∈ fields, SelfContained f.2)
    (hnew : (o.regions.map Region.name ++ fields.map Prod.fst).Nodup) (line : Nat) :
    ∃ regions, readFrom depth ⟨o, none⟩ line (written fields) =
        pure ⟨{ o with regions := o.regions ++ regions }, none⟩ ∧
      regions.map (fun q => (q.name, q.content, q.depth)) =
        fields.map fun f => (f.1, '\n' :: f.2 ++ ['\n'], depth) := by
  induction fields generalizing o line with
  | nil =>
    refine ⟨[], ?_, rfl⟩
    rw [List.append_nil]
    unfold readFrom written
    rw [List.flatMap_nil, ofTextFrom, lexemes_nil, number, ofTokens, List.foldlM_nil]
  | cons f fields ih =>
    have hf : f.1 ∉ o.regions.map Region.name := fun h => by
      have := List.disjoint_of_nodup_append hnew h
      simp at this
    obtain ⟨line', line'', hread⟩ := readFrom_block depth (hn f List.mem_cons_self)
      (hc f List.mem_cons_self) hf line (written fields)
    let q : Region := ⟨f.1, '\n' :: f.2 ++ ['\n'], depth, line'⟩
    have hnew' : ((o.regions ++ [q]).map Region.name ++ fields.map Prod.fst).Nodup := by
      simpa [q] using hnew
    obtain ⟨regions, hr, hmap⟩ := ih { o with regions := o.regions ++ [q] }
      (fun g hg => hn g (List.mem_cons_of_mem _ hg))
      (fun g hg => hc g (List.mem_cons_of_mem _ hg)) hnew' line''
    refine ⟨q :: regions, ?_, ?_⟩
    · rw [written, List.flatMap_cons]
      rw [written] at hread hr
      rw [hread, hr, List.append_assoc]
      rfl
    · rw [List.map_cons, hmap, List.map_cons]

/-- **The outline of what an edit writes**: the parent, the fields as regions in their order, and
nothing outside them. -/
theorem scanAt_written (depth : Nat) (parent : Option Text) {fields : List (Text × Text)}
    (hn : ∀ f ∈ fields, isFieldName f.1 = true) (hc : ∀ f ∈ fields, SelfContained f.2)
    (hd : (fields.map Prod.fst).Nodup) : ∃ regions,
      scanAt depth (parent.elim [] parentLine ++ written fields) =
        pure { parent, regions, hasOutside := false } ∧
      regions.map (fun q => (q.name, q.content, q.depth)) =
        fields.map fun f => (f.1, '\n' :: f.2 ++ ['\n'], depth) := by
  have hscan : ∀ (s : Text) (o : Outline), readFrom depth {} 1 s = pure ⟨o, none⟩ →
      scanAt depth s = pure o := by
    intro s o h
    unfold readFrom at h
    rw [scanAt, Scan.run, ← ofTextFrom_one, h, pure_bind]
    rfl
  cases parent with
  | none =>
    obtain ⟨regions, hr, hmap⟩ := readFrom_written depth {} hn hc hd 1
    exact ⟨regions, hscan _ _ hr, hmap⟩
  | some p =>
    obtain ⟨line, hline⟩ := readFrom_parentLine_append depth {} p 1 (written fields)
    obtain ⟨regions, hr, hmap⟩ := readFrom_written depth { parent := some p } hn hc hd line
    refine ⟨regions, hscan _ _ ?_, hmap⟩
    rw [Option.elim_some]
    exact hline.trans hr

end PageFields.Edit
