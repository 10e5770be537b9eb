import PageFields.Proofs.Directive.Slice

/-! # Nesting: blocks inside a text

`depthAfter` counts the open blocks over a list of segments and fails where a block is closed that
is not open. A text is *self-contained* (`SelfContained`) if its blocks nest, it ends outside
directives and comments and no quote in it waits for its partner: then it can stand among other text
without a change to how either is read. -/

namespace PageFields

namespace Segment

open Lexer

/-- The number of open blocks after a segment; none if it closes a block that is not open. -/
def nest : Nat → Segment → Option Nat
  | n, .literal _ => some n
  | n, .directive d =>
    if d.hasKeyword Keyword.blockEnd then
      match n with
      | 0 => none
      | n + 1 => some n
    else if d.hasKeyword Keyword.block then some (n + 1)
    else some n

/-- The number of open blocks after the segments. -/
def depthAfter (n : Nat) (segs : List Segment) : Option Nat := segs.foldlM nest n

@[simp] theorem depthAfter_nil (n : Nat) : depthAfter n [] = some n := rfl

theorem depthAfter_cons (n : Nat) (seg : Segment) (segs : List Segment) :
    depthAfter n (seg :: segs) = (nest n seg).bind fun m => depthAfter m segs := rfl

theorem depthAfter_append (n : Nat) (segs segs' : List Segment) :
    depthAfter n (segs ++ segs') = (depthAfter n segs).bind fun m => depthAfter m segs' := by
  unfold depthAfter
  rw [List.foldlM_append]
  rfl

theorem block_ne_blockEnd : Keyword.block ≠ Keyword.blockEnd := by decide

theorem hasKeyword_iff {d : Directive} {name : Text} :
    d.hasKeyword name = true ↔ ∃ t, d.keyword? = some t ∧ t.kind = .name ∧ t.value = name := by
  simp [Directive.hasKeyword, Token.isName, Option.any_eq_true]

theorem not_blockEnd_of_block {d : Directive} (h : d.hasKeyword Keyword.block = true) :
    d.hasKeyword Keyword.blockEnd = false := by
  obtain ⟨t, ht, -, hv⟩ := hasKeyword_iff.1 h
  by_contra hc
  obtain ⟨u, hu, -, hv'⟩ := hasKeyword_iff.1 (by simpa using hc)
  rw [ht] at hu
  cases hu
  exact block_ne_blockEnd (hv.symm.trans hv')

/-- No directive of this kind: as it is met in case splits. -/
theorem not_keyword_of_not_exists {seg : Segment} {name : Text}
    (h : ¬ ∃ d, seg = .directive d ∧ d.hasKeyword name = true) :
    ∀ d, seg = .directive d → d.hasKeyword name = false :=
  fun d hd => Bool.eq_false_iff.2 fun hk => h ⟨d, hd, hk⟩

theorem nest_of_block {d : Directive} (h : d.hasKeyword Keyword.block = true) (n : Nat) :
    nest n (.directive d) = some (n + 1) := by
  simp [nest, h, not_blockEnd_of_block h]

theorem nest_zero_of_end {d : Directive} (h : d.hasKeyword Keyword.blockEnd = true) :
    nest 0 (.directive d) = none := by
  simp [nest, h]

theorem nest_succ_of_end {d : Directive} (h : d.hasKeyword Keyword.blockEnd = true) (n : Nat) :
    nest (n + 1) (.directive d) = some n := by
  simp [nest, h]

theorem nest_of_other {d : Directive} (h : d.hasKeyword Keyword.block = false)
    (h' : d.hasKeyword Keyword.blockEnd = false) (n : Nat) : nest n (.directive d) = some n := by
  simp [nest, h, h']

/-- Only the end of a block can close one too much. -/
theorem nest_eq_none {n : Nat} {seg : Segment} (h : nest n seg = none) :
    n = 0 ∧ ∃ d, seg = .directive d ∧ d.hasKeyword Keyword.blockEnd = true := by
  match seg with
  | .literal t => cases h
  | .directive d =>
    by_cases hd : d.hasKeyword Keyword.blockEnd = true
    · cases n with
      | zero => exact ⟨rfl, d, rfl, hd⟩
      | succ n => rw [nest_succ_of_end hd] at h; cases h
    · by_cases hb : d.hasKeyword Keyword.block = true
      · rw [nest_of_block hb] at h; cases h
      · rw [nest_of_other (by simpa using hb) (by simpa using hd)] at h; cases h

/-- Either no block is closed too much, or there is a first directive that does so. -/
theorem depthAfter_cases (n : Nat) (segs : List Segment) :
    (∃ m, depthAfter n segs = some m) ∨ ∃ inner d rest, segs = inner ++ .directive d :: rest ∧
      depthAfter n inner = some 0 ∧ d.hasKeyword Keyword.blockEnd = true := by
  induction segs generalizing n with
  | nil => exact Or.inl ⟨n, rfl⟩
  | cons seg segs ih =>
    cases hn : nest n seg with
    | none =>
      obtain ⟨rfl, d, rfl, hd⟩ := nest_eq_none hn
      exact Or.inr ⟨[], d, segs, rfl, rfl, hd⟩
    | some m =>
      rcases ih m with ⟨k, hk⟩ | ⟨inner, d, rest, rfl, hi, hd⟩
      · exact Or.inl ⟨k, by rw [depthAfter_cons, hn]; exact hk⟩
      · exact Or.inr ⟨seg :: inner, d, rest, rfl, by rw [depthAfter_cons, hn]; exact hi, hd⟩

theorem depthAfter_succ {n m : Nat} {segs : List Segment} (h : depthAfter n segs = some m) :
    depthAfter (n + 1) segs = some (m + 1) := by
  induction segs generalizing n with
  | nil => cases h; rfl
  | cons seg segs ih =>
    rw [depthAfter_cons] at h ⊢
    obtain ⟨k, hk, h⟩ := Option.bind_eq_some_iff.1 h
    have hnest : nest (n + 1) seg = some (k + 1) := by
      match seg with
      | .literal t => cases hk; rfl
      | .directive d =>
        by_cases hd : d.hasKeyword Keyword.blockEnd = true
        · cases n with
          | zero => rw [nest_zero_of_end hd] at hk; cases hk
          | succ n => rw [nest_succ_of_end hd] at hk ⊢; cases hk; rfl
        · by_cases hb : d.hasKeyword Keyword.block = true
          · rw [nest_of_block hb] at hk ⊢; cases hk; rfl
          · rw [nest_of_other (by simpa using hb) (by simpa using hd)] at hk ⊢; cases hk; rfl
    rw [hnest]
    exact ih h

theorem depthAfter_block {d e : Directive} {inner rest : List Segment} {n : Nat}
    (hd : d.hasKeyword Keyword.block = true) (hi : depthAfter 0 inner = some 0)
    (he : e.hasKeyword Keyword.blockEnd = true) :
    depthAfter n (.directive d :: inner ++ .directive e :: rest) = depthAfter n rest := by
  have hshift : ∀ k, depthAfter k inner = some k := by
    intro k
    induction k with
    | zero => exact hi
    | succ k ih => exact depthAfter_succ ih
  rw [List.cons_append, depthAfter_cons, nest_of_block hd, Option.bind_some, depthAfter_append,
    hshift, Option.bind_some, depthAfter_cons, nest_succ_of_end he, Option.bind_some]

/-! ### Only names count -/

/-- The change of tokens leaves their kinds and the names alone. -/
structure KeepsNames (f : Token → Token) : Prop where
  kind : ∀ t, (f t).kind = t.kind
  value : ∀ t, t.kind = .name → (f t).value = t.value

variable {f : Token → Token}

theorem KeepsNames.isName (hf : KeepsNames f) (t : Token) (name : Text) :
    (f t).isName name = t.isName name := by
  unfold Token.isName
  by_cases hk : t.kind = .name
  · rw [hf.kind, hf.value t hk]
  · simp [hf.kind, hk]

theorem words_map (hf : KeepsNames f) (d : Directive) : (d.map f).words = d.words.map f := by
  unfold Directive.words Directive.map Token.isSignificant
  rw [List.filter_map]
  simp only [Function.comp_def, hf.kind]

theorem keyword?_map (hf : KeepsNames f) (d : Directive) :
    (d.map f).keyword? = d.keyword?.map f := by
  rw [Directive.keyword?, words_map hf, List.head?_map]
  rfl

theorem argument?_map (hf : KeepsNames f) (d : Directive) :
    (d.map f).argument? = d.argument?.map f := by
  rw [Directive.argument?, words_map hf, ← List.map_tail, List.head?_map]
  rfl

theorem isClosed_map (f : Token → Token) (d : Directive) : (d.map f).isClosed = d.isClosed := by
  simp [Directive.isClosed, Directive.map]

theorem hasKeyword_map (hf : KeepsNames f) (d : Directive) (name : Text) :
    (d.map f).hasKeyword name = d.hasKeyword name := by
  rw [Directive.hasKeyword, keyword?_map hf, Option.any_map]
  simp only [hf.isName]
  rfl

theorem not_keyword_map (hf : KeepsNames f) {seg : Segment} {name : Text}
    (hb : ∀ d, seg = .directive d → d.hasKeyword name = false) :
    ∀ d, seg.map f = .directive d → d.hasKeyword name = false := by
  rintro _ h
  cases seg with
  | literal t => cases h
  | directive d =>
    cases h
    rw [hasKeyword_map hf]
    exact hb d rfl

theorem nest_map (hf : KeepsNames f) (n : Nat) (seg : Segment) :
    nest n (seg.map f) = nest n seg := by
  match seg with
  | .literal t => rfl
  | .directive d => simp only [map, nest, hasKeyword_map hf]

theorem depthAfter_map (hf : KeepsNames f) (n : Nat) (segs : List Segment) :
    depthAfter n (segs.map (map f)) = depthAfter n segs := by
  unfold depthAfter
  rw [List.foldlM_map]
  simp only [nest_map hf]

theorem keepsNames_moved (k : Nat) : KeepsNames (Token.moved k) := ⟨fun _ => rfl, fun _ _ => rfl⟩

theorem keepsNames_relined (g : Nat → Nat) : KeepsNames (Token.relined g) :=
  ⟨fun _ => rfl, fun _ _ => rfl⟩

theorem depthAfter_ofTextFrom (n line : Nat) (s : Text) :
    depthAfter n (ofTextFrom line s) = depthAfter n (ofText s) := by
  rw [← ofTextFrom_one, ofTextFrom_eq_map line, ofTextFrom_eq_map 1,
    depthAfter_map (keepsNames_moved _), depthAfter_map (keepsNames_moved _)]

theorem takesPortions_nest : TakesPortions nest := by
  intro n line v w
  rfl

theorem depthAfter_text_glue {a b : Text} (hm : endMode .text (lexemes .text a) = .text)
    (hglue : lexemes .text (a ++ b) = glue (lexemes .text a) (lexemes .text b)) (n : Nat) :
    depthAfter n (ofText (a ++ b)) =
      (depthAfter n (ofText a)).bind fun m => depthAfter m (ofText b) := by
  rw [← ofTextFrom_one, depthAfter, foldlM_ofTextFrom_glue takesPortions_nest hm hglue]
  have hb : ∀ m, (ofTextFrom (1 + Text.lineFeeds a) b).foldlM nest m = depthAfter m (ofText b) :=
    fun m => depthAfter_ofTextFrom m _ b
  simp only [hb]
  rfl

theorem depthAfter_text_append {a b : Text} (ha : Settled a) (hab : Seam a b) (n : Nat) :
    depthAfter n (ofText (a ++ b)) =
      (depthAfter n (ofText a)).bind fun m => depthAfter m (ofText b) :=
  depthAfter_text_glue (endMode_eq_text ha.outside) (lexemes_append ha hab) n

theorem depthAfter_zero_iff {segs : List Segment}
    (hb : ∀ d, .directive d ∈ segs → d.hasKeyword Keyword.block = false) :
    depthAfter 0 segs = some 0 ↔
      ∀ d, .directive d ∈ segs → d.hasKeyword Keyword.blockEnd = false := by
  induction segs with
  | nil => simp
  | cons seg segs ih =>
    have hrest := ih fun d hd => hb d (List.mem_cons_of_mem _ hd)
    rw [depthAfter_cons]
    match seg with
    | .literal t => simpa [nest] using hrest
    | .directive d =>
      have hd := hb d List.mem_cons_self
      by_cases he : d.hasKeyword Keyword.blockEnd = true
      · simp [nest_zero_of_end he, he]
      · rw [nest_of_other hd (by simpa using he), Option.bind_some, hrest]
        simp [he]

end Segment

/-! ### Self-contained texts -/

/-- No quote stands alone in a directive. -/
def PairedQuotes (s : Text) : Prop :=
  ∀ t ∈ tokenize s, t.kind = .other → t.value ≠ ['"'] ∧ t.value ≠ ['\x27']

/-- The text can stand among other text without a change to how either is read. -/
structure SelfContained (s : Text) : Prop where
  /-- It ends outside directives and comments. -/
  outside : ∀ t ∈ (tokenize s).getLast?,
    t.kind = .directiveClose ∨ t.kind = .text ∧ Lexer.inComment false t.value = false
  /-- Its quotes have their partners. -/
  paired : PairedQuotes s
  /-- Every block is closed and no other one. -/
  nested : Segment.depthAfter 0 (Segment.ofText s) = some 0

instance (s : Text) : Decidable (PairedQuotes s) :=
  inferInstanceAs (Decidable (∀ t ∈ tokenize s, t.kind = .other →
    t.value ≠ ['"'] ∧ t.value ≠ ['\x27']))

instance (s : Text) : Decidable (SelfContained s) :=
  decidable_of_iff
    ((∀ t ∈ (tokenize s).getLast?,
        t.kind = .directiveClose ∨ t.kind = .text ∧ Lexer.inComment false t.value = false) ∧
      PairedQuotes s ∧ Segment.depthAfter 0 (Segment.ofText s) = some 0)
    ⟨fun h => ⟨h.1, h.2.1, h.2.2⟩, fun h => ⟨h.outside, h.paired, h.nested⟩⟩

open Lexer

theorem map_tokenize (s : Text) :
    (tokenize s).map (fun t => (⟨t.kind, t.value⟩ : Lexeme)) = lexemes .text s :=
  Segment.map_number 1 (lexemes .text s)

theorem endsOutside_iff {s : Text} : EndsOutside (lexemes .text s) ↔
    ∀ t ∈ (tokenize s).getLast?,
      t.kind = .directiveClose ∨ t.kind = .text ∧ inComment false t.value = false := by
  unfold EndsOutside
  rw [← map_tokenize, List.getLast?_map]
  simp

theorem loneQuote_iff {t : Token} : LoneQuote ⟨t.kind, t.value⟩ ↔
    t.kind = .other ∧ (t.value = ['"'] ∨ t.value = ['\x27']) := by
  unfold LoneQuote IsQuote
  constructor
  · rintro ⟨hk, q, rfl | rfl, hv⟩
    · exact ⟨hk, Or.inl hv⟩
    · exact ⟨hk, Or.inr hv⟩
  · rintro ⟨hk, hv | hv⟩
    · exact ⟨hk, '"', Or.inl rfl, hv⟩
    · exact ⟨hk, '\x27', Or.inr rfl, hv⟩

theorem pairedQuotes_iff {s : Text} :
    PairedQuotes s ↔ ∀ l ∈ lexemes .text s, ¬ LoneQuote l := by
  rw [← map_tokenize, List.forall_mem_map]
  refine forall_congr' fun t => forall_congr' fun _ => ?_
  rw [loneQuote_iff, not_and, not_or]

namespace SelfContained

theorem iff_settled {s : Text} :
    SelfContained s ↔ Settled s ∧ Segment.depthAfter 0 (Segment.ofText s) = some 0 := by
  constructor
  · rintro ⟨ho, hp, hn⟩
    exact ⟨⟨endsOutside_iff.2 ho, pairedQuotes_iff.1 hp⟩, hn⟩
  · rintro ⟨⟨ho, hp⟩, hn⟩
    exact ⟨endsOutside_iff.1 ho, pairedQuotes_iff.2 hp, hn⟩

theorem settled {s : Text} (h : SelfContained s) : Settled s := (iff_settled.1 h).1

end SelfContained

end PageFields
