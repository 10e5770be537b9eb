import PageFields.Proofs.Outline.Lines

/-! # Outlines: scanning a concatenation

What a scan has found so far only matters where a region is added: its name must be new. So a run
that starts with an outline does what a run without it does, and puts the outline in front
(`foldlM_after`). The second part of a text is read after the first like this, with its lines
further down; what follows a part that scans is a new start, as the part ends outside directives
(`isClosed_of_scan`). So scanning a concatenation is scanning its parts (`scan_append`). -/

namespace PageFields

namespace Outline

/-- What two parts of a text have, one after the other. -/
def append (o p : Outline) : Outline where
  parent := o.parent.or p.parent
  regions := o.regions ++ p.regions
  hasOutside := o.hasOutside || p.hasOutside

/-- No name is one of a region in both. -/
def Apart (o p : Outline) : Prop := ∀ q ∈ o.regions, ∀ r ∈ p.regions, q.name ≠ r.name

theorem append_empty (o : Outline) : o.append {} = o := by
  simp [append]

theorem apart_empty (o : Outline) : o.Apart {} := by
  intro q _ r hr
  cases hr

end Outline

namespace Scan

open Lexer Segment

variable {depth : Nat} {o : Outline} {σ τ : State} {seg : Segment} {segs : List Segment}

/-- The state with an outline in front. -/
def State.after (o : Outline) (σ : State) : State := ⟨o.append σ.outline, σ.current⟩

/-! ### Runs that start with an outline -/

theorem note_append (o p : Outline) (seg : Segment) :
    note (o.append p) seg = o.append (note p seg) := by
  have houtside : ({ o.append p with hasOutside := true } : Outline) =
      o.append { p with hasOutside := true } := by simp [Outline.append]
  match seg with
  | .literal t =>
    simp only [note]
    split
    · exact houtside
    · rfl
  | .directive d =>
    have hparent : addParent (o.append p) d = o.append (addParent p d) := by
      unfold addParent
      split
      · simp [Outline.append]
      · exact houtside
    simp only [note]
    split
    · rfl
    · split
      · exact hparent
      · split
        · rfl
        · exact houtside

theorem apart_concat {p : Outline} {r : Region} (h : o.Apart p) :
    o.Apart { p with regions := p.regions ++ [r] } ↔ r.name ∉ o.regions.map Region.name := by
  constructor
  · intro ha hr
    obtain ⟨q, hq, hn⟩ := List.mem_map.1 hr
    exact ha q hq r (by simp) hn
  · intro hr q hq s hs
    rcases List.mem_append.1 hs with hs | hs
    · exact h q hq s hs
    · rw [List.mem_singleton.1 hs]
      exact fun hn => hr (List.mem_map.2 ⟨q, hq, hn⟩)

theorem step_after {τ' : State} (h : o.Apart σ.outline) :
    (step depth (σ.after o) seg).outcome = .ok τ' ↔
      ∃ τ, (step depth σ seg).outcome = .ok τ ∧ o.Apart τ.outline ∧ τ' = τ.after o := by
  have hnames : ∀ (p : Outline) (name : Text), name ∉ (o.append p).regions.map Region.name ↔
      name ∉ o.regions.map Region.name ∧ name ∉ p.regions.map Region.name := by
    intro p name
    rw [Outline.append, List.map_append, List.mem_append, not_or]
  simp only [step_eq_ok]
  constructor
  · intro ht
    obtain ⟨p, c⟩ := σ
    unfold State.after at ht
    cases ht with
    | opens hd hn => exact ⟨_, .opens hd hn, h, rfl⟩
    | passes hb hc =>
      refine ⟨_, .passes hb hc, ?_, by rw [note_append]; rfl⟩
      unfold Outline.Apart
      rw [regions_note]
      exact h
    | inside hn => exact ⟨_, .inside hn, h, rfl⟩
    | ends hd h0 hc hnew =>
      obtain ⟨ho, hp⟩ := (hnames p _).1 hnew
      exact ⟨_, .ends hd h0 hc hp, (apart_concat h).2 ho, by simp [State.after, Outline.append]⟩
  · rintro ⟨τ, ht, ha, rfl⟩
    cases ht with
    | opens hd hn => exact .opens hd hn
    | passes hb hc =>
      unfold State.after
      rw [← note_append]
      exact .passes hb hc
    | inside hn => exact .inside hn
    | @ends p r d hd h0 hc hnew =>
      have : Takes depth ⟨o.append p, some r⟩ (.directive d) _ :=
        .ends hd h0 hc ((hnames p _).2 ⟨(apart_concat h).1 ha, hnew⟩)
      simpa [State.after, Outline.append] using this

theorem apart_of_foldlM (h : (segs.foldlM (step depth) σ).outcome = .ok τ)
    (ha : o.Apart τ.outline) : o.Apart σ.outline :=
  fun q hq r hr => ha q hq r ((prefix_of_foldlM h).subset hr)

/-- **A run that starts with an outline** is a run without it that adds no name of the outline. -/
theorem foldlM_after {τ' : State} (h : o.Apart σ.outline) :
    (segs.foldlM (step depth) (σ.after o)).outcome = .ok τ' ↔
      ∃ τ, (segs.foldlM (step depth) σ).outcome = .ok τ ∧ o.Apart τ.outline ∧ τ' = τ.after o := by
  induction segs generalizing σ with
  | nil =>
    constructor
    · rintro ⟨⟩
      exact ⟨σ, rfl, h, rfl⟩
    · rintro ⟨_, ⟨⟩, -, rfl⟩
      rfl
  | cons seg segs ih =>
    rw [List.foldlM_cons, List.foldlM_cons, Logged.outcome_bind, Logged.outcome_bind, bind_eq_ok]
    simp only [bind_eq_ok, step_after h]
    constructor
    · rintro ⟨_, ⟨υ, hstep, hυ, rfl⟩, hrun⟩
      obtain ⟨τ, hτ, ha, rfl⟩ := (ih hυ).1 hrun
      exact ⟨τ, ⟨υ, hstep, hτ⟩, ha, rfl⟩
    · rintro ⟨τ, ⟨υ, hstep, hτ⟩, ha, rfl⟩
      have hυ := apart_of_foldlM hτ ha
      exact ⟨_, ⟨υ, hstep, hυ, rfl⟩, (ih hυ).2 ⟨τ, hτ, ha, rfl⟩⟩

/-! ### The end of a text that scans -/

theorem isClosed_of_step (h : (step depth σ seg).outcome = .ok ⟨o, none⟩) :
    seg.isClosed = true := by
  cases step_eq_ok.1 h with
  | passes hb hc => exact hc
  | ends hd h0 hc hnew => exact (checkEnd_eq_ok.1 hc).1

theorem isClosed_of_scan {s : Text} (h : (scanAt depth s).outcome = .ok o) :
    ∀ seg ∈ ofText s, seg.isClosed = true := by
  have hrun := scanAt_eq_ok.1 h
  rcases List.eq_nil_or_concat' (ofText s) with hnil | ⟨segs, last, hsegs⟩
  · rw [hnil]
    exact nofun
  rw [hsegs, List.foldlM_append, Logged.outcome_bind] at hrun
  obtain ⟨σ, -, hlast⟩ := bind_eq_ok.1 hrun
  simp only [List.foldlM_cons, List.foldlM_nil, bind_pure] at hlast
  intro seg hseg
  rw [hsegs] at hseg
  rcases List.mem_append.1 hseg with hseg | hseg
  · exact isClosed_of_ofTokens hsegs (by simp) seg hseg
  · rw [List.mem_singleton.1 hseg]
    exact isClosed_of_step hlast

/-- A text that scans and does not end in a comment is not changed by what follows, if its quotes
have their partners. -/
theorem settled_of_scan {s : Text} (h : (scanAt depth s).outcome = .ok o)
    (hc : ∀ t ∈ (tokenize s).getLast?, t.kind = .text → inComment false t.value = false)
    (hq : PairedQuotes s) : Settled s := by
  have hm : endMode .text (lexemes .text s) = .text :=
    (isClosed_iff (reads_lexemes .text s) 1).1 (isClosed_of_scan h)
  refine ⟨fun l hl => ?_, pairedQuotes_iff.1 hq⟩
  obtain ⟨la, hla⟩ := List.getLast?_eq_some_iff.1 hl
  rw [hla, endMode_append] at hm
  rw [← map_tokenize, List.getLast?_map] at hl
  obtain ⟨t, ht, rfl⟩ := Option.map_eq_some_iff.1 hl
  rcases modeAfter_eq_text hm with hk | hk
  · exact Or.inl hk
  · exact Or.inr ⟨hk, hc t ht hk⟩

/-! ### The concatenation -/

/-- **Scanning a concatenation.** If the first part scans, does not end in `{` or in a comment and
has no quote without its partner, then the whole scans exactly if the second part does and brings no
name again. Then it has the outline of both parts, one after the other, with the lines of the
second part behind those of the first. -/
theorem scan_append {s t : Text} {o : Outline} (h : scan s = .ok o) (hb : s.getLast? ≠ some '{')
    (hc : ∀ x ∈ (tokenize s).getLast?, x.kind = .text → inComment false x.value = false)
    (hq : PairedQuotes s) (w : Outline) :
    scan (s ++ t) = .ok w ↔ ∃ p, scan t = .ok p ∧ o.Apart p ∧
      w = o.append (p.relined (· + Text.lineFeeds s)) := by
  have hs := settled_of_scan h hc hq
  have hmoved : ofTextFrom (1 + Text.lineFeeds s) t =
      (ofText t).map (map (Token.relined (· + Text.lineFeeds s))) := ofTextFrom_add 1 _ t
  have hstart : (⟨o, none⟩ : State) =
      (State.relined (· + Text.lineFeeds s) {}).after o := by
    change _ = (⟨o.append {}, none⟩ : State)
    rw [Outline.append_empty]
  have hapart : ∀ p : Outline, o.Apart (p.relined (· + Text.lineFeeds s)) ↔ o.Apart p := by
    intro p
    simp [Outline.Apart, Outline.relined, Region.relined]
  simp only [scan, scanAt_eq_ok] at h ⊢
  rw [← ofTextFrom_one, foldlM_ofTextFrom_append (takesPortions_step 0) hs fun hl => absurd hl hb,
    Logged.outcome_bind, ofTextFrom_one, h, ok_bind, hmoved, hstart,
    foldlM_after (Outline.apart_empty o)]
  simp only [foldlM_relined, reported_eq_ok]
  constructor
  · rintro ⟨_, ⟨⟨p, c⟩, hrun, rfl⟩, ha, hw⟩
    obtain ⟨rfl, hcur⟩ := State.mk.inj hw
    obtain rfl : c = none := by simpa [State.relined] using hcur.symm
    exact ⟨p, hrun, (hapart p).1 ha, rfl⟩
  · rintro ⟨p, hrun, ha, rfl⟩
    exact ⟨_, ⟨⟨p, none⟩, hrun, rfl⟩, (hapart p).2 ha, rfl⟩

/-- The same for two parts with a block each, the first of which names the parent. -/
theorem scan_append_blocks :
    let s := "\x7b% extends \"p\" %\x7d\n\x7b% block x %\x7d1\x7b% endblock %\x7d".toList
    let t := "\x7b% extends \"q\" %\x7d\n\x7b% block y %\x7d2\x7b% endblock %\x7d\nz".toList
    scan (s ++ t) = .ok ⟨some "p".toList,
      [⟨"x".toList, "1".toList, 0, 2⟩, ⟨"y".toList, "2".toList, 0, 3⟩], true⟩ := by
  intro s t
  have h : scan s = .ok ⟨some "p".toList, [⟨"x".toList, "1".toList, 0, 2⟩], false⟩ :=
    toOption_eq_some.1 (by decide +kernel)
  have h' : scan t = .ok ⟨some "q".toList, [⟨"y".toList, "2".toList, 0, 2⟩], true⟩ :=
    toOption_eq_some.1 (by decide +kernel)
  refine (scan_append h (by decide +kernel) (by decide +kernel) (by decide +kernel) _).2
    ⟨_, h', ?_, rfl⟩
  simp [Outline.Apart]

end Scan

end PageFields
