import PageFields.Proofs.Outline.Scan

/-! # Outlines: a scan cuts the text into blocks and gaps

A text that scans is a *gap*, a block, a gap, a block and so on to the last gap. A block is its
opening directive, a stretch whose blocks nest, and its closing directive; in a gap no block is
opened, and every `endblock` directive there is worth a warning (`Cuts`). The regions are read off
the blocks (`Block.region`), so none is lost, cut short or counted twice. The induction is on the
segments that a run reads outside regions: at a `block` directive it goes on behind the first
directive that closes one block too much (`exists_cuts`). For a whole text this is `Partition`,
which also says where each block starts. -/

namespace PageFields.Scan

open Segment

/-- A block of a text and the gap behind it, up to the next block or the end of the text. -/
structure Block where
  opening : Directive
  inner : List Segment
  ending : Directive
  gap : List Segment
  deriving DecidableEq

namespace Block

variable (b : Block)

/-- The segments of a block and the gap behind it. -/
def segments : List Segment :=
  .directive b.opening :: b.inner ++ .directive b.ending :: b.gap

/-- The text of a block and the gap behind it. -/
def source : Text :=
  b.opening.source ++ sources b.inner ++ b.ending.source ++ sources b.gap

/-- The second word of the opening directive. -/
def name : Text := (b.opening.argument?.map Token.value).getD []

/-- The region that a block is. -/
def region (depth : Nat) : Region := ⟨b.name, sources b.inner, depth, b.opening.line⟩

/-- The directives open and close one block, and all blocks between them nest. -/
structure Closes : Prop where
  opens : Opens b.opening b.name
  openingClosed : b.opening.isClosed = true
  nested : depthAfter 0 b.inner = some 0
  ends : b.ending.hasKeyword Keyword.blockEnd = true
  endingClosed : b.ending.isClosed = true
  /-- A name in the closing directive is the one in the opening directive. -/
  endName : ∀ t, b.ending.argument? = some t → t.kind = .name → t.value = b.name

theorem sources_segments : sources b.segments = b.source := by
  simp [segments, source, Segment.source]

end Block

theorem sources_flatMap_segments (blocks : List Block) :
    sources (blocks.flatMap Block.segments) = blocks.flatMap Block.source := by
  induction blocks with
  | nil => rfl
  | cons b blocks ih =>
    rw [List.flatMap_cons, sources_append, Block.sources_segments, ih, List.flatMap_cons]

/-- All segments outside the blocks. -/
def gaps (gap : List Segment) (blocks : List Block) : List Segment :=
  gap ++ blocks.flatMap Block.gap

/-- The segments are a gap, in which no block is opened, and then blocks with such gaps. -/
structure Cuts (segs gap : List Segment) (blocks : List Block) : Prop where
  segments : segs = gap ++ blocks.flatMap Block.segments
  closes : ∀ b ∈ blocks, b.Closes
  noBlock : ∀ d, .directive d ∈ gaps gap blocks → d.hasKeyword Keyword.block = false

variable {depth : Nat} {o o' : Outline} {ws : List Warning} {segs gap rest inner : List Segment}
  {blocks : List Block} {d e : Directive}

/-! ### Blocks and gaps of a run -/

theorem cuts_nil : Cuts [] [] [] := ⟨rfl, by simp, by simp [gaps]⟩

theorem Cuts.cons {seg : Segment} (h : Cuts segs gap blocks)
    (hb : ∀ d, seg = .directive d → d.hasKeyword Keyword.block = false) :
    Cuts (seg :: segs) (seg :: gap) blocks := by
  refine ⟨by rw [h.segments]; rfl, h.closes, fun d hd => ?_⟩
  rcases List.mem_cons.1 hd with hd | hd
  · exact hb d hd.symm
  · exact h.noBlock d hd

theorem Cuts.block (h : Cuts rest gap blocks) (hb : (⟨d, inner, e, gap⟩ : Block).Closes) :
    Cuts (.directive d :: inner ++ .directive e :: rest) [] (⟨d, inner, e, gap⟩ :: blocks) := by
  refine ⟨?_, ?_, h.noBlock⟩
  · rw [h.segments]
    simp [Block.segments]
  · intro b hmem
    rcases List.mem_cons.1 hmem with rfl | hmem
    · exact hb
    · exact h.closes b hmem

theorem closes_of_checkEnd {name : Text} (hd : d.hasKeyword Keyword.block = true)
    (hn : blockName d = .ok name) (hi : depthAfter 0 inner = some 0)
    (he : e.hasKeyword Keyword.blockEnd = true) (hc : checkEnd name e = .ok ())
    (gap : List Segment) :
    (⟨d, inner, e, gap⟩ : Block).name = name ∧ (⟨d, inner, e, gap⟩ : Block).Closes := by
  obtain ⟨hdc, t, ht, hk, rfl⟩ := blockName_eq_ok.1 hn
  obtain ⟨hec, hname⟩ := checkEnd_eq_ok.1 hc
  have hb : (⟨d, inner, e, gap⟩ : Block).name = t.value := by rw [Block.name, ht]; rfl
  exact ⟨hb, ⟨⟨hd, t, ht, hk, hb.symm⟩, hdc, hi, he, hec, fun u hu huk => (hname u hu huk).trans
    hb.symm⟩⟩

/-- **A run that ends outside regions** goes over gaps and blocks, and adds a region for each
block. -/
theorem exists_cuts (h : segs.foldlM (step depth) ⟨o, none⟩ = ⟨ws, .ok ⟨o', none⟩⟩) :
    ∃ gap blocks, Cuts segs gap blocks ∧ o'.regions = o.regions ++ blocks.map (·.region depth) ∧
      ws = strays (gaps gap blocks) := by
  induction hlen : segs.length using Nat.strongRecOn generalizing segs o ws with
  | ind n ih =>
    subst hlen
    match segs with
    | [] =>
      cases h
      exact ⟨[], [], cuts_nil, by simp, rfl⟩
    | seg :: segs =>
      rw [List.foldlM_cons, Logged.bind_eq_ok] at h
      obtain ⟨us, σ, vs, hstep, hrun, rfl⟩ := h
      rw [step_outside] at hstep
      by_cases hb : ∃ d, seg = .directive d ∧ d.hasKeyword Keyword.block = true
      · obtain ⟨d, rfl, hd⟩ := hb
        rw [stepOutside_block hd, Logged.mk.injEq, map_eq_ok] at hstep
        obtain ⟨rfl, name, hn, rfl⟩ := hstep
        rcases depthAfter_cases 0 segs with ⟨m, hm⟩ | ⟨inner, e, rest, rfl, hi, he⟩
        · -- the block is not closed, so the run does not end outside regions
          rw [foldlM_inside (r := ⟨name, d.line, 0, []⟩) hm] at hrun
          cases hrun
        rw [List.foldlM_append, foldlM_inside (r := ⟨name, d.line, 0, []⟩) hi, pure_bind,
          List.foldlM_cons, Logged.bind_eq_ok] at hrun
        obtain ⟨us, σ, vs, hend, hrun, rfl⟩ := hrun
        rw [step_inside, Logged.lift, Logged.mk.injEq, stepInside_end_eq_ok he rfl] at hend
        obtain ⟨rfl, hc, -, rfl⟩ := hend
        obtain ⟨gap, blocks, hcuts, hregions, hws⟩ := ih rest.length
          (by simp only [List.length_append, List.length_cons]; omega) hrun rfl
        obtain ⟨hname, hcloses⟩ := closes_of_checkEnd hd hn hi he hc gap
        refine ⟨[], ⟨d, inner, e, gap⟩ :: blocks, hcuts.block hcloses, ?_, hws⟩
        rw [hregions, List.map_cons, Block.region, hname]
        simp
      · have hb := not_keyword_of_not_exists hb
        have hσ := (stepOutside_other o hb).1 (congrArg Logged.outcome hstep)
        rw [stepOutside_eq o hb] at hstep
        obtain rfl := (congrArg Logged.warnings hstep).symm
        obtain ⟨-, rfl⟩ := hσ
        obtain ⟨gap, blocks, hcuts, hregions, rfl⟩ := ih segs.length (by simp) hrun rfl
        refine ⟨seg :: gap, blocks, hcuts.cons hb, by rw [hregions, regions_note], ?_⟩
        rw [← strays_append]
        rfl

/-! ### A whole text -/

/-- The regions that a pass finds are the blocks of a text cut into blocks and gaps. -/
theorem exists_cuts_of_scanAt {s : Text} (h : (scanAt depth s).outcome = .ok o) :
    ∃ gap blocks, Cuts (ofText s) gap blocks ∧ o.regions = blocks.map (·.region depth) := by
  have hrun : (ofText s).foldlM (step depth) ⟨{}, none⟩ =
      ⟨((ofText s).foldlM (step depth) {}).warnings, .ok ⟨o, none⟩⟩ := by
    rw [← scanAt_eq_ok.1 h]
  obtain ⟨gap, blocks, hcuts, hregions, -⟩ := exists_cuts hrun
  exact ⟨gap, blocks, hcuts, by simpa using hregions⟩

/-- The text is a gap and then blocks, each followed by a gap. They are the regions of the outline,
and the warnings are those for the gaps. -/
structure Partition (s : Text) (o : Outline) (ws : List Warning) (gap : List Segment)
    (blocks : List Block) : Prop where
  cuts : Cuts (ofText s) gap blocks
  tokens : tokenize s = (gap ++ blocks.flatMap Block.segments).flatMap Segment.tokens
  text : s = sources gap ++ blocks.flatMap Block.source
  regions : o.regions = blocks.map (·.region 0)
  /-- The directives of a block reach from an opening delimiter to the next closing one. -/
  whole : ∀ b ∈ blocks, (directive b.opening).IsWhole ∧ (directive b.ending).IsWhole
  line : ∀ before b after, blocks = before ++ b :: after →
    b.opening.line = 1 + Text.lineFeeds (sources gap ++ before.flatMap Block.source)
  distinct : (o.regions.map Region.name).Nodup
  warnings : ws = strays (gaps gap blocks)

theorem isWhole_of_cuts {s : Text} {b : Block} (h : Cuts (ofText s) gap blocks) (hb : b ∈ blocks) :
    (directive b.opening).IsWhole ∧ (directive b.ending).IsWhole := by
  have hmem : ∀ seg ∈ b.segments, seg ∈ ofText s := fun seg hseg => by
    rw [h.segments]
    exact List.mem_append_right _ (List.mem_flatMap.2 ⟨b, hb, hseg⟩)
  exact ⟨isWhole_of_mem (hmem _ (by simp [Block.segments])) (h.closes b hb).openingClosed,
    isWhole_of_mem (hmem _ (by simp [Block.segments])) (h.closes b hb).endingClosed⟩

theorem line_of_cuts {s : Text} {b : Block} {before after : List Block}
    (h : Cuts (ofText s) gap (before ++ b :: after)) :
    b.opening.line = 1 + Text.lineFeeds (sources gap ++ before.flatMap Block.source) := by
  have hsplit : ofTextFrom 1 s = (gap ++ before.flatMap Block.segments) ++
      (.directive b.opening :: (b.inner ++ .directive b.ending :: b.gap ++
        after.flatMap Block.segments)) := by
    rw [ofTextFrom_one, h.segments]
    simp [Block.segments]
  have hclosed := isClosed_of_ofTokens hsplit (by simp)
  rw [line_of_ofTextFrom (ofTextFrom_split hsplit hclosed).2, sources_append,
    sources_flatMap_segments]

/-- **A text that scans is cut into blocks and gaps.** The blocks are the regions, under different
names, each with its content as it stands in the text and with the line on which it starts. No gap
opens a block, and the warnings are those for the `endblock` directives in the gaps. -/
theorem exists_partition {s : Text} {o : Outline} (h : scan s = .ok o) :
    ∃ gap blocks, Partition s o (scanAt 0 s).warnings gap blocks := by
  have hrun : (ofText s).foldlM (step 0) ⟨{}, none⟩ = ⟨(scanAt 0 s).warnings, .ok ⟨o, none⟩⟩ := by
    have hout := scanAt_eq_ok.1 h
    have hws : (scanAt 0 s).warnings = ((ofText s).foldlM (step 0) {}).warnings := by
      rw [scanAt, run, Logged.warnings_bind_liftM]
    rw [hws, ← hout]
  obtain ⟨gap, blocks, hcuts, hregions, hws⟩ := exists_cuts hrun
  refine ⟨gap, blocks, hcuts, ?_, ?_, by simpa using hregions, fun b hb => isWhole_of_cuts hcuts hb,
    ?_, (cut_of_scanAt h).2, hws⟩
  · rw [← hcuts.segments, ofText, flatMap_tokens_ofTokens]
  · have := sources_ofTextFrom 1 s
    rw [ofTextFrom_one, hcuts.segments, sources_append, sources_flatMap_segments] at this
    exact this.symm
  · rintro before b after rfl
    exact line_of_cuts hcuts

/-- The same for a text with a block in a block, a second block and an `endblock` too many. -/
theorem exists_partition_nested :
    let s := ("a\n\x7b% endblock %\x7d\x7b% block x %\x7d\x7b% block y %\x7du\x7b% endblock %\x7d\n" ++
      "\x7b% endblock x %\x7db\x7b%- block z -%\x7d\x7b% endblock %\x7d").toList
    let o : Outline := ⟨none, [
      ⟨"x".toList, "\x7b% block y %\x7du\x7b% endblock %\x7d\n".toList, 0, 2⟩,
      ⟨"z".toList, [], 0, 3⟩], true⟩
    ∃ gap blocks, Partition s o [.strayEnd 2] gap blocks := by
  intro s o
  have hws : (scanAt 0 s).warnings = [.strayEnd 2] := by decide +kernel
  rw [← hws]
  exact exists_partition (toOption_eq_some.1 (by decide +kernel))

end PageFields.Scan
