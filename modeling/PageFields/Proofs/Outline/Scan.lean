import Mathlib.Data.List.Nodup
import PageFields.Outline.Nested
import PageFields.Proofs.Directive.Nesting
import PageFields.Proofs.Outcome
import PageFields.Proofs.Text.Normal

/-! # Scanning: what a run over segments does

A step that succeeds does one of four things (`Takes`). Inside a region a scan only counts and
copies (`foldlM_inside`), until the directive that closes one block too much. Outside it goes from
region to region. So every region is cut out of the text: its content is the text of a stretch of
segments whose blocks nest, with more segments after it (`Sliced`). -/

namespace PageFields.Scan

open Segment

variable {depth : Nat} {o o' : Outline} {r : OpenRegion}

/-! ### Steps -/

theorem step_outside (seg : Segment) : step depth ⟨o, none⟩ seg = stepOutside o seg := rfl

theorem step_inside (seg : Segment) :
    step depth ⟨o, some r⟩ seg = Logged.lift (stepInside depth o r seg) := rfl

theorem blockName_eq_ok {d : Directive} {name : Text} :
    blockName d = .ok name ↔
      d.isClosed = true ∧ ∃ t, d.argument? = some t ∧ t.kind = .name ∧ t.value = name := by
  unfold blockName requireClosed
  by_cases hc : d.isClosed = true
  · cases ha : d.argument? with
    | none => simp [hc, bind, Except.bind]
    | some t =>
      by_cases hk : t.kind = .name
      · simp [hc, hk, bind, Except.bind]
      · simp [hc, hk, bind, Except.bind]
  · simp [hc, bind, Except.bind]

theorem checkEnd_eq_ok {d : Directive} {name : Text} :
    checkEnd name d = .ok () ↔
      d.isClosed = true ∧ ∀ t, d.argument? = some t → t.kind = .name → t.value = name := by
  unfold checkEnd requireClosed
  by_cases hc : d.isClosed = true
  · cases ha : d.argument? with
    | none => simp [hc]
    | some t =>
      by_cases hk : t.kind = .name ∧ t.value ≠ name
      · simp [hc, hk]
      · have : t.kind = .name → t.value = name := fun h => not_not.1 fun hv => hk ⟨h, hv⟩
        simp only [if_neg hk, hc, if_true, true_and, Option.some.injEq, forall_eq', true_iff]
        exact this
  · cases ha : d.argument? with
    | none => simp [hc]
    | some t =>
      by_cases hk : t.kind = .name ∧ t.value ≠ name
      · simp [hc, hk]
      · simp [hc, hk]

theorem addRegion_eq_ok {q : Region} :
    addRegion o q = .ok o' ↔
      q.name ∉ o.regions.map Region.name ∧ o' = { o with regions := o.regions ++ [q] } := by
  unfold addRegion
  by_cases h : q.name ∈ o.regions.map Region.name
  · have : o.regions.any (·.name = q.name) = true := by simpa using h
    simp [this, h]
  · have : o.regions.any (·.name = q.name) = false := by simpa using h
    simp only [this, h, Bool.false_eq_true, if_false, Except.ok.injEq, not_false_eq_true, true_and]
    exact eq_comm

theorem stepOutside_blank {t : Token} (h : Text.trimBlank t.value = []) :
    stepOutside o (.literal t) = pure ⟨o, none⟩ := by
  simp [stepOutside, h]

theorem stepOutside_block {d : Directive} (hd : d.hasKeyword Keyword.block = true) :
    stepOutside o (.directive d) =
      ⟨[], (blockName d).map fun name => ⟨o, some ⟨name, d.line, 0, []⟩⟩⟩ := by
  obtain ⟨t, ht, hk, hv⟩ := hasKeyword_iff.1 hd
  simp only [stepOutside, ht, Token.isName, hk, hv, decide_true, Bool.and_self, if_true]
  exact Logged.liftM_bind_pure _ _

theorem stepOutside_block_eq_ok {d : Directive} (hd : d.hasKeyword Keyword.block = true)
    {σ : State} : (stepOutside o (.directive d)).outcome = .ok σ ↔
      ∃ name, blockName d = .ok name ∧ σ = ⟨o, some ⟨name, d.line, 0, []⟩⟩ := by
  rw [stepOutside_block hd, map_eq_ok]
  simp only [eq_comm]

/-- The directives among the segments that close a block. -/
def ends (segs : List Segment) : List Directive :=
  segs.filterMap fun
    | .literal _ => none
    | .directive d => if d.hasKeyword Keyword.blockEnd then some d else none

/-- The warnings for segments outside regions: a directive that closes a block closes nothing. -/
def strays (segs : List Segment) : List Warning := (ends segs).map fun d => .strayEnd d.line

theorem strays_append (segs segs' : List Segment) :
    strays (segs ++ segs') = strays segs ++ strays segs' := by
  simp [strays, ends]

theorem strays_directive (d : Directive) : strays [.directive d] =
    if d.hasKeyword Keyword.blockEnd then [.strayEnd d.line] else [] := by
  unfold strays ends
  by_cases h : d.hasKeyword Keyword.blockEnd = true
  · simp [h]
  · simp [h]

/-- Fails unless the segment is closed. -/
def checkClosed : Segment → Except Error Unit
  | .literal _ => .ok ()
  | .directive d => requireClosed d

theorem checkClosed_eq_ok {seg : Segment} : checkClosed seg = .ok () ↔ seg.isClosed = true := by
  match seg with
  | .literal t => simp [checkClosed, isClosed]
  | .directive d =>
    by_cases hc : d.isClosed = true
    · simp [checkClosed, requireClosed, isClosed, hc]
    · simp [checkClosed, requireClosed, isClosed, hc]

/-- The outline after a segment outside regions that opens no block. -/
def note (o : Outline) : Segment → Outline
  | .literal t =>
    if t.kind = .text ∧ Text.trimBlank t.value ≠ [] then { o with hasOutside := true } else o
  | .directive d =>
    match d.keyword? with
    | none => o
    | some keyword =>
      if keyword.isName Keyword.parent then addParent o d
      else if keyword.isName Keyword.blockEnd then o
      else { o with hasOutside := true }

@[simp] theorem regions_note (o : Outline) (seg : Segment) : (note o seg).regions = o.regions := by
  unfold note
  split
  · split <;> rfl
  · split
    · rfl
    · split
      · unfold addParent
        split <;> rfl
      · split <;> rfl

theorem not_blockEnd_of_parent {t : Token} (h : t.isName Keyword.parent = true) :
    t.isName Keyword.blockEnd = false := by
  have hne : Keyword.parent ≠ Keyword.blockEnd := by decide
  simp only [Token.isName, Bool.and_eq_true, decide_eq_true_eq] at h
  simp [Token.isName, h, hne]

/-- **Outside regions** what opens no block has to be closed, and the outline takes note of it. -/
theorem stepOutside_eq (o : Outline) {seg : Segment}
    (hb : ∀ d, seg = .directive d → d.hasKeyword Keyword.block = false) :
    stepOutside o seg = ⟨strays [seg], (checkClosed seg).map fun _ => ⟨note o seg, none⟩⟩ := by
  match seg with
  | .literal t =>
    simp only [stepOutside, note]
    split <;> rfl
  | .directive d =>
    have hblock := hb d rfl
    rw [strays_directive]
    unfold Directive.hasKeyword at hblock ⊢
    rcases hk : d.keyword? with _ | keyword
    · simp only [stepOutside, note, hk]
      exact Logged.liftM_bind_pure _ _
    · rw [hk, Option.any_some] at hblock
      simp only [stepOutside, note, hk, hblock, Option.any_some, Bool.false_eq_true, if_false]
      by_cases hp : keyword.isName Keyword.parent = true
      · simp only [hp, not_blockEnd_of_parent hp, if_true, Bool.false_eq_true, if_false]
        exact Logged.liftM_bind_pure _ _
      · by_cases he : keyword.isName Keyword.blockEnd = true
        · simp only [hp, he, if_true, Bool.false_eq_true, if_false]
          rw [Logged.liftM_bind_pure]
          rfl
        · simp only [hp, he, Bool.false_eq_true, if_false]
          exact Logged.liftM_bind_pure _ _

/-- What is not a `block` directive leaves the regions alone and only has to be closed. -/
theorem stepOutside_other (o : Outline) {seg : Segment}
    (hb : ∀ d, seg = .directive d → d.hasKeyword Keyword.block = false) {σ : State} :
    (stepOutside o seg).outcome = .ok σ ↔ seg.isClosed = true ∧ σ = ⟨note o seg, none⟩ := by
  rw [stepOutside_eq o hb, map_eq_ok, ← checkClosed_eq_ok]
  constructor
  · rintro ⟨⟨⟩, hc, rfl⟩
    exact ⟨hc, rfl⟩
  · rintro ⟨hc, rfl⟩
    exact ⟨(), hc, rfl⟩

theorem stepInside_of_nest {seg : Segment} {n : Nat} (h : nest r.inner seg = some n) :
    stepInside depth o r seg =
      .ok ⟨o, some { r with inner := n, content := r.content ++ seg.source }⟩ := by
  match seg with
  | .literal t => cases h; rfl
  | .directive d =>
    unfold stepInside
    by_cases hd : d.hasKeyword Keyword.blockEnd = true
    · cases hi : r.inner with
      | zero => rw [hi, nest_zero_of_end hd] at h; cases h
      | succ k =>
        rw [hi, nest_succ_of_end hd] at h
        cases h
        simp [hd]
    · by_cases hb : d.hasKeyword Keyword.block = true
      · rw [nest_of_block hb] at h
        cases h
        simp [hd, hb]
      · rw [nest_of_other (by simpa using hb) (by simpa using hd)] at h
        cases h
        simp [hd, hb]

/-- What closes one block too much closes the region. -/
theorem stepInside_end {d : Directive} (hd : d.hasKeyword Keyword.blockEnd = true)
    (hr : r.inner = 0) : stepInside depth o r (.directive d) = (do
      checkEnd r.name d
      let o ← addRegion o ⟨r.name, r.content, depth, r.line⟩
      .ok ⟨o, none⟩) := by
  simp [stepInside, hd, hr]

theorem stepInside_end_eq_ok {d : Directive} (hd : d.hasKeyword Keyword.blockEnd = true)
    (hr : r.inner = 0) {σ : State} : stepInside depth o r (.directive d) = .ok σ ↔
      checkEnd r.name d = .ok () ∧ r.name ∉ o.regions.map Region.name ∧
        σ = ⟨{ o with regions := o.regions ++ [⟨r.name, r.content, depth, r.line⟩] }, none⟩ := by
  rw [stepInside_end hd hr, bind_eq_ok]
  constructor
  · rintro ⟨⟨⟩, hc, h⟩
    obtain ⟨o', ho', h⟩ := bind_eq_ok.1 h
    obtain ⟨hn, rfl⟩ := addRegion_eq_ok.1 ho'
    cases h
    exact ⟨hc, hn, rfl⟩
  · rintro ⟨hc, hn, rfl⟩
    exact ⟨(), hc, bind_eq_ok.2 ⟨_, addRegion_eq_ok.2 ⟨hn, rfl⟩, rfl⟩⟩

/-- What a step that succeeds can do. -/
inductive Takes (depth : Nat) : State → Segment → State → Prop
  /-- Outside regions a block is opened. -/
  | opens {o : Outline} {d : Directive} {name : Text} :
      d.hasKeyword Keyword.block = true → blockName d = .ok name →
        Takes depth ⟨o, none⟩ (.directive d) ⟨o, some ⟨name, d.line, 0, []⟩⟩
  /-- Outside regions the outline takes note of anything else. -/
  | passes {o : Outline} {seg : Segment} :
      (∀ d, seg = .directive d → d.hasKeyword Keyword.block = false) → seg.isClosed = true →
        Takes depth ⟨o, none⟩ seg ⟨note o seg, none⟩
  /-- Inside a region the text is copied. -/
  | inside {o : Outline} {r : OpenRegion} {seg : Segment} {n : Nat} : nest r.inner seg = some n →
      Takes depth ⟨o, some r⟩ seg
        ⟨o, some { r with inner := n, content := r.content ++ seg.source }⟩
  /-- A region is closed, and its name is new. -/
  | ends {o : Outline} {r : OpenRegion} {d : Directive} :
      d.hasKeyword Keyword.blockEnd = true → r.inner = 0 → checkEnd r.name d = .ok () →
        r.name ∉ o.regions.map Region.name → Takes depth ⟨o, some r⟩ (.directive d)
          ⟨{ o with regions := o.regions ++ [⟨r.name, r.content, depth, r.line⟩] }, none⟩

theorem step_eq_ok {σ τ : State} {seg : Segment} :
    (step depth σ seg).outcome = .ok τ ↔ Takes depth σ seg τ := by
  constructor
  · intro h
    obtain ⟨o, c⟩ := σ
    match c with
    | none =>
      rw [step_outside] at h
      by_cases hb : ∃ d, seg = .directive d ∧ d.hasKeyword Keyword.block = true
      · obtain ⟨d, rfl, hd⟩ := hb
        obtain ⟨name, hn, rfl⟩ := (stepOutside_block_eq_ok hd).1 h
        exact .opens hd hn
      · have hb := not_keyword_of_not_exists hb
        obtain ⟨hc, rfl⟩ := (stepOutside_other o hb).1 h
        exact .passes hb hc
    | some r =>
      change stepInside depth o r seg = .ok τ at h
      cases hn : nest r.inner seg with
      | some n =>
        rw [stepInside_of_nest hn] at h
        cases h
        exact .inside hn
      | none =>
        obtain ⟨h0, d, rfl, hd⟩ := nest_eq_none hn
        obtain ⟨hc, hnew, rfl⟩ := (stepInside_end_eq_ok hd h0).1 h
        exact .ends hd h0 hc hnew
  · rintro (⟨hd, hn⟩ | ⟨hb, hc⟩ | hn | ⟨hd, h0, hc, hnew⟩)
    · exact (stepOutside_block_eq_ok hd).2 ⟨_, hn, rfl⟩
    · exact (stepOutside_other _ hb).2 ⟨hc, rfl⟩
    · exact stepInside_of_nest hn
    · exact (stepInside_end_eq_ok hd h0).2 ⟨hc, hnew, rfl⟩

theorem finish_eq_ok {σ : State} : finish σ = .ok o ↔ σ = ⟨o, none⟩ := by
  obtain ⟨o', c⟩ := σ
  cases c with
  | none => simp [finish]
  | some r => simp [finish]

theorem scanAt_eq_ok {s : Text} : (scanAt depth s).outcome = .ok o ↔
    ((ofText s).foldlM (step depth) {}).outcome = .ok ⟨o, none⟩ := by
  rw [scanAt, Scan.run, Logged.outcome_bind, bind_eq_ok]
  constructor
  · rintro ⟨σ, h, hfinish⟩
    rw [Logged.outcome_liftM, finish_eq_ok] at hfinish
    rwa [← hfinish]
  · exact fun h => ⟨_, h, finish_eq_ok.2 rfl⟩

/-! ### Runs -/

/-- **Inside a region** a scan counts the open blocks and copies the text. -/
theorem foldlM_inside {segs : List Segment} {n : Nat} (h : depthAfter r.inner segs = some n) :
    segs.foldlM (step depth) ⟨o, some r⟩ =
      pure ⟨o, some { r with inner := n, content := r.content ++ sources segs }⟩ := by
  induction segs generalizing r with
  | nil => cases h; simp
  | cons seg segs ih =>
    rw [depthAfter_cons] at h
    cases hn : nest r.inner seg with
    | none => rw [hn] at h; cases h
    | some m =>
      rw [hn] at h
      have hstep : step depth ⟨o, some r⟩ seg =
          pure ⟨o, some { r with inner := m, content := r.content ++ seg.source }⟩ := by
        rw [step_inside, stepInside_of_nest hn, Logged.lift_ok]
      rw [List.foldlM_cons, hstep, pure_bind,
        ih (r := { r with inner := m, content := r.content ++ seg.source }) h]
      simp

theorem prefix_of_step {σ τ : State} {seg : Segment}
    (h : (step depth σ seg).outcome = .ok τ) : σ.outline.regions <+: τ.outline.regions := by
  cases step_eq_ok.1 h with
  | opens hd hn => exact List.prefix_rfl
  | passes hb hc => exact ⟨[], by simp⟩
  | inside hn => exact List.prefix_rfl
  | ends hd h0 hc hnew => exact List.prefix_append _ _

theorem prefix_of_foldlM {segs : List Segment} {σ τ : State}
    (h : (segs.foldlM (step depth) σ).outcome = .ok τ) :
    σ.outline.regions <+: τ.outline.regions := by
  induction segs generalizing σ with
  | nil => cases h; exact List.prefix_rfl
  | cons seg segs ih =>
    rw [List.foldlM_cons, Logged.outcome_bind] at h
    obtain ⟨υ, hstep, h⟩ := bind_eq_ok.1 h
    exact (prefix_of_step hstep).trans (ih h)

/-- A run over a block, its content, its end and more. -/
theorem foldlM_block {o : Outline} {d e : Directive} {inner rest : List Segment} {τ : State}
    (hd : d.hasKeyword Keyword.block = true) (hi : depthAfter 0 inner = some 0)
    (he : e.hasKeyword Keyword.blockEnd = true) :
    ((.directive d :: inner ++ .directive e :: rest).foldlM (step depth) ⟨o, none⟩).outcome =
        .ok τ ↔
      ∃ name, blockName d = .ok name ∧ checkEnd name e = .ok () ∧
        name ∉ o.regions.map Region.name ∧ (rest.foldlM (step depth) ⟨{ o with
          regions := o.regions ++ [⟨name, sources inner, depth, d.line⟩] }, none⟩).outcome =
            .ok τ := by
  rw [List.cons_append, List.foldlM_cons, Logged.outcome_bind, bind_eq_ok]
  constructor
  · rintro ⟨σ, hσ, h⟩
    obtain ⟨name, hn, rfl⟩ := (stepOutside_block_eq_ok hd).1 hσ
    rw [List.foldlM_append, foldlM_inside (r := ⟨name, d.line, 0, []⟩) hi, pure_bind,
      List.foldlM_cons, Logged.outcome_bind, bind_eq_ok] at h
    obtain ⟨υ, hυ, h⟩ := h
    obtain ⟨hc, hnew, rfl⟩ := (stepInside_end_eq_ok he rfl).1 hυ
    exact ⟨name, hn, hc, hnew, h⟩
  · rintro ⟨name, hn, hc, hnew, h⟩
    refine ⟨_, (stepOutside_block_eq_ok hd).2 ⟨name, hn, rfl⟩, ?_⟩
    rw [List.foldlM_append, foldlM_inside (r := ⟨name, d.line, 0, []⟩) hi, pure_bind,
      List.foldlM_cons, Logged.outcome_bind, bind_eq_ok]
    exact ⟨_, (stepInside_end_eq_ok he rfl).2 ⟨hc, hnew, rfl⟩, h⟩

theorem takesPortions_step (depth : Nat) : TakesPortions (step depth) := by
  rintro ⟨o, c⟩ line v w
  match c with
  | some r => simp [step, stepInside, Segment.source]
  | none =>
    have hvw := Text.trimBlank_append_eq_nil (s := v) (t := w)
    by_cases hv : Text.trimBlank v = []
    · by_cases hw : Text.trimBlank w = []
      · simp [step, stepOutside, hv, hw, hvw]
      · simp [step, stepOutside, hv, hw, hvw]
    · by_cases hw : Text.trimBlank w = []
      · simp [step, stepOutside, hv, hw, hvw]
      · simp [step, stepOutside, hv, hw, hvw]

/-! ### Regions are cut out of the text -/

/-- The directive opens a block of this name. -/
def Opens (d : Directive) (name : Text) : Prop :=
  d.hasKeyword Keyword.block = true ∧ ∃ t, d.argument? = some t ∧ t.kind = .name ∧ t.value = name

/-- Among the segments there is a stretch that nests and has this text, between the directive that
opens the block and at least one more segment. -/
def Cut (segs : List Segment) (name content : Text) : Prop :=
  ∃ before d inner after, segs = before ++ .directive d :: inner ++ after ∧ after ≠ [] ∧
    Opens d name ∧ content = sources inner ∧ depthAfter 0 inner = some 0

/-- After these segments all regions of the state are cut out of them, under different names, and so
is the open region as far as it goes. -/
structure Sliced (segs : List Segment) (σ : State) : Prop where
  cut : ∀ q ∈ σ.outline.regions, Cut segs q.name q.content
  distinct : (σ.outline.regions.map Region.name).Nodup
  current : ∀ r ∈ σ.current, ∃ before d inner, segs = before ++ .directive d :: inner ∧
    Opens d r.name ∧ r.content = sources inner ∧ depthAfter 0 inner = some r.inner

theorem Cut.append {segs : List Segment} {name content : Text} (h : Cut segs name content)
    (segs' : List Segment) : Cut (segs ++ segs') name content := by
  obtain ⟨before, d, inner, after, rfl, hne, hd, hc, hn⟩ := h
  exact ⟨before, d, inner, after ++ segs', by simp, by simp [hne], hd, hc, hn⟩

theorem sliced_step {segs : List Segment} {seg : Segment} {σ τ : State} (h : Sliced segs σ)
    (hs : (step depth σ seg).outcome = .ok τ) : Sliced (segs ++ [seg]) τ := by
  have keep : ∀ q ∈ σ.outline.regions, Cut (segs ++ [seg]) q.name q.content :=
    fun q hq => (h.cut q hq).append _
  cases step_eq_ok.1 hs with
  | @opens o d name hd hn =>
    obtain ⟨-, t, ht⟩ := blockName_eq_ok.1 hn
    refine ⟨keep, h.distinct, ?_⟩
    rintro r ⟨⟩
    exact ⟨segs, d, [], rfl, ⟨hd, t, ht⟩, rfl, rfl⟩
  | passes hb hc =>
    exact ⟨by rw [regions_note]; exact keep, by rw [regions_note]; exact h.distinct, by simp⟩
  | @inside o r seg n hm =>
    obtain ⟨before, d, inner, rfl, hd, hc, hn⟩ := h.current r rfl
    refine ⟨keep, h.distinct, ?_⟩
    rintro _ ⟨⟩
    refine ⟨before, d, inner ++ [seg], by simp, hd, by simp [hc], ?_⟩
    rw [depthAfter_append, hn, Option.bind_some, depthAfter_cons, hm]
    rfl
  | @ends o r e he h0 hend hnew =>
    obtain ⟨before, d, inner, rfl, hd, hc, hn⟩ := h.current r rfl
    refine ⟨fun q hq => ?_, ?_, by simp⟩
    · rcases List.mem_append.1 hq with hq | hq
      · exact keep q hq
      · rw [List.mem_singleton.1 hq]
        exact ⟨before, d, inner, [.directive e], by simp, by simp, hd, hc, h0 ▸ hn⟩
    · rw [List.map_append]
      exact List.Nodup.append h.distinct (List.nodup_singleton _)
        (List.disjoint_singleton.2 hnew)

/-- **All regions that a run finds are cut out of its segments**, under different names. -/
theorem sliced_foldlM {segs segs' : List Segment} {σ τ : State} (h : Sliced segs σ)
    (hs : (segs'.foldlM (step depth) σ).outcome = .ok τ) : Sliced (segs ++ segs') τ := by
  induction segs' generalizing segs σ with
  | nil => cases hs; simpa using h
  | cons seg segs' ih =>
    rw [List.foldlM_cons, Logged.outcome_bind] at hs
    obtain ⟨υ, hstep, hs⟩ := bind_eq_ok.1 hs
    have := ih (sliced_step h hstep) hs
    rwa [List.append_assoc] at this

theorem cut_of_scanAt {s : Text} (h : (scanAt depth s).outcome = .ok o) :
    (∀ q ∈ o.regions, Cut (ofText s) q.name q.content) ∧ (o.regions.map Region.name).Nodup := by
  have start : Sliced [] {} := ⟨by simp, by simp, by simp⟩
  have sliced := sliced_foldlM start (scanAt_eq_ok.1 h)
  exact ⟨sliced.cut, sliced.distinct⟩

end PageFields.Scan
