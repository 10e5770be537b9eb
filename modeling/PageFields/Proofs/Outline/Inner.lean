import PageFields.Proofs.Outline.Cut
import PageFields.Proofs.Outline.Partition

/-! # Outlines: a further pass finds no open end

The content of a region was read while the blocks in it were counted, so all its directives are
closed and its blocks nest (`Nests`), whatever text the region was found in (`Cut.nests`). A pass
over such a content closes every block that it opens and meets no `endblock` too many. All that it
can complain about are names of blocks (`Error.IsNaming`). The induction is on the number of
segments: at a `block` directive it goes on behind the end of the block (`proceeds_foldlM`). -/

namespace PageFields

open Lexer Segment

/-- The error is about a name in a directive of a block. -/
inductive Error.IsNaming : Error → Prop
  | missing (line : Nat) : IsNaming (.missingBlockName line)
  | mismatched (expected found : Text) (line : Nat) : IsNaming (.mismatchedEnd expected found line)
  | duplicate (name : Text) (line : Nat) : IsNaming (.duplicateBlock name line)

/-- All directives of the text are closed, and its blocks nest. -/
structure Nests (s : Text) : Prop where
  closed : ∀ seg ∈ ofText s, seg.isClosed = true
  nested : depthAfter 0 (ofText s) = some 0

/-- The region is found by a scan of the text and passes over contents, any number of them. -/
inductive Obtained (s : Text) : Region → Prop
  | scanned {o : Outline} {r : Region} (h : scan s = .ok o) (hr : r ∈ o.regions) : Obtained s r
  | nested {r q : Region} {regions : List Region} (hr : Obtained s r)
    (h : r.nested = .ok regions) (hq : q ∈ regions) : Obtained s q

namespace Scan

variable {depth : Nat} {o : Outline} {s name content : Text} {segs rest inner : List Segment}
  {d e : Directive}

/-! ### Contents nest -/

/-- **The content of a region nests**, whatever surrounds the region. -/
theorem Cut.nests (h : Cut (ofText s) name content) : Nests content := by
  obtain ⟨line, hclosed, hn, -⟩ := h.exists_segments
  -- on which line the content starts does not matter
  have hr := reads_lexemes .text content
  rw [depthAfter_ofTextFrom] at hn
  exact ⟨(isClosed_iff hr 1).2 ((isClosed_iff hr line).1 hclosed), hn⟩

/-! ### A run over what nests -/

/-- The pass has given no warning, and it stands outside regions or has failed at a name. -/
def Proceeds (x : Logged State) : Prop :=
  x.warnings = [] ∧
    ((∃ o, x.outcome = .ok ⟨o, none⟩) ∨ ∃ e, x.outcome = .error e ∧ e.IsNaming)

theorem proceeds_pure (o : Outline) : Proceeds (pure ⟨o, none⟩) := ⟨rfl, .inl ⟨o, rfl⟩⟩

theorem proceeds_error {e : Error} (he : e.IsNaming) : Proceeds ⟨[], .error e⟩ :=
  ⟨rfl, .inr ⟨e, rfl, he⟩⟩

theorem proceeds_bind {α : Type} {x : Except Error α} {f : α → Logged State}
    (hx : ∀ e, x = .error e → e.IsNaming) (hf : ∀ a, x = .ok a → Proceeds (f a)) :
    Proceeds (⟨[], x⟩ >>= f) := by
  cases x with
  | error e => exact proceeds_error (hx e rfl)
  | ok a => exact (pure_bind a f).symm ▸ hf a rfl

theorem isNaming_of_blockName (hc : d.isClosed = true) {e : Error}
    (h : blockName d = .error e) : e.IsNaming := by
  unfold blockName requireClosed at h
  rw [if_pos hc, ok_bind] at h
  split at h
  · split at h
    · cases h
    · cases h
      exact .missing _
  · cases h
    exact .missing _

theorem isNaming_of_checkEnd (hc : d.isClosed = true) {e : Error}
    (h : checkEnd name d = .error e) : e.IsNaming := by
  unfold checkEnd requireClosed at h
  rw [if_pos hc] at h
  split at h
  · split at h
    · cases h
      exact .mismatched _ _ _
    · cases h
  · cases h

theorem isNaming_of_addRegion {r : Region} {e : Error} (h : addRegion o r = .error e) :
    e.IsNaming := by
  unfold addRegion at h
  split at h
  · cases h
    exact .duplicate _ _
  · cases h

theorem proceeds_end {r : OpenRegion} {f : State → Logged State}
    (he : e.hasKeyword Keyword.blockEnd = true) (hc : e.isClosed = true) (hr : r.inner = 0)
    (hf : ∀ o', Proceeds (f ⟨o', none⟩)) :
    Proceeds (step depth ⟨o, some r⟩ (.directive e) >>= f) := by
  rw [step_inside, Logged.lift, stepInside_end he hr]
  refine proceeds_bind (fun x hx => ?_) fun σ hσ => ?_
  · rcases bind_eq_error.1 hx with hcheck | ⟨_, -, hx⟩
    · exact isNaming_of_checkEnd hc hcheck
    rcases bind_eq_error.1 hx with hadd | ⟨_, -, hx⟩
    · exact isNaming_of_addRegion hadd
    · cases hx
  · obtain ⟨-, -, hσ⟩ := bind_eq_ok.1 hσ
    obtain ⟨o', -, hσ⟩ := bind_eq_ok.1 hσ
    cases hσ
    exact hf o'

theorem depthAfter_of_noBlock {seg : Segment}
    (hb : ∀ d, seg = .directive d → d.hasKeyword Keyword.block = false)
    (hn : depthAfter 0 (seg :: segs) = some 0) :
    strays [seg] = [] ∧ depthAfter 0 segs = some 0 := by
  match seg with
  | .literal t => exact ⟨rfl, hn⟩
  | .directive d =>
    rw [depthAfter_cons] at hn
    by_cases he : d.hasKeyword Keyword.blockEnd = true
    · rw [nest_zero_of_end he] at hn
      cases hn
    · have he := Bool.eq_false_iff.2 he
      rw [nest_of_other (hb d rfl) he] at hn
      exact ⟨by rw [strays_directive, he]; rfl, hn⟩

theorem exists_blockEnd (hd : d.hasKeyword Keyword.block = true)
    (hn : depthAfter 0 (.directive d :: segs) = some 0) :
    ∃ inner e rest, segs = inner ++ .directive e :: rest ∧ depthAfter 0 inner = some 0 ∧
      e.hasKeyword Keyword.blockEnd = true ∧ depthAfter 0 rest = some 0 := by
  rcases depthAfter_cases 0 segs with ⟨m, hm⟩ | ⟨inner, e, rest, rfl, hi, he⟩
  · rw [depthAfter_cons, nest_of_block hd, Option.bind_some, depthAfter_succ hm] at hn
    cases hn
  · refine ⟨inner, e, rest, rfl, hi, he, ?_⟩
    rwa [← List.cons_append, depthAfter_block hd hi he] at hn

/-- **A run over segments that nest** finds no open end and no `endblock` too many. -/
theorem proceeds_foldlM (hc : ∀ seg ∈ segs, seg.isClosed = true)
    (hn : depthAfter 0 segs = some 0) : Proceeds (segs.foldlM (step depth) ⟨o, none⟩) := by
  induction hlen : segs.length using Nat.strongRecOn generalizing segs o with
  | ind n ih =>
    subst hlen
    match segs with
    | [] => exact proceeds_pure o
    | seg :: segs =>
      rw [List.forall_mem_cons] at hc
      rw [List.foldlM_cons, step_outside]
      by_cases hb : ∃ d, seg = .directive d ∧ d.hasKeyword Keyword.block = true
      · obtain ⟨d, rfl, hd⟩ := hb
        obtain ⟨inner, e, rest, rfl, hi, he, hrest⟩ := exists_blockEnd hd hn
        have hcafter := (List.forall_mem_append.1 hc.2).2
        rw [List.forall_mem_cons] at hcafter
        rw [stepOutside_block hd]
        refine proceeds_bind (fun x hx => ?_) fun σ hσ => ?_
        · exact isNaming_of_blockName hc.1 (map_eq_error.1 hx)
        · obtain ⟨name, -, rfl⟩ := map_eq_ok.1 hσ
          rw [List.foldlM_append, foldlM_inside (r := ⟨name, d.line, 0, []⟩) hi, pure_bind,
            List.foldlM_cons]
          refine proceeds_end he hcafter.1 rfl fun o' => ?_
          refine ih rest.length ?_ hcafter.2 hrest rfl
          simp only [List.length_cons, List.length_append]
          omega
      · have hb := not_keyword_of_not_exists hb
        obtain ⟨hstray, hrest⟩ := depthAfter_of_noBlock hb hn
        rw [stepOutside_eq o hb, hstray, checkClosed_eq_ok.2 hc.1]
        exact proceeds_bind (fun _ => nofun) fun σ hσ => by
          cases hσ
          exact ih segs.length (by simp) hc.2 hrest rfl

/-! ### A pass over what nests -/

/-- The regions that a pass finds are one pass deeper than those whose contents it reads. -/
theorem depth_of_scanAt (h : (scanAt depth s).outcome = .ok o) :
    ∀ q ∈ o.regions, q.depth = depth := by
  obtain ⟨gap, blocks, -, hregions⟩ := exists_cuts_of_scanAt h
  rw [hregions]
  intro q hq
  obtain ⟨b, -, rfl⟩ := List.mem_map.1 hq
  rfl

theorem scanAt_of_nests (h : Nests s) (depth : Nat) :
    (scanAt depth s).warnings = [] ∧ ((∃ o, (scanAt depth s).outcome = .ok o) ∨
      ∃ e, (scanAt depth s).outcome = .error e ∧ e.IsNaming) := by
  obtain ⟨hws, hout⟩ : Proceeds ((ofText s).foldlM (step depth) ⟨{}, none⟩) :=
    proceeds_foldlM h.closed h.nested
  have hwarnings : (scanAt depth s).warnings = [] := by
    rw [scanAt, run, Logged.warnings_bind_liftM]
    exact hws
  refine ⟨hwarnings, ?_⟩
  rcases hout with ⟨o, ho⟩ | ⟨e, he, hnaming⟩
  · exact .inl ⟨o, scanAt_eq_ok.2 ho⟩
  · refine .inr ⟨e, ?_, hnaming⟩
    rw [scanAt, run, Logged.outcome_bind]
    exact bind_eq_error.2 (.inl he)

end Scan

theorem Obtained.nests {s : Text} {r : Region} (h : Obtained s r) : Nests r.content := by
  cases h with
  | scanned h hr => exact ((Scan.cut_of_scanAt h).1 r hr).nests
  | nested _ h hq =>
    obtain ⟨o, ho, rfl⟩ := map_eq_ok.1 h
    exact ((Scan.cut_of_scanAt ho).1 r hq).nests

/-- **A further pass finds no open end.** The pass over the content of a region, however many passes
it took to find the region, gives no warning. It finds regions one deeper, with shorter contents, or
it fails at the name of a block: one is missing, one is not that of the block it closes, or one
comes twice. -/
theorem nested_of_obtained {s : Text} {r : Region} (h : Obtained s r) :
    (scanAt (r.depth + 1) r.content).warnings = [] ∧
      ((∃ regions, r.nested = .ok regions ∧
          ∀ q ∈ regions, q.depth = r.depth + 1 ∧ q.content.length < r.content.length) ∨
        ∃ e, r.nested = .error e ∧ e.IsNaming) := by
  obtain ⟨hws, hout⟩ := Scan.scanAt_of_nests h.nests (r.depth + 1)
  refine ⟨hws, ?_⟩
  rcases hout with ⟨o, ho⟩ | ⟨e, he, hnaming⟩
  · refine .inl ⟨o.regions, map_eq_ok.2 ⟨o, ho, rfl⟩, fun q hq => ?_⟩
    exact ⟨Scan.depth_of_scanAt ho q hq, length_content_lt ho hq⟩
  · exact .inr ⟨e, map_eq_error.2 he, hnaming⟩

/-- The same for a block in a block, whose own content has a block without a name. -/
theorem nested_of_obtained_nameless :
    let s := ("\x7b% block a %\x7d\x7b% block b %\x7d\x7b% block %\x7dx\x7b% endblock %\x7d" ++
      "\x7b% endblock %\x7d\x7b% endblock a %\x7d").toList
    let b : Region := ⟨"b".toList, "\x7b% block %\x7dx\x7b% endblock %\x7d".toList, 1, 1⟩
    Obtained s b ∧ (scanAt 2 b.content).warnings = [] ∧ ∃ e, b.nested = .error e ∧ e.IsNaming := by
  intro s b
  let a : Region := ⟨"a".toList, ("\x7b% block b %\x7d\x7b% block %\x7dx\x7b% endblock %\x7d" ++
    "\x7b% endblock %\x7d").toList, 0, 1⟩
  have hs : scan s = .ok ⟨none, [a], false⟩ := toOption_eq_some.1 (by decide +kernel)
  have ha : a.nested = .ok [b] := toOption_eq_some.1 (by decide +kernel)
  have hb : b.nested.toOption = none := by decide +kernel
  have hobtained : Obtained s b :=
    .nested (.scanned hs (List.mem_singleton_self a)) ha (List.mem_singleton_self b)
  obtain ⟨hws, ⟨regions, hok, -⟩ | herror⟩ := nested_of_obtained hobtained
  · rw [hok] at hb
    cases hb
  · exact ⟨hobtained, hws, herror⟩

end PageFields
