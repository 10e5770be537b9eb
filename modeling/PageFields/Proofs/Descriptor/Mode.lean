import PageFields.Proofs.Descriptor.Resave
import PageFields.Proofs.Outline.Partition

/-! # Descriptors: when a template is its regions

A template without a parent is shown by its regions only if nothing would be lost by that. What
could be lost stands in the gaps between the blocks: text that is not blank, or a directive that is
not empty, closes no block and names no parent that can be read (`Segment.IsContent`). A scan takes
note of the gaps alone (`Notes`): nothing inside a block changes what it knows of the outside,
however the text is cut into blocks and gaps (`notes_of_cuts`). -/

namespace PageFields

open Segment

namespace Segment

/-- The name that an `extends` directive gives, if its next word is a string that can be read. -/
def parentName? : Segment → Option Text
  | .literal _ => none
  | .directive d =>
    if d.hasKeyword Keyword.parent then d.argument?.bind Token.stringValue? else none

/-- The segment is more than blank space, the end of a block or the name of the parent. -/
def IsContent : Segment → Prop
  | .literal t => t.kind = .text ∧ ∃ c ∈ t.value, Text.isBlank c = false
  | .directive d => d.words ≠ [] ∧ d.hasKeyword Keyword.blockEnd = false ∧
    (directive d).parentName? = none

theorem IsContent.parentName?_eq {seg : Segment} (h : seg.IsContent) : seg.parentName? = none :=
  match seg, h with
  | .literal _, _ => rfl
  | .directive _, h => h.2.2

end Segment

namespace Scan

variable {depth : Nat} {o o' p : Outline} {seg : Segment} {segs segs' gap : List Segment}
  {blocks : List Block}

/-! ### What a scan takes note of -/

/-- The outline `o'` knows what `o` knows and what these segments outside regions say. -/
structure Notes (o : Outline) (segs : List Segment) (o' : Outline) : Prop where
  parent : o'.parent = o.parent.or (segs.findSome? parentName?)
  hasOutside : o'.hasOutside = true ↔ o.hasOutside = true ∨ ∃ seg ∈ segs, seg.IsContent

theorem notes_nil (o : Outline) : Notes o [] o := ⟨by simp, by simp⟩

theorem Notes.append (h : Notes o segs p) (h' : Notes p segs' o') : Notes o (segs ++ segs') o' := by
  refine ⟨?_, ?_⟩
  · rw [h'.parent, h.parent, List.findSome?_append, Option.or_assoc]
  · rw [h'.hasOutside, h.hasOutside, or_assoc]
    simp only [List.mem_append, or_and_right, exists_or]

theorem Notes.of_regions {regions : List Region} (h : Notes { o with regions } segs o') :
    Notes o segs o' := ⟨h.parent, h.hasOutside⟩

theorem notes_content (o : Outline) (h : seg.IsContent) :
    Notes o [seg] { o with hasOutside := true } :=
  ⟨by simp [h.parentName?_eq], by simp [h]⟩

theorem notes_parent (o : Outline) {name : Text} (h : seg.parentName? = some name) :
    Notes o [seg] { o with parent := o.parent.or (some name) } := by
  have hcontent : ¬ seg.IsContent := fun hc => by
    rw [hc.parentName?_eq] at h
    cases h
  exact ⟨by simp [h], by simp [hcontent]⟩

theorem notes_idle (o : Outline) (hname : seg.parentName? = none) (h : ¬ seg.IsContent) :
    Notes o [seg] o :=
  ⟨by simp [hname], by simp [h]⟩

theorem notes_literal (o : Outline) (t : Token) :
    Notes o [.literal t] (note o (.literal t)) := by
  have hblank : Text.trimBlank t.value ≠ [] ↔ ∃ c ∈ t.value, Text.isBlank c = false := by
    rw [ne_eq, Text.trimBlank, Text.trimMatches_eq_nil]
    simp
  dsimp only [note]
  split
  · rename_i h
    exact notes_content o ⟨h.1, hblank.1 h.2⟩
  · rename_i h
    exact notes_idle o rfl fun hc => h ⟨hc.1, hblank.2 hc.2⟩

/-- The keyword decides what a directive outside regions is. -/
theorem notes_directive (o : Outline) (d : Directive) :
    Notes o [.directive d] (note o (.directive d)) := by
  have hwords : d.words = [] ↔ d.keyword? = none := by
    rw [Directive.keyword?, List.head?_eq_none_iff]
  cases hk : d.keyword? with
  | none =>
    have hnote : note o (.directive d) = o := by simp [note, hk]
    have hname : parentName? (.directive d) = none := by
      simp [parentName?, Directive.hasKeyword, hk]
    exact hnote.symm ▸ notes_idle o hname fun hc => hc.1 (hwords.2 hk)
  | some keyword =>
    have hne : d.words ≠ [] := fun h => by
      rw [hwords.1 h] at hk
      cases hk
    have hkey : ∀ name, d.hasKeyword name = keyword.isName name := fun name => by
      rw [Directive.hasKeyword, hk, Option.any_some]
    by_cases hp : keyword.isName Keyword.parent = true
    · have hnote : note o (.directive d) = addParent o d := by simp [note, hk, hp]
      have hname : parentName? (.directive d) = d.argument?.bind Token.stringValue? := by
        simp [parentName?, hkey, hp]
      rw [hnote, addParent]
      split
      · rename_i name ha
        exact notes_parent o (hname.trans ha)
      · rename_i ha
        exact notes_content o ⟨hne, (hkey _).trans (not_blockEnd_of_parent hp), hname.trans ha⟩
    · have hname : parentName? (.directive d) = none := by simp [parentName?, hkey, hp]
      by_cases he : keyword.isName Keyword.blockEnd = true
      · have hnote : note o (.directive d) = o := by simp [note, hk, hp, he]
        refine hnote.symm ▸ notes_idle o hname fun hc => ?_
        rw [(hkey _).symm.trans hc.2.1] at he
        cases he
      · have hnote : note o (.directive d) = { o with hasOutside := true } := by
          simp [note, hk, hp, he]
        have hend := (hkey Keyword.blockEnd).trans (Bool.eq_false_iff.2 he)
        exact hnote.symm ▸ notes_content o ⟨hne, hend, hname⟩

theorem notes_note (o : Outline) (seg : Segment) : Notes o [seg] (note o seg) :=
  match seg with
  | .literal t => notes_literal o t
  | .directive d => notes_directive o d

/-! ### A text cut into blocks and gaps -/

theorem exists_notes_of_gap {rest : List Segment} {τ : State}
    (hb : ∀ d, .directive d ∈ gap → d.hasKeyword Keyword.block = false)
    (h : ((gap ++ rest).foldlM (step depth) ⟨o, none⟩).outcome = .ok τ) :
    ∃ p, Notes o gap p ∧ p.regions = o.regions ∧
      (rest.foldlM (step depth) ⟨p, none⟩).outcome = .ok τ := by
  induction gap generalizing o with
  | nil => exact ⟨o, notes_nil o, rfl, h⟩
  | cons seg gap ih =>
    have hseg : ∀ d, seg = .directive d → d.hasKeyword Keyword.block = false := by
      rintro d rfl
      exact hb d List.mem_cons_self
    rw [List.cons_append, List.foldlM_cons, Logged.outcome_bind] at h
    obtain ⟨σ, hσ, h⟩ := bind_eq_ok.1 h
    obtain ⟨-, rfl⟩ := (stepOutside_other o hseg).1 hσ
    obtain ⟨p, hp, hregions, hrest⟩ := ih (fun d hd => hb d (List.mem_cons_of_mem _ hd)) h
    exact ⟨p, (notes_note o seg).append hp, by rw [hregions, regions_note], hrest⟩

/-- **A scan takes note of the gaps alone**, and adds a region for each block. -/
theorem notes_of_cuts (hcuts : Cuts segs gap blocks)
    (h : (segs.foldlM (step depth) ⟨o, none⟩).outcome = .ok ⟨o', none⟩) :
    Notes o (gaps gap blocks) o' ∧ o'.regions = o.regions ++ blocks.map (·.region depth) := by
  induction blocks generalizing segs gap o with
  | nil =>
    have hb : ∀ d, .directive d ∈ gap → d.hasKeyword Keyword.block = false := fun d hd =>
      hcuts.noBlock d (List.mem_append_left _ hd)
    rw [hcuts.segments] at h
    obtain ⟨p, hp, hregions, hrest⟩ := exists_notes_of_gap hb h
    cases hrest
    exact ⟨by simpa [gaps] using hp, by simpa using hregions⟩
  | cons b blocks ih =>
    have hb : ∀ d, .directive d ∈ gap → d.hasKeyword Keyword.block = false := fun d hd =>
      hcuts.noBlock d (List.mem_append_left _ hd)
    have hcloses := hcuts.closes b List.mem_cons_self
    have hafter : Cuts (b.gap ++ blocks.flatMap Block.segments) b.gap blocks :=
      ⟨rfl, fun c hc => hcuts.closes c (List.mem_cons_of_mem _ hc), fun d hd =>
        hcuts.noBlock d (List.mem_append_right _ hd)⟩
    rw [hcuts.segments, List.flatMap_cons] at h
    obtain ⟨p, hp, hregions, h⟩ := exists_notes_of_gap hb h
    rw [Block.segments, List.append_assoc, List.cons_append] at h
    obtain ⟨name, hname, -, -, h⟩ :=
      (foldlM_block hcloses.opens.1 hcloses.nested hcloses.ends).1 h
    obtain rfl : name = b.name := by
      obtain ⟨-, t, ht, -, rfl⟩ := blockName_eq_ok.1 hname
      simp [Block.name, ht]
    obtain ⟨hnotes, hregions'⟩ := ih hafter h
    refine ⟨?_, ?_⟩
    · have := hp.append hnotes.of_regions
      rwa [gaps, List.flatMap_cons, ← gaps]
    · rw [hregions', hregions, List.append_assoc]
      rfl

end Scan

/-! ### The mode of a template without a parent -/

namespace Descriptor

open Scan

/-- A text as one field. -/
def whole (s : Text) : Descriptor where
  parent := none
  mode := .raw
  fields := ⟨[{ name := contentField, value := Text.normalize s, active := true }]⟩

theorem standalone_cases (o : Outline) (s : Text) :
    ((standalone o s).mode = .structured ↔ o.regions ≠ [] ∧ o.hasOutside = false) ∧
      ((standalone o s).mode ≠ .structured → standalone o s = whole s) := by
  unfold standalone
  split
  · rename_i h
    refine ⟨iff_of_false nofun fun hc => ?_, fun _ => rfl⟩
    rcases h with h | h
    · exact hc.1 h
    · rw [hc.2] at h
      cases h
  · rename_i h
    rw [not_or, Bool.not_eq_true] at h
    exact ⟨iff_of_true rfl h, fun hc => absurd rfl hc⟩

/-- **A template is shown by its regions exactly if they are all there is.** However a text that
scans is cut into blocks and gaps, the flag of its outline says that there is content in a gap, and
the parent is the first that is named in one. Without a parent the template is structured if it has
a region and the flag is not set, and it is one field with its whole text otherwise. -/
theorem structured_iff {s : Text} {o : Outline} (h : scan s = .ok o) :
    (∃ gap blocks, Cuts (ofText s) gap blocks) ∧
      (∀ gap blocks, Cuts (ofText s) gap blocks →
        o.regions = blocks.map (·.region 0) ∧
          (o.hasOutside = true ↔ ∃ seg ∈ gaps gap blocks, seg.IsContent) ∧
          o.parent = (gaps gap blocks).findSome? parentName?) ∧
      (o.parent = none → ∀ load, ∃ d, resolve load s = .ok d ∧
        (d.mode = .structured ↔ o.regions ≠ [] ∧ o.hasOutside = false) ∧
          (d.mode ≠ .structured → d = whole s)) := by
  refine ⟨?_, fun gap blocks hcuts => ?_, fun hp load => ?_⟩
  · obtain ⟨gap, blocks, hcuts, -⟩ := exists_cuts_of_scanAt h
    exact ⟨gap, blocks, hcuts⟩
  · obtain ⟨⟨hparent, houtside⟩, hregions⟩ := notes_of_cuts hcuts (scanAt_eq_ok.1 h)
    exact ⟨by simpa using hregions, by simpa using houtside, by simpa using hparent⟩
  · exact ⟨standalone o s, resolve_orphan h hp, standalone_cases o s⟩

/-- Two texts with a block: in the first one nothing that counts stands outside of it, and in the
second one a comment does. -/
theorem structured_iff_commented :
    let s := ("\x7b% endblock %\x7d\n\x7b% block a %\x7dx\x7b% if y %\x7d" ++
      "\x7b%- endblock %\x7d \x7b%-%\x7d").toList
    let t := "\x7b# y #\x7d\x7b% block a %\x7dx\x7b% endblock %\x7d".toList
    (∃ o, scan s = .ok o ∧ o.hasOutside = false ∧
      ∀ load, ∃ d, resolve load s = .ok d ∧ d.mode = .structured) ∧
    ∃ o, scan t = .ok o ∧ (∃ gap blocks, Cuts (ofText t) gap blocks ∧
      ∃ seg ∈ gaps gap blocks, seg.IsContent) ∧ ∀ load, resolve load t = .ok (whole t) := by
  intro s t
  have hs : scan s = .ok ⟨none, [⟨"a".toList, "x\x7b% if y %\x7d".toList, 0, 2⟩], false⟩ :=
    toOption_eq_some.1 (by decide +kernel)
  have ht : scan t = .ok ⟨none, [⟨"a".toList, "x".toList, 0, 1⟩], true⟩ :=
    toOption_eq_some.1 (by decide +kernel)
  refine ⟨⟨_, hs, rfl, fun load => ?_⟩, _, ht, ?_, fun load => ?_⟩
  · obtain ⟨d, hd, hmode, -⟩ := (structured_iff hs).2.2 rfl load
    exact ⟨d, hd, hmode.2 ⟨by simp, rfl⟩⟩
  · obtain ⟨⟨gap, blocks, hcuts⟩, hall, -⟩ := structured_iff ht
    exact ⟨gap, blocks, hcuts, (hall gap blocks hcuts).2.1.1 rfl⟩
  · obtain ⟨d, hd, hmode, hraw⟩ := (structured_iff ht).2.2 rfl load
    have hnot : d.mode ≠ .structured := fun h => by cases (hmode.1 h).2
    rw [hd, hraw hnot]

end Descriptor

end PageFields
