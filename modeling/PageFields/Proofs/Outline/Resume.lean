import PageFields.Field
import PageFields.Proofs.Outline.Lines

/-! # Outlines: from region to region

Outside regions a scan can be resumed at any segment, with the outline so far (`resume`): it goes
over what opens no block (`resume_other`) or over a whole block (`resume_block`), until the text
ends or a block is left open (`resume_unclosed`). The fields of a text know less than the outline:
the contents only in normal form, and of the parent only that there is one (`Outline.normal`). That
much stays the same when tokens are changed but not the names among them (`resume_map`). -/

namespace PageFields

/-- What the fields are made of: the contents of the regions in normal form, under their names, and
whether there is a parent. -/
def Outline.normal (o : Outline) : List (Text × Text) × Bool :=
  (o.regions.map fun r => (r.name, Text.normalize r.content), o.parent.isSome)

theorem fieldsOf_congr {o p : Outline} {s t : Text} (ho : o.normal = p.normal)
    (hs : Text.normalize s = Text.normalize t) : fieldsOf o s = fieldsOf p t := by
  obtain ⟨hr, hp⟩ := Prod.mk.inj ho
  have hnil : o.regions = [] ↔ p.regions = [] := by
    rw [← List.map_eq_nil_iff, hr, List.map_eq_nil_iff]
  have hnone : o.parent = none ↔ p.parent = none := by
    rw [← Option.isNone_iff_eq_none, ← Option.isNone_iff_eq_none, ← Option.not_isSome, hp,
      Option.not_isSome]
  unfold fieldsOf
  simp only [hnil, hnone, hs]
  split
  · rfl
  · exact hr

namespace Scan

open Segment

variable {depth : Nat} {o o' : Outline} {d e : Directive} {seg : Segment}
  {segs inner : List Segment}

/-! ### From region to region -/

/-- The rest of a scan, from a place outside regions on. -/
def resume (depth : Nat) (o : Outline) (segs : List Segment) : Except Error Outline :=
  (segs.foldlM (step depth) ⟨o, none⟩).outcome >>= finish

theorem outcome_run : (run depth segs).outcome = resume depth {} segs := by
  rw [run, Logged.outcome_bind]
  rfl

theorem resume_nil : resume depth o [] = .ok o := rfl

theorem resume_other (hb : ∀ d, seg = .directive d → d.hasKeyword Keyword.block = false) :
    resume depth o (seg :: segs) = (do
      checkClosed seg
      resume depth (note o seg) segs) := by
  rw [resume, List.foldlM_cons, Logged.outcome_bind, step_outside, stepOutside_eq o hb]
  cases checkClosed seg <;> rfl

theorem resume_unclosed {n : Nat} (hd : d.hasKeyword Keyword.block = true)
    (hi : depthAfter 0 inner = some n) : resume depth o (.directive d :: inner) = (do
      let name ← blockName d
      .error (.unclosedBlock name d.line)) := by
  rw [resume, List.foldlM_cons, Logged.outcome_bind, step_outside, stepOutside_block hd]
  cases blockName d with
  | error e => rfl
  | ok name =>
    change (inner.foldlM (step depth) ⟨o, some ⟨name, d.line, 0, []⟩⟩).outcome >>= finish = _
    rw [foldlM_inside (r := ⟨name, d.line, 0, []⟩) hi]
    rfl

theorem resume_block (hd : d.hasKeyword Keyword.block = true) (hi : depthAfter 0 inner = some 0)
    (he : e.hasKeyword Keyword.blockEnd = true) :
    resume depth o (.directive d :: (inner ++ .directive e :: segs)) = (do
      let name ← blockName d
      checkEnd name e
      let o ← addRegion o ⟨name, sources inner, depth, d.line⟩
      resume depth o segs) := by
  rw [resume, List.foldlM_cons, Logged.outcome_bind, step_outside, stepOutside_block hd]
  cases blockName d with
  | error e => rfl
  | ok name =>
    change ((inner ++ .directive e :: segs).foldlM (step depth)
      ⟨o, some ⟨name, d.line, 0, []⟩⟩).outcome >>= finish = checkEnd name e >>= _
    rw [List.foldlM_append, foldlM_inside (r := ⟨name, d.line, 0, []⟩) hi, pure_bind,
      List.foldlM_cons, step_inside, stepInside_end he rfl, List.nil_append, Logged.outcome_bind]
    cases checkEnd name e with
    | error e => rfl
    | ok u => cases addRegion o ⟨name, sources inner, depth, d.line⟩ <;> rfl

/-! ### With other tokens -/

/-- The segment tells the parent. -/
def namesParent : Segment → Bool
  | .literal _ => false
  | .directive d =>
    d.hasKeyword Keyword.parent && (d.argument?.bind Token.stringValue?).isSome

theorem normal_note (o : Outline) (seg : Segment) :
    (note o seg).normal = (o.normal.1, o.normal.2 || namesParent seg) := by
  have keep : o.normal = (o.normal.1, o.normal.2 || false) := by rw [Bool.or_false]
  match seg with
  | .literal t =>
    simp only [note]
    split
    · exact keep
    · exact keep
  | .directive d =>
    cases hk : d.keyword? with
    | none =>
      simp only [note, namesParent, Directive.hasKeyword, hk, Option.any_none, Bool.false_and]
      exact keep
    | some keyword =>
      simp only [note, namesParent, Directive.hasKeyword, hk, Option.any_some]
      by_cases hp : keyword.isName Keyword.parent = true
      · rw [if_pos hp, hp, Bool.true_and, addParent]
        cases d.argument?.bind Token.stringValue? with
        | none => exact keep
        | some name => cases hparent : o.parent <;> simp [Outline.normal, hparent]
      · rw [if_neg hp, Bool.eq_false_iff.2 hp, Bool.false_and]
        split
        · exact keep
        · exact keep

variable {f : Token → Token} {g : Nat → Nat}

theorem namesParent_map (hf : KeepsNames f)
    (hv : ∀ t ∈ seg.tokens, (f t).stringValue?.isSome = t.stringValue?.isSome) :
    namesParent (seg.map f) = namesParent seg := by
  match seg with
  | .literal t => rfl
  | .directive d =>
    simp only [map, namesParent, hasKeyword_map hf, argument?_map hf]
    cases ha : d.argument? with
    | none => rfl
    | some t =>
      have ht : t ∈ (Segment.directive d).tokens := by
        have : t ∈ d.words := List.mem_of_mem_tail (List.mem_of_head? ha)
        exact List.mem_append_left _ (List.mem_cons_of_mem _ (List.mem_of_mem_filter this))
      rw [Option.map_some, Option.bind_some, Option.bind_some, hv t ht]

theorem addRegion_cases (ho : o'.normal = o.normal) {content content' : Text}
    (hcontent : Text.normalize content' = Text.normalize content) (name : Text) (depth line : Nat) :
    (∃ e, addRegion o ⟨name, content, depth, line⟩ = .error e ∧
        addRegion o' ⟨name, content', depth, g line⟩ = .error (e.relined g)) ∨
      ∃ p p', addRegion o ⟨name, content, depth, line⟩ = .ok p ∧
        addRegion o' ⟨name, content', depth, g line⟩ = .ok p' ∧ p'.normal = p.normal := by
  obtain ⟨hregions, hparent⟩ := Prod.mk.inj ho
  have hnames : o'.regions.map Region.name = o.regions.map Region.name := by
    have := congrArg (List.map Prod.fst) hregions
    rwa [List.map_map, List.map_map] at this
  have hmap : ∀ p : Outline, p.regions.any (·.name = name) =
      (p.regions.map Region.name).any (· = name) := fun p => by rw [List.any_map]; rfl
  have hany : o'.regions.any (·.name = name) = o.regions.any (·.name = name) := by
    rw [hmap, hmap, hnames]
  simp only [addRegion, hany]
  split
  · exact Or.inl ⟨_, rfl, rfl⟩
  · refine Or.inr ⟨_, _, rfl, rfl, ?_⟩
    simp [Outline.normal, hregions, hparent, hcontent]

/-- Over a segment that opens no block both scans go on alike. -/
theorem resume_map_other (hf : KeepsNames f) (hl : ∀ t, (f t).line = g t.line)
    (hb : ∀ d, seg = .directive d → d.hasKeyword Keyword.block = false)
    (hrest : (resume depth (note o' (seg.map f)) (segs.map (map f))).map Outline.normal =
      reported g Outline.normal (resume depth (note o seg) segs)) :
    (resume depth o' ((seg :: segs).map (map f))).map Outline.normal =
      reported g Outline.normal (resume depth o (seg :: segs)) := by
  rw [List.map_cons, resume_other hb, resume_other (not_keyword_map hf hb), checkClosed_map hl]
  cases checkClosed seg with
  | error e => rfl
  | ok u => exact hrest

/-- Where a block is left open both scans fail alike. -/
theorem resume_map_unclosed {n : Nat} (hf : KeepsNames f) (hl : ∀ t, (f t).line = g t.line)
    (hd : d.hasKeyword Keyword.block = true) (hi : depthAfter 0 inner = some n) :
    (resume depth o' ((.directive d :: inner).map (map f))).map Outline.normal =
      reported g Outline.normal (resume depth o (.directive d :: inner)) := by
  have hline : (d.map f).line = g d.line := hl d.opening
  rw [List.map_cons, map, resume_unclosed hd hi, resume_unclosed ((hasKeyword_map hf d _).trans hd)
    ((depthAfter_map hf 0 inner).trans hi), blockName_map hf hl, hline]
  cases blockName d <;> rfl

/-- Over a block whose content keeps its normal form both scans go on alike. -/
theorem resume_map_block (hf : KeepsNames f) (hl : ∀ t, (f t).line = g t.line)
    (hd : d.hasKeyword Keyword.block = true) (hi : depthAfter 0 inner = some 0)
    (he : e.hasKeyword Keyword.blockEnd = true)
    (hc : Text.normalize (sources (inner.map (map f))) = Text.normalize (sources inner))
    (ho : o'.normal = o.normal)
    (hrest : ∀ p p' : Outline, p'.normal = p.normal →
      (resume depth p' (segs.map (map f))).map Outline.normal =
        reported g Outline.normal (resume depth p segs)) :
    (resume depth o' ((.directive d :: (inner ++ .directive e :: segs)).map (map f))).map
        Outline.normal =
      reported g Outline.normal
        (resume depth o (.directive d :: (inner ++ .directive e :: segs))) := by
  have hline : (d.map f).line = g d.line := hl d.opening
  rw [List.map_cons, List.map_append, List.map_cons, map, map, resume_block hd hi he,
    resume_block ((hasKeyword_map hf d _).trans hd) ((depthAfter_map hf 0 inner).trans hi)
      ((hasKeyword_map hf e _).trans he), blockName_map hf hl, hline]
  cases blockName d with
  | error e => rfl
  | ok name =>
    simp only [reported_ok, ok_bind, id, checkEnd_map hf hl name e]
    cases checkEnd name e with
    | error e => rfl
    | ok u =>
      rcases addRegion_cases (g := g) ho hc name depth d.line with
        ⟨x, hx, hx'⟩ | ⟨p, p', hp, hp', hnormal⟩
      · simp only [reported_ok, ok_bind, hx, hx']
        rfl
      · simp only [reported_ok, ok_bind, hp, hp']
        exact hrest p p' hnormal

/-- **A scan over changed tokens** does the same on the same names, as long as the contents of the
regions have the same normal form. -/
theorem resume_map (hf : KeepsNames f) (hl : ∀ t, (f t).line = g t.line)
    (hv : ∀ seg ∈ segs, ∀ t ∈ seg.tokens, (f t).stringValue?.isSome = t.stringValue?.isSome)
    (hc : ∀ inner, inner <:+: segs →
      Text.normalize (sources (inner.map (map f))) = Text.normalize (sources inner))
    (ho : o'.normal = o.normal) :
    (resume depth o' (segs.map (map f))).map Outline.normal =
      reported g Outline.normal (resume depth o segs) := by
  induction hlen : segs.length using Nat.strongRecOn generalizing segs o o' with
  | ind n ih =>
    subst hlen
    match segs with
    | [] =>
      rw [List.map_nil, resume_nil, resume_nil]
      exact congrArg Except.ok ho
    | seg :: segs =>
      by_cases hb : ∃ d, seg = .directive d ∧ d.hasKeyword Keyword.block = true
      · obtain ⟨d, rfl, hd⟩ := hb
        rcases depthAfter_cases 0 segs with ⟨m, hm⟩ | ⟨inner, e, rest, rfl, hi, he⟩
        · exact resume_map_unclosed hf hl hd hm
        have hinner := hc inner ⟨[.directive d], .directive e :: rest, by simp⟩
        have hrest : rest <:+: .directive d :: (inner ++ .directive e :: rest) :=
          ⟨.directive d :: (inner ++ [.directive e]), [], by simp⟩
        have hlen : rest.length <
            (Segment.directive d :: (inner ++ .directive e :: rest)).length := by
          simp only [List.length_append, List.length_cons]
          omega
        exact resume_map_block hf hl hd hi he hinner ho fun p p' hp =>
          ih rest.length hlen (fun x hx => hv x (hrest.subset hx))
            (fun c h => hc c (h.trans hrest)) hp rfl
      · refine resume_map_other hf hl (not_keyword_of_not_exists hb) (ih segs.length (by simp)
          (fun x hx => hv x (List.mem_cons_of_mem _ hx))
          (fun c h => hc c (h.trans (List.suffix_cons _ _).isInfix)) ?_ rfl)
        rw [normal_note, normal_note, ho, namesParent_map hf (hv seg List.mem_cons_self)]

end Scan

end PageFields
