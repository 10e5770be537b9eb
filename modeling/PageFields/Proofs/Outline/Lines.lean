import PageFields.Proofs.Outline.Scan

/-! # Outlines: lines are only reported

A scan never looks at a line. So when every token is put on another line, the regions and the errors
tell the other lines, and nothing else changes (`foldlM_relined`). What a scan looks at in a
directive are the kinds of its words and the names among them (`blockName_map`, `checkEnd_map`). -/

namespace PageFields

variable {g : Nat → Nat} {α β γ : Type}

/-- The error with another line, if it tells one. -/
def Error.relined (g : Nat → Nat) : Error → Error
  | .unclosedBlock name line => .unclosedBlock name (g line)
  | .unclosedDirective line => .unclosedDirective (g line)
  | .missingBlockName line => .missingBlockName (g line)
  | .mismatchedEnd expected found line => .mismatchedEnd expected found (g line)
  | .duplicateBlock name line => .duplicateBlock name (g line)
  | e => e

theorem Error.relined_relined (g h : Nat → Nat) (e : Error) :
    (e.relined g).relined h = e.relined fun line => h (g line) := by
  cases e <;> rfl

/-- The region on another line. -/
def Region.relined (g : Nat → Nat) (r : Region) : Region := { r with line := g r.line }

/-- The outline with its regions on other lines. -/
def Outline.relined (g : Nat → Nat) (o : Outline) : Outline :=
  { o with regions := o.regions.map (Region.relined g) }

namespace Scan

open Segment

/-- The open region on another line. -/
def OpenRegion.relined (g : Nat → Nat) (r : OpenRegion) : OpenRegion := { r with line := g r.line }

/-- The state with its regions on other lines. -/
def State.relined (g : Nat → Nat) (σ : State) : State :=
  ⟨σ.outline.relined g, σ.current.map (OpenRegion.relined g)⟩

/-- The outcome with its value changed and an error on another line. -/
def reported (g : Nat → Nat) (f : α → β) (x : Except Error α) : Except Error β :=
  (x.map f).mapError (Error.relined g)

@[simp] theorem reported_ok (f : α → β) (a : α) : reported g f (.ok a) = .ok (f a) := rfl

@[simp] theorem reported_error (f : α → β) (e : Error) :
    reported g f (.error e) = .error (e.relined g) := rfl

theorem reported_eq_ok {f : α → β} {x : Except Error α} {b : β} :
    reported g f x = .ok b ↔ ∃ a, x = .ok a ∧ f a = b := by
  cases x with
  | error e => simp
  | ok a => simp

theorem reported_map (f : β → γ) (h : α → β) (x : Except Error α) :
    reported g f (x.map h) = reported g (f ∘ h) x := by
  cases x <;> rfl

theorem map_reported (f : α → β) (h : β → γ) (x : Except Error α) :
    (reported g f x).map h = reported g (h ∘ f) x := by
  cases x <;> rfl

theorem reported_bind {f : α → β} {x : Except Error α} {k : α → Except Error γ}
    {δ : Type} {h : γ → δ} {k' : β → Except Error δ} (hk : ∀ a, k' (f a) = reported g h (k a)) :
    reported g f x >>= k' = reported g h (x >>= k) := by
  cases x with
  | error e => rfl
  | ok a => exact hk a

/-! ### Directives -/

variable {f : Token → Token} {d : Directive}

theorem requireClosed_map (hl : ∀ t, (f t).line = g t.line) (d : Directive) :
    requireClosed (d.map f) = reported g id (requireClosed d) := by
  unfold requireClosed
  rw [isClosed_map]
  split
  · rfl
  · rw [Directive.line, Directive.map, hl]
    rfl

theorem checkClosed_map (hl : ∀ t, (f t).line = g t.line) (seg : Segment) :
    checkClosed (seg.map f) = reported g id (checkClosed seg) := by
  match seg with
  | .literal t => rfl
  | .directive d => exact requireClosed_map hl d

theorem blockName_map (hf : KeepsNames f) (hl : ∀ t, (f t).line = g t.line) (d : Directive) :
    blockName (d.map f) = reported g id (blockName d) := by
  have hline : (d.map f).line = g d.line := hl d.opening
  unfold blockName
  rw [requireClosed_map hl, reported_bind (h := id)]
  rintro ⟨⟩
  rw [argument?_map hf, hline]
  cases d.argument? with
  | none => rfl
  | some t =>
    simp only [Option.map_some, hf.kind]
    split
    · rename_i hk
      rw [hf.value t hk]
      rfl
    · rfl

theorem checkEnd_map (hf : KeepsNames f) (hl : ∀ t, (f t).line = g t.line) (name : Text)
    (d : Directive) : checkEnd name (d.map f) = reported g id (checkEnd name d) := by
  have hline : (d.map f).line = g d.line := hl d.opening
  unfold checkEnd
  rw [argument?_map hf, hline]
  cases d.argument? with
  | none => exact requireClosed_map hl d
  | some t =>
    simp only [Option.map_some, hf.kind]
    by_cases hk : t.kind = .name
    · rw [hf.value t hk]
      split
      · rfl
      · exact requireClosed_map hl d
    · simp only [hk, false_and, if_false]
      exact requireClosed_map hl d

/-! ### Runs -/

variable {depth : Nat}

theorem note_relined (o : Outline) (seg : Segment) :
    note (o.relined g) (seg.map (Token.relined g)) = (note o seg).relined g := by
  match seg with
  | .literal t =>
    simp only [map, note, Token.relined]
    split <;> rfl
  | .directive d =>
    have hk := keyword?_map (keepsNames_relined g) d
    have ha : addParent (o.relined g) (d.map (Token.relined g)) = (addParent o d).relined g := by
      have harg : (d.map (Token.relined g)).argument?.bind Token.stringValue? =
          d.argument?.bind Token.stringValue? := by
        rw [argument?_map (keepsNames_relined g), Option.bind_map]
        rfl
      unfold addParent
      rw [harg]
      split <;> rfl
    simp only [map, note, hk]
    cases d.keyword? with
    | none => rfl
    | some keyword =>
      simp only [Option.map_some, (keepsNames_relined g).isName, ha]
      split
      · rfl
      · split <;> rfl

theorem addRegion_relined (o : Outline) (r : Region) :
    addRegion (o.relined g) (r.relined g) = reported g (Outline.relined g) (addRegion o r) := by
  have hany : (o.relined g).regions.any (·.name = (r.relined g).name) =
      o.regions.any (·.name = r.name) := by
    rw [Outline.relined, List.any_map]
    rfl
  unfold addRegion
  rw [hany]
  split
  · rfl
  · simp [Outline.relined]

theorem stepInside_relined (o : Outline) (r : OpenRegion) (seg : Segment) :
    stepInside depth (o.relined g) (r.relined g) (seg.map (Token.relined g)) =
      reported g (State.relined g) (stepInside depth o r seg) := by
  have hnest := nest_map (keepsNames_relined g) r.inner seg
  cases hn : nest r.inner seg with
  | some n =>
    rw [stepInside_of_nest hn, stepInside_of_nest (r := r.relined g) (hnest.trans hn),
      source_map (f := Token.relined g) fun _ => rfl]
    rfl
  | none =>
    obtain ⟨h0, d, rfl, hd⟩ := nest_eq_none hn
    have hd' : (d.map (Token.relined g)).hasKeyword Keyword.blockEnd = true := by
      rw [hasKeyword_map (keepsNames_relined g)]
      exact hd
    have hcheck : checkEnd (r.relined g).name (d.map (Token.relined g)) =
        reported g id (checkEnd r.name d) := checkEnd_map (keepsNames_relined g) (fun _ => rfl) _ _
    have hadd : addRegion (o.relined g)
          ⟨(r.relined g).name, (r.relined g).content, depth, (r.relined g).line⟩ =
        reported g (Outline.relined g) (addRegion o ⟨r.name, r.content, depth, r.line⟩) :=
      addRegion_relined o ⟨r.name, r.content, depth, r.line⟩
    rw [map, stepInside_end hd h0, stepInside_end (r := r.relined g) hd' h0, hcheck, hadd]
    exact reported_bind fun _ => reported_bind fun _ => rfl

theorem step_relined (σ : State) (seg : Segment) :
    (step depth (σ.relined g) (seg.map (Token.relined g))).outcome =
      reported g (State.relined g) (step depth σ seg).outcome := by
  obtain ⟨o, c⟩ := σ
  match c with
  | some r => exact stepInside_relined o r seg
  | none =>
    change (stepOutside (o.relined g) (seg.map (Token.relined g))).outcome =
      reported g (State.relined g) (stepOutside o seg).outcome
    by_cases hb : ∃ d, seg = .directive d ∧ d.hasKeyword Keyword.block = true
    · obtain ⟨d, rfl, hd⟩ := hb
      have hd' : (d.map (Token.relined g)).hasKeyword Keyword.block = true := by
        rw [hasKeyword_map (keepsNames_relined g)]
        exact hd
      rw [map, stepOutside_block hd, stepOutside_block hd',
        blockName_map (keepsNames_relined g) fun _ => rfl, map_reported, reported_map]
      rfl
    · have hb := not_keyword_of_not_exists hb
      rw [stepOutside_eq o hb, stepOutside_eq _ (not_keyword_map (keepsNames_relined g) hb),
        checkClosed_map fun _ => rfl, map_reported, reported_map, note_relined]
      rfl

/-- **Lines are only reported.** -/
theorem foldlM_relined (σ : State) (segs : List Segment) :
    ((segs.map (map (Token.relined g))).foldlM (step depth) (σ.relined g)).outcome =
      reported g (State.relined g) (segs.foldlM (step depth) σ).outcome := by
  induction segs generalizing σ with
  | nil => rfl
  | cons seg segs ih =>
    rw [List.map_cons, List.foldlM_cons, List.foldlM_cons, Logged.outcome_bind,
      Logged.outcome_bind, step_relined]
    exact reported_bind ih

end Scan

end PageFields
