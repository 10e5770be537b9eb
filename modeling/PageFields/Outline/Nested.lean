import PageFields.Outline

/-! # Outlines: regions inside regions

A region found in a text has a shorter content than the text (`length_content_lt`), because its
opening directive is not part of it. So passing over the contents again and again ends, and
`Region.preorder` lists a region with all that is inside it. -/

namespace PageFields

namespace Scan

/-- All contents of a state are shorter than `n`. -/
def Within (n : Nat) (s : State) : Prop :=
  (∀ r ∈ s.outline.regions, r.content.length < n) ∧ ∀ r ∈ s.current, r.content.length < n

theorem within_stepOutside {n k : Nat} {o : Outline} {seg : Segment} {s : State}
    (hk : 0 < k) (h : Within n ⟨o, none⟩) (hs : (stepOutside o seg).outcome = .ok s) :
    Within (n + k) s := by
  have base : ∀ r ∈ o.regions, r.content.length < n + k := fun r hr =>
    Nat.lt_of_lt_of_le (h.1 r hr) (Nat.le_add_right n k)
  have keep : ∀ o' : Outline, o'.regions = o.regions → Within (n + k) ⟨o', none⟩ :=
    fun o' ho' => ⟨by simpa [ho'] using base, by simp⟩
  have lifted : ∀ {x : Except Error Unit} {y : Logged State},
      ((monadLift x : Logged Unit) >>= fun _ => y).outcome = .ok s → y.outcome = .ok s := by
    intro x y hxy
    rw [Logged.outcome_bind] at hxy
    match x, hxy with
    | .ok (), hxy => exact hxy
  match seg with
  | .literal t =>
    simp only [stepOutside] at hs
    split at hs
    · cases hs; exact keep _ rfl
    · cases hs; exact keep _ rfl
  | .directive d =>
    simp only [stepOutside] at hs
    split at hs
    · have := lifted hs; cases this; exact keep _ rfl
    · split at hs
      · rw [Logged.outcome_bind] at hs
        match hb : (monadLift (blockName d) : Logged Text).outcome, hs with
        | .ok name, hs => cases hs; exact ⟨base, by simp; omega⟩
      · split at hs
        · have := lifted hs; cases this
          refine keep _ ?_
          simp only [addParent]; split <;> rfl
        · split at hs
          · rw [Logged.outcome_bind] at hs
            have := lifted (y := pure ⟨o, none⟩) hs
            cases this; exact keep _ rfl
          · have := lifted hs; cases this; exact keep _ rfl

theorem within_stepInside {n depth : Nat} {o : Outline} {r : OpenRegion} {seg : Segment} {s : State}
    (h : Within n ⟨o, some r⟩) (hs : stepInside depth o r seg = .ok s)
    (hk : 0 < seg.source.length) :
    Within (n + seg.source.length) s := by
  have base : ∀ q ∈ o.regions, q.content.length < n + seg.source.length := fun q hq =>
    Nat.lt_of_lt_of_le (h.1 q hq) (Nat.le_add_right _ _)
  have hr : r.content.length < n := h.2 r rfl
  have more : ∀ inner : Nat, Within (n + seg.source.length)
      ⟨o, some { r with inner, content := r.content ++ seg.source }⟩ := fun inner =>
    ⟨base, by simp; omega⟩
  match seg with
  | .literal t =>
    simp only [stepInside, Except.ok.injEq] at hs
    exact hs ▸ more _
  | .directive d =>
    simp only [stepInside] at hs
    split at hs
    · split at hs
      · match hc : checkEnd r.name d, hs with
        | .ok (), hs =>
          by_cases hd : o.regions.any (·.name = r.name)
          · simp [addRegion, hd, bind, Except.bind] at hs
          · simp only [addRegion, hd, bind, Except.bind] at hs
            cases hs
            refine ⟨fun q hq => ?_, by simp⟩
            rcases List.mem_append.1 hq with hq | hq
            · exact base q hq
            · rw [List.mem_singleton.1 hq]; simp; omega
      · cases hs; exact more _
    · split at hs
      · cases hs; exact more _
      · cases hs; exact more _

theorem within_foldlM {depth n : Nat} {segs : List Segment} {s t : State}
    (hne : ∀ seg ∈ segs, seg.source ≠ []) (h : Within n s)
    (hs : (segs.foldlM (step depth) s).outcome = .ok t) :
    Within (n + (segs.flatMap Segment.source).length) t := by
  induction segs generalizing n s with
  | nil => cases hs; simpa using h
  | cons seg segs ih =>
    have hk : 0 < seg.source.length := List.length_pos_iff.2 (hne seg List.mem_cons_self)
    rw [List.foldlM_cons, Logged.outcome_bind] at hs
    match hstep : (step depth s seg).outcome with
    | .error e => rw [hstep] at hs; cases hs
    | .ok u =>
      rw [hstep] at hs
      have hu : Within (n + seg.source.length) u := by
        obtain ⟨o, c⟩ := s
        match c with
        | none => exact within_stepOutside hk h hstep
        | some r => exact within_stepInside h hstep hk
      have := ih (fun x hx => hne x (List.mem_cons_of_mem _ hx)) hu hs
      simpa [Nat.add_assoc] using this

end Scan

/-- A region found in a text has a shorter content than the text. -/
theorem length_content_lt {depth : Nat} {s : Text} {o : Outline} {r : Region}
    (h : (scanAt depth s).outcome = .ok o) (hr : r ∈ o.regions) : r.content.length < s.length := by
  rw [scanAt, Scan.run, Logged.outcome_bind] at h
  match hf : ((Segment.ofText s).foldlM (Scan.step depth) {}).outcome with
  | .error e => rw [hf] at h; cases h
  | .ok t =>
    rw [hf] at h
    have within := Scan.within_foldlM (n := 0)
      (fun _ hx => Segment.source_ne_nil_of_mem_ofText hx) ⟨by simp, by simp⟩ hf
    rw [Segment.flatMap_source_ofText, Nat.zero_add] at within
    refine within.1 r ?_
    simp only [bind, Except.bind, Scan.finish, liftM, monadLift, MonadLiftT.monadLift] at h
    split at h
    · cases h; exact hr
    · cases h

/-- The region and all regions inside it, outer ones first. Where the content of a region does not
scan, the error stands in place of its inside. -/
def Region.preorder (r : Region) : List (Except Error Region) :=
  .ok r ::
    match _h : (scanAt (r.depth + 1) r.content).outcome with
    | .error e => [.error e]
    | .ok o => o.regions.attach.flatMap fun q => q.1.preorder
termination_by r.content.length
decreasing_by exact length_content_lt _h q.2

end PageFields
