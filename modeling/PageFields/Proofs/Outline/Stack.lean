import PageFields.Proofs.Outline.Scan

/-! # Outlines in one pass

A machine with a stack of open blocks reads the segments of a text once, from left to right
(`Stack.step`). A `block` directive pushes a frame and an `endblock` directive pops one; the content
of a block is then the stretch of the text between the two. `Stack.parse` accepts a text if no step
fails and the stack is empty at the end. The machine does not look at the lines of tokens
(`step_moved`), and over a stretch whose blocks nest it leaves the frames alone that were there
before (`stack_of_foldlM`). -/

namespace PageFields.Stack

open Segment

/-- What is known of the text directly inside a block, or outside of all. -/
structure Level where
  /-- The position where it starts. -/
  start : Nat := 0
  /-- The names of the blocks in it that are closed. -/
  names : List Text := []
  /-- The regions in it, each with all that is inside it. -/
  found : List Region := []
  deriving DecidableEq, Repr

/-- An open block. -/
structure Frame where
  name : Text
  /-- The height of the stack when the frame was pushed. -/
  depth : Nat
  /-- The line of the opening directive, counted in the text that holds the block. -/
  line : Nat
  /-- The text that holds the block. -/
  outer : Level
  deriving DecidableEq, Repr

/-- A state of the machine. -/
structure State where
  /-- The length of what was read. -/
  pos : Nat := 0
  level : Level := {}
  /-- The open blocks, the inner ones first. -/
  stack : List Frame := []
  deriving DecidableEq, Repr

/-- The stretch of a text between two positions. -/
def slice (s : Text) (i j : Nat) : Text := (s.drop i).take (j - i)

/-- Reads a `block` directive: its next word must be a name, which is pushed. -/
def push (s : Text) (σ : State) (d : Directive) : Option State :=
  match d.argument? with
  | none => none
  | some t =>
    if t.kind = .name then
      let frame := ⟨t.value, σ.stack.length,
        1 + Text.lineFeeds (slice s σ.level.start σ.pos), σ.level⟩
      some ⟨σ.pos + d.source.length, { start := σ.pos + d.source.length }, frame :: σ.stack⟩
    else none

/-- Reads an `endblock` directive: a name in it must be the one on top of the stack, which must be
new among its siblings. The directive is ignored if no block is open. -/
def pop (s : Text) (σ : State) (d : Directive) : Option State :=
  match σ.stack with
  | [] => some { σ with pos := σ.pos + d.source.length }
  | frame :: stack =>
    if (∀ t ∈ d.argument?, t.kind = .name → t.value = frame.name) ∧
        frame.outer.names.contains frame.name = false then
      let region := ⟨frame.name, slice s σ.level.start σ.pos, frame.depth, frame.line⟩
      some ⟨σ.pos + d.source.length,
        { frame.outer with
          names := frame.outer.names ++ [frame.name]
          found := frame.outer.found ++ region :: σ.level.found }, stack⟩
    else none

/-- Reads a segment. Every directive must be closed. -/
def step (s : Text) (σ : State) : Segment → Option State
  | .literal t => some { σ with pos := σ.pos + t.value.length }
  | .directive d =>
    if d.isClosed then
      if d.hasKeyword Keyword.block then push s σ d
      else if d.hasKeyword Keyword.blockEnd then pop s σ d
      else some { σ with pos := σ.pos + d.source.length }
    else none

/-- The regions of a text, each with all that is inside it, if the machine accepts the text. -/
def parse (s : Text) : Option (List Region) :=
  ((ofText s).foldlM (step s) {}).bind fun σ => if σ.stack = [] then some σ.level.found else none

/-! ### Steps -/

variable {s : Text} {σ τ : State}

theorem step_of_not_closed {seg : Segment} (h : seg.isClosed = false) : step s σ seg = none := by
  match seg with
  | .directive d =>
    have hc : d.isClosed = false := h
    simp [step, hc]

theorem step_other {seg : Segment} (hc : seg.isClosed = true)
    (hb : ∀ d, seg = .directive d → d.hasKeyword Keyword.block = false)
    (he : ∀ d, seg = .directive d → d.hasKeyword Keyword.blockEnd = true → σ.stack = []) :
    step s σ seg = some { σ with pos := σ.pos + seg.source.length } := by
  match seg with
  | .literal t => rfl
  | .directive d =>
    have hclosed : d.isClosed = true := hc
    simp only [step, hclosed, hb d rfl, if_true, Bool.false_eq_true, if_false]
    by_cases hend : d.hasKeyword Keyword.blockEnd = true
    · rw [if_pos hend, pop, he d rfl hend]
      rfl
    · rw [if_neg hend]
      rfl

theorem step_block {d : Directive} (hb : d.hasKeyword Keyword.block = true) :
    step s σ (.directive d) = some τ ↔ ∃ name, Scan.blockName d = .ok name ∧
      τ = ⟨σ.pos + d.source.length, { start := σ.pos + d.source.length },
        ⟨name, σ.stack.length, 1 + Text.lineFeeds (slice s σ.level.start σ.pos), σ.level⟩ ::
          σ.stack⟩ := by
  simp only [Scan.blockName_eq_ok]
  by_cases hc : d.isClosed = true
  · simp only [step, hc, hb, if_true, true_and, push]
    cases ha : d.argument? with
    | none => simp
    | some t =>
      by_cases hk : t.kind = .name
      · simp [hk, eq_comm]
      · simp [hk]
  · simp [step, hc]

theorem step_end {d : Directive} (he : d.hasKeyword Keyword.blockEnd = true) {frame : Frame}
    {stack : List Frame} (hs : σ.stack = frame :: stack) :
    step s σ (.directive d) = some τ ↔
      Scan.checkEnd frame.name d = .ok () ∧ frame.name ∉ frame.outer.names ∧
      τ = ⟨σ.pos + d.source.length,
        { frame.outer with
          names := frame.outer.names ++ [frame.name]
          found := frame.outer.found ++
            ⟨frame.name, slice s σ.level.start σ.pos, frame.depth, frame.line⟩ :: σ.level.found },
        stack⟩ := by
  have hb : d.hasKeyword Keyword.block = false := by
    by_contra hb
    rw [not_blockEnd_of_block (by simpa using hb)] at he
    cases he
  have hfresh : frame.outer.names.contains frame.name = false ↔
      frame.name ∉ frame.outer.names := by simp
  rw [Scan.checkEnd_eq_ok, ← hfresh]
  by_cases hc : d.isClosed = true
  · simp only [step, hc, hb, he, if_true, Bool.false_eq_true, if_false, pop, hs, true_and]
    by_cases hcond : (∀ t ∈ d.argument?, t.kind = .name → t.value = frame.name) ∧
        frame.outer.names.contains frame.name = false
    · rw [if_pos hcond, Option.some.injEq]
      exact ⟨fun h => ⟨hcond.1, hcond.2, h.symm⟩, fun h => h.2.2.symm⟩
    · rw [if_neg hcond]
      exact ⟨nofun, fun h => absurd ⟨h.1, h.2.1⟩ hcond⟩
  · simp [step, hc]

/-! ### Lines do not matter -/

theorem step_moved (k : Nat) (seg : Segment) :
    step s σ (seg.map (Token.moved k)) = step s σ seg := by
  match seg with
  | .literal t => rfl
  | .directive d =>
    have hk := keepsNames_moved k
    have hsrc : (d.map (Token.moved k)).source = d.source :=
      source_map (f := Token.moved k) (fun _ => rfl) (.directive d)
    simp only [Segment.map, step, isClosed_map, hasKeyword_map hk, push, pop, argument?_map hk,
      hsrc]
    cases d.argument? with
    | none => simp
    | some t => simp [Token.moved]

theorem foldlM_moved (k : Nat) (segs : List Segment) (σ : State) :
    (segs.map (Segment.map (Token.moved k))).foldlM (step s) σ = segs.foldlM (step s) σ := by
  rw [List.foldlM_map]
  simp only [step_moved]

/-! ### The frames below -/

/-- Over a stretch whose blocks nest the frames below it stay. -/
theorem stack_of_foldlM {segs : List Segment} {n m : Nat} (h : depthAfter n segs = some m)
    (upper lower : List Frame) (hσ : σ.stack = upper ++ lower) (hn : upper.length = n)
    (hrun : segs.foldlM (step s) σ = some τ) :
    ∃ upper', τ.stack = upper' ++ lower ∧ upper'.length = m := by
  induction segs generalizing σ n upper with
  | nil =>
    cases hrun
    cases h
    exact ⟨upper, hσ, hn⟩
  | cons seg segs ih =>
    rw [List.foldlM_cons] at hrun
    obtain ⟨υ, hstep, hrun⟩ := Option.bind_eq_some_iff.1 hrun
    rw [depthAfter_cons] at h
    obtain ⟨k, hk, h⟩ := Option.bind_eq_some_iff.1 h
    have hc : seg.isClosed = true := by
      by_contra hc
      rw [step_of_not_closed (by simpa using hc)] at hstep
      cases hstep
    by_cases hb : ∃ d, seg = .directive d ∧ d.hasKeyword Keyword.block = true
    · obtain ⟨d, rfl, hd⟩ := hb
      obtain ⟨name, -, rfl⟩ := (step_block hd).1 hstep
      rw [nest_of_block hd] at hk
      cases hk
      exact ih h (_ :: upper) (congrArg _ hσ) (by simp [hn]) hrun
    by_cases he : ∃ d, seg = .directive d ∧ d.hasKeyword Keyword.blockEnd = true
    · obtain ⟨d, rfl, hd⟩ := he
      subst hn
      cases upper with
      | nil => rw [List.length_nil, nest_zero_of_end hd] at hk; cases hk
      | cons frame upper =>
        obtain ⟨-, -, rfl⟩ := (step_end hd hσ).1 hstep
        rw [List.length_cons, nest_succ_of_end hd] at hk
        cases hk
        exact ih h upper rfl rfl hrun
    · have hother := not_keyword_of_not_exists hb
      have hother' := not_keyword_of_not_exists he
      rw [step_other hc hother fun d hd hk => by rw [hother' d hd] at hk; cases hk] at hstep
      cases hstep
      have hnk : nest n seg = some n := by
        match seg with
        | .literal t => rfl
        | .directive d => exact nest_of_other (hother d rfl) (hother' d rfl) n
      rw [hnk] at hk
      cases hk
      exact ih (σ := { σ with pos := σ.pos + seg.source.length }) h upper hσ hn hrun

end PageFields.Stack
