import PageFields.Proofs.Outline.Stack

/-! # Scanning again and again is one pass

A scan finds the outermost blocks, and the blocks inside are found by scanning each content again
from its start. The machine with a stack finds all of them in one pass. Both go through the same
segments: those of a content, read on its own, are the ones that stood in the text
(`Segment.ofTextFrom_split`). The induction is on the number of segments. At a `block` directive the
stretch up to its end is one smaller case, the rest after it another (`simulates`). -/

namespace PageFields

open Segment

/-- The inside of a region is what the next pass finds, read again and again. -/
theorem Region.preorder_eq (r : Region) : r.preorder = .ok r ::
    match r.nested with
    | .error e => [.error e]
    | .ok regions => regions.flatMap Region.preorder := by
  rw [Region.preorder, Region.nested]
  congr 1
  split
  · rename_i e h
    rw [h]
    rfl
  · rename_i o h
    rw [h]
    simp [Except.map, List.flatMap_def]

namespace Stack

/-! ### Both ways agree -/

/-- What a scan has found outside regions, with the insides, is what the machine has found. -/
structure Agrees (o : Outline) (level : Level) : Prop where
  names : level.names = o.regions.map Region.name
  found : o.regions.flatMap Region.preorder = level.found.map .ok

theorem Agrees.unique {o : Outline} {l l' : Level} (h : Agrees o l) (h' : Agrees o l')
    (hs : l.start = l'.start) : l = l' := by
  obtain ⟨start, names, found⟩ := l
  obtain ⟨start', names', found'⟩ := l'
  have hf : found.map (Except.ok (ε := Error)) = found'.map .ok := h.found.symm.trans h'.found
  have hinj : Function.Injective (Except.ok (ε := Error) (α := Region)) := fun _ _ h => by
    cases h
    rfl
  obtain rfl : start = start' := hs
  obtain rfl : names = names' := h.names.trans h'.names.symm
  obtain rfl : found = found' := List.map_injective_iff.2 hinj hf
  rfl

theorem preorder_eq_map_ok {r : Region} {found : List Region} :
    r.preorder = found.map .ok ↔ ∃ o inside, (scanAt (r.depth + 1) r.content).outcome = .ok o ∧
      o.regions.flatMap Region.preorder = inside.map .ok ∧ found = r :: inside := by
  rw [Region.preorder_eq, Region.nested]
  cases h : (scanAt (r.depth + 1) r.content).outcome with
  | error e =>
    simp only [Except.map, reduceCtorEq, false_and, exists_false, iff_false]
    intro heq
    obtain ⟨q, qs, rfl, -, hqs⟩ := List.map_eq_cons_iff.1 heq.symm
    obtain ⟨q', -, -, hq', -⟩ := List.map_eq_cons_iff.1 hqs
    cases hq'
  | ok o =>
    simp only [Except.map, Except.ok.injEq, exists_and_left, exists_eq_left']
    constructor
    · intro heq
      obtain ⟨q, qs, rfl, hq, hqs⟩ := List.map_eq_cons_iff.1 heq.symm
      cases hq
      exact ⟨qs, hqs.symm, rfl⟩
    · rintro ⟨inside, hin, rfl⟩
      rw [hin, List.map_cons]

/-- The machine closes a block when the scan has found it and read its inside. -/
theorem Agrees.append {o inner : Outline} {level inside : Level} {r : Region}
    (h : Agrees o level) (hr : (scanAt (r.depth + 1) r.content).outcome = .ok inner)
    (h' : Agrees inner inside) : Agrees { o with regions := o.regions ++ [r] } { level with
      names := level.names ++ [r.name]
      found := level.found ++ r :: inside.found } := by
  constructor
  · simp [h.names]
  · have hpre : r.preorder = (r :: inside.found).map .ok :=
      preorder_eq_map_ok.2 ⟨inner, inside.found, hr, h'.found, rfl⟩
    simp only [List.flatMap_append, List.flatMap_cons, List.flatMap_nil, List.append_nil, h.found,
      hpre, List.map_append]

theorem Agrees.inside {o : Outline} {level : Level} {regions : List Region} {r : Region}
    (h : Agrees o level) (hr : regions ++ [r] <+: o.regions) (start : Nat) :
    ∃ inner inside, (scanAt (r.depth + 1) r.content).outcome = .ok inner ∧ Agrees inner inside ∧
      inside.start = start := by
  obtain ⟨more, hmore⟩ := hr
  have hfound := h.found
  rw [← hmore, List.flatMap_append, List.flatMap_append] at hfound
  obtain ⟨f₁, -, -, hf₁, -⟩ := List.map_eq_append_iff.1 hfound.symm
  obtain ⟨-, f₂, -, -, hf₂⟩ := List.map_eq_append_iff.1 hf₁
  rw [List.flatMap_cons, List.flatMap_nil, List.append_nil] at hf₂
  obtain ⟨inner, inside, hscan, hin, -⟩ := preorder_eq_map_ok.1 hf₂.symm
  exact ⟨inner, ⟨start, inner.regions.map Region.name, inside⟩, hscan, ⟨rfl, hin⟩, rfl⟩

theorem slice_self (s : Text) (i : Nat) : slice s i i = [] := by simp [slice]

theorem slice_append {s a : Text} {i j : Nat} (hij : i ≤ j) (h : a <+: s.drop j) :
    slice s i (j + a.length) = slice s i j ++ a := by
  obtain ⟨b, hb⟩ := h
  have hlen : j + a.length - i = (j - i) + a.length := by omega
  have hdrop : (s.drop i).drop (j - i) = a ++ b := by
    rw [List.drop_drop, Nat.add_sub_cancel' hij, hb]
  rw [slice, hlen, List.take_add, hdrop, List.take_left, slice]

/-- The machine stands before the text `c`, which starts on this line of the level that starts at
`start`. -/
structure Stands (s : Text) (start pos : Nat) (c : Text) (line : Nat) : Prop where
  text : c <+: s.drop pos
  le : start ≤ pos
  line : line = 1 + Text.lineFeeds (slice s start pos)

theorem Stands.advance {s a b : Text} {start pos line : Nat}
    (h : Stands s start pos (a ++ b) line) :
    Stands s start (pos + a.length) b (line + Text.lineFeeds a) := by
  obtain ⟨⟨t, ht⟩, hle, hline⟩ := h
  refine ⟨⟨t, ?_⟩, by omega, ?_⟩
  · rw [← List.drop_drop, ← ht, List.append_assoc, List.drop_left]
  · rw [slice_append hle ⟨b ++ t, by rw [← ht, List.append_assoc]⟩, Text.lineFeeds_append, hline,
      Nat.add_assoc]

theorem Stands.enter {s a b : Text} {start pos line : Nat}
    (h : Stands s start pos (a ++ b) line) : Stands s pos pos a 1 := by
  refine ⟨(List.prefix_append a b).trans h.text, le_rfl, ?_⟩
  rw [slice_self]
  rfl

/-- Over the text `c` the machine does what a scan does that goes on into the regions it finds. -/
def Simulates (s c : Text) (line : Nat) : Prop :=
  ∀ (pos : Nat) (level : Level) (o : Outline) (stack : List Frame),
    Stands s level.start pos c line → Agrees o level →
    stack = [] ∨ depthAfter 0 (ofTextFrom line c) = some 0 → ∀ (pos' : Nat) (level' : Level),
    (ofTextFrom line c).foldlM (step s) ⟨pos, level, stack⟩ = some ⟨pos', level', stack⟩ ↔
      ∃ o', ((ofTextFrom line c).foldlM (Scan.step stack.length) ⟨o, none⟩).outcome =
          .ok ⟨o', none⟩ ∧
        Agrees o' level' ∧ level'.start = level.start ∧ pos' = pos + c.length

variable {s c : Text} {line : Nat} {seg : Segment} {rest : List Segment}

theorem simulates_nil (h : ofTextFrom line c = []) : Simulates s c line := by
  intro pos level o stack _ ha _ pos' level'
  have hc : c = [] := by
    have := sources_ofTextFrom line c
    rwa [h, sources_nil, eq_comm] at this
  subst hc
  rw [h, List.foldlM_nil, List.foldlM_nil]
  constructor
  · intro heq
    cases heq
    exact ⟨o, rfl, ha, rfl, rfl⟩
  · rintro ⟨o', ho', ha', hs, rfl⟩
    cases ho'
    rw [ha.unique ha' hs.symm]
    rfl

theorem simulates_not_closed (h : ofTextFrom line c = seg :: rest) (hc : seg.isClosed = false) :
    Simulates s c line := by
  intro pos level o stack _ _ _ pos' level'
  rw [h, List.foldlM_cons, step_of_not_closed hc, List.foldlM_cons, Logged.outcome_bind]
  constructor
  · exact nofun
  · rintro ⟨o', ho', -⟩
    obtain ⟨σ, hσ, -⟩ := bind_eq_ok.1 ho'
    cases Scan.step_eq_ok.1 hσ with
    | @opens o d name hd hn =>
      have hclosed : d.isClosed = false := hc
      rw [(Scan.blockName_eq_ok.1 hn).1] at hclosed
      cases hclosed
    | passes hb hclosed =>
      rw [hclosed] at hc
      cases hc

theorem simulates_other (h : ofTextFrom line c = seg :: rest) (hc : seg.isClosed = true)
    (hb : ∀ d, seg = .directive d → d.hasKeyword Keyword.block = false)
    (ih : Simulates s (sources rest) (line + Text.lineFeeds seg.source)) : Simulates s c line := by
  intro pos level o stack hs ha hstack pos' level'
  obtain ⟨hsrc, hrest⟩ := ofTextFrom_cons h hc
  rw [hsrc] at hs
  -- an `endblock` closes one block too much, so no block may be open
  have hend : ∀ d, seg = .directive d → d.hasKeyword Keyword.blockEnd = true → stack = [] := by
    rintro d rfl hd
    refine hstack.resolve_right fun hn => ?_
    rw [h, depthAfter_cons, nest_zero_of_end hd] at hn
    cases hn
  have hstack' : stack = [] ∨ depthAfter 0 rest = some 0 := by
    by_cases he : ∃ d, seg = .directive d ∧ d.hasKeyword Keyword.blockEnd = true
    · obtain ⟨d, hd, hk⟩ := he
      exact Or.inl (hend d hd hk)
    · refine hstack.imp_right fun hn => ?_
      have hnest : nest 0 seg = some 0 := by
        match seg with
        | .literal t => rfl
        | .directive d =>
          exact nest_of_other (hb d rfl) (not_keyword_of_not_exists he d rfl) 0
      rw [h, depthAfter_cons, hnest] at hn
      exact hn
  have ha₁ : Agrees (Scan.note o seg) level :=
    ⟨by rw [Scan.regions_note]; exact ha.names, by rw [Scan.regions_note]; exact ha.found⟩
  have hstep : (Scan.step stack.length ⟨o, none⟩ seg).outcome = .ok ⟨Scan.note o seg, none⟩ :=
    Scan.step_eq_ok.2 (.passes hb hc)
  have := ih _ level _ stack hs.advance ha₁ (by rw [hrest]; exact hstack') pos' level'
  rw [hrest] at this
  rw [h, List.foldlM_cons, step_other (σ := ⟨pos, level, stack⟩) hc hb hend, List.foldlM_cons,
    Logged.outcome_bind, hstep]
  refine this.trans ?_
  rw [hsrc, List.length_append, Nat.add_assoc]
  rfl

/-- A block that is not closed: neither ends where it started. -/
theorem simulates_unended {d : Directive} (h : ofTextFrom line c = .directive d :: rest)
    (hd : d.hasKeyword Keyword.block = true) {m : Nat} (hm : depthAfter 0 rest = some m) :
    Simulates s c line := by
  intro pos level o stack _ _ _ pos' level'
  rw [h, List.foldlM_cons, List.foldlM_cons, Logged.outcome_bind]
  constructor
  · intro hrun
    obtain ⟨υ, hυ, hrun⟩ := Option.bind_eq_some_iff.1 hrun
    obtain ⟨name, -, rfl⟩ := (step_block hd).1 hυ
    obtain ⟨upper, hupper, -⟩ := stack_of_foldlM hm [] _ rfl rfl hrun
    have := congrArg List.length hupper
    simp at this
    omega
  · rintro ⟨o', ho', -⟩
    obtain ⟨σ, hσ, ho'⟩ := bind_eq_ok.1 ho'
    obtain ⟨name, -, rfl⟩ := (Scan.stepOutside_block_eq_ok hd).1 hσ
    rw [Scan.foldlM_inside (r := ⟨name, d.line, 0, []⟩) hm] at ho'
    cases ho'

theorem foldlM_ofTextFrom (s c : Text) (line line' : Nat) (σ : State) :
    (ofTextFrom line c).foldlM (step s) σ = (ofTextFrom line' c).foldlM (step s) σ := by
  rw [ofTextFrom_eq_map line, ofTextFrom_eq_map line', foldlM_moved, foldlM_moved]

theorem ofTextFrom_block {d : Directive} {inner : List Segment}
    (h : ofTextFrom line c = .directive d :: inner ++ rest) (hne : rest ≠ []) :
    c = d.source ++ (sources inner ++ sources rest) ∧
      ofTextFrom (line + Text.lineFeeds d.source) (sources inner) = inner ∧
      ofTextFrom (line + Text.lineFeeds d.source + Text.lineFeeds (sources inner)) (sources rest) =
        rest := by
  have hclosed : ∀ seg ∈ Segment.directive d :: inner, seg.isClosed = true :=
    isClosed_of_ofTokens h hne
  rw [List.cons_append] at h
  obtain ⟨hsrc, hafter⟩ := ofTextFrom_cons h (hclosed _ List.mem_cons_self)
  rw [sources_append] at hsrc
  have hsplit := ofTextFrom_split hafter
    fun seg hseg => hclosed seg (List.mem_cons_of_mem _ hseg)
  exact ⟨hsrc, hsplit⟩

theorem length_ofTextFrom (c : Text) (line line' : Nat) :
    (ofTextFrom line c).length = (ofTextFrom line' c).length := by
  have zero : ∀ k, (ofTextFrom k c).length = (ofTextFrom 0 c).length := by
    intro k
    rw [← Nat.zero_add k, ofTextFrom_add, List.length_map]
  rw [zero, zero line']

/-- The machine over a block, its content, its end and more. -/
theorem foldlM_block {d e : Directive} {inner : List Segment} {pos pos' : Nat}
    {level level' : Level} {stack : List Frame} (hd : d.hasKeyword Keyword.block = true)
    (hi : depthAfter 0 inner = some 0) (he : e.hasKeyword Keyword.blockEnd = true) :
    (.directive d :: inner ++ .directive e :: rest).foldlM (step s) ⟨pos, level, stack⟩ =
        some ⟨pos', level', stack⟩ ↔
      ∃ name pos₁ level₁, Scan.blockName d = .ok name ∧
        inner.foldlM (step s) ⟨pos + d.source.length, { start := pos + d.source.length },
          ⟨name, stack.length, 1 + Text.lineFeeds (slice s level.start pos), level⟩ :: stack⟩ =
            some ⟨pos₁, level₁,
              ⟨name, stack.length, 1 + Text.lineFeeds (slice s level.start pos), level⟩ :: stack⟩ ∧
        Scan.checkEnd name e = .ok () ∧ name ∉ level.names ∧
        rest.foldlM (step s) ⟨pos₁ + e.source.length,
          { level with
            names := level.names ++ [name]
            found := level.found ++
              ⟨name, slice s level₁.start pos₁, stack.length,
                1 + Text.lineFeeds (slice s level.start pos)⟩ :: level₁.found }, stack⟩ =
            some ⟨pos', level', stack⟩ := by
  rw [List.cons_append, List.foldlM_cons, Option.bind_eq_bind, Option.bind_eq_some_iff]
  constructor
  · rintro ⟨υ, hυ, hrun⟩
    obtain ⟨name, hn, rfl⟩ := (step_block hd).1 hυ
    rw [List.foldlM_append, Option.bind_eq_bind, Option.bind_eq_some_iff] at hrun
    obtain ⟨⟨pos₁, level₁, stack₁⟩, hinner, hrun⟩ := hrun
    -- the frame of the block is on top again
    obtain ⟨upper, hupper, hlen⟩ := stack_of_foldlM hi [] _ rfl rfl hinner
    rw [List.length_eq_zero_iff] at hlen
    subst hlen
    obtain rfl : stack₁ = _ := hupper
    rw [List.foldlM_cons, Option.bind_eq_bind, Option.bind_eq_some_iff] at hrun
    obtain ⟨φ, hφ, hrun⟩ := hrun
    obtain ⟨hc, hnew, rfl⟩ := (step_end he rfl).1 hφ
    exact ⟨name, pos₁, level₁, hn, hinner, hc, hnew, hrun⟩
  · rintro ⟨name, pos₁, level₁, hn, hinner, hc, hnew, hrun⟩
    refine ⟨_, (step_block hd).2 ⟨name, hn, rfl⟩, ?_⟩
    rw [List.foldlM_append, Option.bind_eq_bind, Option.bind_eq_some_iff]
    refine ⟨_, hinner, ?_⟩
    rw [List.foldlM_cons, Option.bind_eq_bind, Option.bind_eq_some_iff]
    exact ⟨_, (step_end he rfl).2 ⟨hc, hnew, rfl⟩, hrun⟩

/-- Over the content of a block the machine does what the next pass does. -/
theorem foldlM_content {a b : Text} {start pos : Nat}
    (ih : Simulates s a 1) (hs : Stands s start pos (a ++ b) line)
    (hd : depthAfter 0 (ofTextFrom line a) = some 0) (frames : List Frame) (pos₁ : Nat)
    (level₁ : Level) :
    (ofTextFrom line a).foldlM (step s) ⟨pos, { start := pos }, frames⟩ =
        some ⟨pos₁, level₁, frames⟩ ↔
      ∃ o, (scanAt frames.length a).outcome = .ok o ∧ Agrees o level₁ ∧ level₁.start = pos ∧
        pos₁ = pos + a.length := by
  have hone : depthAfter 0 (ofTextFrom 1 a) = some 0 := by
    rw [depthAfter_ofTextFrom, ← depthAfter_ofTextFrom 0 line]
    exact hd
  have hfresh : Agrees {} { start := pos } := ⟨rfl, rfl⟩
  have := ih pos { start := pos } {} frames hs.enter hfresh (Or.inr hone) pos₁ level₁
  rw [foldlM_ofTextFrom s a line 1, this]
  simp only [Scan.scanAt_eq_ok]
  rfl

/-- After a block the machine goes on as the pass does that has found the block. -/
theorem foldlM_after {o inner : Outline} {level inside level' : Level} {r : Region}
    {pos pos' : Nat} {stack : List Frame} (ih : Simulates s (sources rest) line)
    (hl : ofTextFrom line (sources rest) = rest)
    (hs : Stands s level.start pos (sources rest) line) (ha : Agrees o level)
    (hr : (scanAt (r.depth + 1) r.content).outcome = .ok inner) (h : Agrees inner inside)
    (hstack : stack = [] ∨ depthAfter 0 rest = some 0) :
    rest.foldlM (step s) ⟨pos, { level with
        names := level.names ++ [r.name]
        found := level.found ++ r :: inside.found }, stack⟩ = some ⟨pos', level', stack⟩ ↔
      ∃ o', (rest.foldlM (Scan.step stack.length)
          ⟨{ o with regions := o.regions ++ [r] }, none⟩).outcome = .ok ⟨o', none⟩ ∧
        Agrees o' level' ∧ level'.start = level.start ∧ pos' = pos + (sources rest).length := by
  let level₁ : Level :=
    { level with names := level.names ++ [r.name], found := level.found ++ r :: inside.found }
  have := ih pos level₁ _ stack hs (ha.append hr h) (by rwa [hl]) pos' level'
  rwa [hl] at this

/-- **A block with its end**: the stretch between them is the text that the next pass reads. -/
theorem simulates_block {d e : Directive} {inner : List Segment}
    (h : ofTextFrom line c = .directive d :: inner ++ .directive e :: rest)
    (hd : d.hasKeyword Keyword.block = true) (hi : depthAfter 0 inner = some 0)
    (he : e.hasKeyword Keyword.blockEnd = true) (ih_inner : Simulates s (sources inner) 1)
    (ih_rest : ∀ line', ofTextFrom line' (sources rest) = rest → Simulates s (sources rest) line') :
    Simulates s c line := by
  intro pos level o stack hs ha hstack pos' level'
  obtain ⟨hc, hinner, hend⟩ := ofTextFrom_block h (by simp)
  rw [sources_cons] at hc
  change c = d.source ++ (sources inner ++ (e.source ++ sources rest)) at hc
  rw [hc] at hs
  have hs₁ := hs.advance
  have hs₃ := hs₁.advance.advance
  have hline := line_of_ofTextFrom h
  rw [hs.line] at hline
  have hslice : slice s (pos + d.source.length) (pos + d.source.length + (sources inner).length) =
      sources inner := by
    rw [slice_append le_rfl hs₁.enter.text, slice_self, List.nil_append]
  have hstack' : stack = [] ∨ depthAfter 0 rest = some 0 :=
    hstack.imp_right fun hn => by rwa [h, depthAfter_block hd hi he] at hn
  have hcontent := foldlM_content ih_inner hs₁ (hinner.symm ▸ hi)
  rw [hinner] at hcontent
  have hafter : ∀ {name : Text}, Scan.checkEnd name e = .ok () →
      ofTextFrom _ (sources rest) = rest := fun hce =>
    (ofTextFrom_cons hend (Scan.checkEnd_eq_ok.1 hce).1).2
  have hlen : pos + c.length = pos + d.source.length + (sources inner).length + e.source.length +
      (sources rest).length := by
    simp only [hc, List.length_append]
    omega
  rw [h, foldlM_block hd hi he, hlen]
  simp only [Scan.foldlM_block hd hi he]
  constructor
  · rintro ⟨name, pos₁, level₁, hn, hrun, hce, hnew, hrun'⟩
    obtain ⟨o₁, hscan, ha₁, hstart, rfl⟩ := (hcontent _ _ _).1 hrun
    rw [hstart, hslice, ← hline] at hrun'
    obtain ⟨o', ho', hrest'⟩ := (foldlM_after (ih_rest _ (hafter hce)) (hafter hce) hs₃ ha
      (r := ⟨name, sources inner, stack.length, d.line⟩) hscan ha₁ hstack').1 hrun'
    exact ⟨o', ⟨name, hn, hce, ha.names ▸ hnew, ho'⟩, hrest'⟩
  · rintro ⟨o', ⟨name, hn, hce, hnew, ho'⟩, ha', hrest'⟩
    obtain ⟨o₁, level₁, hscan, ha₁, hstart⟩ :=
      ha'.inside (Scan.prefix_of_foldlM ho') (pos + d.source.length)
    have hrun := (hcontent (⟨name, stack.length,
      1 + Text.lineFeeds (slice s level.start pos), level⟩ :: stack) _ level₁).2
        ⟨o₁, hscan, ha₁, hstart, rfl⟩
    refine ⟨name, _, level₁, hn, hrun, hce, ha.names ▸ hnew, ?_⟩
    rw [hstart, hslice, ← hline]
    exact (foldlM_after (ih_rest _ (hafter hce)) (hafter hce) hs₃ ha hscan ha₁ hstack').2
      ⟨o', ho', ha', hrest'⟩

/-- **The machine does what scanning again and again does.** -/
theorem simulates (s c : Text) (line : Nat) : Simulates s c line := by
  induction hn : (ofTextFrom line c).length using Nat.strongRecOn generalizing c line with
  | ind n ih =>
    subst hn
    match h : ofTextFrom line c with
    | [] => exact simulates_nil h
    | seg :: rest =>
      rw [h] at ih
      by_cases hc : seg.isClosed = true
      · by_cases hb : ∃ d, seg = .directive d ∧ d.hasKeyword Keyword.block = true
        · obtain ⟨d, rfl, hd⟩ := hb
          rcases depthAfter_cases 0 rest with ⟨m, hm⟩ | ⟨inner, e, rest, rfl, hi, he⟩
          · exact simulates_unended h hd hm
          · refine simulates_block h hd hi he (ih _ ?_ _ _ rfl) fun line' hl => ih _ ?_ _ _ rfl
            · obtain ⟨-, hinner, -⟩ := ofTextFrom_block h (by simp)
              rw [length_ofTextFrom _ 1 (line + Text.lineFeeds d.source), hinner]
              simp only [List.length_append, List.length_cons]
              omega
            · rw [hl]
              simp only [List.length_append, List.length_cons]
              omega
        · refine simulates_other h hc (not_keyword_of_not_exists hb) (ih _ ?_ _ _ rfl)
          rw [(ofTextFrom_cons h hc).2]
          simp
      · exact simulates_not_closed h (by simpa using hc)

/-- The machine finds the regions of a text exactly if they are scanned, one inside the other,
without an error. -/
theorem parse_eq_some_iff {s : Text} {found : List Region} :
    parse s = some found ↔
      ∃ o, scan s = .ok o ∧ o.regions.flatMap Region.preorder = found.map .ok := by
  have hs : Stands s 0 0 s 1 := ⟨⟨[], by simp⟩, le_rfl, rfl⟩
  have hsim := simulates s s 1 0 {} {} [] hs ⟨rfl, rfl⟩ (Or.inl rfl)
  have hscan : ∀ o, scan s = .ok o ↔
      ((ofTextFrom 1 s).foldlM (Scan.step ([] : List Frame).length) ⟨{}, none⟩).outcome =
        .ok ⟨o, none⟩ := fun o => Scan.scanAt_eq_ok
  rw [parse, Option.bind_eq_some_iff]
  constructor
  · rintro ⟨⟨pos, level, stack⟩, hrun, hσ⟩
    have hempty : stack = [] := by
      by_contra hne
      rw [if_neg hne] at hσ
      cases hσ
    subst hempty
    obtain rfl : level.found = found := by simpa using hσ
    obtain ⟨o, ho, ha, -, -⟩ := (hsim pos level).1 hrun
    exact ⟨o, (hscan o).2 ho, ha.found⟩
  · rintro ⟨o, ho, hfound⟩
    refine ⟨⟨0 + s.length, ⟨0, o.regions.map Region.name, found⟩, []⟩, ?_, rfl⟩
    exact (hsim _ _).2 ⟨o, (hscan o).1 ho, ⟨rfl, hfound⟩, rfl, rfl⟩

/-- What scanning a text and then every content in it gives: the regions, each with all that is
inside it, and an error in the place of what does not scan. -/
def passes (s : Text) : List (Except Error Region) :=
  match scan s with
  | .error e => [.error e]
  | .ok o => o.regions.flatMap Region.preorder

theorem passes_eq_map_ok {s : Text} {found : List Region} :
    passes s = found.map .ok ↔ parse s = some found := by
  rw [parse_eq_some_iff, passes]
  cases h : scan s with
  | error e =>
    simp only [reduceCtorEq, false_and, exists_false, iff_false]
    intro heq
    obtain ⟨q, -, -, hq, -⟩ := List.map_eq_cons_iff.1 heq.symm
    cases hq
  | ok o => simp

/-- **Scanning again and again is one pass with a stack.** Scanning a text and all contents in it
meets no error exactly if the machine accepts the text. Then both give the same regions in the same
order, with the same depths and contents. The scanning comes to an end because each content is
shorter than the one that holds it. -/
theorem passes_eq_parse (s : Text) :
    ((∀ x ∈ passes s, ∃ r, x = .ok r) ↔ (parse s).isSome = true) ∧
      (∀ found, parse s = some found → passes s = found.map .ok) ∧
      ∀ r regions, Region.nested r = .ok regions →
        ∀ q ∈ regions, q.content.length < r.content.length := by
  refine ⟨⟨fun h => ?_, fun h => ?_⟩, fun found hf => passes_eq_map_ok.2 hf, ?_⟩
  · obtain ⟨found, hfound⟩ : ∃ found : List Region, passes s = found.map .ok := by
      generalize passes s = l at h
      induction l with
      | nil => exact ⟨[], rfl⟩
      | cons x l ih =>
        obtain ⟨r, rfl⟩ := h x List.mem_cons_self
        obtain ⟨found, rfl⟩ := ih fun y hy => h y (List.mem_cons_of_mem _ hy)
        exact ⟨r :: found, rfl⟩
    rw [passes_eq_map_ok.1 hfound]
    rfl
  · obtain ⟨found, hf⟩ := Option.isSome_iff_exists.1 h
    rw [passes_eq_map_ok.2 hf]
    intro x hx
    obtain ⟨r, -, rfl⟩ := List.mem_map.1 hx
    exact ⟨r, rfl⟩
  · intro r regions hr q hq
    obtain ⟨o, ho, rfl⟩ := map_eq_ok.1 hr
    exact length_content_lt ho hq

/-- A block inside a block, and one after it: the machine reads them in one pass. -/
example : parse ("\x7b% block a %\x7d\n\x7b% block b %\x7dx\x7b% endblock %\x7d" ++
      "\x7b% endblock a %\x7d").toList =
    some [⟨"a".toList, "\n\x7b% block b %\x7dx\x7b% endblock %\x7d".toList, 0, 1⟩,
      ⟨"b".toList, "x".toList, 1, 2⟩] := by decide +kernel

end Stack

end PageFields
