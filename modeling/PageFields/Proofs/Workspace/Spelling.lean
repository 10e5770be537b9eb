import PageFields.Proofs.Workspace.Isolation
import PageFields.Proofs.Workspace.Session

/-! # Workspaces: the spelling of a path

A path has names if it is not absolute and has no step up, and they are the pieces between its
slashes without the empty ones and the dots (`names?_eq_if`). An operation uses nothing of a path
but the item that it is classified as, so that two paths with the same names get the same answers
and leave the same tree, in one call (`same_answers`) and in a whole session (`run_respelled`).
Every other path is refused. -/

namespace PageFields

/-! ### The names of a path -/

namespace Path

/-- The pieces between slashes that lead anywhere. -/
def pieces (p : Text) : List Text := (Text.splitOn '/' p).filter fun piece => !isIdle piece

/-- The path is not absolute and has no step up. -/
def StaysBelow (p : Text) : Prop := isAbsolute p = false ∧ ['.', '.'] ∉ Text.splitOn '/' p

instance (p : Text) : Decidable (StaysBelow p) := inferInstanceAs (Decidable (_ ∧ _))

/-- Both paths stay below, and they have the same names; dots, empty pieces and slashes at the end
may differ. -/
structure SameNames (p q : Text) : Prop where
  left : StaysBelow p
  right : StaysBelow q
  pieces_eq : pieces p = pieces q

theorem namesIn?_filter (parts : List Component) :
    namesIn? (parts.filter (· ≠ .here)) = namesIn? parts := by
  induction parts with
  | nil => rfl
  | cons part parts ih =>
    cases part with
    | here => exact ih
    | root => rfl
    | up => rfl
    | name n =>
      rw [List.filter_cons_of_pos (by simp), namesIn?, namesIn?, ih]

theorem namesIn?_components (p : Text) : namesIn? (components p) = namesIn? (steps p) := by
  unfold components
  split
  · rename_i parts hs
    rw [hs, namesIn?, namesIn?, namesIn?_filter]
  · exact namesIn?_filter (steps p)

theorem namesIn?_filterMap (l : List Text) : namesIn? (l.filterMap step?) =
    if ['.', '.'] ∈ l then none else some (l.filter fun piece => !isIdle piece) := by
  induction l with
  | nil => rfl
  | cons piece l ih =>
    by_cases hnil : piece = []
    · subst hnil
      simpa [step?, isIdle] using ih
    · by_cases hhere : piece = ['.']
      · subst hhere
        simpa [step?, isIdle, namesIn?] using ih
      · by_cases hup : piece = ['.', '.']
        · subst hup
          simp [step?, namesIn?]
        · have hstep : step? piece = some (.name piece) := by
            rw [step?, if_neg hnil, if_neg hhere, if_neg hup]
          have hfilter : (piece :: l).filter (fun piece => !isIdle piece) =
              piece :: l.filter fun piece => !isIdle piece :=
            List.filter_cons_of_pos (by simp [isIdle, hnil, hhere])
          have hmem : ['.', '.'] ∈ piece :: l ↔ ['.', '.'] ∈ l := by simp [Ne.symm hup]
          rw [List.filterMap_cons_some hstep, namesIn?, ih, hfilter]
          by_cases hl : ['.', '.'] ∈ l
          · rw [if_pos hl, if_pos (hmem.2 hl), Option.map_none]
          · rw [if_neg hl, if_neg (mt hmem.1 hl), Option.map_some]

/-- **The names of a path** are the pieces that lead anywhere. -/
theorem names?_eq_if (p : Text) : names? p = if StaysBelow p then some (pieces p) else none := by
  rw [names?_eq, namesIn?_components, steps_eq]
  by_cases habs : isAbsolute p = true
  · have hout : ¬ StaysBelow p := fun h => Bool.noConfusion (habs.symm.trans h.1)
    rw [if_pos habs, if_neg hout]
    rfl
  · rw [if_neg habs, List.nil_append, namesIn?_filterMap]
    by_cases hup : ['.', '.'] ∈ Text.splitOn '/' p
    · have hout : ¬ StaysBelow p := fun h => h.2 hup
      rw [if_pos hup, if_neg hout]
    · have hbelow : StaysBelow p := ⟨by simpa using habs, hup⟩
      rw [if_neg hup, if_pos hbelow, pieces]

end Path

namespace Workspace

variable {w : Workspace} {t : FileTree} {p q : Text}

/-! ### Operations -/

/-- The operation on the item at another path. -/
def Operation.withPath (path : Text) : Operation → Operation
  | .render _ => .render path
  | .templates _ => .templates path
  | .preview request => .preview { request with path }
  | .update request o => .update { request with path } o

/-- The answers for two paths are the same, and so are the trees afterwards. -/
structure SameAnswers (w : Workspace) (t : FileTree) (p q : Text) : Prop where
  classify : w.classify p = w.classify q
  create : w.create t p = w.create t q
  perform : ∀ operation : Operation,
    w.perform t (operation.withPath p) = w.perform t (operation.withPath q)

/-- The answer for a path is an error, and the tree stays as it is. -/
structure Refused (w : Workspace) (t : FileTree) (p : Text) (e : Error) : Prop where
  classify : w.classify p = .error e
  create : w.create t p = (.error e, t)
  perform : ∀ operation : Operation, w.perform t (operation.withPath p) = (.error e, t)

/-- **Of a path only the item is used** that it is classified as. -/
theorem sameAnswers_of_classify (h : w.classify p = w.classify q) : SameAnswers w t p q := by
  refine ⟨h, ?_, fun operation => ?_⟩
  · unfold create
    rw [h]
  · cases operation with
    | render path =>
      simp only [Operation.withPath, perform, render, h]
    | templates path =>
      simp only [Operation.withPath, perform, templates, h]
    | preview request =>
      simp only [Operation.withPath, perform, preview, h]
      rfl
    | update request o =>
      simp only [Operation.withPath, perform, update, h]
      rfl

theorem refused_of_classify {e : Error} (h : w.classify p = .error e) : Refused w t p e := by
  refine ⟨h, ?_, fun operation => ?_⟩
  · unfold create
    rw [h]
  · cases operation with
    | render path =>
      simp only [Operation.withPath, perform, render, h]
      rfl
    | templates path =>
      simp only [Operation.withPath, perform, templates, h]
      rfl
    | preview request =>
      simp only [Operation.withPath, perform, preview, h]
      rfl
    | update request o =>
      simp only [Operation.withPath, perform, update, h]
      rfl

theorem classify_of_staysBelow (w : Workspace) (h : Path.StaysBelow p) :
    w.classify p = .ok ⟨Item.kindOf w.config w.globs (Path.pieces p), Path.pieces p⟩ :=
  classify_eq_ok.2 ⟨by rw [Path.names?_eq_if, if_pos h], rfl⟩

theorem classify_of_not_staysBelow (w : Workspace) (h : ¬ Path.StaysBelow p) :
    w.classify p = .error (.pathEscape (Path.display p)) := by
  unfold classify Item.classify Item.namesOf
  rw [Path.names?_eq_if, if_neg h]
  rfl

theorem classify_congr (w : Workspace) (h : Path.SameNames p q) : w.classify p = w.classify q := by
  rw [classify_of_staysBelow w h.left, classify_of_staysBelow w h.right, h.pieces_eq]

/-- **The spelling of a path does not matter.** Two paths with the same names, neither of them
absolute or with a step up, are classified as one item, and so is the path of this item. All
operations give the same answers for them and leave the same tree. Every path that is absolute or
has a step up is refused by all operations, and the tree stays as it is. -/
theorem same_answers (w : Workspace) (t : FileTree) (h : Path.SameNames p q) :
    (∃ item, w.classify p = .ok item ∧ item.names = Path.pieces p ∧
      w.classify item.path = .ok item ∧ SameAnswers w t p item.path ∧ SameAnswers w t p q) ∧
    ∀ path, ¬ Path.StaysBelow path → Refused w t path (.pathEscape (Path.display path)) := by
  refine ⟨?_, fun path hpath => refused_of_classify (classify_of_not_staysBelow w hpath)⟩
  have hitem := classify_of_staysBelow w h.left
  have hpath := classify_path hitem
  exact ⟨_, hitem, rfl, hpath, sameAnswers_of_classify (hitem.trans hpath.symm),
    sameAnswers_of_classify (classify_congr w h)⟩

/-- A new page of a project, in two spellings, and a path that leads out of the project. -/
theorem same_answers_page :
    defaultWorkspace.create (beside []) "./site//new.html/".toList =
        defaultWorkspace.create (beside []) "site/new.html".toList ∧
      Refused defaultWorkspace (beside []) "site/../new.html".toList
        (.pathEscape "site/../new.html".toList) := by
  have hsame : Path.SameNames "./site//new.html/".toList "site/new.html".toList :=
    ⟨by decide +kernel, by decide +kernel, by decide +kernel⟩
  obtain ⟨⟨item, -, -, -, -, hanswers⟩, hrefused⟩ := same_answers defaultWorkspace (beside []) hsame
  exact ⟨hanswers.create, hrefused _ (by decide +kernel)⟩

end Workspace

/-! ### Sessions -/

namespace Session

/-- The same event, with another spelling of its path. -/
inductive Respelled : Event → Event → Prop
  | render {w : Workspace} {p q : Text} (h : Path.SameNames p q) :
    Respelled (.render w p) (.render w q)
  | preview {w : Workspace} {request : EditRequest} {q : Text}
    (h : Path.SameNames request.path q) :
    Respelled (.preview w request) (.preview w { request with path := q })
  | create {w : Workspace} {p q : Text} (h : Path.SameNames p q) :
    Respelled (.create w p) (.create w q)
  | update {w : Workspace} {request : EditRequest} {o : Occasion} {q : Text}
    (h : Path.SameNames request.path q) :
    Respelled (.update w request o) (.update w { request with path := q } o)
  | outside {t : FileTree} : Respelled (.outside t) (.outside t)

open Workspace

theorem receipt?_congr {w : Workspace} {p q : Text} (h : w.classify p = w.classify q)
    (t : FileTree) : receipt? w t p = receipt? w t q := by
  unfold receipt? render
  rw [h]

theorem step_respelled {e e' : Event} (h : Respelled e e') (s : State) : step s e = step s e' := by
  cases h with
  | render h => rw [step, step, receipt?_congr (classify_congr _ h)]
  | preview h => rfl
  | create h => rw [step, step, (sameAnswers_of_classify (classify_congr _ h)).create]
  | @update w request o q h =>
    have hsame := (sameAnswers_of_classify (t := s.tree) (classify_congr w h)).perform
    have htree := congrArg Prod.snd (hsame (.update request o))
    exact congrArg s.enter htree
  | outside => rfl

/-- **In a session the spelling of paths does not matter.** -/
theorem run_respelled {events events' : List Event} (h : List.Forall₂ Respelled events events')
    (t : FileTree) : run t events = run t events' := by
  unfold run
  generalize State.mk t [] [] = s
  induction h generalizing s with
  | nil => rfl
  | cons he _ ih => rw [List.foldl_cons, List.foldl_cons, step_respelled he, ih]

end Session

end PageFields
