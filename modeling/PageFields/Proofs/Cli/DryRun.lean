import PageFields.Cli.Run
import PageFields.Proofs.Cli.Command
import PageFields.Proofs.Workspace.Atomic

/-! # Command line: what a dry run predicts

A dry run that succeeds changes nothing. Of a file that exists, it warns exactly if the same command
without `--dry-run` is refused with a conflict (`run_dryRun`). A file that does not exist is written
without a check, so that there is no conflict; but the dry run takes its text to be empty, and warns
unless the fingerprint is the one of the empty text (`not_always_predicted`). -/

namespace PageFields.Cli

open Workspace

variable {o : Occasion}

theorem code_ofResult_eq_three {x : Except Error Text} :
    (Outcome.ofResult x).code = 3 ↔ ∃ q, x = .error (.conflict q) := by
  cases x with
  | ok text => simp [Outcome.ofResult, Outcome.code]
  | error e => cases e <;> simp [Outcome.ofResult, Outcome.failed, Outcome.code, Failure.code]

theorem prepare_eq_ok {w : Workspace} {t : FileTree} {e : EditCommand} {payload : Payload}
    {p : Prepared} (h : prepare w t e payload = .ok p) : w.classify e.item = .ok p.item ∧
      w.classify p.request.path = .ok p.item ∧ current? w t p.item = .ok p.current ∧
        p.request.prior = Fingerprint.ofInput e.fingerprint := by
  unfold prepare at h
  obtain ⟨item, hitem, h⟩ := bind_eq_ok.1 h
  obtain ⟨current, hcurrent, h⟩ := bind_eq_ok.1 h
  obtain ⟨parent, -, h⟩ := bind_eq_ok.1 h
  cases h
  exact ⟨hitem, classify_path hitem, hcurrent, rfl⟩

theorem current?_eq_ok {w : Workspace} {t : FileTree} {item : Item} {current : Option Text}
    (hfile : item.kind.isFile = true) (h : current? w t item = .ok current) :
    (∃ text, current = some text ∧ w.storage.read t item.path = .ok text) ∨
      current = none ∧ ∃ q, w.storage.read t item.path = .error (.notFound q) := by
  unfold current? at h
  rw [if_pos hfile] at h
  split at h
  · rename_i text hread
    cases h
    exact .inl ⟨text, rfl, hread⟩
  · rename_i q hread
    cases h
    exact .inr ⟨rfl, q, hread⟩
  · cases h

theorem code_failed_ne_zero (f : Failure) : (Outcome.failed f).code ≠ 0 := by
  cases f with
  | workspace e => cases e <;> simp [Outcome.failed, Outcome.code, Failure.code]
  | file fault => simp [Outcome.failed, Outcome.code, Failure.code]
  | misuse => simp [Outcome.failed, Outcome.code, Failure.code]
  | noCommand => simp [Outcome.failed, Outcome.code, Failure.code]

theorem edit_eq {here root : Text} {t : FileTree} {e : EditCommand} {content : Payload}
    {w : Workspace} {p : Prepared} (hcontent : payload here t e.source = .ok content)
    (hw : openAt t root = .ok w) (hp : prepare w t e content = .ok p) (color : Bool) :
    edit here root t color e o =
      if e.dryRun then (dryRun w color p, t) else save w t color p o := by
  unfold edit
  simp only [hcontent, hw, hp, ok_bind]
  rfl

/-- **A dry run that succeeds** has prepared an edit that has a text, and the command without the
switch carries out this edit. -/
theorem exists_of_edit {here root : Text} {t : FileTree} {color : Bool} {e : EditCommand}
    (o' : Occasion) (hdry : e.dryRun = true) (hcode : (edit here root t color e o).1.code = 0) :
    ∃ w content p text, openAt t root = .ok w ∧ prepare w t e content = .ok p ∧
      w.preview p.request = .ok text ∧ edit here root t color e o = (dryRun w color p, t) ∧
        edit here root t color { e with dryRun := false } o' = save w t color p o' := by
  cases hcontent : payload here t e.source with
  | error fault =>
    unfold edit at hcode
    simp only [hcontent] at hcode
    exact absurd hcode (code_failed_ne_zero _)
  | ok content =>
    cases hw : openAt t root with
    | error error =>
      unfold edit at hcode
      simp only [hcontent, hw, error_bind] at hcode
      exact absurd hcode (code_failed_ne_zero _)
    | ok w =>
      cases hp : prepare w t e content with
      | error error =>
        unfold edit at hcode
        simp only [hcontent, hw, hp, ok_bind, error_bind] at hcode
        exact absurd hcode (code_failed_ne_zero _)
      | ok p =>
        have hrun : edit here root t color e o = (dryRun w color p, t) := by
          rw [edit_eq hcontent hw hp, if_pos hdry]
        have hsave : edit here root t color { e with dryRun := false } o' = save w t color p o' :=
          edit_eq (e := { e with dryRun := false }) hcontent hw hp color
        cases htext : w.preview p.request with
        | error error =>
          rw [hrun, dryRun, htext] at hcode
          exact absurd hcode (code_failed_ne_zero _)
        | ok text => exact ⟨w, content, p, text, rfl, hp, htext, hrun, hsave⟩

theorem warning_dryRun {w : Workspace} {color : Bool} {p : Prepared} {text : Text}
    (h : w.preview p.request = .ok text) : (dryRun w color p).warning =
      if Fingerprint.of (p.current.getD []) = p.request.prior then none
      else some (staleWarning color p.item) := by
  unfold dryRun
  rw [h]

/-- **Saving gives a conflict** exactly of a file that has another fingerprint. -/
theorem code_save_eq_three {w : Workspace} {t : FileTree} {p : Prepared} {text : Text}
    (hitem : w.classify p.request.path = .ok p.item) (htext : w.preview p.request = .ok text)
    (hread : (∃ current, w.storage.read t p.item.path = .ok current) ∨
      ∃ q, w.storage.read t p.item.path = .error (.notFound q)) (color : Bool) :
    (save w t color p o).1.code = 3 ↔ ∃ current, w.storage.read t p.item.path = .ok current ∧
      Fingerprint.of current ≠ p.request.prior := by
  have hsave : (save w t color p o).1 = .ofResult ((w.update t p.request o).1.map fun fingerprint =>
      Print.line (styled color .green "Saved".toList ++ ' ' :: p.item.display) ++
        Print.labelled "fingerprint:" fingerprint.digits) := rfl
  rw [hsave, code_ofResult_eq_three, ← Storage.conflict_iff hread p.request.prior text o,
    ← update_eq hitem htext]
  cases (w.update t p.request o).1 with
  | ok fingerprint => simp [Except.map]
  | error e => simp [Except.map]

/-- Of a file that exists, a dry run warns exactly if saving gives a conflict. One that does not
exist gives none, but the dry run compares the fingerprint with that of the empty text. -/
theorem predicts {w : Workspace} {t : FileTree} {color : Bool} {e : EditCommand} {content : Payload}
    {p : Prepared} {text : Text} (hp : prepare w t e content = .ok p)
    (htext : w.preview p.request = .ok text) :
    (∃ current, w.storage.read t p.item.path = .ok current) ∧
        ((dryRun w color p).warning = some (staleWarning color p.item) ↔
          (save w t color p o).1.code = 3) ∨
      (∃ q, w.storage.read t p.item.path = .error (.notFound q)) ∧
        (save w t color p o).1.code ≠ 3 ∧
          ((dryRun w color p).warning = some (staleWarning color p.item) ↔
            Fingerprint.of [] ≠ Fingerprint.ofInput e.fingerprint) := by
  obtain ⟨-, hitem, hcurrent, hprior⟩ := prepare_eq_ok hp
  have hwarns : (dryRun w color p).warning = some (staleWarning color p.item) ↔
      Fingerprint.of (p.current.getD []) ≠ p.request.prior := by
    rw [warning_dryRun htext]
    by_cases h : Fingerprint.of (p.current.getD []) = p.request.prior
    · simp [h]
    · simp [h]
  rw [hwarns, ← hprior]
  rcases current?_eq_ok (isFile_of_preview hitem htext) hcurrent with
    ⟨current, hsome, hread⟩ | ⟨hnone, q, hread⟩
  · refine .inl ⟨⟨current, hread⟩, ?_⟩
    rw [code_save_eq_three hitem htext (.inl ⟨current, hread⟩)]
    simp [hread, hsome]
  · refine .inr ⟨⟨q, hread⟩, ?_, by rw [hnone, Option.getD_none]⟩
    rw [Ne, code_save_eq_three hitem htext (.inr ⟨q, hread⟩)]
    simp [hread]

/-- **What a dry run predicts.** When it succeeds, it has changed nothing. If the file exists, it
warns exactly if the same command without the switch is refused with a conflict. If there is no such
file, that command is never refused so, and the dry run warns exactly if the fingerprint is not the
one of the empty text. -/
theorem run_dryRun (o o' : Occasion) {color wantsColor : Bool} {here : Text} {args : List Text}
    {t : FileTree} {root : Option Text} {e : EditCommand}
    (hargs : Request.ofArguments args = .run root wantsColor (.edit e)) (hdry : e.dryRun = true)
    (hcode : (run color here args t o).1.code = 0) :
    (run color here args t o).2 = t ∧ ∃ w item,
      openAt t ((root.map (Path.join here)).getD here) = .ok w ∧ w.classify e.item = .ok item ∧
        ((∃ text, w.storage.read t item.path = .ok text) ∧
            ((run color here args t o).1.warning = some (staleWarning (color && wantsColor) item) ↔
              (run color here (args.erase (dashes "dry-run")) t o').1.code = 3) ∨
          (∃ q, w.storage.read t item.path = .error (.notFound q)) ∧
            (run color here (args.erase (dashes "dry-run")) t o').1.code ≠ 3 ∧
              ((run color here args t o).1.warning =
                  some (staleWarning (color && wantsColor) item) ↔
                Fingerprint.of [] ≠ Fingerprint.ofInput e.fingerprint)) := by
  have hrun : run color here args t o =
      edit here ((root.map (Path.join here)).getD here) t (color && wantsColor) e o := by
    unfold run
    rw [hargs]
    rfl
  have hrunSave : run color here (args.erase (dashes "dry-run")) t o' =
      edit here ((root.map (Path.join here)).getD here) t (color && wantsColor)
        { e with dryRun := false } o' := by
    unfold run
    rw [ofArguments_erase hargs hdry]
    rfl
  rw [hrun] at hcode
  obtain ⟨w, content, p, text, hw, hp, htext, hdryRun, hsave⟩ := exists_of_edit o' hdry hcode
  rw [hrun, hrunSave, hdryRun, hsave]
  exact ⟨rfl, w, p.item, hw, (prepare_eq_ok hp).1, predicts hp htext⟩

/-! ### A page that changed and a page that is new -/

/-- An edit of a page, asked for with a fingerprint that no page has. -/
def staleEdit : EditCommand :=
  { item := "site/new.html".toList, fingerprint := ['0'], template := none,
    source := .content ['x'], dryRun := true }

/-- The arguments that ask for the edit. -/
def staleArguments : List Text :=
  ["edit".toList, "site/new.html".toList, dashes "fingerprint", ['0'], dashes "content", ['x'],
    dashes "dry-run"]

theorem ofArguments_staleArguments :
    Request.ofArguments staleArguments = .run none true (.edit staleEdit) := by decide +kernel

/-- A workspace of one project with these pages. -/
def oneProject (pages : List (Text × FileTree)) : FileTree :=
  .directory [("projects".toList, .directory [("site".toList, .directory pages)])]

/-- The page of the edit, with another text. -/
def changedPage : List (Text × FileTree) := [("new.html".toList, .file (Text.utf8 ['y', '\n']))]

/-- Of a page that changed, the dry run warns. -/
theorem run_dryRun_changed :
    (run false ['/'] staleArguments (oneProject changedPage) {}).2 = oneProject changedPage ∧
      ∃ item, (run false ['/'] staleArguments (oneProject changedPage) {}).1.warning =
        some (staleWarning false item) := by
  have hcode : (run false ['/'] staleArguments (oneProject changedPage) {}).1.code = 0 := by
    decide +kernel
  obtain ⟨htree, w, item, hw, hitem, ⟨-, hwarns⟩ | ⟨⟨q, hq⟩, -⟩⟩ :=
    run_dryRun {} {} ofArguments_staleArguments rfl hcode
  · exact ⟨htree, item, hwarns.2 (by decide +kernel)⟩
  · -- The page exists.
    have hread : ((openAt (oneProject changedPage) ['/']).bind fun w =>
        (w.classify staleEdit.item).bind fun item =>
          w.storage.read (oneProject changedPage) item.path).toOption = some ['y', '\n'] := by
      decide +kernel
    have hw : openAt (oneProject changedPage) ['/'] = .ok w := hw
    simp [hw, Except.bind, hitem, hq, Except.toOption] at hread

/-- Of a page that is new, the dry run warns, although the page is saved without a conflict. -/
theorem not_always_predicted : ¬ ∀ (color : Bool) (here : Text) (args : List Text) (t : FileTree)
    (root : Option Text) (wantsColor : Bool) (e : EditCommand)
    (o o' : Occasion),
    Request.ofArguments args = .run root wantsColor (.edit e) → e.dryRun = true →
      (run color here args t o).1.code = 0 → (run color here args t o).2 = t ∧
        ((run color here args t o).1.warning.isSome = true ↔
          (run color here (args.erase (dashes "dry-run")) t o').1.code = 3) := by
  intro hall
  have hcode : (run false ['/'] staleArguments (oneProject []) {}).1.code = 0 := by decide +kernel
  have hwarns : (run false ['/'] staleArguments (oneProject []) {}).1.warning.isSome = true := by
    decide +kernel
  have hsaved : (run false ['/'] (staleArguments.erase (dashes "dry-run"))
      (oneProject []) {}).1.code = 0 := by decide +kernel
  have hconflict := (hall _ _ _ _ _ _ _ {} {} ofArguments_staleArguments rfl hcode).2.1 hwarns
  rw [hsaved] at hconflict
  cases hconflict

end PageFields.Cli
