import PageFields.Fingerprint
import PageFields.Storage

/-! # Storage: guarded writing

An edit is based on a content that was read earlier. `guardedWrite` reads the file again and writes
only if its fingerprint is the one of that content, so that a change in between is not lost. -/

namespace PageFields.Storage

/-- Replaces the content of a file if the file still has the fingerprint `prior`; a file that does
not exist is written without a check. -/
def guardedWrite (s : Storage) (t : FileTree) (path : Text) (prior : Fingerprint) (content : Text)
    (o : Occasion := {}) : Except Error Fingerprint × FileTree :=
  let save : Except Error Fingerprint × FileTree :=
    match s.write t path content o with
    | (.ok (), t) => (.ok (Fingerprint.of content), t)
    | (.error e, t) => (.error e, t)
  match s.read t path with
  | .ok current =>
    if Fingerprint.of current = prior then save
    else (.error (.conflict (Path.display path)), t)
  | .error (.notFound _) => save
  | .error e => (.error e, t)

end PageFields.Storage
