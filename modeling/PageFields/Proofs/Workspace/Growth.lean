import PageFields.Proofs.Workspace.Atomic
import PageFields.Proofs.Workspace.Create
import PageFields.Proofs.Workspace.Session

/-! # Sessions: nothing gets lost

An operation of a workspace takes nothing away from the tree: a directory stays a directory, and
where something was there still is something. So it is after one step of a client (`within_step`)
and after any number of them (`within_run`), as long as no other program writes and no temporary
file takes the place of another one. What was made in a session cannot be made again in it
(`create_run`). -/

namespace PageFields

open FileTree

namespace Workspace

open Storage

theorem within_create (w : Workspace) (t : FileTree) (path : Text) :
    t.Within (w.create t path).2 := by
  rcases create_cases w t path with ⟨e, he⟩ | ⟨item, t', home, s, hmade, -, -, -, -, -, hmake⟩
  · rw [he]
    exact .refl t
  · obtain ⟨-, hnone, rfl⟩ := s.make_eq_ok.1 hmake
    rw [hmade]
    exact s.within_put hnone _

theorem within_update {w : Workspace} {t : FileTree} {request : EditRequest} {o : Occasion}
    (htidy : w.TidyAt o t request.path) : t.Within (w.update t request o).2 := by
  cases htext : w.preview request with
  | error e =>
    rw [update_of_error htext]
    exact .refl t
  | ok text =>
    obtain ⟨item, hitem, -⟩ := bind_eq_ok.1 htext
    have hnames := isName_of_classify hitem
    have hne := names_ne_nil hitem htext
    obtain ⟨full, hfull⟩ := exists_resolve w.storage hnames
    have htidy := htidy item full hitem hfull
    rw [update_eq hitem htext]
    rcases allOrNothing_guardedWrite hnames hne hfull htidy request.prior text with
      ⟨e, he, -⟩ | ⟨t', ht', -⟩
    · rw [he]
      exact .refl t
    · obtain ⟨hlet, -, hwrite⟩ := guardedWrite_eq_ok ht'
      obtain ⟨s, hs, hfree, -, hroom, rfl⟩ :=
        exists_spot_of_write hnames hne hfull hlet.read hwrite
      rw [ht']
      exact s.within_replaced hfree (hs.lookup_temporary hroom htidy.unused) _

end Workspace

namespace Session

/-- The event is an operation of a workspace, and its temporary file takes no other's place. -/
def Event.IsOwn (s : State) : Event → Prop
  | .outside _ => False
  | .update w request o => w.TidyAt o s.tree request.path
  | _ => True

/-- All events are, each in the state in which it happens. -/
def AllOwn : State → List Event → Prop
  | _, [] => True
  | s, e :: events => e.IsOwn s ∧ AllOwn (step s e) events

theorem within_step {s : State} {e : Event} (h : e.IsOwn s) : s.tree.Within (step s e).tree := by
  cases e with
  | render w path => exact .refl s.tree
  | preview w request => exact .refl s.tree
  | create w path => exact w.within_create s.tree path
  | update w request o => exact Workspace.within_update h
  | outside t => exact h.elim

/-- **A whole session takes nothing away** in which no other program writes. -/
theorem within_run {t : FileTree} {events : List Event} (h : AllOwn { tree := t } events) :
    t.Within (run t events).tree := by
  have key : ∀ s : State, AllOwn s events → s.tree.Within (events.foldl step s).tree := by
    clear h
    induction events with
    | nil => exact fun s _ => .refl s.tree
    | cons e events ih => exact fun s h => (within_step h.1).trans (ih (step s e) h.2)
  exact key _ h

/-- **What was made cannot be made again** in the rest of the session, whatever is done in it. -/
theorem create_run {w : Workspace} {t t' : FileTree} {path : Text} {item : Item}
    (h : w.create t path = (.ok item, t')) {events : List Event}
    (hown : AllOwn { tree := t' } events) :
    (w.create (run t' events).tree path).1 = .error (.alreadyExists item.display) := by
  rw [Workspace.create_of_within h (within_run hown)]

end Session

end PageFields
