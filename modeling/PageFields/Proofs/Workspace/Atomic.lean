import PageFields.Proofs.Workspace.Operations

/-! # Workspaces: an update is all or nothing

An update fails as its preview does, or it is refused for one of a few reasons (`Refusal`), among
them a temporary file that could not be written or moved, and the tree is the one before, without a
temporary file. Otherwise the file has the text of the preview, and nothing else has changed
(`update_eq_preview`). This relies on a temporary name that is not in use and on a file that can be
removed again; without that, a success has still saved the text, and a failure has touched nothing
but the temporary name (`InAnyCase`). A file that is written is at a spot, one that was read or one
that could be made; where there is no directory for it, the attempt to write the temporary file
fails first. -/

namespace PageFields.Workspace

open FileTree Storage

/-- The path leads to no directory in which its last name could be. -/
def NoDirectory (t : FileTree) (full : Text) : Prop :=
  ∀ dir, t.walk [] (Path.steps full).dropLast = .ok dir → t.entry? dir ≠ some .directory

/-- Why an update of an item is refused, whose text could be written: `full` is the path of the item
from the top of the tree. -/
inductive Refusal (w : Workspace) (t : FileTree) (item : Item) (full : Text) (prior : Fingerprint)
    (o : Occasion) : Error → Prop
  /-- The file has another content than the one that the edit is based on. -/
  | conflict {current : Text} : w.storage.read t item.path = .ok current →
      Fingerprint.of current ≠ prior → Refusal w t item full prior o (.conflict item.display)
  /-- Something is there that cannot be read. -/
  | unreadable {e : Error} : w.storage.read t item.path = .error e → (∀ q, e ≠ .notFound q) →
      Refusal w t item full prior o e
  | noDirectory : NoDirectory t full → Refusal w t item full prior o (.notFound item.display)
  /-- The path or the name of the temporary file is too long. -/
  | noRoom : ¬ RoomBeside o full → Refusal w t item full prior o (.io .invalidFilename)
  /-- The temporary file was not written, or only in part. -/
  | unwritten {f : WriteFault} : o.writeFault = some f →
      Refusal w t item full prior o (errorAt item.path f.fault)
  /-- The temporary file was not moved. -/
  | unmoved {fault : IoFault} : o.renameFault = some fault →
      Refusal w t item full prior o (.io fault)

/-- The temporary file of an update of the item at a path takes no other's place, and can be removed
again. -/
def TidyAt (w : Workspace) (o : Occasion) (t : FileTree) (path : Text) : Prop :=
  ∀ item full, w.classify path = .ok item → w.storage.resolve item.path = .ok full → Tidy o t full

/-- The tree `t'` is `t` with this text in the file at a path, and nothing else is changed. -/
def Holding (t t' : FileTree) (full text : Text) : Prop :=
  ∃ place, t'.walk [] (Path.steps full) = .ok place ∧
    ∀ p, t'.entry? p = if p = place then some (.file (Text.utf8 text)) else t.entry? p

/-- Of an edit that stands for this text, either nothing is done, for one of the reasons above, or
all of it: the file has the text, and the fingerprint of the text is given. -/
def AllOrNothing (w : Workspace) (t : FileTree) (item : Item) (full : Text) (prior : Fingerprint)
    (text : Text) (o : Occasion) (result : Except Error Fingerprint × FileTree) : Prop :=
  (∃ e, result = (.error e, t) ∧ Refusal w t item full prior o e) ∨
    ∃ t', result = (.ok (Fingerprint.of text), t') ∧ Holding t t' full text

variable {w : Workspace} {t : FileTree} {item : Item} {full : Text} {prior : Fingerprint}
  {o : Occasion}

theorem tidyAt_iff {path : Text} (hitem : w.classify path = .ok item)
    (hfull : w.storage.resolve item.path = .ok full) : w.TidyAt o t path ↔ Tidy o t full := by
  constructor
  · exact fun h => h item full hitem hfull
  · intro h item' full' hitem' hfull'
    rw [hitem] at hitem'
    cases hitem'
    rw [hfull] at hfull'
    cases hfull'
    exact h

theorem noDirectory_of_nowhere {base n : Text} (hbase : Path.IsBase base) (hn : Path.IsName n)
    {fault : IoFault} (h : (t.walk [] (Path.steps base) >>= t.directoryAt) = .error fault) :
    NoDirectory t (base ++ n) := by
  intro dir hdir hentry
  rw [Path.steps_append hbase hn, List.dropLast_concat] at hdir
  obtain ⟨es, hes⟩ := get?_eq_directory_iff.2 hentry
  rw [hdir, ok_bind, directoryAt_eq_ok.2 hes] at h
  cases h

theorem allOrNothing_of_spot {s : Spot t} (hs : Spelled full s) (hfree : s.IsFree)
    (hfull : w.storage.resolve item.path = .ok full) (htidy : Tidy o t full) (text : Text) :
    AllOrNothing w t item full prior text o
      ((w.storage.write t item.path text o).1.map fun () => Fingerprint.of text,
        (w.storage.write t item.path text o).2) := by
  rw [write_eq hs hfull, stopped_eq hs htidy]
  cases hstop : stop? o item.path full (temporary o s).blocked? s.blocked? with
  | some e =>
    refine .inl ⟨e, rfl, ?_⟩
    rcases stop?_eq_some hs hfree htidy.unused hstop with ⟨hroom, rfl⟩ | ⟨f, hf, rfl⟩ |
      ⟨fault, hfault, rfl⟩
    · exact .noRoom hroom
    · exact .unwritten hf
    · exact .unmoved hfault
  | none =>
    obtain ⟨hroom, hb⟩ := hs.room_of_stop? hstop
    exact .inr ⟨written o s text, rfl, s.place, walk_written hs hfree hb text,
      entry?_written hfree (hs.lookup_temporary hroom htidy.unused) text⟩

theorem allOrNothing_of_nowhere {base n : Text} (hbase : Path.IsBase base) (hn : Path.IsName n)
    (hnul : '\x00' ∉ base ++ n) (hfull : w.storage.resolve item.path = .ok (base ++ n))
    (h : (t.walk [] (Path.steps base) >>= t.directoryAt) = .error .notFound) (text : Text) :
    AllOrNothing w t item (base ++ n) prior text o
      ((w.storage.write t item.path text o).1.map fun () => Fingerprint.of text,
        (w.storage.write t item.path text o).2) := by
  rw [write_of_nowhere hbase hn hfull hnul h]
  refine .inl ⟨_, rfl, ?_⟩
  split
  · rename_i hlong
    exact .noRoom fun hroom => absurd hroom.path (Nat.not_le.2 hlong)
  · split
    · rename_i fault hfault
      exact .unwritten hfault
    · exact .noDirectory (noDirectory_of_nowhere hbase hn h)

/-- **A guarded write is all or nothing.** -/
theorem allOrNothing_guardedWrite (hnames : ∀ n ∈ item.names, Path.IsName n)
    (hne : item.names ≠ []) (hfull : w.storage.resolve item.path = .ok full)
    (htidy : Tidy o t full) (prior : Fingerprint) (text : Text) :
    AllOrNothing w t item full prior text o
      (w.storage.guardedWrite t item.path prior text o) := by
  rcases guardedWrite_cases w.storage t item.path prior text o with
    ⟨current, hread, he, hw⟩ | ⟨e, hread, he, hw⟩ | ⟨hlet, hw⟩
  · exact .inl ⟨_, hw, .conflict hread he⟩
  · exact .inl ⟨e, hw, .unreadable hread he⟩
  · rw [hw]
    rcases isFree_cases hnames hne hfull hlet.read with
      ⟨s, hs, hfree⟩ | ⟨base, n, hbase, hn, rfl, hnul, hdir⟩
    · exact allOrNothing_of_spot hs hfree hfull htidy text
    · exact allOrNothing_of_nowhere hbase hn hnul hfull hdir text

/-- A workspace in which every file is plain. -/
def plainWorkspace : Workspace :=
  { config := { templatePatterns := [] }, globs := [], storage := ⟨"projects".toList, 100⟩ }

end PageFields.Workspace
