import PageFields.Proofs.Storage.Read

/-! # Storage: replacing a file

What a write to a spot does is decided by its occasion and by what keeps a file from being written
there and at the temporary name (`write_eq`). A write that is stopped (`stop?`) touches nothing but
the temporary name (`entry?_stopped`). If nothing had this name and it can be removed again, the
tree is the one before (`stopped_eq`); otherwise the temporary file can be left there, whole or in
part (`leftover`). A write that succeeds has changed the one file and nothing else, if nothing had
the temporary name (`entry?_written`). Where no directory is, nothing is written
(`write_of_nowhere`). -/

namespace PageFields.Storage

open PageFields.FileTree PageFields.Path

variable {st : Storage} {t : FileTree} {path full : Text} {o : Occasion} {s : Spot t}

/-! ### Writing the temporary file -/

/-- What gets into the temporary file, if a file can be written there. -/
def stored? (o : Occasion) (bytes : ByteArray) : Option ByteArray :=
  match o.writeFault with
  | none => some bytes
  | some (.unopened _) => none
  | some (.cut size _) => some (bytes.extract 0 size)

/-- The fault that is met in writing the temporary file, if one is; `blocked` is what keeps a file
from being written there. -/
def unwritten? (o : Occasion) (blocked : Option IoFault) : Option IoFault :=
  match o.writeFault with
  | none => blocked
  | some (.unopened fault) => some fault
  | some (.cut _ fault) => some (blocked.getD fault)

theorem unwritten?_eq_none {blocked : Option IoFault} :
    unwritten? o blocked = none ↔ o.writeFault = none ∧ blocked = none := by
  unfold unwritten?
  rcases o.writeFault with _ | ⟨fault⟩ | ⟨size, fault⟩ <;> simp

theorem unwritten?_eq_some {blocked : Option IoFault} {fault : IoFault}
    (h : unwritten? o blocked = some fault) :
    blocked = some fault ∨ ∃ f, o.writeFault = some f ∧ fault = f.fault := by
  unfold unwritten? at h
  rcases hfault : o.writeFault with _ | ⟨f⟩ | ⟨size, f⟩
  · rw [hfault] at h
    exact .inl h
  · rw [hfault] at h
    exact .inr ⟨_, rfl, (Option.some.inj h).symm⟩
  · rw [hfault] at h
    cases blocked with
    | none => exact .inr ⟨_, rfl, (Option.some.inj h).symm⟩
    | some earlier => exact .inl h

/-- **Writing the temporary file** leaves the tree as it is, or the file with its content or with a
part of it. -/
theorem writeTemporary_eq (o : Occasion) (b : Spot t) (bytes : ByteArray) :
    writeTemporary o t b.route bytes =
      (match unwritten? o b.blocked? with
        | some fault => .error fault
        | none => .ok (),
      match b.blocked?, stored? o bytes with
        | none, some part => t.put b.dir b.name (.file part)
        | _, _ => t) := by
  unfold writeTemporary unwritten? stored?
  rcases o.writeFault with _ | ⟨fault⟩ | ⟨size, fault⟩
  · cases hb : b.blocked? <;> simp [b.writeFile_route, hb]
  · cases b.blocked? <;> rfl
  · cases hb : b.blocked? <;> simp [b.writeFile_route, hb]

/-! ### What a failure leaves -/

theorem entry?_removeTemporary (o : Occasion) (b : Spot t) (place : List Text) :
    entry? (removeTemporary o t b.route) place =
      if place = b.place ∧ b.blocked? = none ∧ o.removeFails = false then none
      else t.entry? place := by
  unfold removeTemporary
  cases o.removeFails with
  | true => simp
  | false => simp [b.entry?_removeFile]

/-- What is at the temporary name after a failure, if `old` was there before. -/
def leftover (o : Occasion) (blocked : Option IoFault) (bytes : ByteArray) (old : Option Entry) :
    Option Entry :=
  match blocked with
  | some _ => old
  | none =>
    if o.removeFails then
      match stored? o bytes with
      | some part => some (.file part)
      | none => old
    else none

/-- **After a failure only the temporary name is affected.** -/
theorem entry?_left (o : Occasion) (b : Spot t) (bytes : ByteArray) (place : List Text) :
    entry? (removeTemporary o (writeTemporary o t b.route bytes).2 b.route) place =
      if place = b.place then leftover o b.blocked? bytes (t.entry? b.place)
      else t.entry? place := by
  rw [writeTemporary_eq]
  unfold leftover
  cases hb : b.blocked? with
  | some fault =>
    rw [entry?_removeTemporary, hb]
    simp +contextual
  | none =>
    obtain ⟨hlong, hfree⟩ := b.blocked?_eq_none.1 hb
    cases stored? o bytes with
    | none =>
      rw [entry?_removeTemporary, hb]
      cases o.removeFails <;> simp +contextual
    | some part =>
      let after : Spot (t.put b.dir b.name (.file part)) := b.afterPut hfree _
      have hthere : after.entries.lookup after.name = some (.file part) := by
        show (putEntry b.name (.file part) b.entries).lookup b.name = _
        rw [lookup_putEntry, if_pos rfl]
      have hafter : after.blocked? = none :=
        after.blocked?_eq_none.2 ⟨hlong, after.isFree_of_file hthere⟩
      have hleft : entry? (removeTemporary o (t.put b.dir b.name (.file part)) b.route) place =
          if place = b.place ∧ after.blocked? = none ∧ o.removeFails = false then none
          else entry? (t.put b.dir b.name (.file part)) place :=
        entry?_removeTemporary o after place
      rw [hleft, hafter, entry?_put b.get?_eq hfree]
      cases o.removeFails with
      | true => simp [Spot.place]
      | false => simp +contextual [Spot.place]

/-- **Nothing is left of the temporary file** if its name was not in use and it can be removed. -/
theorem eq_left {b : Spot t} (hremove : o.removeFails = false)
    (hnone : isTooLong b.name = false → b.entries.lookup b.name = none) (bytes : ByteArray) :
    removeTemporary o (writeTemporary o t b.route bytes).2 b.route = t := by
  rw [writeTemporary_eq]
  unfold removeTemporary
  rw [hremove, if_neg Bool.false_ne_true]
  cases hb : b.blocked? with
  | some fault => exact b.removeFile_of_blocked hb
  | none =>
    obtain ⟨hlong, -⟩ := b.blocked?_eq_none.1 hb
    cases stored? o bytes with
    | none => exact b.removeFile_of_none (hnone hlong)
    | some part => exact b.removeFile_put hlong (hnone hlong) part

/-! ### Writing -/

/-- The tree after a file was written: the temporary file has taken its place. -/
def written (o : Occasion) (s : Spot t) (text : Text) : FileTree :=
  s.replaced (temporary o s).name (Text.utf8 text)

/-- The tree after the writing of a file was stopped. -/
def stopped (o : Occasion) (full : Text) (s : Spot t) (text : Text) : FileTree :=
  if Route.lengthLimit < (Text.utf8 (temporaryPath o full)).size then t
  else removeTemporary o (writeTemporary o t (temporary o s).route (Text.utf8 text)).2
    (temporary o s).route

/-- The error that stops a write, if one does; `beside` and `blocked` are what keeps a file from
being written at the temporary name and at the path. -/
def stop? (o : Occasion) (path full : Text) (beside blocked : Option IoFault) : Option Error :=
  if Route.lengthLimit < (Text.utf8 (temporaryPath o full)).size then some (.io .invalidFilename)
  else match unwritten? o beside with
    | some fault => some (errorAt path fault)
    | none => (o.renameFault.or blocked).map .io

/-- **The temporary file takes the place** of another file, but not of a directory. -/
theorem moveTemporary_eq (o : Occasion) (hb : (temporary o s).IsFree) (bytes : ByteArray) :
    moveTemporary o (t.put (temporary o s).dir (temporary o s).name (.file bytes))
        (temporary o s).route s.route =
      match o.renameFault.or s.blocked? with
      | some fault => .error fault
      | none => .ok (s.replaced (temporary o s).name bytes) := by
  unfold moveTemporary
  cases o.renameFault with
  | some fault => rfl
  | none => exact Spot.renameFile_route hb bytes

/-- **How a write to a spot ends**: it is stopped, and leaves what a failure leaves, or the
temporary file has taken the place of the file. -/
theorem write_eq (hp : Spelled full s) (hfull : st.resolve path = .ok full) (content : Text)
    (o : Occasion) : st.write t path content o =
      match stop? o path full (temporary o s).blocked? s.blocked? with
      | some e => (.error e, stopped o full s content)
      | none => (.ok (), written o s content) := by
  have hroute := hp.route_temporary o
  unfold write stop? stopped
  by_cases hpath : Route.lengthLimit < (Text.utf8 (temporaryPath o full)).size
  · rw [if_pos hpath] at hroute
    simp only [hfull, hroute, if_pos hpath]
    rfl
  · rw [if_neg hpath] at hroute
    simp only [hfull, hroute, if_neg hpath, writeTemporary_eq]
    cases hstop : unwritten? o (temporary o s).blocked? with
    | some fault => rfl
    | none =>
      obtain ⟨hfault, hb⟩ := unwritten?_eq_none.1 hstop
      have hmove := moveTemporary_eq o ((temporary o s).blocked?_eq_none.1 hb).2 (Text.utf8 content)
      have hstored : stored? o (Text.utf8 content) = some (Text.utf8 content) := by
        rw [stored?, hfault]
      simp only [hb, hstored, hp.route, Except.bind, hmove]
      cases o.renameFault.or s.blocked? with
      | some fault => rfl
      | none => rfl

/-- No fault of the system stops a write. -/
def Calm (o : Occasion) : Prop := o.writeFault = none ∧ o.renameFault = none

theorem stop?_eq_none {beside blocked : Option IoFault} :
    stop? o path full beside blocked = none ↔ Calm o ∧ beside = none ∧ blocked = none ∧
      (Text.utf8 (temporaryPath o full)).size ≤ Route.lengthLimit := by
  unfold stop? Calm
  by_cases hpath : Route.lengthLimit < (Text.utf8 (temporaryPath o full)).size
  · rw [if_pos hpath]
    exact iff_of_false nofun fun h => absurd hpath (Nat.not_lt.2 h.2.2.2)
  · rw [if_neg hpath]
    have hle := Nat.le_of_not_lt hpath
    cases hstop : unwritten? o beside with
    | some fault =>
      refine iff_of_false nofun fun h => ?_
      rw [unwritten?_eq_none.2 ⟨h.1.1, h.2.1⟩] at hstop
      cases hstop
    | none =>
      obtain ⟨hwrite, hbeside⟩ := unwritten?_eq_none.1 hstop
      simp [hwrite, hbeside, hle]

/-- A write that is not stopped has a temporary file. -/
theorem Spelled.room_of_stop? (hp : Spelled full s) {blocked : Option IoFault}
    (h : stop? o path full (temporary o s).blocked? blocked = none) :
    RoomBeside o full ∧ (temporary o s).IsFree := by
  obtain ⟨-, hbeside, -, hpath⟩ := stop?_eq_none.1 h
  obtain ⟨hlong, hfree⟩ := (temporary o s).blocked?_eq_none.1 hbeside
  exact ⟨hp.roomBeside_iff.2 ⟨hpath, hlong⟩, hfree⟩

/-! ### Failures -/

/-- What keeps a file from being written at the temporary name, if nothing has this name. -/
theorem Spelled.blocked?_temporary (hp : Spelled full s) (hunused : Unused o t full)
    (hpath : (Text.utf8 (temporaryPath o full)).size ≤ Route.lengthLimit) :
    (temporary o s).blocked? =
      if isTooLong (temporary o s).name then some .invalidFilename else none := by
  cases hlong : isTooLong (temporary o s).name with
  | true => exact (temporary o s).blocked?_eq_some.2 (.inl ⟨hlong, rfl⟩)
  | false =>
    have hnone := hp.lookup_temporary (hp.roomBeside_iff.2 ⟨hpath, hlong⟩) hunused
    exact (temporary o s).blocked?_eq_none.2 ⟨hlong, (temporary o s).isFree_of_none hnone⟩

theorem Spelled.blocked?_of_room (hp : Spelled full s) (hroom : RoomBeside o full)
    (hunused : Unused o t full) : (temporary o s).blocked? = none := by
  obtain ⟨hpath, hlong⟩ := hp.roomBeside_iff.1 hroom
  rw [hp.blocked?_temporary hunused hpath, hlong, if_neg Bool.false_ne_true]

theorem Spelled.blocked?_of_noRoom (hp : Spelled full s) (hroom : ¬ RoomBeside o full)
    (hpath : (Text.utf8 (temporaryPath o full)).size ≤ Route.lengthLimit) :
    (temporary o s).blocked? = some .invalidFilename := by
  refine (temporary o s).blocked?_eq_some.2 (.inl ⟨?_, rfl⟩)
  by_contra h
  exact hroom (hp.roomBeside_iff.2 ⟨hpath, by simpa using h⟩)

/-- **What can stop a write** at a free spot, if nothing has the temporary name. -/
theorem stop?_eq_some (hp : Spelled full s) (hfree : s.IsFree) (hunused : Unused o t full)
    {e : Error} (h : stop? o path full (temporary o s).blocked? s.blocked? = some e) :
    ¬ RoomBeside o full ∧ e = .io .invalidFilename ∨
      (∃ f, o.writeFault = some f ∧ e = errorAt path f.fault) ∨
        ∃ fault, o.renameFault = some fault ∧ e = .io fault := by
  rw [stop?, s.blocked?_eq_none.2 ⟨hp.fits, hfree⟩, Option.or_none] at h
  split at h
  · rename_i hpath
    exact .inl ⟨fun hroom => absurd hroom.path (Nat.not_le.2 hpath), (Option.some.inj h).symm⟩
  · rename_i hpath
    cases hstop : unwritten? o (temporary o s).blocked? with
    | none =>
      rw [hstop] at h
      obtain ⟨fault, hfault, he⟩ := Option.map_eq_some_iff.1 h
      exact .inr (.inr ⟨fault, hfault, he.symm⟩)
    | some fault =>
      rw [hstop] at h
      cases h
      rcases unwritten?_eq_some hstop with hbeside | ⟨f, hf, rfl⟩
      · by_cases hroom : RoomBeside o full
        · rw [hp.blocked?_of_room hroom hunused] at hbeside
          cases hbeside
        · rw [hp.blocked?_of_noRoom hroom (Nat.le_of_not_lt hpath)] at hbeside
          cases hbeside
          exact .inl ⟨hroom, rfl⟩
      · exact .inr (.inl ⟨f, hf, rfl⟩)

theorem entry?_stopped (o : Occasion) (full : Text) (s : Spot t) (text : Text)
    (place : List Text) : entry? (stopped o full s text) place =
      if Route.lengthLimit < (Text.utf8 (temporaryPath o full)).size then t.entry? place
      else if place = (temporary o s).place then
        leftover o (temporary o s).blocked? (Text.utf8 text) (t.entry? (temporary o s).place)
      else t.entry? place := by
  unfold stopped
  split
  · rfl
  · exact entry?_left o (temporary o s) (Text.utf8 text) place

theorem stopped_of_noRoom (hp : Spelled full s) (hroom : ¬ RoomBeside o full) (text : Text) :
    stopped o full s text = t := by
  unfold stopped
  split
  · rfl
  · rename_i hpath
    have hb := hp.blocked?_of_noRoom hroom (Nat.le_of_not_lt hpath)
    rw [writeTemporary_eq, hb, removeTemporary]
    simp [(temporary o s).removeFile_of_blocked hb]

/-- **A write that is stopped leaves the tree as it was**, if its temporary file takes no other's
place and can be removed again. -/
theorem stopped_eq (hp : Spelled full s) (htidy : Tidy o t full) (text : Text) :
    stopped o full s text = t := by
  by_cases hroom : RoomBeside o full
  · rw [stopped, if_neg (Nat.not_lt.2 hroom.path)]
    exact eq_left htidy.removable (fun _ => hp.lookup_temporary hroom htidy.unused) _
  · exact stopped_of_noRoom hp hroom text

/-- **Nothing is written over a directory**: the temporary file is written, but cannot be moved, and
is removed again. -/
theorem write_of_not_isFree (hp : Spelled full s) (hfull : st.resolve path = .ok full)
    (h : ¬ s.IsFree) (hcalm : Calm o) (hroom : RoomBeside o full) (htidy : Tidy o t full)
    (content : Text) : st.write t path content o = (.error (.io .isADirectory), t) := by
  have hblocked : s.blocked? = some .isADirectory :=
    s.blocked?_eq_some.2 (.inr ⟨hp.fits, h, rfl⟩)
  have hstop : stop? o path full (temporary o s).blocked? s.blocked? =
      some (.io .isADirectory) := by
    unfold stop? unwritten?
    rw [if_neg (Nat.not_lt.2 hroom.path), hp.blocked?_of_room hroom htidy.unused, hblocked,
      hcalm.1, hcalm.2]
    rfl
  rw [write_eq hp hfull, hstop, stopped_eq hp htidy]

/-- **Without a directory, nothing is written.** -/
theorem write_of_nowhere {base n : Text} (hbase : IsBase base) (hn : IsName n)
    (hfull : st.resolve path = .ok (base ++ n)) (hnul : '\x00' ∉ base ++ n)
    (h : (t.walk [] (steps base) >>= t.directoryAt) = .error .notFound) (content : Text) :
    st.write t path content o =
      (.error (if Route.lengthLimit < (Text.utf8 (temporaryPath o (base ++ n))).size then
          .io .invalidFilename
        else match o.writeFault with
          | some (.unopened fault) => errorAt path fault
          | _ => .notFound (Path.display path)), t) := by
  have hroute := route_temporaryPath o hbase hn hnul
  have htarget := target_of_nowhere h (temporaryName o n)
  unfold write
  rw [hfull]
  by_cases hlong : Route.lengthLimit < (Text.utf8 (temporaryPath o (base ++ n))).size
  · simp only [hroute, if_pos hlong]
    rfl
  · have hwrite : ∀ bytes, t.writeFile { steps := steps base ++ [.name (temporaryName o n)] }
        bytes = .error .notFound := by
      intro bytes
      rw [writeFile, htarget]
      rfl
    have hremove : removeTemporary o t { steps := steps base ++ [.name (temporaryName o n)] } =
        t := by
      unfold removeTemporary removeFile
      rw [htarget, ite_self]
    simp only [hroute, if_neg hlong, writeTemporary]
    rcases o.writeFault with _ | ⟨fault⟩ | ⟨size, fault⟩ <;> simp [hwrite, hremove, errorAt]

/-! ### What was written -/

theorem entry?_written_of_isFree (hfree : s.IsFree) (hb : (temporary o s).IsFree) (text : Text)
    (place : List Text) : entry? (written o s text) place =
      if place = s.place then some (.file (Text.utf8 text))
      else if place = (temporary o s).place then none else t.entry? place :=
  Spot.entry?_replaced hb hfree (Text.utf8 text) place

/-- **Writing changes one file only**, if its temporary file takes no other's place. -/
theorem entry?_written (hfree : s.IsFree) (hnone : s.entries.lookup (temporary o s).name = none)
    (text : Text) (place : List Text) : entry? (written o s text) place =
      if place = s.place then some (.file (Text.utf8 text)) else t.entry? place :=
  s.entry?_replaced_of_none hfree hnone _ place

theorem walk_written (hp : Spelled full s) (hfree : s.IsFree) (hb : (temporary o s).IsFree)
    (text : Text) : (written o s text).walk [] (steps full) = .ok s.place := by
  rw [hp.steps_eq]
  exact Spot.walk_replaced hb hp.fits hfree _

theorem stat_written (hp : Spelled full s) (hfree : s.IsFree) (hb : (temporary o s).IsFree)
    (text : Text) : (written o s text).stat s.route = .ok (.file (Text.utf8 text)) := by
  have hwalk := walk_written hp hfree hb text
  have hget : (written o s text).get? s.place = _ := get?_eq_file_iff.2
    ((entry?_written_of_isFree hfree hb text s.place).trans (if_pos rfl))
  have hslash : s.route.slash = false := rfl
  rw [hp.steps_eq] at hwalk
  rw [stat, if_neg (by simp [Spot.route]), hwalk]
  simp [hget, hslash]

/-- **A write without a fault succeeds** if there is room for the temporary file, nothing has its
name and no directory is there. -/
theorem write_of_isFree (hp : Spelled full s) (hfull : st.resolve path = .ok full)
    (hfree : s.IsFree) (hcalm : Calm o) (hroom : RoomBeside o full) (hunused : Unused o t full)
    (content : Text) : st.write t path content o = (.ok (), written o s content) := by
  have hblocked : s.blocked? = none := s.blocked?_eq_none.2 ⟨hp.fits, hfree⟩
  rw [write_eq hp hfull,
    stop?_eq_none.2 ⟨hcalm, hp.blocked?_of_room hroom hunused, hblocked, hroom.path⟩]

/-- **A write that succeeds** was at a spot with room for the temporary file. -/
theorem exists_spot_of_write {names : List Text} (hnames : ∀ n ∈ names, IsName n)
    (hne : names ≠ []) (hfull : st.resolve (ofNames names) = .ok full)
    (hread : (∃ text, st.read t (ofNames names) = .ok text) ∨
      ∃ q, st.read t (ofNames names) = .error (.notFound q)) {content : Text} {t' : FileTree}
    (h : st.write t (ofNames names) content o = (.ok (), t')) :
    ∃ s : Spot t, Spelled full s ∧ s.IsFree ∧ (temporary o s).IsFree ∧ RoomBeside o full ∧
      t' = written o s content := by
  rcases isFree_cases hnames hne hfull hread with
    ⟨s, hs, hfree⟩ | ⟨base, n, hbase, hn, rfl, hnul, hdir⟩
  · rw [write_eq hs hfull] at h
    cases hstop : stop? o (ofNames names) full (temporary o s).blocked? s.blocked? with
    | some e =>
      rw [hstop] at h
      cases h
    | none =>
      rw [hstop] at h
      cases h
      obtain ⟨hroom, hb⟩ := hs.room_of_stop? hstop
      exact ⟨s, hs, hfree, hb, hroom, rfl⟩
  · rw [write_of_nowhere hbase hn hfull hnul hdir] at h
    cases h

end PageFields.Storage
