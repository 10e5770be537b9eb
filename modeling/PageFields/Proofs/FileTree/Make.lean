import PageFields.Proofs.FileTree.Walk

/-! # File trees: making something new

A file and a directory are made alike (`createFile_route`, `createDirectory_route`): where the name
at a spot is free, the empty file or directory is put there, and nothing else changes
(`Spot.adds_put`). What is there cannot be made (`Spot.make_of_isSome`). In a tree that has more in
it, directories are still found (`stat_directory_mono`) and spots are still spots
(`Spot.exists_within`). Whatever is made or written is so at a spot
(`exists_spot_of_createDirectory`, `exists_spot_of_writeFile`). -/

namespace PageFields.FileTree

/-- The tree `t'` is `t` with one more entry in a directory, at a place where nothing was. -/
structure Adds (t t' : FileTree) (place : List Text) (new : Entry) : Prop where
  vacant : t.entry? place = none
  parent : t.entry? place.dropLast = some .directory
  entry?_eq : ∀ p, t'.entry? p = if p = place then some new else t.entry? p

variable {t t' : FileTree}

theorem Adds.entry?_below {place : List Text} {new : Entry} (h : Adds t t' place new)
    {q : List Text} (hq : q ≠ []) : t'.entry? (place ++ q) = none := by
  rw [h.entry?_eq, if_neg fun he => hq (by simpa using he)]
  exact FileTree.entry?_below (by rw [h.vacant]; exact nofun) hq

/-- A route leads to a directory if the walk does; a slash at its end makes no difference. -/
theorem stat_eq_directory {r : Route} {es : Entries} : t.stat r = .ok (.directory es) ↔
    r.steps ≠ [] ∧ ∃ place, t.walk [] r.steps = .ok place ∧ t.get? place = some (directory es) := by
  constructor
  · intro hstat
    refine ⟨fun hnil => ?_, get?_of_stat hstat⟩
    rw [stat, if_pos hnil] at hstat
    cases hstat
  · rintro ⟨hne, place, hwalk, hget⟩
    rw [stat, if_neg hne, hwalk]
    simp only [ok_bind, hget]

theorem stat_directory_mono (h : t.Within t') {r : Route} {es : Entries}
    (hstat : t.stat r = .ok (.directory es)) : ∃ es', t'.stat r = .ok (.directory es') := by
  obtain ⟨hne, place, hwalk, hget⟩ := stat_eq_directory.1 hstat
  obtain ⟨es', hes'⟩ := get?_eq_directory_iff.2
    (h.directory place (get?_eq_directory_iff.1 ⟨es, hget⟩))
  exact ⟨es', stat_eq_directory.2 ⟨hne, place, walk_mono h hwalk, hes'⟩⟩

theorem entry?_of_entries_eq_nil {new : FileTree} (h : new.entries = []) {q : List Text}
    (hq : q ≠ []) : new.entry? q = none := by
  obtain ⟨name, q, rfl⟩ := List.exists_cons_of_ne_nil hq
  rw [entry?_cons, h]
  rfl

namespace Spot

variable (s : Spot t)

/-- The outcome of making something at the spot. -/
def make (new : FileTree) : Except IoFault FileTree :=
  if isTooLong s.name then .error .invalidFilename
  else if (s.entries.lookup s.name).isSome then .error .alreadyExists
  else .ok (t.put s.dir s.name new)

theorem createFile_route : t.createFile s.route = s.make (.file ByteArray.empty) := by
  unfold createFile
  rw [s.target_route, ok_bind]
  rfl

theorem createDirectory_route : t.createDirectory s.route = s.make empty := by
  unfold createDirectory
  rw [s.target_route, ok_bind]
  rfl

/-- **Something can be made** where nothing is, under a name that is not too long. -/
theorem make_eq_ok {new : FileTree} : s.make new = .ok t' ↔
    isTooLong s.name = false ∧ s.entries.lookup s.name = none ∧ t' = t.put s.dir s.name new := by
  unfold make
  cases hlong : isTooLong s.name with
  | true => simp
  | false =>
    cases hl : s.entries.lookup s.name with
    | none => simp [eq_comm]
    | some u => simp

/-- **What is made is one more entry**, and nothing else is changed. -/
theorem adds_put (h : s.entries.lookup s.name = none) {new : FileTree} (hnew : new.entries = []) :
    Adds t (t.put s.dir s.name new) s.place new.top := by
  have hvacant : t.entry? s.place = none := by
    rw [place, entry?_concat s.get?_eq, h, Option.map_none]
  have hmade : (t.put s.dir s.name new).get? s.place = some new := by
    rw [place, get?_concat (get?_put s.get?_eq s.name new), lookup_putEntry, if_pos rfl]
  refine ⟨hvacant, ?_, fun p => ?_⟩
  · rw [place, List.dropLast_concat]
    exact get?_eq_directory_iff.1 ⟨_, s.get?_eq⟩
  · by_cases hp : s.place <+: p
    · obtain ⟨q, rfl⟩ := hp
      by_cases hq : q = []
      · unfold entry?
        rw [hq, List.append_nil, if_pos rfl, hmade, Option.map_some]
      · have hbelow : t.entry? (s.place ++ q) = none :=
          entry?_below (by simp [hvacant]) hq
        have hmadeBelow : entry? (t.put s.dir s.name new) (s.place ++ q) = new.entry? q := by
          unfold entry?
          rw [get?_append, hmade, Option.bind_some]
        rw [if_neg fun he => hq (by simpa using he), hbelow, hmadeBelow,
          entry?_of_entries_eq_nil hnew hq]
    · have hne : p ≠ s.place := by
        rintro rfl
        exact hp List.prefix_rfl
      rw [if_neg hne]
      exact entry?_change (touchesOnly_putEntry s.name new) t s.dir hp

theorem exists_within (h : t.Within t') : ∃ s' : Spot t', s'.route = s.route ∧ s'.name = s.name ∧
    s'.place = s.place := by
  obtain ⟨es, hes⟩ := get?_eq_directory_iff.2
    (h.directory s.dir (get?_eq_directory_iff.1 ⟨_, s.get?_eq⟩))
  exact ⟨⟨s.above, s.name, s.dir, es, walk_mono h s.walk_eq, hes⟩, rfl, rfl, rfl⟩

variable {s} (hlong : isTooLong s.name = false)

include hlong

theorem lookup_eq_none (hfree : s.IsFree) (hfile : ∀ bytes, t.stat s.route ≠ .ok (.file bytes)) :
    s.entries.lookup s.name = none := by
  cases hl : s.entries.lookup s.name with
  | none => rfl
  | some u =>
    cases u with
    | directory es => simp [IsFree, hl] at hfree
    | file old =>
      refine absurd ?_ (hfile old)
      rw [s.stat_route, hlong, hl]
      rfl

theorem make_of_isSome (h : (t.get? s.place).isSome) (new : FileTree) :
    s.make new = .error .alreadyExists := by
  rw [place, get?_concat s.get?_eq] at h
  unfold make
  rw [hlong, h]
  rfl

theorem stat_afterPut (h : s.entries.lookup s.name = none) (new : FileTree) :
    (t.put s.dir s.name new).stat s.route = .ok new := by
  let after : Spot (t.put s.dir s.name new) := s.afterPut (s.isFree_of_none h) new
  have hthere : after.entries.lookup s.name = some new :=
    (lookup_putEntry s.name new s.entries s.name).trans (if_pos rfl)
  have hname : after.name = s.name := rfl
  have hstat := after.stat_route
  rwa [hname, hlong, hthere] at hstat

end Spot

/-! ### The spot of a call -/

theorem exists_spot_of_target {r : Route} {dir : List Text} {es : Entries} {n : Text}
    (h : t.target r = .ok (dir, es, .name n)) :
    ∃ s : Spot t, r.steps = s.route.steps ∧ s.dir = dir ∧ s.entries = es ∧ s.name = n := by
  unfold target at h
  cases hlast : r.steps.getLast? with
  | none =>
    rw [hlast] at h
    cases h
  | some step =>
    rw [hlast] at h
    obtain ⟨dir', hdir, h⟩ := bind_eq_ok.1 h
    obtain ⟨es', hes, h⟩ := bind_eq_ok.1 h
    cases h
    obtain ⟨above, habove⟩ := List.getLast?_eq_some_iff.1 hlast
    rw [habove, List.dropLast_concat] at hdir
    exact ⟨⟨above, n, dir, es, hdir, directoryAt_eq_ok.1 hes⟩, habove, rfl, rfl, rfl⟩

/-- **A directory that is made** is made at a spot. -/
theorem exists_spot_of_createDirectory {r : Route} (h : t.createDirectory r = .ok t') :
    ∃ s : Spot t, r.steps = s.route.steps ∧ s.make empty = .ok t' := by
  unfold createDirectory at h
  obtain ⟨⟨dir, es, last⟩, htarget, h⟩ := bind_eq_ok.1 h
  cases last with
  | root | here | up => cases h
  | name n =>
    obtain ⟨s, hsteps, rfl, rfl, rfl⟩ := exists_spot_of_target htarget
    exact ⟨s, hsteps, h⟩

/-- **A file that is written** is written at a spot; a slash at the end of its route is refused. -/
theorem exists_spot_of_writeFile {r : Route} {bytes : ByteArray}
    (h : t.writeFile r bytes = .ok t') :
    ∃ s : Spot t, r = s.route ∧ isTooLong s.name = false ∧ s.IsFree ∧
      t' = t.put s.dir s.name (.file bytes) := by
  have hcall := h
  unfold writeFile at h
  obtain ⟨⟨dir, es, last⟩, htarget, h⟩ := bind_eq_ok.1 h
  cases last with
  | root | here | up => cases h
  | name n =>
    obtain ⟨s, hsteps, rfl, rfl, rfl⟩ := exists_spot_of_target htarget
    simp only at h
    have hslash : r.slash = false := by
      by_contra hslash
      rw [if_pos (eq_true_of_ne_false hslash)] at h
      cases h
    have hroute : r = s.route := by
      show Route.mk r.steps r.slash = s.route
      rw [hsteps, hslash]
      rfl
    rw [hroute, s.writeFile_route] at hcall
    cases hb : s.blocked? with
    | some fault =>
      rw [hb] at hcall
      cases hcall
    | none =>
      rw [hb] at hcall
      obtain ⟨hlong, hfree⟩ := s.blocked?_eq_none.1 hb
      exact ⟨s, hroute, hlong, hfree, (Except.ok.inj hcall).symm⟩

end PageFields.FileTree
