import PageFields.Proofs.FileTree.Make
import PageFields.Proofs.Storage.Project

/-! # Storage: what is found at a path

What a storage finds at a path is what the route to it leads to (`entryKind_of_route`), and if it
finds something there or misses it, there is such a route (`exists_route_of_entryKind`). A path of
names leads down from the directory of the storage (`exists_walk`), so that a name in a directory
that is found is at a spot (`exists_spot_of_parent`). -/

namespace PageFields.Storage

open PageFields.FileTree PageFields.Path

variable {st : Storage} {t t' : FileTree} {path : Text} {names : List Text}

theorem entryKind_of_route {r : Route} (hr : st.route path = .ok r) : st.entryKind t path =
    match t.stat r with
    | .ok (.file _) => .ok (some .file)
    | .ok (.directory _) => .ok (some .directory)
    | .error .notFound => .ok none
    | .error fault => .error (.io fault) := by
  obtain ⟨full, hfull, hr⟩ := route_eq_ok.1 hr
  unfold entryKind
  rw [hfull, ok_bind, hr]
  rfl

theorem exists_route_of_entryKind {k : Option EntryKind} (h : st.entryKind t path = .ok k) :
    ∃ r, st.route path = .ok r := by
  unfold entryKind at h
  obtain ⟨full, hfull, h⟩ := bind_eq_ok.1 h
  cases hr : Route.ofText full with
  | ok r => exact ⟨r, route_eq_ok.2 ⟨full, hfull, hr⟩⟩
  | error fault =>
    rw [hr] at h
    cases fault with
    | notFound => exact absurd hr (ofText_ne_notFound full)
    | _ => cases h

theorem entryKind_eq_some : (∃ k, st.entryKind t path = .ok (some k)) ↔
    ∃ r found, st.route path = .ok r ∧ t.stat r = .ok found := by
  constructor
  · rintro ⟨k, hk⟩
    obtain ⟨r, hr⟩ := exists_route_of_entryKind hk
    rw [entryKind_of_route hr] at hk
    cases hstat : t.stat r with
    | ok found => exact ⟨r, found, hr, hstat⟩
    | error fault =>
      rw [hstat] at hk
      cases fault <;> cases hk
  · rintro ⟨r, found, hr, hstat⟩
    rw [entryKind_of_route hr, hstat]
    cases found with
    | file content => exact ⟨.file, rfl⟩
    | directory es => exact ⟨.directory, rfl⟩

theorem entryKind_eq_directory : st.entryKind t path = .ok (some .directory) ↔
    ∃ r es, st.route path = .ok r ∧ t.stat r = .ok (.directory es) := by
  constructor
  · intro h
    obtain ⟨r, hr⟩ := exists_route_of_entryKind h
    rw [entryKind_of_route hr] at h
    split at h
    · cases h
    · exact ⟨r, _, hr, by assumption⟩
    · cases h
    · cases h
  · rintro ⟨r, es, hr, hstat⟩
    rw [entryKind_of_route hr, hstat]

theorem entryKind_directory_mono (h : t.Within t')
    (hd : st.entryKind t path = .ok (some .directory)) :
    st.entryKind t' path = .ok (some .directory) := by
  obtain ⟨r, es, hr, hstat⟩ := entryKind_eq_directory.1 hd
  obtain ⟨es', hstat'⟩ := stat_directory_mono h hstat
  exact entryKind_eq_directory.2 ⟨r, es', hr, hstat'⟩

theorem entryKind_spot {s : Spot t} (hr : st.route path = .ok s.route) :
    st.entryKind t path = .ok none ↔ isTooLong s.name = false ∧ s.entries.lookup s.name = none := by
  rw [entryKind_of_route hr, s.stat_route]
  cases hlong : isTooLong s.name with
  | true => simp
  | false =>
    cases hl : s.entries.lookup s.name with
    | none => simp
    | some u => cases u <;> simp

/-- **A path of names leads down** from the directory of the storage, by these names. -/
theorem exists_walk {r : Route} {found : FileTree} (hnames : ∀ n ∈ names, IsName n)
    (hr : st.route (ofNames names) = .ok r) (hstat : t.stat r = .ok found) :
    ∃ home, t.walk [] (steps st.root) = .ok home ∧
      t.walk [] (steps st.root ++ names.map .name) = .ok (home ++ names) ∧
        t.get? (home ++ names) = some found := by
  obtain ⟨full, hfull, hr⟩ := route_eq_ok.1 hr
  obtain ⟨place, hwalk, hget⟩ := get?_of_stat hstat
  rw [steps_of_ofText hr, (steps_of_resolve hfull).1, steps_ofNames hnames] at hwalk
  obtain ⟨home, hhome, hdown⟩ := walk_append.1 hwalk
  obtain rfl := eq_append_of_walk hdown
  exact ⟨home, hhome, hwalk, hget⟩

theorem exists_home {r : Route} {found : FileTree} (hnames : ∀ n ∈ names, IsName n)
    (hr : st.route (ofNames names) = .ok r) (hstat : t.stat r = .ok found) :
    ∃ home, t.walk [] (steps st.root) = .ok home ∧ t.get? (home ++ names) = some found := by
  obtain ⟨home, hhome, -, hget⟩ := exists_walk hnames hr hstat
  exact ⟨home, hhome, hget⟩

/-- **A name in a directory is at a spot**, to which its path leads unless it is too long. -/
theorem exists_spot_of_parent {last : Text} (hnames : ∀ n ∈ names ++ [last], IsName n)
    (h : st.entryKind t (ofNames names) = .ok (some .directory)) :
    ∃ home, ∃ s : Spot t, t.walk [] (steps st.root) = .ok home ∧
      s.name = last ∧ s.place = home ++ (names ++ [last]) ∧
        ∀ r, st.route (ofNames (names ++ [last])) = .ok r → r = s.route := by
  obtain ⟨r, es, hr, hstat⟩ := entryKind_eq_directory.1 h
  obtain ⟨home, hhome, hwalk, hget⟩ := exists_walk (List.forall_mem_append.1 hnames).1 hr hstat
  refine ⟨home, ⟨_, last, home ++ names, es, hwalk, hget⟩, hhome, rfl, List.append_assoc .., ?_⟩
  intro r' hr'
  obtain ⟨full, hfull, hr'⟩ := route_eq_ok.1 hr'
  obtain ⟨base, n, hbase, hn, rfl, -⟩ :=
    exists_base_of_resolve hnames (List.concat_ne_nil last names) hfull
  have hsteps : steps base ++ [.name n] =
      steps st.root ++ names.map .name ++ [.name last] := by
    rw [← steps_append hbase hn, (steps_of_resolve hfull).1, steps_ofNames hnames, List.map_append,
      List.append_assoc]
    rfl
  rw [eq_of_ofText hbase hn hr', hsteps]
  rfl

end PageFields.Storage
