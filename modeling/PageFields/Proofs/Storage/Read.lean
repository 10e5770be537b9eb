import PageFields.Proofs.Storage.Temporary

/-! # Storage: reading a file

What is read is the text of a file that a route leads to (`read_eq_ok`). If the path is one of
names, that file is at a spot (`exists_spot_of_read`), and so is a file that could be made there
(`spot_cases`), unless there is no directory for it. -/

namespace PageFields.Storage

open PageFields.FileTree PageFields.Path

variable {st : Storage} {t : FileTree} {path full : Text}

/-! ### Reading -/

theorem attempt_eq_ok {α : Type} {x : Except IoFault α} {a : α} :
    attempt path x = .ok a ↔ x = .ok a := by
  cases x <;> simp [attempt, Except.mapError]

theorem resolve_eq_ok (h : st.resolve path = .ok full) : full = Path.join st.root path := by
  unfold resolve at h
  split at h
  · cases h
  · cases h
    rfl

theorem route_eq_ok {r : Route} :
    st.route path = .ok r ↔ ∃ full, st.resolve path = .ok full ∧ Route.ofText full = .ok r := by
  unfold route
  simp only [bind_eq_ok, attempt_eq_ok]

theorem readFile_eq_ok {r : Route} {bytes : ByteArray} :
    t.readFile r = .ok bytes ↔ t.stat r = .ok (.file bytes) := by
  unfold readFile
  rw [bind_eq_ok]
  constructor
  · rintro ⟨u, hu, h⟩
    cases u with
    | directory es => cases h
    | file content =>
      cases h
      exact hu
  · intro h
    exact ⟨_, h, rfl⟩

/-- **What is read** is the text of a file that is not too large. -/
theorem read_eq_ok {text : Text} : st.read t path = .ok text ↔
    ∃ full r bytes, st.resolve path = .ok full ∧ Route.ofText full = .ok r ∧
      t.stat r = .ok (.file bytes) ∧ bytes.size ≤ st.maxFileSize ∧
        Text.ofUtf8? bytes = some text := by
  unfold read
  rw [bind_eq_ok]
  constructor
  · rintro ⟨r, hr, h⟩
    obtain ⟨full, hfull, hr⟩ := route_eq_ok.1 hr
    obtain ⟨found, hfound, h⟩ := bind_eq_ok.1 h
    rw [attempt_eq_ok] at hfound
    by_cases hsize : st.maxFileSize < sizeOf found
    · simp [hsize] at h
    · simp only [hsize, if_false] at h
      obtain ⟨bytes, hbytes, h⟩ := bind_eq_ok.1 h
      rw [attempt_eq_ok, readFile_eq_ok, hfound] at hbytes
      cases hbytes
      refine ⟨full, r, bytes, hfull, hr, hfound, Nat.le_of_not_lt hsize, ?_⟩
      cases ht : Text.ofUtf8? bytes with
      | none => simp [ht] at h
      | some text' =>
        simp only [ht] at h
        cases h
        rfl
  · rintro ⟨full, r, bytes, hfull, hr, hstat, hsize, htext⟩
    refine ⟨r, route_eq_ok.2 ⟨full, hfull, hr⟩, bind_eq_ok.2 ⟨_, attempt_eq_ok.2 hstat, ?_⟩⟩
    have hsize : ¬ st.maxFileSize < sizeOf (.file bytes) := Nat.not_lt.2 hsize
    rw [if_neg hsize]
    exact bind_eq_ok.2 ⟨bytes, attempt_eq_ok.2 (readFile_eq_ok.2 hstat), by rw [htext]⟩

theorem read_of_stat {r : Route} {bytes : ByteArray} (hfull : st.resolve path = .ok full)
    (hr : Route.ofText full = .ok r) (hstat : t.stat r = .ok (.file bytes)) :
    st.read t path =
      if st.maxFileSize < bytes.size then
        .error (.fileTooLarge (Path.display path) bytes.size st.maxFileSize)
      else match Text.ofUtf8? bytes with
        | some text => .ok text
        | none => .error (.invalidEncoding (Path.display path)) := by
  unfold read
  rw [route_eq_ok.2 ⟨full, hfull, hr⟩, ok_bind, attempt_eq_ok.2 hstat, ok_bind,
    attempt_eq_ok.2 (readFile_eq_ok.2 hstat)]
  rfl

theorem attempt_eq_notFound {α : Type} {x : Except IoFault α} {q : Text} :
    attempt path x = .error (.notFound q) ↔ x = .error .notFound ∧ q = Path.display path := by
  cases x with
  | ok a => simp [attempt, Except.mapError]
  | error fault => cases fault <;> simp [attempt, Except.mapError, errorAt, eq_comm]

theorem ofText_ne_notFound (p : Text) : Route.ofText p ≠ .error .notFound := by
  unfold Route.ofText
  split
  · simp
  · split <;> simp

/-- **What is not found** has a path that can be walked and leads to nothing. -/
theorem read_eq_notFound {q : Text} (h : st.read t path = .error (.notFound q)) :
    ∃ full r, st.resolve path = .ok full ∧ Route.ofText full = .ok r ∧
      t.stat r = .error .notFound := by
  unfold read route at h
  cases hfull : st.resolve path with
  | error e =>
    have : e = .pathEscape (Path.display path) := by
      unfold resolve at hfull
      split at hfull
      · exact (Except.error.inj hfull).symm
      · cases hfull
    rw [hfull, this] at h
    cases h
  | ok full =>
    rw [hfull, ok_bind] at h
    cases hr : Route.ofText full with
    | error fault =>
      rw [hr] at h
      have h : attempt path (.error fault : Except IoFault Text) = .error (.notFound q) := h
      cases (attempt_eq_notFound.1 h).1
      exact absurd hr (ofText_ne_notFound full)
    | ok r =>
      refine ⟨full, r, rfl, hr, ?_⟩
      rw [hr] at h
      change (attempt path (t.stat r) >>= _) = _ at h
      cases hstat : t.stat r with
      | error fault =>
        rw [hstat] at h
        have h : attempt path (.error fault : Except IoFault Text) = .error (.notFound q) := h
        cases (attempt_eq_notFound.1 h).1
        rfl
      | ok found =>
        rw [hstat] at h
        change (if _ then _ else _) = _ at h
        split at h
        · cases h
        · cases hread : attempt path (t.readFile r) with
          | error e =>
            rw [hread] at h
            cases h
            rw [attempt_eq_notFound, readFile, hstat, ok_bind] at hread
            cases found <;> cases hread.1
          | ok content =>
            rw [hread, ok_bind] at h
            split at h <;> cases h

/-! ### The spot of a file -/

theorem exists_base_of_resolve {names : List Text} (hnames : ∀ n ∈ names, IsName n)
    (hne : names ≠ []) (hfull : st.resolve (ofNames names) = .ok full) :
    ∃ base n, IsBase base ∧ IsName n ∧ full = base ++ n ∧ names.getLast? = some n := by
  have hlast := List.dropLast_concat_getLast hne
  obtain ⟨b, hb, hp⟩ := exists_base_ofNames names.dropLast (names.getLast hne)
  rw [hlast] at hp
  obtain ⟨base, hbase, hjoin⟩ := exists_base_join st.root (isAbsolute_ofNames hnames) hb hp
  exact ⟨base, names.getLast hne, hbase, hnames _ (List.getLast_mem hne),
    (resolve_eq_ok hfull).trans hjoin, List.getLast?_eq_some_getLast hne⟩

theorem exists_resolve (st : Storage) {names : List Text} (hnames : ∀ n ∈ names, IsName n) :
    ∃ full, st.resolve (ofNames names) = .ok full := by
  have hplain : ∀ c ∈ components (ofNames names), ∃ n, c = .name n := by
    intro c hc
    have hmem := mem_steps_of_mem_components hc
    rw [steps_ofNames hnames] at hmem
    obtain ⟨n, -, rfl⟩ := List.mem_map.1 hmem
    exact ⟨n, rfl⟩
  have hany : (components (ofNames names)).any (fun c => c = .root || c = .up) = false := by
    rw [List.any_eq_false]
    intro c hc
    obtain ⟨n, rfl⟩ := hplain c hc
    simp
  unfold resolve
  rw [hany]
  exact ⟨_, rfl⟩

theorem spelled_of_route {s : Spot t} {base n : Text} {r : Route} (hbase : IsBase base)
    (hn : IsName n) (hr : Route.ofText (base ++ n) = .ok r) (habove : s.above = steps base)
    (hname : s.name = n) (hfits : isTooLong n = false) : Spelled (base ++ n) s := by
  subst hname
  exact ⟨⟨base, hbase, rfl, habove⟩, hn, hfits, by rw [hr, eq_of_ofText hbase hn hr, Spot.route,
    habove]⟩

theorem Spelled.steps_eq {s : Spot t} (hp : Spelled full s) : steps full = s.route.steps := by
  obtain ⟨base, hbase, rfl, habove⟩ := hp.spelling
  rw [steps_append hbase hp.isName, ← habove]
  rfl

/-- **A file that was read by a path of names is at a spot.** -/
theorem exists_spot_of_read {names : List Text} (hnames : ∀ n ∈ names, IsName n)
    (hne : names ≠ []) (hfull : st.resolve (ofNames names) = .ok full) {text : Text}
    (h : st.read t (ofNames names) = .ok text) : ∃ s : Spot t, Spelled full s ∧
      ∃ bytes, s.entries.lookup s.name = some (.file bytes) ∧ Text.ofUtf8? bytes = some text := by
  obtain ⟨full', r, bytes, hfull', hr, hstat, -, htext⟩ := read_eq_ok.1 h
  rw [hfull] at hfull'
  cases hfull'
  obtain ⟨base, n, hbase, hn, rfl, -⟩ := exists_base_of_resolve hnames hne hfull
  rw [eq_of_ofText hbase hn hr] at hstat
  obtain ⟨s, habove, hname, hfits, hlookup⟩ := Spot.exists_of_stat rfl hstat
  exact ⟨s, spelled_of_route hbase hn hr habove hname hfits, bytes, hname ▸ hlookup, htext⟩

/-- **A file that is not found by a path of names** could be made at a spot, or there is no
directory for it. -/
theorem spot_cases {names : List Text} (hnames : ∀ n ∈ names, IsName n)
    (hne : names ≠ []) (hfull : st.resolve (ofNames names) = .ok full) {q : Text}
    (h : st.read t (ofNames names) = .error (.notFound q)) :
    (∃ s : Spot t, Spelled full s ∧ s.entries.lookup s.name = none) ∨
      ∃ base n, IsBase base ∧ IsName n ∧ full = base ++ n ∧ '\x00' ∉ full ∧
        (t.walk [] (steps base) >>= t.directoryAt) = .error .notFound := by
  obtain ⟨full', r, hfull', hr, hstat⟩ := read_eq_notFound h
  rw [hfull] at hfull'
  cases hfull'
  obtain ⟨base, n, hbase, hn, rfl, -⟩ := exists_base_of_resolve hnames hne hfull
  rw [eq_of_ofText hbase hn hr] at hstat
  cases hdir : t.walk [] (steps base) >>= t.directoryAt with
  | error fault =>
    rw [stat_of_nowhere hdir] at hstat
    cases hstat
    exact .inr ⟨base, n, hbase, hn, rfl, not_mem_nul hr, hdir⟩
  | ok es =>
    obtain ⟨s, habove, rfl⟩ := Spot.exists_of_directoryAt hdir n
    have hstat' := s.stat_route
    rw [Spot.route, habove, hstat] at hstat'
    split at hstat'
    · cases hstat'
    · rename_i hfits
      refine .inl ⟨s, spelled_of_route hbase hn hr habove rfl (by simpa using hfits), ?_⟩
      split at hstat'
      · assumption
      · cases hstat'

/-- **A file that can be replaced or made by a path of names** is at a spot where no directory is,
or there is no directory for it. -/
theorem isFree_cases {names : List Text} (hnames : ∀ n ∈ names, IsName n) (hne : names ≠ [])
    (hfull : st.resolve (ofNames names) = .ok full)
    (h : (∃ text, st.read t (ofNames names) = .ok text) ∨
      ∃ q, st.read t (ofNames names) = .error (.notFound q)) :
    (∃ s : Spot t, Spelled full s ∧ s.IsFree) ∨
      ∃ base n, IsBase base ∧ IsName n ∧ full = base ++ n ∧ '\x00' ∉ full ∧
        (t.walk [] (steps base) >>= t.directoryAt) = .error .notFound := by
  rcases h with ⟨text, h⟩ | ⟨q, h⟩
  · obtain ⟨s, hs, bytes, hbytes, -⟩ := exists_spot_of_read hnames hne hfull h
    exact .inl ⟨s, hs, s.isFree_of_file hbytes⟩
  · exact (spot_cases hnames hne hfull h).imp_left fun ⟨s, hs, hnone⟩ =>
      ⟨s, hs, s.isFree_of_none hnone⟩

theorem Spelled.eq_of_steps {s : Spot t} (hp : Spelled full s) {above : List Component} {n : Text}
    (h : steps full = above ++ [.name n]) : s.above = above ∧ s.name = n := by
  obtain ⟨habove, hname⟩ := List.append_inj' (hp.steps_eq.symm.trans h) rfl
  exact ⟨habove, by simpa using hname⟩

end PageFields.Storage
