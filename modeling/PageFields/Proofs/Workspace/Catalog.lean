import PageFields.Proofs.Workspace.Folder

/-! # Workspaces: the parents that are offered

The names of the parents that a template can be given are made of the name of a directory and those
of the files in it (`mem_availableTemplates`). Each of these files is found by its name as seen from
the directory (`stat_entry`), as no name in a directory can lead anywhere else. To load a parent,
its name is joined to the project as a path. That is the path of the file, if the name of the
directory is neither empty nor ends with a slash. A slash too many does not lead elsewhere
(`route_of_slash`), but behind an empty name it makes the path an absolute one, which no storage
takes (`templateLoader_of_absolute`). -/

namespace PageFields.Storage

open PageFields.FileTree PageFields.Path

/-- A file with this name stands in the directory at the path. -/
def HasFile (st : Storage) (t : FileTree) (dir name : Text) : Prop :=
  ∃ r es content, st.route dir = .ok r ∧ t.stat r = .ok (.directory es) ∧
    (name, .file content) ∈ es

variable {st : Storage} {t u : FileTree} {dir name projectDir templateDir : Text} {r : Route}
  {es : Entries} {names : List Text}

/-! ### The entries of a directory -/

theorem isName_of_mem (hnamed : (FileTree.directory es).Named) (hmem : (name, u) ∈ es) :
    IsName name := by
  cases hnamed with
  | directory hname _ => exact hname _ hmem

theorem lookup_of_storable (ht : (FileTree.directory es).Storable) (hmem : (name, u) ∈ es) :
    es.lookup name = some u := by
  cases ht with
  | directory hnodup _ => exact lookup_of_mem hnodup hmem

theorem stat_entry (ht : t.Storable) (hnamed : t.Named) (hr : st.route dir = .ok r)
    (hstat : t.stat r = .ok (.directory es)) (hmem : (name, u) ∈ es) {full : Text} {r' : Route}
    (hfull : st.resolve (join dir name) = .ok full) (hr' : Route.ofText full = .ok r') :
    t.stat r' = if isTooLong name then .error .invalidFilename else .ok u := by
  obtain ⟨dirFull, hdirFull, hr⟩ := route_eq_ok.1 hr
  obtain ⟨place, hwalk, hget⟩ := get?_of_stat hstat
  have hn := isName_of_mem (hnamed.of_get? hget).1 hmem
  obtain ⟨b, hb, hjoin⟩ :=
    exists_base_join dir hn.isAbsolute (.inl rfl) (List.nil_append name).symm
  obtain ⟨hsteps, habs, -⟩ := steps_of_resolve hfull
  obtain ⟨base, hbase, hbaseFull⟩ := exists_base_join st.root habs hb hjoin
  obtain rfl := (resolve_eq_ok hfull).trans hbaseFull
  have habove : steps base = steps dirFull := by
    rw [steps_append hbase hn, steps_join dir hn.isAbsolute, hn.steps_eq, ← List.append_assoc,
      ← (steps_of_resolve hdirFull).1] at hsteps
    exact List.append_cancel_right hsteps
  have hlookup := lookup_of_storable (ht.of_get? hget) hmem
  rw [steps_of_ofText hr, ← habove] at hwalk
  have hspot := (Spot.mk (steps base) name place es hwalk hget).stat_route
  rw [Spot.route, hlookup] at hspot
  rw [eq_of_ofText hbase hn hr']
  exact hspot

theorem entryKind_entry (ht : t.Storable) (hnamed : t.Named) (hr : st.route dir = .ok r)
    (hstat : t.stat r = .ok (.directory es)) (hmem : (name, u) ∈ es) {k : Option EntryKind}
    (hk : st.entryKind t (join dir name) = .ok k) :
    (k = some .file ↔ ∃ content, u = .file content) ∧
      ∃ r', st.route (join dir name) = .ok r' ∧ t.stat r' = .ok u := by
  obtain ⟨r', hr'⟩ := exists_route_of_entryKind hk
  obtain ⟨full, hfull, hroute⟩ := route_eq_ok.1 hr'
  have hentry := stat_entry ht hnamed hr hstat hmem hfull hroute
  rw [entryKind_of_route hr', hentry] at hk
  split at hentry
  · rename_i hlong
    rw [if_pos hlong] at hk
    cases hk
  · rename_i hfits
    rw [if_neg hfits] at hk
    refine ⟨?_, r', hr', hentry⟩
    cases u with
    | file content =>
      cases hk
      exact iff_of_true rfl ⟨content, rfl⟩
    | directory entries =>
      cases hk
      exact iff_of_false nofun nofun

/-! ### The names that are offered -/

theorem list_of_stat (hr : st.route dir = .ok r) (hstat : t.stat r = .ok (.directory es)) :
    st.list t dir = .ok ((es.map Prod.fst).mergeSort Text.le) := by
  unfold list readDirectory
  rw [hr, ok_bind, hstat]
  rfl

theorem exists_of_list (h : st.list t dir = .ok names) :
    ∃ r es, st.route dir = .ok r ∧ t.stat r = .ok (.directory es) ∧
      names = (es.map Prod.fst).mergeSort Text.le := by
  obtain ⟨r, hr, h⟩ := bind_eq_ok.1 h
  obtain ⟨found, hstat, h⟩ := bind_eq_ok.1 (attempt_eq_ok.1 h)
  cases found with
  | file content => cases h
  | directory es =>
    cases h
    exact ⟨r, es, hr, hstat, rfl⟩

/-- The names of the files in a directory. There are none if it is not there. -/
def fileNames (st : Storage) (t : FileTree) (dir : Text) : Except Error (List Text) :=
  match st.list t dir with
  | .ok names => names.filterM fun name => do
      pure ((← st.entryKind t (join dir name)) = some .file)
  | .error (.notFound _) => .ok []
  | .error e => .error e

/-- The path leads to a file. -/
def LeadsToFile (st : Storage) (t : FileTree) (path : Text) : Prop :=
  ∃ r content, st.route path = .ok r ∧ t.stat r = .ok (.file content)

theorem hasFile_iff (hr : st.route dir = .ok r) (hstat : t.stat r = .ok (.directory es)) :
    st.HasFile t dir name ↔ ∃ content, (name, .file content) ∈ es := by
  constructor
  · rintro ⟨r', es', content, hr', hstat', hmem⟩
    obtain rfl := Except.ok.inj (hr.symm.trans hr')
    cases hstat.symm.trans hstat'
    exact ⟨content, hmem⟩
  · rintro ⟨content, hmem⟩
    exact ⟨r, es, content, hr, hstat, hmem⟩

theorem mem_of_list (ht : t.Storable) (hnamed : t.Named) {files : List Text}
    (hlist : st.list t dir = .ok names)
    (h : (names.filterM fun name => do
      pure (decide ((← st.entryKind t (join dir name)) = some .file)) : Except Error _) =
        .ok files) :
    (∀ name, name ∈ files ↔ st.HasFile t dir name) ∧
      ∀ name, st.HasFile t dir name → st.LeadsToFile t (join dir name) := by
  obtain ⟨r, es, hr, hstat, rfl⟩ := exists_of_list hlist
  have hentry : ∀ {name u}, (name, u) ∈ es → ∃ k, st.entryKind t (join dir name) = .ok k := by
    intro name u hmem
    obtain ⟨b, hb⟩ := exists_of_filterM h name
      (List.mem_mergeSort.2 (List.mem_map_of_mem (f := Prod.fst) hmem))
    obtain ⟨k, hk, -⟩ := bind_eq_ok.1 hb
    exact ⟨k, hk⟩
  simp only [hasFile_iff hr hstat]
  refine ⟨fun name => ?_, fun name hname => ?_⟩
  · rw [mem_filterM h]
    constructor
    · rintro ⟨hname, htest⟩
      obtain ⟨⟨name, u⟩, hmem, rfl⟩ := List.mem_map.1 (List.mem_mergeSort.1 hname)
      obtain ⟨k, hk, hkind⟩ := bind_eq_ok.1 htest
      have hkind : k = some .file := by simpa using Except.ok.inj hkind
      obtain ⟨content, rfl⟩ := (entryKind_entry ht hnamed hr hstat hmem hk).1.1 hkind
      exact ⟨content, hmem⟩
    · rintro ⟨content, hmem⟩
      obtain ⟨k, hk⟩ := hentry hmem
      have hkind := (entryKind_entry ht hnamed hr hstat hmem hk).1.2 ⟨content, rfl⟩
      refine ⟨List.mem_mergeSort.2 (List.mem_map_of_mem (f := Prod.fst) hmem), ?_⟩
      exact bind_eq_ok.2 ⟨k, hk, congrArg Except.ok (by simpa using hkind)⟩
  · obtain ⟨content, hmem⟩ := hname
    obtain ⟨k, hk⟩ := hentry hmem
    obtain ⟨-, r', hr', hstat'⟩ := entryKind_entry ht hnamed hr hstat hmem hk
    exact ⟨r', content, hr', hstat'⟩

/-- **The files of a directory**, each of which is found by its name. -/
theorem mem_fileNames (ht : t.Storable) (hnamed : t.Named) (h : st.fileNames t dir = .ok names) :
    (∀ name, name ∈ names ↔ st.HasFile t dir name) ∧
      ∀ name, st.HasFile t dir name → st.LeadsToFile t (join dir name) := by
  unfold fileNames at h
  split at h
  · rename_i all hlist
    exact mem_of_list ht hnamed hlist h
  · rename_i q hlist
    cases h
    have hnone : ∀ name, ¬ st.HasFile t dir name := by
      rintro name ⟨r, es, content, hr, hstat, -⟩
      rw [list_of_stat hr hstat] at hlist
      cases hlist
    exact ⟨fun name => iff_of_false nofun (hnone name), fun name hname => absurd hname (hnone name)⟩
  · cases h

theorem availableTemplates_eq (st : Storage) (t : FileTree) (projectDir templateDir : Text)
    (current : Option Text) : st.availableTemplates t projectDir templateDir current =
      (st.fileNames t (join projectDir templateDir)).map fun files =>
        (files.map (templateDir ++ '/' :: ·) ++ current.toList.filter (· ≠ [])).foldr
          Text.insertSorted [] := by
  have hnamed : ∀ name : Text, (if name = [] then [] else [name]) = [name].filter (· ≠ []) := by
    intro name
    by_cases hname : name = [] <;> simp [hname]
  unfold availableTemplates fileNames
  rcases current with - | name
  all_goals
    simp only [hnamed]
    cases st.list t (join projectDir templateDir) with
    | ok all => exact bind_pure_comp _ _
    | error e => cases e <;> rfl

/-! ### Loading by an offered name -/

theorem templateLoader_of_leads (h : st.LeadsToFile t (join projectDir name)) :
    st.templateLoader t projectDir name = st.read t (join projectDir name) := by
  obtain ⟨r, content, hr, hstat⟩ := h
  obtain ⟨full, hfull, hr⟩ := route_eq_ok.1 hr
  have hread := read_of_stat hfull hr hstat
  have hfound : ∀ q, st.read t (join projectDir name) ≠ .error (.notFound q) := by
    intro q
    rw [hread]
    split
    · exact nofun
    · split <;> exact nofun
  unfold templateLoader
  split
  · rename_i q hq
    exact absurd hq (hfound q)
  · rfl

theorem templateLoader_of_absolute (h : isAbsolute name = true) :
    st.templateLoader t projectDir name = .error (.pathEscape (Path.display name)) := by
  have hroot : Component.root ∈ components name := by
    refine mem_components ?_ (by decide)
    rw [steps_eq, if_pos h]
    exact List.mem_append_left _ List.mem_cons_self
  have hresolve : st.resolve name = .error (.pathEscape (Path.display name)) := by
    unfold resolve
    rw [if_pos (List.any_eq_true.2 ⟨_, hroot, by decide⟩)]
  unfold templateLoader read route
  rw [join, if_pos h, hresolve]
  rfl

theorem read_toOption {content : ByteArray} {path : Text} (hr : st.route path = .ok r)
    (hstat : t.stat r = .ok (.file content)) : (st.read t path).toOption =
      if st.maxFileSize < content.size then none else Text.ofUtf8? content := by
  obtain ⟨full, hfull, hr⟩ := route_eq_ok.1 hr
  rw [read_of_stat hfull hr hstat]
  split
  · rfl
  · cases Text.ofUtf8? content <;> rfl

/-- A slash too many before a name does not matter, unless it makes the path too long. -/
theorem route_of_slash {b : Text} (hn : IsName name) (hr : st.route (b ++ '/' :: name) = .ok r)
    (hfits : (Text.utf8 (join st.root (b ++ '/' :: '/' :: name))).size ≤ Route.lengthLimit) :
    st.route (b ++ '/' :: '/' :: name) = .ok r := by
  have hne : b ++ ['/'] ≠ [] := by simp
  have hpath : b ++ '/' :: name = b ++ ['/'] ++ name := by simp
  have hpath' : b ++ '/' :: '/' :: name = b ++ ['/'] ++ ['/'] ++ name := by simp
  obtain ⟨full, hfull, hr⟩ := route_eq_ok.1 hr
  have hsteps : steps (b ++ ['/'] ++ ['/'] ++ name) = steps (b ++ ['/'] ++ name) := by
    rw [steps_append (.inr ⟨_, rfl⟩) hn, steps_concat_slash hne, steps_append (.inr ⟨_, rfl⟩) hn]
  rw [hpath] at hfull
  rw [hpath'] at hfits ⊢
  refine route_eq_ok.2 ⟨join st.root (b ++ ['/'] ++ ['/'] ++ name), ?_, ?_⟩
  · unfold resolve at hfull ⊢
    rw [components_congr hsteps]
    split at hfull
    · cases hfull
    · rename_i hany
      rw [if_neg hany]
  · obtain ⟨c, hc⟩ : ∃ c, join st.root (b ++ ['/']) = c ++ ['/'] := by
      refine List.getLast?_eq_some_iff.1 ((getLast?_join st.root hne).trans ?_)
      exact List.getLast?_concat
    have hne' : b ++ ['/'] ++ ['/'] ≠ [] := by simp
    obtain rfl := resolve_eq_ok hfull
    rw [join_append st.root hne, hc] at hr
    rw [join_append st.root hne', join_append st.root hne, hc] at hfits ⊢
    have hnul := not_mem_nul hr
    have hnul' : ¬ (c ++ ['/'] ++ ['/'] ++ name).contains '\x00' = true := by
      simpa using hnul
    rw [eq_of_ofText (.inr ⟨c, rfl⟩) hn hr, ofText_eq (.inr ⟨_, rfl⟩) hn, if_neg hnul',
      if_neg (Nat.not_lt.2 hfits), steps_concat_slash (List.concat_ne_nil _ _)]

theorem toOption_templateLoader_of_slash {e : Text} (hn : IsName e)
    (h : st.LeadsToFile t (join (join projectDir templateDir) e))
    (hslash : templateDir.getLast? = some '/')
    (hfits : (Text.utf8 (join st.root (join projectDir (templateDir ++ '/' :: e)))).size ≤
      Route.lengthLimit) :
    (st.templateLoader t projectDir (templateDir ++ '/' :: e)).toOption =
      (st.read t (join (join projectDir templateDir) e)).toOption := by
  have hne : templateDir ≠ [] := by
    rintro rfl
    cases hslash
  obtain ⟨b, hb⟩ := List.getLast?_eq_some_iff.1 ((getLast?_join projectDir hne).trans hslash)
  have hlisted : join (join projectDir templateDir) e = b ++ '/' :: e := by
    rw [join_of_isBase (.inr ⟨b, hb⟩) hn.isAbsolute, hb, List.append_assoc, List.singleton_append]
  have hloaded : join projectDir (templateDir ++ '/' :: e) = b ++ '/' :: '/' :: e := by
    rw [join_append projectDir hne, hb, List.append_assoc, List.singleton_append]
  rw [hlisted] at h ⊢
  obtain ⟨r, content, hr, hstat⟩ := h
  rw [hloaded] at hfits
  have hr' := route_of_slash hn hr hfits
  rw [templateLoader_of_leads (by rw [hloaded]; exact ⟨r, content, hr', hstat⟩), hloaded,
    read_toOption hr' hstat, read_toOption hr hstat]

/-- **What is offered** are the names of the files in the directory and the current parent. -/
theorem mem_availableTemplates (ht : t.Storable) (hnamed : t.Named) {current : Option Text}
    (h : st.availableTemplates t projectDir templateDir current = .ok names) :
    (∀ name, name ∈ names ↔ (current = some name ∧ name ≠ []) ∨
        ∃ e, st.HasFile t (join projectDir templateDir) e ∧ name = templateDir ++ '/' :: e) ∧
      ∀ e, st.HasFile t (join projectDir templateDir) e →
        IsName e ∧ st.LeadsToFile t (join (join projectDir templateDir) e) := by
  rw [availableTemplates_eq] at h
  obtain ⟨files, hfiles, rfl⟩ := map_eq_ok.1 h
  obtain ⟨hmem, hleads⟩ := mem_fileNames ht hnamed hfiles
  refine ⟨fun name => ?_, fun e he => ⟨?_, hleads e he⟩⟩
  · rw [Text.mem_foldr_insertSorted, List.mem_append, List.mem_map, or_comm]
    refine or_congr ?_ (exists_congr fun e => and_congr (hmem e) eq_comm)
    simp
  · obtain ⟨r, es, content, -, hstat, he⟩ := he
    obtain ⟨place, -, hget⟩ := get?_of_stat hstat
    exact isName_of_mem (hnamed.of_get? hget).1 he

/-- **The catalog of parents.** The names that are offered are in the order of their bytes, without
repetition, and they are those of the files in the directory and of the current parent. If the name
of the directory is not empty and does not end with a slash, a parent is loaded by its offered name
as the file is read. With such a slash it has the same text, unless its path gets too long, and with
an empty name it is refused. -/
theorem availableTemplates_exact (ht : t.Storable) (hnamed : t.Named) {current : Option Text}
    (h : st.availableTemplates t projectDir templateDir current = .ok names) :
    names.Pairwise (fun a b => Text.bytes a < Text.bytes b) ∧
      (∀ name, name ∈ names ↔ (current = some name ∧ name ≠ []) ∨
        ∃ e, st.HasFile t (join projectDir templateDir) e ∧ name = templateDir ++ '/' :: e) ∧
      ∀ e, st.HasFile t (join projectDir templateDir) e →
        (templateDir ≠ [] → templateDir.getLast? ≠ some '/' →
          st.templateLoader t projectDir (templateDir ++ '/' :: e) =
            st.read t (join (join projectDir templateDir) e)) ∧
        (templateDir.getLast? = some '/' →
          (Text.utf8 (join st.root (join projectDir (templateDir ++ '/' :: e)))).size ≤
            Route.lengthLimit →
          (st.templateLoader t projectDir (templateDir ++ '/' :: e)).toOption =
            (st.read t (join (join projectDir templateDir) e)).toOption) ∧
        (templateDir = [] → st.templateLoader t projectDir (templateDir ++ '/' :: e) =
          .error (.pathEscape (Path.display (templateDir ++ '/' :: e)))) := by
  obtain ⟨hmem, hfile⟩ := mem_availableTemplates ht hnamed h
  refine ⟨?_, hmem, fun e he => ⟨fun hne hlast => ?_, fun hslash hfits => ?_, fun hnil => ?_⟩⟩
  · rw [availableTemplates_eq] at h
    obtain ⟨files, -, rfl⟩ := map_eq_ok.1 h
    exact (Text.pairwise_foldr_insertSorted _).imp Text.bytes_lt_bytes.2
  · obtain ⟨hn, hleads⟩ := hfile e he
    have hjoin : join (join projectDir templateDir) e =
        join projectDir (templateDir ++ '/' :: e) := by
      rw [join_of_not_isBase (join_ne_nil projectDir hne) (by rwa [getLast?_join projectDir hne])
        hn.isAbsolute, join_append projectDir hne]
    rw [hjoin] at hleads ⊢
    exact templateLoader_of_leads hleads
  · obtain ⟨hn, hleads⟩ := hfile e he
    exact toOption_templateLoader_of_slash hn hleads hslash hfits
  · subst hnil
    exact templateLoader_of_absolute rfl

open Workspace

/-- The same for the pages of a project and a parent that is not there. -/
theorem availableTemplates_exact_pages :
    let st := defaultWorkspace.storage
    let t := oneProject siteEntries
    st.availableTemplates t "site".toList "pages".toList (some "old.html".toList) =
        .ok ["old.html".toList, "pages/about.html".toList] ∧
      st.templateLoader t "site".toList "pages/about.html".toList =
        st.read t "site/pages/about.html".toList := by
  intro st t
  have hnames : st.availableTemplates t "site".toList "pages".toList (some "old.html".toList) =
      .ok ["old.html".toList, "pages/about.html".toList] := toOption_eq_some.1 (by decide +kernel)
  obtain ⟨-, hmem, hload⟩ := availableTemplates_exact (storable_oneProject storable_siteEntries)
    (named_oneProject named_siteEntries) hnames
  refine ⟨hnames, ?_⟩
  rcases (hmem "pages/about.html".toList).1 (by decide) with ⟨hcurrent, -⟩ | ⟨e, he, hname⟩
  · exact absurd hcurrent (by decide)
  · have hname : "pages/".toList ++ "about.html".toList = "pages/".toList ++ e := hname
    obtain rfl := List.append_cancel_left hname
    exact (hload _ he).1 (by decide) (by decide)

/-- A project with one file. -/
def singleEntry : Entries := [("a.html".toList, .file (Text.utf8 ['x']))]

/-- **Not every parent that is offered can be loaded**: if the directory of the parents is that of
the project, its name is empty, and the names that are offered are absolute. -/
theorem not_always_loaded : ¬ ∀ (st : Storage) (t : FileTree) (projectDir templateDir : Text)
    (current : Option Text) (names : List Text), t.Storable → t.Named →
      st.availableTemplates t projectDir templateDir current = .ok names →
        ∀ e, st.HasFile t (join projectDir templateDir) e →
          st.templateLoader t projectDir (templateDir ++ '/' :: e) =
            st.read t (join (join projectDir templateDir) e) := by
  intro h
  have ht : (oneProject singleEntry).Storable := storable_oneProject (Storable.singleton (.file _))
  have hnamed : (oneProject singleEntry).Named :=
    named_oneProject (.singleton (by decide) (.file _))
  have hnames : defaultWorkspace.storage.availableTemplates (oneProject singleEntry) "site".toList
      [] none = .ok ["/a.html".toList] := toOption_eq_some.1 (by decide +kernel)
  rcases ((mem_availableTemplates ht hnamed hnames).1 "/a.html".toList).1 (by decide) with
    ⟨hcurrent, -⟩ | ⟨e, he, hname⟩
  · cases hcurrent
  · obtain rfl : "a.html".toList = e := (List.cons.inj hname).2
    have hload := h _ _ _ _ _ _ ht hnamed hnames _ he
    rw [templateLoader_of_absolute rfl] at hload
    have hread : defaultWorkspace.storage.read (oneProject singleEntry) "site/a.html".toList =
      .ok ['x'] := toOption_eq_some.1 (by decide +kernel)
    cases hload.trans hread

end PageFields.Storage
