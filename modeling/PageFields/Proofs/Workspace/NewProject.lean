import PageFields.Proofs.Workspace.Create

/-! # Workspaces: making a project

A path with one name is made as the item of its name: it is a directory, in which items can be made
(`create_project`), unless the template patterns match the name of the project. Then it is an empty
file, and nothing can be made below it (`not_always_directory`). -/

namespace PageFields.Workspace

open FileTree Storage

/-- The template patterns match the name of a project, and it is not one of the collapsed
directories. -/
def MatchesProject (w : Workspace) (project : Text) : Prop :=
  w.config.collapsedDirs.contains project = false ∧ w.globs.any (·.isMatch project) = true

instance (w : Workspace) (project : Text) : Decidable (w.MatchesProject project) :=
  inferInstanceAs (Decidable (_ ∧ _))

variable {w : Workspace} {t t' : FileTree} {path project : Text} {item : Item}

theorem not_mem_of_isNewName (h : IsNewName [project]) : '.' ∉ project := by
  obtain ⟨name, hname, hall, -⟩ := h
  obtain rfl : project = name := by simpa using hname
  intro hmem
  rcases hall '.' hmem with h | h | ⟨-, h⟩
  · revert h
    decide
  · revert h
    decide
  · simp at h

theorem kindOf_project (hdot : '.' ∉ project) : Item.kindOf w.config w.globs [project] =
    if w.MatchesProject project then .templateFile else .folder := by
  have hcontains : project.contains '.' = false := by simpa using hdot
  unfold Item.kindOf MatchesProject
  simp only [List.getLast?_singleton, List.tail_cons, List.head?_nil, Option.getD_none, hcontains]
  simp

theorem item_of_create (hpath : Path.names? path = some [project])
    (h : w.create t path = (.ok item, t')) :
    item = ⟨if w.MatchesProject project then .templateFile else .folder, [project]⟩ := by
  have hmade := made_of_create h
  obtain ⟨hnames, hkind⟩ := classify_eq_ok.1 hmade.classify
  have hproject : item.names = [project] := Option.some_inj.1 (hnames.symm.trans hpath)
  have hdot := not_mem_of_isNewName (hproject ▸ hmade.isNewName)
  rw [hproject, kindOf_project hdot] at hkind
  rw [← hkind, ← hproject]

variable {home : List Text}

/-- Below a project that is a file, nothing can be made. -/
theorem create_below_file (hhome : t.walk [] (Path.steps w.storage.root) = .ok home)
    (hadds : Adds t t' (home ++ [project]) (.file ByteArray.empty)) {p name : Text}
    {rest : List Text} (hp : Path.names? p = some (project :: name :: rest)) :
    ∃ e, w.create t' p = (.error e, t') := by
  rcases create_cases w t' p with hfails | ⟨item, t'', home', s, hmade, -⟩
  · exact hfails
  · exfalso
    obtain ⟨hitem, -, hparent, -⟩ := exists_create_iff.1 ⟨t'', hmade⟩
    have hnames := isName_of_classify hitem
    rw [Option.some_inj.1 ((classify_eq_ok.1 hitem).1.symm.trans hp)] at hparent hnames
    obtain ⟨r, es, hr, hstat⟩ := entryKind_eq_directory.1 hparent
    obtain ⟨home', hhome', hget⟩ :=
      exists_home (fun n hn => hnames n (List.dropLast_subset _ hn)) hr hstat
    obtain rfl := walk_unique hhome hhome'
    have hdir := get?_eq_directory_iff.1 ⟨es, hget⟩
    cases rest with
    | nil =>
      rw [show [project, name].dropLast = [project] from rfl, hadds.entry?_eq, if_pos rfl] at hdir
      cases hdir
    | cons m rest =>
      rw [List.dropLast_cons_cons, List.append_cons, hadds.entry?_below (by simp)] at hdir
      cases hdir

/-- Below a project that is a directory, items can be made. -/
theorem create_below_directory (hhome : t.walk [] (Path.steps w.storage.root) = .ok home)
    (hadds : Adds t t' (home ++ [project]) .directory)
    (hthere : w.storage.entryKind t' (Path.ofNames [project]) = .ok (some .directory))
    {p name : Text} (hp : Path.names? p = some [project, name])
    (hname : IsNewName [project, name]) (hlong : isTooLong name = false) {r : Route}
    (hr : w.storage.route (Path.ofNames [project, name]) = .ok r) :
    ∃ item t'', w.create t' p = (.ok item, t'') := by
  have hitem : w.classify p = .ok ⟨Item.kindOf w.config w.globs [project, name], [project, name]⟩ :=
    classify_eq_ok.2 ⟨hp, rfl⟩
  obtain ⟨home', s, hhome', hlast, hplace, hspot⟩ :=
    exists_spot_of_parent (isName_of_classify hitem) hthere
  obtain rfl := walk_unique hhome hhome'
  obtain rfl := hspot r hr
  have hnone : s.entries.lookup s.name = none := by
    have hbelow := hadds.entry?_below (List.cons_ne_nil name [])
    rw [List.append_assoc, ← hplace, Spot.place, entry?_concat s.get?_eq] at hbelow
    exact Option.map_eq_none_iff.1 hbelow
  have hvacant := (entryKind_spot hr).2 ⟨hlast ▸ hlong, hnone⟩
  exact ⟨_, exists_create_iff.2 ⟨hitem, hname, hthere, hvacant⟩⟩

/-- **A project is made as a directory**, in which an item can be made under every allowed name that
is not too long, unless the template patterns match its name. Then it is made as an empty file, and
nothing can be made below it. Either way nothing else is changed. -/
theorem create_project (hpath : Path.names? path = some [project])
    (h : w.create t path = (.ok item, t')) :
    ∃ home, t.walk [] (Path.steps w.storage.root) = .ok home ∧
      if w.MatchesProject project then
        Adds t t' (home ++ [project]) (.file ByteArray.empty) ∧
          ∀ p name rest, Path.names? p = some (project :: name :: rest) →
            ∃ e, w.create t' p = (.error e, t')
      else
        Adds t t' (home ++ [project]) .directory ∧
          ∀ p name r, Path.names? p = some [project, name] → IsNewName [project, name] →
            isTooLong name = false →
              w.storage.route (Path.ofNames [project, name]) = .ok r →
                ∃ made t'', w.create t' p = (.ok made, t'') := by
  obtain ⟨home, hhome, hadds⟩ := (made_of_create h).adds
  have hthere := entryKind_of_create h
  obtain rfl := item_of_create hpath h
  refine ⟨home, hhome, ?_⟩
  by_cases hmatch : w.MatchesProject project
  · simp only [if_pos hmatch] at hadds ⊢
    exact ⟨hadds, fun p name rest hp => create_below_file hhome hadds hp⟩
  · simp only [if_neg hmatch] at hadds hthere ⊢
    exact ⟨hadds, fun p name r hp hname hlong hr =>
      create_below_directory hhome hadds hthere hp hname hlong hr⟩

/-! ### Projects in an empty workspace -/

/-- A workspace with these template patterns. -/
def patterned (patterns : List Text) : Workspace :=
  let config : Config := { templatePatterns := patterns }
  { config, globs := config.templateGlobs.toOption.getD []
    storage := ⟨config.projectsDir, config.maxFileSize⟩ }

/-- A tree with an empty projects directory. -/
def noProjects : FileTree := .directory [("projects".toList, empty)]

theorem templateGlobs_patterned {patterns : List Text}
    (h : (patterned patterns).config.templateGlobs.toOption.isSome) :
    (patterned patterns).config.templateGlobs = .ok (patterned patterns).globs := by
  obtain ⟨globs, hglobs⟩ := Option.isSome_iff_exists.1 h
  have hcompiled : (patterned patterns).globs =
      (patterned patterns).config.templateGlobs.toOption.getD [] := rfl
  rw [hcompiled, hglobs, Option.getD_some]
  exact toOption_eq_some.1 hglobs

theorem names?_blog : Path.names? "blog".toList = some ["blog".toList] := by decide +kernel

theorem exists_create_noProjects (patterns : List Text) : ∃ item t',
    (patterned patterns).create noProjects "blog".toList = (.ok item, t') := by
  have hitem : (patterned patterns).classify "blog".toList =
      .ok ⟨Item.kindOf (patterned patterns).config (patterned patterns).globs ["blog".toList],
        ["blog".toList]⟩ := classify_eq_ok.2 ⟨names?_blog, rfl⟩
  have hname : IsNewName ["blog".toList] :=
    (isNewName_iff rfl).2 (toOption_eq_some.1 (by decide +kernel))
  have hparent : (⟨"projects".toList, 10 * 1024 * 1024⟩ : Storage).entryKind noProjects [] =
      .ok (some .directory) := toOption_eq_some.1 (by decide +kernel)
  have hvacant : (⟨"projects".toList, 10 * 1024 * 1024⟩ : Storage).entryKind noProjects
      "blog".toList = .ok none := toOption_eq_some.1 (by decide +kernel)
  exact ⟨_, exists_create_iff.2 ⟨hitem, hname, hparent, hvacant⟩⟩

/-- With the default patterns, a page can be made in the project. -/
theorem create_project_blog : ∃ item t' made t'',
    (patterned ["*.html".toList]).create noProjects "blog".toList = (.ok item, t') ∧
      (patterned ["*.html".toList]).create t' "blog/index.html".toList = (.ok made, t'') := by
  obtain ⟨item, t', h⟩ := exists_create_noProjects ["*.html".toList]
  obtain ⟨home, -, hproject⟩ := create_project names?_blog h
  rw [if_neg (by decide +kernel)] at hproject
  have hname : IsNewName ["blog".toList, "index.html".toList] :=
    (isNewName_iff rfl).2 (toOption_eq_some.1 (by decide +kernel))
  obtain ⟨made, t'', hmade⟩ := hproject.2 "blog/index.html".toList "index.html".toList
    { steps := ["projects", "blog", "index.html"].map fun n => .name n.toList }
    (by decide +kernel) hname (by decide +kernel) (toOption_eq_some.1 (by decide +kernel))
  exact ⟨item, t', made, t'', h, hmade⟩

/-- **A project is not always a directory**: a pattern that matches every name makes it a file. -/
theorem not_always_directory : ¬ ∀ (w : Workspace) (t t' : FileTree) (path project : Text)
    (item : Item) (home : List Text), w.config.templateGlobs = .ok w.globs →
      Path.names? path = some [project] → w.create t path = (.ok item, t') →
        t.walk [] (Path.steps w.storage.root) = .ok home →
          t'.entry? (home ++ [project]) = some .directory := by
  intro hall
  obtain ⟨item, t', h⟩ := exists_create_noProjects ["*".toList]
  have hsome : (patterned ["*".toList]).config.templateGlobs.toOption.isSome := by decide +kernel
  have hglobs := templateGlobs_patterned hsome
  obtain ⟨home, hhome, hadds⟩ := (made_of_create h).adds
  have hdir := hall _ _ _ _ _ _ _ hglobs names?_blog h hhome
  obtain rfl := item_of_create names?_blog h
  have hfile := hadds.entry?_eq (home ++ ["blog".toList])
  rw [if_pos rfl, hdir, if_pos (by decide +kernel)] at hfile
  cases hfile

end PageFields.Workspace
