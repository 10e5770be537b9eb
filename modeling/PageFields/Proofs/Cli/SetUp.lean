import PageFields.Cli.Run
import PageFields.Proofs.Cli.DryRun
import PageFields.Proofs.Workspace.Discovery

/-! # Command line: a workspace that is set up twice

Setting up a workspace only adds to the file tree, whether it succeeds or fails: a configuration
file where none is found (`setUpConfig_spec`), then directories (`setUpProjects_spec`). If it
succeeds, the workspace `IsSetUp`: a configuration file is found, it can be read, and the projects
directory that it names is there. Setting up such a workspace again changes nothing
(`IsSetUp.setUp`), so the command can be repeated (`run_init`). -/

namespace PageFields.Cli

open FileTree PageFields.Path Workspace

variable {t t' : FileTree} {root projects : Text}

/-! ### The configuration file -/

theorem toList_append_eq {s u : String} {a b : Text} (hs : s.toList = a) (hu : u.toList = b) :
    (s ++ u).toList = a ++ b := by
  rw [String.toList_append, hs, hu]

theorem ofToml_sampleConfig : Config.ofToml sampleConfig = .ok {} := by
  have hpieces : ∃ chars, sampleConfig = chars ∧
      ∀ l ∈ Text.splitOn '\n' chars, Toml.isRemark l = true := by
    constructor
    constructor
    · -- each string between two appends is read by itself, since reading the whole one is slow
      unfold sampleConfig
      iterate 7 apply toList_append_eq
      all_goals exact String.toList_ofList
    · decide +kernel
  obtain ⟨chars, hchars, hremarks⟩ := hpieces
  rw [hchars]
  exact ofToml_remarks hremarks

theorem foundAt_of_writeFile {r : Route} {bytes : ByteArray}
    (hr : Route.ofText (newConfigFile root) = .ok r) (hnone : configFile? t root = none)
    (hwrite : t.writeFile r bytes = .ok t') :
    t.Keeps t' ∧ FoundAt t' (newConfigFile root) bytes := by
  have hmem : "pagesmith.toml".toList ∈ Config.fileNames := List.mem_cons_self
  obtain ⟨s, rfl, hlong, hfree, rfl⟩ := exists_spot_of_writeFile hwrite
  have hvacant : s.entries.lookup s.name = none := by
    refine Spot.lookup_eq_none hlong hfree fun old hold => ?_
    exact not_foundAt_of_none hnone hmem (foundAt_iff.2 ⟨_, hr, hold⟩)
  exact ⟨(s.adds_put hvacant rfl).keeps,
    foundAt_iff.2 ⟨_, hr, Spot.stat_afterPut hlong hvacant (.file bytes)⟩⟩

/-- **After the first step** a configuration file is found. The configuration is the one that held
before: a new file says what holds without one. -/
theorem setUpConfig_spec {line : Text} (h : setUpConfig root t = .ok (line, t')) :
    t.Keeps t' ∧ (∃ p, configFile? t' root = some p) ∧
      loadConfig t' root = loadConfig t root := by
  unfold setUpConfig at h
  cases hfile : configFile? t root with
  | some p =>
    rw [hfile] at h
    cases h
    exact ⟨.refl t, ⟨p, hfile⟩, rfl⟩
  | none =>
    rw [hfile] at h
    obtain ⟨r, hr, h⟩ := bind_eq_ok.1 h
    obtain ⟨u, hwrite, h⟩ := bind_eq_ok.1 h
    cases h
    obtain ⟨hkeeps, hfound⟩ := foundAt_of_writeFile hr hfile hwrite
    have hnew := configFile?_of_foundAt hfound
    have hbefore : loadConfig t root = .ok {} := by
      unfold loadConfig
      rw [hfile]
    refine ⟨hkeeps, ⟨_, hnew⟩, ?_⟩
    rw [loadConfig_of_foundAt hnew hfound, Text.ofUtf8?_utf8, Option.elim_some,
      ofToml_sampleConfig, hbefore]

/-! ### The projects directory -/

/-- A directory is at a path. -/
def DirectoryAt (t : FileTree) (p : Text) : Prop :=
  ∃ r es, Route.ofText p = .ok r ∧ t.stat r = .ok (.directory es)

/-- **The second step** only makes directories, among them the one for the projects. -/
theorem setUpProjects_spec (root : Text) (t : FileTree) (hne : projects ≠ []) :
    t.Grows (setUpProjects root projects t).2 ∧
      ((∃ more, (setUpProjects root projects t).1 = .ok more) →
        DirectoryAt (setUpProjects root projects t).2 projects) := by
  unfold setUpProjects
  cases hr : Route.ofText projects with
  | error fault => exact ⟨.refl t, fun ⟨_, h⟩ => nomatch h⟩
  | ok r =>
    by_cases hthere : (t.stat r).toOption.any isDirectory = true
    · obtain ⟨es, hes⟩ := any_isDirectory.1 hthere
      simp only [if_pos hthere]
      exact ⟨.refl t, fun _ => ⟨r, es, hr, hes⟩⟩
    · have hsteps : r.steps ≠ [] := by
        rw [Storage.steps_of_ofText hr]
        exact steps_ne_nil hne
      obtain ⟨hgrows, hmade⟩ := createDirectories_spec t hsteps
      simp only [if_neg hthere]
      cases hcreate : t.createDirectories r r.steps.length with
      | mk outcome t' =>
        rw [hcreate] at hgrows hmade
        cases outcome with
        | error fault => exact ⟨hgrows, fun ⟨_, h⟩ => nomatch h⟩
        | ok u =>
          obtain ⟨es, hes⟩ := hmade rfl
          exact ⟨hgrows, fun _ => ⟨r, es, hr, hes⟩⟩

theorem setUpProjects_of_directoryAt (root : Text) (h : DirectoryAt t projects) :
    ∃ more, setUpProjects root projects t = (.ok more, t) := by
  obtain ⟨r, es, hr, hes⟩ := h
  unfold setUpProjects
  simp only [hr, if_pos (any_isDirectory.2 ⟨es, hes⟩)]
  exact ⟨_, rfl⟩

/-! ### Both -/

/-- The workspace is set up: a configuration file is found and can be read, and the projects
directory that it names is there. -/
structure IsSetUp (t : FileTree) (root : Text) (config : Config) : Prop where
  file : ∃ p, configFile? t root = some p
  loads : loadConfig t root = .ok config
  projects : DirectoryAt t (Path.join root config.projectsDir)

/-- **A workspace that is set up stays as it is.** -/
theorem IsSetUp.setUp {config : Config} (h : IsSetUp t root config) :
    (setUp root t).1.code = 0 ∧ (setUp root t).2 = t := by
  obtain ⟨p, hp⟩ := h.file
  obtain ⟨more, hmore⟩ := setUpProjects_of_directoryAt root h.projects
  unfold Cli.setUp setUpConfig
  simp only [hp, h.loads, hmore, and_true]
  rfl

/-- **How the command can end**: without a configuration file, with one that cannot be read, or as
making the projects directory ends. -/
theorem setUp_cases (root : Text) (t : FileTree) :
    (∃ fault, setUp root t = (.failed (.file fault), t)) ∨
      ∃ line t', setUpConfig root t = .ok (line, t') ∧
        ((∃ e, setUp root t = ({ printed := line, failure := some (.workspace e) }, t')) ∨
          ∃ config, loadConfig t' root = .ok config ∧
            (setUp root t).2 = (setUpProjects root (join root config.projectsDir) t').2 ∧
            ((setUp root t).1.code = 0 →
              ∃ more, (setUpProjects root (join root config.projectsDir) t').1 = .ok more)) := by
  unfold setUp
  cases hfirst : setUpConfig root t with
  | error fault => exact .inl ⟨fault, rfl⟩
  | ok done =>
    obtain ⟨line, t'⟩ := done
    refine .inr ⟨line, t', rfl, ?_⟩
    cases hload : loadConfig t' root with
    | error e =>
      refine .inl ⟨e, ?_⟩
      simp only [hload]
    | ok config =>
      refine .inr ⟨config, rfl, ?_⟩
      simp only [hload]
      cases setUpProjects root (join root config.projectsDir) t' with
      | mk made t₂ =>
        cases made with
        | error fault => exact ⟨rfl, fun hcode => absurd hcode (code_failed_ne_zero (.file fault))⟩
        | ok more => exact ⟨rfl, fun _ => ⟨more, rfl⟩⟩

/-- **Setting up a workspace** only adds to the tree. If it succeeds, the workspace is set up, with
the configuration that it had. -/
theorem setUp_spec (t : FileTree) (hroot : root ≠ []) : t.Keeps (setUp root t).2 ∧
    ((setUp root t).1.code = 0 →
      ∃ config, loadConfig t root = .ok config ∧ IsSetUp (setUp root t).2 root config) := by
  rcases setUp_cases root t with ⟨fault, heq⟩ | ⟨line, t', hfirst, hrest⟩
  · rw [heq]
    exact ⟨.refl t, fun hcode => absurd hcode (code_failed_ne_zero _)⟩
  obtain ⟨hkeeps, ⟨p, hp⟩, hsame⟩ := setUpConfig_spec hfirst
  rcases hrest with ⟨e, heq⟩ | ⟨config, hload, htree, hcode⟩
  · rw [heq]
    exact ⟨hkeeps, fun hcode => absurd hcode (code_failed_ne_zero (.workspace e))⟩
  obtain ⟨hgrows, hmade⟩ :=
    setUpProjects_spec root t' (join_ne_nil_of_base hroot config.projectsDir)
  rw [← htree] at hgrows hmade
  obtain ⟨hfile, hstill⟩ := configFile?_grows hgrows hp
  refine ⟨hkeeps.trans hgrows.keeps, fun hzero => ⟨config, hsame ▸ hload, ?_⟩⟩
  exact ⟨⟨p, hfile⟩, hstill.trans hload, hmade (hcode hzero)⟩

/-! ### The command -/

/-- The directory of the workspace, as the arguments name it in the directory `here`. -/
def workspaceIn (here : Text) (root : Option Text) : Text := (root.map (join here)).getD here

theorem workspaceIn_ne_nil {here : Text} (h : here ≠ []) (root : Option Text) :
    workspaceIn here root ≠ [] := by
  cases root with
  | none => exact h
  | some p => exact join_ne_nil_of_base h p

variable {args : List Text} {named : Option Text} {wantsColor : Bool}

theorem run_eq_setUp (hargs : Request.ofArguments args = .run named wantsColor .init)
    (color : Bool) (here : Text) (t : FileTree) (o : Occasion) :
    run color here args t o = setUp (workspaceIn here named) t := by
  unfold run
  rw [hargs]
  rfl

/-- **Setting up a workspace is safe, and can be repeated.** Whatever comes of the command, all that
was in the file tree is still there as it was. If it succeeds, then the workspace is set up with the
configuration that it had before, and the same command succeeds again and leaves the tree as it is.
-/
theorem run_init {here : Text} (hhere : here ≠ [])
    (hargs : Request.ofArguments args = .run named wantsColor .init) (color : Bool)
    (t : FileTree) (o o' : Occasion) :
    t.Keeps (run color here args t o).2 ∧
      ((run color here args t o).1.code = 0 →
        (∃ config, loadConfig t (workspaceIn here named) = .ok config ∧
          IsSetUp (run color here args t o).2 (workspaceIn here named) config) ∧
        (run color here args (run color here args t o).2 o').1.code = 0 ∧
        (run color here args (run color here args t o).2 o').2 = (run color here args t o).2) := by
  have hrun := run_eq_setUp hargs color here
  obtain ⟨hkeeps, hdone⟩ := setUp_spec t (workspaceIn_ne_nil hhere named)
  rw [hrun t o]
  refine ⟨hkeeps, fun hcode => ?_⟩
  obtain ⟨config, hload, hsetUp⟩ := hdone hcode
  rw [hrun]
  exact ⟨⟨config, hload, hsetUp⟩, hsetUp.setUp⟩

/-- A workspace whose hidden configuration file names a projects directory below the name of the
other configuration file. -/
def hiddenConfig : FileTree :=
  .directory [(".pagesmith.toml".toList,
    .file (Text.utf8 "projects_dir = \"pagesmith.toml/sites\"\n".toList))]

/-- There, this other name becomes the name of a directory, and the hidden file still counts. -/
theorem run_init_hidden : Request.ofArguments ["init".toList] = .run none true .init ∧
    (run true ['/'] ["init".toList] hiddenConfig).1.code = 0 ∧
    ((run true ['/'] ["init".toList] hiddenConfig).2.get? ["pagesmith.toml".toList]).any
      isDirectory = true ∧
    ∃ config, IsSetUp (run true ['/'] ["init".toList] hiddenConfig).2 ['/'] config := by
  have hargs : Request.ofArguments ["init".toList] = .run none true .init := by decide +kernel
  have hcode : (run true ['/'] ["init".toList] hiddenConfig).1.code = 0 := by decide +kernel
  obtain ⟨-, hdone⟩ := run_init (List.cons_ne_nil '/' []) hargs true hiddenConfig {} {}
  obtain ⟨⟨config, -, hsetUp⟩, -⟩ := hdone hcode
  exact ⟨hargs, hcode, by decide +kernel, config, hsetUp⟩

end PageFields.Cli
