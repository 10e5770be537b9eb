import PageFields.Proofs.Storage.Project
import PageFields.Proofs.Workspace.Atomic
import PageFields.Proofs.Workspace.Listing

/-! # Workspaces: projects are isolated from each other

What an operation answers for an item is made of what is in the project of the item, and an update
changes nothing else (`perform_isolated`): with any text of the item, any parent that it names and
any directory of templates, the rest of the file tree is neither read nor written. A folder is
listed name by name, so that the order of the entries does not matter (`listing_congr`). -/

namespace PageFields.Workspace

open FileTree Storage

/-! ### Listings -/

theorem entryOf_congr {w : Workspace} {t u : FileTree} (h : Agree t u [])
    (hlisting : ∀ names, w.listing names t = w.listing names u) (names : List Text) (name : Text) :
    w.entryOf names name t = w.entryOf names name u := by
  have hlength : t.entries.length = u.entries.length := by
    obtain rfl | ⟨es, es', rfl, rfl⟩ := h.eq_or_directories
    · rfl
    · exact h.length_eq
  unfold entryOf
  rw [hlisting, hlength]

/-- **A folder is listed alike in trees that agree.** The induction is on the tree; both directories
have the same names, so that they are in the same order and the entries are those for the same
names. -/
theorem listing_congr (w : Workspace) {t u : FileTree} (h : Agree t u []) (names : List Text) :
    w.listing names t = w.listing names u := by
  induction h.left generalizing u names with
  | file content => rw [h.eq_of_file]
  | @directory es hnodup _ ih =>
    obtain ⟨es', rfl⟩ := h.exists_directory
    cases h.right with | directory hnodup' =>
    have hentry : ∀ name, w.entryAt names es name = w.entryAt names es' name := by
      intro name
      unfold entryAt
      cases ha : es.lookup name with
      | none =>
        have hb : es'.lookup name = none := by
          have hsome := h.isSome_lookup name
          rw [ha] at hsome
          simpa using hsome.symm
        rw [hb]
      | some a =>
        obtain ⟨b, hb, hab⟩ := h.exists_lookup ha
        rw [hb, Option.getD_some, Option.getD_some]
        exact entryOf_congr hab (fun names => ih _ (mem_of_lookup ha) hab names) names name
    have hnames : (es.map Prod.fst).mergeSort Text.le = (es'.map Prod.fst).mergeSort Text.le :=
      Text.mergeSort_eq_of_perm id h.perm_names (by rwa [List.map_id])
    rw [listing_eq_mapM w names hnodup, listing_eq_mapM w names hnodup', hnames, funext hentry]

/-! ### Operations on one item -/

theorem exists_classify (w : Workspace) {path : Text} {names : List Text}
    (h : Path.names? path = some names) : ∃ kind, w.classify path = .ok ⟨kind, names⟩ :=
  ⟨Item.kindOf w.config w.globs names, classify_eq_ok.2 ⟨h, rfl⟩⟩

/-- What can be asked of a workspace about one item. -/
inductive Operation
  | render (path : Text)
  | templates (path : Text)
  | preview (request : EditRequest)
  | update (request : EditRequest) (o : Occasion)

/-- The path of the item that an operation is about. -/
def Operation.path : Operation → Text
  | .render path => path
  | .templates path => path
  | .preview request => request.path
  | .update request _ => request.path

/-- What an operation answers. -/
inductive Answer
  | view (view : ItemView)
  | names (names : List Text)
  | text (text : Text)
  | fingerprint (fingerprint : Fingerprint)

/-- Carries out an operation: the answer and the tree afterwards. -/
def perform (w : Workspace) (t : FileTree) : Operation → Except Error Answer × FileTree
  | .render path => ((w.render t path).map .view, t)
  | .templates path => ((w.templates t path).map .names, t)
  | .preview request => ((w.preview request).map .text, t)
  | .update request o => ((w.update t request o).1.map .fingerprint, (w.update t request o).2)

/-- The temporary file of the operation, if it has one, takes no other's place, and can be removed
again. -/
def Operation.Tidy (w : Workspace) (t : FileTree) : Operation → Prop
  | .update request o => w.TidyAt o t request.path
  | _ => True

section Isolated

variable {w : Workspace} {t u : FileTree} {project : Text} {home : List Text}
  (h : SameProject w.storage project home t u) {rest : List Text}

include h

theorem folder_congr {path : Text} (hinto : Into project path) (names : List Text) (display : Text)
    (collapsed : Bool) :
    (w.storage.route path >>= fun r => attempt path (t.stat r) >>= fun found =>
        w.listing names found >>= fun children =>
          (pure (.folder display collapsed children) : Except Error ItemView)) =
      (w.storage.route path >>= fun r => attempt path (u.stat r) >>= fun found =>
        w.listing names found >>= fun children => pure (.folder display collapsed children)) := by
  cases hroute : w.storage.route path with
  | error e => rfl
  | ok r =>
    obtain ⟨full, hfull, hr⟩ := route_eq_ok.1 hroute
    rw [ok_bind, ok_bind]
    rcases h.stat_congr hinto hfull hr with ⟨fault, ht, hu⟩ | ⟨a, b, ht, hu, hab⟩
    · rw [ht, hu]
    · rw [ht, hu]
      show w.listing names a >>= _ = w.listing names b >>= _
      rw [listing_congr w hab]

theorem render_congr {path : Text} (hpath : Path.names? path = some (project :: rest)) :
    w.render t path = w.render u path := by
  obtain ⟨kind, hitem⟩ := exists_classify w hpath
  have hnames := isName_of_classify hitem
  have hinto : Into project (Path.ofNames (project :: rest)) := into_ofNames hnames
  have hproject : Path.IsName project := hnames project List.mem_cons_self
  unfold render
  rw [hitem, ok_bind, ok_bind]
  simp only [Item.path, Item.projectDir, List.head?_cons, Option.getD_some, h.read_congr hinto,
    h.templateLoader_congr hproject, h.availableTemplates_congr hproject, h.entryKind_congr hinto,
    folder_congr h hinto]

theorem templates_congr {path : Text} (hpath : Path.names? path = some (project :: rest)) :
    w.templates t path = w.templates u path := by
  obtain ⟨kind, hitem⟩ := exists_classify w hpath
  have hproject : Path.IsName project := isName_of_classify hitem project List.mem_cons_self
  unfold templates
  rw [hitem, ok_bind, ok_bind]
  simp only [Item.projectDir, List.head?_cons, Option.getD_some, hproject.ne_nil, if_false,
    h.availableTemplates_congr hproject]

theorem update_congr {request : EditRequest} {o : Occasion}
    (hpath : Path.names? request.path = some (project :: rest))
    (htidy : rest = [] → w.TidyAt o t request.path ∧ w.TidyAt o u request.path) :
    SameEffect project home t u (w.update t request o) (w.update u request o) := by
  obtain ⟨kind, hitem⟩ := exists_classify w hpath
  cases hpreview : w.preview request with
  | error e =>
    rw [update_of_error hpreview, update_of_error hpreview]
    exact h.sameEffect _
  | ok text =>
    have hnames := isName_of_classify hitem
    obtain ⟨full, hfull⟩ := exists_resolve w.storage hnames
    rw [update_eq hitem hpreview, update_eq hitem hpreview]
    exact guardedWrite_congr h hnames hfull
      (fun hrest => (htidy hrest).imp (fun ht => ht _ full hitem hfull) fun hu =>
        hu _ full hitem hfull) request.prior text

end Isolated

/-- **Projects are isolated.** Of two trees with the projects directory, which agree on the project
of an item and everything below it, an operation on the item gives the same answer, and they still
agree there afterwards. Everything outside of the project stays as it is; for the other tree this is
the same statement again. The temporary file of an update is outside only if the item is the project
itself, and then it must take no other's place in either tree. -/
theorem perform_isolated {w : Workspace} {t u : FileTree} {project : Text} {home home' : List Text}
    (ht : HasRoot w.storage t home) (hu : HasRoot w.storage u home')
    (hagree : ∀ place, t.entry? (home ++ project :: place) = u.entry? (home' ++ project :: place))
    {operation : Operation} {rest : List Text}
    (hpath : Path.names? operation.path = some (project :: rest))
    (htidy : rest = [] → operation.Tidy w t ∧ operation.Tidy w u) :
    (w.perform t operation).1 = (w.perform u operation).1 ∧
      (∀ place, entry? (w.perform t operation).2 (home ++ project :: place) =
        entry? (w.perform u operation).2 (home' ++ project :: place)) ∧
      ∀ place, ¬ home ++ [project] <+: place →
        entry? (w.perform t operation).2 place = t.entry? place := by
  obtain rfl := walk_unique ht.walk_eq hu.walk_eq
  have h : SameProject w.storage project home t u :=
    ⟨ht, hu, ht.storable, hu.storable, fun q => by simpa using hagree q⟩
  cases operation with
  | render path =>
    exact ⟨congrArg (Except.map Answer.view) (render_congr h hpath), hagree, fun _ _ => rfl⟩
  | templates path =>
    exact ⟨congrArg (Except.map Answer.names) (templates_congr h hpath), hagree, fun _ _ => rfl⟩
  | preview request => exact ⟨rfl, hagree, fun _ _ => rfl⟩
  | update request o =>
    have heffect := (update_congr h hpath htidy).map Answer.fingerprint
    exact ⟨heffect.outcome, heffect.changed.agree, heffect.changed.left⟩

/-! ### A parent in another project -/

/-- A workspace without a configuration file. -/
def defaultWorkspace : Workspace :=
  { config := {}, globs := (Config.templateGlobs {}).toOption.getD []
    storage := ⟨"projects".toList, 100⟩ }

/-- A template with a parent outside of its project. -/
def strayTemplate : Text := "\x7b% extends \"../other/base.html\" %\x7d".toList

/-- A project with this template, and other projects beside it. -/
def beside (others : Entries) : FileTree :=
  .directory [("projects".toList, .directory (("site".toList, .directory
    [("page.html".toList, .file (Text.utf8 strayTemplate))]) :: others))]

/-- The other project, with the parent. -/
def other : Entries := [("other".toList, .directory [("base.html".toList, .file (Text.utf8 []))])]

theorem hasRoot_beside {others : Entries} (hnodup : ("site".toList :: others.map Prod.fst).Nodup)
    (h : ∀ e ∈ others, Storable e.2) :
    HasRoot defaultWorkspace.storage (beside others) ["projects".toList] := by
  have hsteps : Path.steps defaultWorkspace.storage.root = [.name "projects".toList] := by
    decide +kernel
  have hlong : isTooLong "projects".toList = false := by decide +kernel
  refine ⟨Storable.singleton (.directory hnodup ?_), ?_, rfl⟩
  · exact List.forall_mem_cons.2 ⟨Storable.singleton (.file _), h⟩
  · rw [hsteps, walk_name rfl, hlong]
    rfl

/-- An edit of a file beside the projects. -/
def noteEdit : EditRequest :=
  ⟨"notes.txt".toList, Fingerprint.of [], none, .raw ['x']⟩

theorem classify_notes : defaultWorkspace.classify noteEdit.path =
    .ok ⟨.plainFile, ["notes.txt".toList]⟩ := toOption_eq_some.1 (by decide +kernel)

/-- Whether the parent is there or not does not show, and neither does the other project when a file
beside the projects is made. -/
theorem perform_isolated_beside :
    (defaultWorkspace.perform (beside []) (.render "site/page.html".toList)).1 =
        (defaultWorkspace.perform (beside other) (.render "site/page.html".toList)).1 ∧
      (defaultWorkspace.perform (beside []) (.update noteEdit {})).1 =
        (defaultWorkspace.perform (beside other) (.update noteEdit {})).1 := by
  have hfirst : HasRoot defaultWorkspace.storage (beside []) ["projects".toList] :=
    hasRoot_beside (List.nodup_singleton _) nofun
  have hsecond : HasRoot defaultWorkspace.storage (beside other) ["projects".toList] :=
    hasRoot_beside (by decide +kernel) fun e he => by
      rw [List.mem_singleton.1 he]
      exact Storable.singleton (.file _)
  have hpath : Path.names? (Operation.render "site/page.html".toList).path =
      some ["site".toList, "page.html".toList] := by decide +kernel
  have hnote : Path.names? (Operation.update noteEdit {}).path = some ["notes.txt".toList] := by
    decide +kernel
  have htidy : ∀ t, Unused {} t "projects/notes.txt".toList →
      (Operation.update noteEdit {}).Tidy defaultWorkspace t := fun t hunused =>
    (tidyAt_iff classify_notes (toOption_eq_some.1 (by decide +kernel))).2 ⟨hunused, rfl⟩
  exact ⟨(perform_isolated hfirst hsecond (fun place => rfl) hpath nofun).1,
    (perform_isolated hfirst hsecond (fun place => rfl) hnote fun _ =>
      ⟨htidy _ (by decide +kernel), htidy _ (by decide +kernel)⟩).1⟩

end PageFields.Workspace
