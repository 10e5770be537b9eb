import PageFields.Proofs.Storage.Find
import PageFields.Proofs.Workspace.Isolation
import PageFields.Proofs.Workspace.Tree

/-! # Workspaces: what is shown of a folder

What is shown of a folder is the listing of what its path leads to (`render_eq_folder`). So it is
the tree of everything that is reached from the folder, each place once, in order and with its kind
(`render_folder`). -/

namespace PageFields

namespace Workspace

open FileTree TreeEntry Storage

variable {w : Workspace} {t : FileTree} {path : Text}

theorem render_of_not_isFile {item : Item} (hitem : w.classify path = .ok item)
    (hkind : item.kind.isFile = false) : w.render t path =
      w.storage.entryKind t item.path >>= fun there =>
        match there with
        | none => .error (.notFound item.display)
        | some _ => w.storage.route item.path >>= fun r => attempt item.path (t.stat r) >>=
            fun found => w.listing item.names found >>= fun children =>
              .ok (.folder item.display (decide (item.kind = .collapsedFolder)) children) := by
  unfold render
  rw [hitem, ok_bind]
  rcases isFile_cases item.kind with h | h | h
  · rw [h] at hkind
    cases hkind
  · rw [h]
    rfl
  · rw [h]
    rfl

theorem isFile_of_render {item : Item} {display : Text} {collapsed : Bool}
    {children : List TreeEntry} (hitem : w.classify path = .ok item)
    (h : w.render t path = .ok (.folder display collapsed children)) :
    item.kind.isFile = false := by
  unfold render at h
  rw [hitem, ok_bind] at h
  cases hkind : item.kind with
  | plainFile =>
    simp only [hkind] at h
    obtain ⟨seen, -, h⟩ := bind_eq_ok.1 h
    cases h
  | templateFile =>
    simp only [hkind] at h
    obtain ⟨seen, -, h⟩ := bind_eq_ok.1 h
    obtain ⟨d, -, h⟩ := bind_eq_ok.1 h
    obtain ⟨templates, -, h⟩ := bind_eq_ok.1 h
    cases h
  | folder => rfl
  | collapsedFolder => rfl

/-- **What is shown of a folder** is the listing of what the path leads to. -/
theorem render_eq_folder {display : Text} {collapsed : Bool} {children : List TreeEntry} :
    w.render t path = .ok (.folder display collapsed children) ↔
      ∃ item r found, w.classify path = .ok item ∧ item.kind.isFile = false ∧
        w.storage.route item.path = .ok r ∧ t.stat r = .ok found ∧
          w.listing item.names found = .ok children ∧ display = item.display ∧
            collapsed = decide (item.kind = .collapsedFolder) := by
  constructor
  · intro h
    obtain ⟨item, hitem, -⟩ := bind_eq_ok.1 h
    have hkind := isFile_of_render hitem h
    rw [render_of_not_isFile hitem hkind] at h
    obtain ⟨there, -, h⟩ := bind_eq_ok.1 h
    cases there with
    | none => cases h
    | some k =>
      obtain ⟨r, hr, h⟩ := bind_eq_ok.1 h
      obtain ⟨found, hstat, h⟩ := bind_eq_ok.1 h
      obtain ⟨children, hl, h⟩ := bind_eq_ok.1 h
      cases h
      exact ⟨item, r, found, hitem, hkind, hr, attempt_eq_ok.1 hstat, hl, rfl, rfl⟩
  · rintro ⟨item, r, found, hitem, hkind, hr, hstat, hl, rfl, rfl⟩
    obtain ⟨k, hthere⟩ := entryKind_eq_some.2 ⟨r, found, hr, hstat⟩
    rw [render_of_not_isFile hitem hkind, hthere, ok_bind]
    refine bind_eq_ok.2 ⟨r, hr, bind_eq_ok.2 ⟨found, attempt_eq_ok.2 hstat, ?_⟩⟩
    rw [hl, ok_bind]

/-- An entry that is shown for what is at these names. -/
structure IsEntry (w : Workspace) (names : List Text) (t : FileTree) (e : TreeEntry) : Prop where
  name : names.getLast? = some e.name
  path : e.path = Path.display (Path.ofNames names)
  kind : w.classify (Path.ofNames names) = .ok ⟨e.kind, names⟩
  children : e.children ≠ [] → e.kind = .folder ∧ t.isDirectory = true
  ordered : e.children.Pairwise fun a b => Text.bytes a.name < Text.bytes b.name
  count : e.count = if e.kind = .collapsedFolder then some t.entries.length else none

/-- A tree of entries for everything that is reached from what is at these names. -/
structure IsTree (w : Workspace) (names : List Text) (t : FileTree) (l : List TreeEntry) :
    Prop where
  nodup : ((placesIn l).map Prod.fst).Nodup
  mem_iff : ∀ place, place ∈ (placesIn l).map Prod.fst ↔ ∃ u, Reaches w names t place u
  ordered : l.Pairwise fun a b => Text.bytes a.name < Text.bytes b.name
  isEntry : ∀ place e, (place, e) ∈ placesIn l →
    ∃ u, t.get? place = some u ∧ IsEntry w (names ++ place) u e

theorem Describes.isEntry {names : List Text} {e : TreeEntry} (h : Describes w names t e)
    (ht : t.Storable) (hnames : ∀ n ∈ names, Path.IsName n) : IsEntry w names t e := by
  have hordered : e.kind = .folder →
      e.children.Pairwise fun a b => Text.bytes a.name < Text.bytes b.name := fun hkind =>
    (pairwise_of_listing ht (h.listing hkind)).imp Text.bytes_lt_bytes.2
  refine ⟨h.name, h.path, ?_, fun hne => ?_, ?_, h.count⟩
  · rw [h.kind]
    exact classify_ofNames w hnames
  · have hkind : e.kind = .folder := by
      by_contra hkind
      exact hne (h.leaf hkind)
    refine ⟨hkind, ?_⟩
    cases t with
    | directory es => rfl
    | file content =>
      have hnil := h.listing hkind
      cases hc : e.children with
      | nil => exact absurd hc hne
      | cons c l =>
        rw [hc] at hnil
        cases hnil
  · by_cases hkind : e.kind = .folder
    · exact hordered hkind
    · rw [h.leaf hkind]
      exact .nil

/-- **A listing is the tree** of what it lists. -/
theorem isTree_of_listing {names : List Text} {l : List TreeEntry} (ht : t.Storable)
    (hnamed : t.Named) (hnames : ∀ n ∈ names, Path.IsName n) (h : w.listing names t = .ok l) :
    IsTree w names t l := by
  refine ⟨nodup_placesIn_of_listing ht h, fun place => ⟨fun hmem => ?_, ?_⟩,
    (pairwise_of_listing ht h).imp Text.bytes_lt_bytes.2, fun place e he => ?_⟩
  · obtain ⟨⟨place, e⟩, he, rfl⟩ := List.mem_map.1 hmem
    obtain ⟨u, hu, -⟩ := exists_reaches ht hnamed hnames h he
    exact ⟨u, hu⟩
  · rintro ⟨u, hu⟩
    obtain ⟨e, he⟩ := exists_mem_placesIn hu ht h
    exact List.mem_map.2 ⟨_, he, rfl⟩
  · obtain ⟨u, hu, hdescribes⟩ := exists_reaches ht hnamed hnames h he
    have hplace := (hnamed.of_get? hu.get?_eq).2
    exact ⟨u, hu.get?_eq, hdescribes.isEntry (ht.of_get? hu.get?_eq)
      (List.forall_mem_append.2 ⟨hnames, hplace⟩)⟩

theorem isTree_of_render (ht : t.Storable) (hnamed : t.Named) {display : Text} {collapsed : Bool}
    {children : List TreeEntry}
    (h : w.render t path = .ok (.folder display collapsed children)) :
    ∃ item home found, w.classify path = .ok item ∧
      t.walk [] (Path.steps w.storage.root) = .ok home ∧
        t.get? (home ++ item.names) = some found ∧ IsTree w item.names found children := by
  obtain ⟨item, r, found, hitem, -, hr, hstat, hlisting, -, -⟩ := render_eq_folder.1 h
  have hnames := isName_of_classify hitem
  obtain ⟨home, hhome, hget⟩ := exists_home hnames hr hstat
  exact ⟨item, home, found, hitem, hhome, hget, isTree_of_listing (ht.of_get? hget)
    (hnamed.of_get? hget).1 hnames hlisting⟩

/-- **The tree of a folder is complete, in order and without repetition**, in every tree that a file
system can hold. A folder that is there is shown unless the path of a folder in it is too long. -/
theorem render_folder (ht : t.Storable) (hnamed : t.Named) :
    (∀ display collapsed children, w.render t path = .ok (.folder display collapsed children) →
      ∃ item home found, w.classify path = .ok item ∧
        t.walk [] (Path.steps w.storage.root) = .ok home ∧
          t.get? (home ++ item.names) = some found ∧ IsTree w item.names found children) ∧
    ∀ item home found k, w.classify path = .ok item → item.kind.isFile = false →
      w.storage.entryKind t item.path = .ok (some k) →
        t.walk [] (Path.steps w.storage.root) = .ok home →
          t.get? (home ++ item.names) = some found →
      ((∃ display collapsed children,
          w.render t path = .ok (.folder display collapsed children)) ↔
        ∀ place u kind, Reaches w item.names found place u →
          w.classify (Path.ofNames (item.names ++ place)) = .ok ⟨kind, item.names ++ place⟩ →
            kind.isFile = false →
              ∃ r, w.storage.route (Path.ofNames (item.names ++ place)) = .ok r) := by
  constructor
  · intro display collapsed children h
    exact isTree_of_render ht hnamed h
  · intro item home found k hitem hkind hthere hhome hget
    have hnames := isName_of_classify hitem
    obtain ⟨r, found', hr, hstat⟩ := entryKind_eq_some.1 ⟨k, hthere⟩
    obtain ⟨home', hhome', hget'⟩ := exists_home hnames hr hstat
    obtain rfl : home = home' := Except.ok.inj (hhome.symm.trans hhome')
    obtain rfl : found = found' := Option.some_inj.1 (hget.symm.trans hget')
    have hlisting := exists_listing (w := w) (ht.of_get? hget) (hnamed.of_get? hget).1 hnames
    constructor
    · rintro ⟨display, collapsed, children, h⟩ place u kind hreaches hclassify hfile
      obtain ⟨item', r', found', hitem', -, hr', hstat', hchildren, -, -⟩ := render_eq_folder.1 h
      obtain rfl : item = item' := Except.ok.inj (hitem.symm.trans hitem')
      obtain rfl : r = r' := Except.ok.inj (hr.symm.trans hr')
      obtain rfl : found = found' := Except.ok.inj (hstat.symm.trans hstat')
      refine hlisting.1 ⟨children, hchildren⟩ place u hreaches ?_
      rw [← (classify_eq_ok.1 hclassify).2]
      exact hfile
    · intro h
      obtain ⟨l, hl⟩ := hlisting.2 fun place u hreaches hfile => by
        have hplace := List.forall_mem_append.2 ⟨hnames, (hnamed.of_get? hget).1.of_get?
          hreaches.get?_eq |>.2⟩
        exact h place u _ hreaches (classify_ofNames w hplace) hfile
      exact ⟨_, _, l, render_eq_folder.2 ⟨item, r, found, hitem, hkind, hr, hstat, hl, rfl, rfl⟩⟩

/-! ### A project with a folder and a collapsed folder -/

/-- A tree with one project, which has these entries. -/
def oneProject (es : Entries) : FileTree :=
  .directory [("projects".toList, .directory [("site".toList, .directory es)])]

theorem storable_oneProject {es : Entries} (h : Storable (.directory es)) :
    (oneProject es).Storable := Storable.singleton (Storable.singleton h)

theorem named_oneProject {es : Entries} (h : Named (.directory es)) : (oneProject es).Named :=
  .singleton (by decide) (.singleton (by decide) h)

theorem render_oneProject {es : Entries} {l : List TreeEntry}
    (h : defaultWorkspace.listing ["site".toList] (.directory es) = .ok l) :
    defaultWorkspace.render (oneProject es) "site".toList =
      .ok (.folder "site".toList false l) := by
  have hlong : isTooLong "projects".toList = false ∧ isTooLong "site".toList = false := by
    decide +kernel
  have hstat : (oneProject es).stat { steps := [.name "projects".toList, .name "site".toList] } =
      .ok (.directory es) := by
    rw [stat_eq, if_neg (by decide), walk_name rfl, walk_name rfl, hlong.1, hlong.2]
    rfl
  exact render_eq_folder.2 ⟨⟨.folder, ["site".toList]⟩, _, _,
    classify_eq_ok.2 ⟨by decide +kernel, by decide +kernel⟩, rfl, by decide +kernel, hstat, h,
    rfl, rfl⟩

/-- The entries of a project. -/
def siteEntries : Entries :=
  [("pages".toList, .directory [("about.html".toList, .file (Text.utf8 []))]),
    ("static".toList, .directory [("a".toList, empty), ("b".toList, empty)])]

/-- The listing of the project. -/
def siteListing : List TreeEntry :=
  [⟨"pages".toList, "site/pages".toList, .folder,
      [⟨"about.html".toList, "site/pages/about.html".toList, .templateFile, [], none⟩], none⟩,
    ⟨"static".toList, "site/static".toList, .collapsedFolder, [], some 2⟩]

theorem storable_siteEntries : Storable (.directory siteEntries) := by
  have hempty : Storable empty := .directory List.nodup_nil nofun
  refine .directory (by decide) (List.forall_mem_cons.2
    ⟨Storable.singleton (.file _), List.forall_mem_singleton.2 ?_⟩)
  exact .directory (by decide)
    (List.forall_mem_cons.2 ⟨hempty, List.forall_mem_singleton.2 hempty⟩)

theorem named_siteEntries : Named (.directory siteEntries) := by
  have hempty : Named empty := .directory nofun nofun
  refine .directory (by decide) (List.forall_mem_cons.2 ⟨?_, List.forall_mem_singleton.2 ?_⟩)
  · exact .singleton (by decide) (.file _)
  · exact .directory (by decide)
      (List.forall_mem_cons.2 ⟨hempty, List.forall_mem_singleton.2 hempty⟩)

theorem listing_site : defaultWorkspace.listing ["site".toList] (.directory siteEntries) =
    .ok siteListing := by
  have hpages : defaultWorkspace.listing ["site".toList, "pages".toList]
      (.directory [("about.html".toList, .file (Text.utf8 []))]) = .ok
        [⟨"about.html".toList, "site/pages/about.html".toList, .templateFile, [], none⟩] :=
    listing_of_pairwise _ _ (by decide) (by decide)
      (.cons (entryOf_of_isFile (by decide +kernel) rfl) .nil)
  refine listing_of_pairwise _ _ (by decide) (by decide) (.cons ?_ (.cons ?_ .nil))
  · rw [entryAt, entryOf_of_folder (by decide +kernel)]
    exact bind_eq_ok.2 ⟨_, rfl, bind_eq_ok.2 ⟨_, hpages, rfl⟩⟩
  · rw [entryAt, entryOf_of_collapsed (by decide +kernel)]
    exact bind_eq_ok.2 ⟨_, rfl, rfl⟩

/-- What is shown of the project is the tree of what is in it. -/
theorem render_folder_site : ∃ item home found,
    defaultWorkspace.classify "site".toList = .ok item ∧
      (oneProject siteEntries).walk [] (Path.steps defaultWorkspace.storage.root) = .ok home ∧
        (oneProject siteEntries).get? (home ++ item.names) = some found ∧
          IsTree defaultWorkspace item.names found siteListing :=
  (render_folder (storable_oneProject storable_siteEntries)
    (named_oneProject named_siteEntries)).1 _ _ _ (render_oneProject listing_site)

end Workspace

end PageFields
