import PageFields.Proofs.Workspace.Folder

/-! # Workspaces: the listed paths

The path of a listed entry is a form for messages, in which a backslash is a slash. So it addresses
the entry exactly if there is no backslash in the names that lead to it (`classify_display_iff`),
and different entries without one have different paths (`listed_path`). A backslash is an ordinary
character of a name, though: a listed path with one in its names addresses something else, if
anything (`not_listed_path`). -/

namespace PageFields

/-! ### The form of a path in a listing -/

namespace Path

/-- No name has a backslash. -/
def Plain (names : List Text) : Prop := ∀ n ∈ names, '\\' ∉ n

instance (names : List Text) : Decidable (Plain names) := by unfold Plain; infer_instance

theorem mem_join {c : Char} {l : List Text} (h : c ∈ Text.join ['/'] l) :
    c = '/' ∨ ∃ n ∈ l, c ∈ n := by
  induction l with
  | nil => cases h
  | cons n l ih =>
    cases l with
    | nil => exact .inr ⟨n, List.mem_cons_self, h⟩
    | cons m l =>
      rw [Text.join, List.append_assoc, List.mem_append, List.mem_append,
        List.mem_singleton] at h
      rcases h with h | h | h
      · exact .inr ⟨n, List.mem_cons_self, h⟩
      · exact .inl h
      · rcases ih h with hslash | ⟨k, hk, hc⟩
        · exact .inl hslash
        · exact .inr ⟨k, List.mem_cons_of_mem _ hk, hc⟩

theorem mem_join_of_mem {c : Char} {l : List Text} {n : Text} (hn : n ∈ l) (hc : c ∈ n) :
    c ∈ Text.join ['/'] l := by
  induction l with
  | nil => cases hn
  | cons m l ih =>
    cases l with
    | nil => rwa [List.mem_singleton.1 hn] at hc
    | cons k l =>
      rw [Text.join, List.append_assoc, List.mem_append, List.mem_append]
      rcases List.mem_cons.1 hn with rfl | hn
      · exact .inl hc
      · exact .inr (.inr (ih hn))

theorem mem_of_names? {p : Text} {names : List Text} (h : names? p = some names) {n : Text}
    (hn : n ∈ names) {c : Char} (hc : c ∈ n) : c ∈ p := by
  rw [names?_eq] at h
  have hstep := mem_steps_of_mem_components (mem_of_mem_namesIn? h n hn)
  rw [steps_eq, List.mem_append] at hstep
  rcases hstep with hroot | hstep
  · split at hroot
    · simp at hroot
    · cases hroot
  · obtain ⟨piece, hpiece, hname⟩ := List.mem_filterMap.1 hstep
    have hpieceName : piece = n := by
      unfold step? at hname
      split_ifs at hname <;> cases hname
      rfl
    rw [← Text.join_splitOn '/' p]
    exact mem_join_of_mem hpiece (hpieceName ▸ hc)

theorem not_mem_display (p : Text) : '\\' ∉ display p := by
  intro h
  obtain ⟨c, -, hc⟩ := List.mem_map.1 h
  split_ifs at hc
  · cases hc
  · contradiction

theorem display_of_not_mem {p : Text} (h : '\\' ∉ p) : display p = p := by
  unfold display
  refine (List.map_congr_left fun c hc => ?_).trans (List.map_id p)
  exact if_neg fun he : c = '\\' => h (he ▸ hc)

theorem Plain.display_eq {names : List Text} (h : Plain names) :
    display (ofNames names) = ofNames names := by
  refine display_of_not_mem fun hmem => ?_
  rcases mem_join hmem with hslash | ⟨n, hn, hc⟩
  · cases hslash
  · exact h n hn hc

theorem plain_of_names? {p : Text} {names : List Text} (h : names? (display p) = some names) :
    Plain names :=
  fun _ hn hc => not_mem_display p (mem_of_names? h hn hc)

end Path

namespace Workspace

open FileTree TreeEntry Storage

variable {w : Workspace} {t : FileTree} {path : Text}

/-- **A displayed path addresses its item** exactly if no name of the item has a backslash. -/
theorem classify_display_iff {names : List Text} {kind : ItemKind}
    (h : w.classify (Path.ofNames names) = .ok ⟨kind, names⟩) :
    w.classify (Path.display (Path.ofNames names)) = .ok ⟨kind, names⟩ ↔ Path.Plain names := by
  constructor
  · intro hdisplay
    exact Path.plain_of_names? (classify_eq_ok.1 hdisplay).1
  · intro hplain
    rwa [hplain.display_eq]

theorem IsEntry.path_eq {names : List Text} {e : TreeEntry} (h : IsEntry w names t e)
    (hplain : Path.Plain names) : e.path = Path.ofNames names :=
  h.path.trans hplain.display_eq

/-- **Listed paths address the listed items**, as far as no name on the way to them has a backslash:
such an entry and no other has a path that is classified as the item that was listed, and two such
entries have different paths. -/
theorem listed_path (ht : t.Storable) (hnamed : t.Named) {display : Text} {collapsed : Bool}
    {children : List TreeEntry}
    (h : w.render t path = .ok (.folder display collapsed children)) :
    ∃ item home, w.classify path = .ok item ∧
      t.walk [] (Path.steps w.storage.root) = .ok home ∧
      (∀ place e, (place, e) ∈ placesIn children →
        t.entry? (home ++ item.names ++ place) ≠ none ∧
          (w.classify e.path = .ok ⟨e.kind, item.names ++ place⟩ ↔
            Path.Plain (item.names ++ place))) ∧
      ∀ p e q f, (p, e) ∈ placesIn children → (q, f) ∈ placesIn children →
        Path.Plain (item.names ++ p) → Path.Plain (item.names ++ q) → e.path = f.path →
          p = q ∧ e = f := by
  obtain ⟨item, home, found, hitem, hhome, hget, htree⟩ := isTree_of_render ht hnamed h
  refine ⟨item, home, hitem, hhome, fun place e he => ?_, fun p e q f he hf hp hq hpath => ?_⟩
  · obtain ⟨u, hu, hentry⟩ := htree.isEntry place e he
    have hplace : t.get? (home ++ item.names ++ place) = some u := by
      rw [get?_append, hget, Option.bind_some, hu]
    refine ⟨?_, ?_⟩
    · unfold entry?
      rw [hplace]
      exact Option.some_ne_none _
    · rw [hentry.path]
      exact classify_display_iff hentry.kind
  · obtain ⟨u, hu, hentry⟩ := htree.isEntry p e he
    obtain ⟨v, hv, hentry'⟩ := htree.isEntry q f hf
    -- The kind and the names of an item are read off its path.
    have hnames : item.names ++ p = item.names ++ q := by
      have hkind := hentry.kind
      rw [← hentry.path_eq hp, hpath, hentry'.path_eq hq, hentry'.kind] at hkind
      exact (congrArg Item.names (Except.ok.inj hkind)).symm
    have hplaces := List.append_cancel_left hnames
    exact ⟨hplaces, congrArg Prod.snd (List.inj_on_of_nodup_map htree.nodup he hf hplaces)⟩

/-! ### Two files with one listed path -/

/-- The entries of a project with a file in a folder, and a file with a backslash in its name. -/
def slashedEntries : Entries :=
  [("a".toList, .directory [("b.html".toList, .file (Text.utf8 []))]),
    ("a\\b.html".toList, .file (Text.utf8 []))]

/-- The listing of the project. -/
def slashedListing : List TreeEntry :=
  [⟨"a".toList, "site/a".toList, .folder,
      [⟨"b.html".toList, "site/a/b.html".toList, .templateFile, [], none⟩], none⟩,
    ⟨"a\\b.html".toList, "site/a/b.html".toList, .templateFile, [], none⟩]

theorem storable_slashedEntries : Storable (.directory slashedEntries) :=
  .directory (by decide) (List.forall_mem_cons.2
    ⟨Storable.singleton (.file _), List.forall_mem_singleton.2 (.file _)⟩)

theorem named_slashedEntries : Named (.directory slashedEntries) :=
  .directory (by decide) (List.forall_mem_cons.2
    ⟨.singleton (by decide) (.file _), List.forall_mem_singleton.2 (.file _)⟩)

theorem listing_slashed : defaultWorkspace.listing ["site".toList] (.directory slashedEntries) =
    .ok slashedListing := by
  have hfolder : defaultWorkspace.listing ["site".toList, "a".toList]
      (.directory [("b.html".toList, .file (Text.utf8 []))]) = .ok
        [⟨"b.html".toList, "site/a/b.html".toList, .templateFile, [], none⟩] :=
    listing_of_pairwise _ _ (by decide) (by decide)
      (.cons (entryOf_of_isFile (by decide +kernel) rfl) .nil)
  refine listing_of_pairwise _ _ (by decide) (by decide) (.cons ?_ (.cons ?_ .nil))
  · rw [entryAt, entryOf_of_folder (by decide +kernel)]
    exact bind_eq_ok.2 ⟨_, rfl, bind_eq_ok.2 ⟨_, hfolder, rfl⟩⟩
  · exact entryOf_of_isFile (by decide +kernel) rfl

/-- The file in the folder is addressed by its listed path, and no other entry with a plain path is
listed with it. -/
theorem listed_path_slashed : ∃ item home,
    defaultWorkspace.classify "site".toList = .ok item ∧
      (oneProject slashedEntries).walk [] (Path.steps defaultWorkspace.storage.root) = .ok home ∧
      (∀ place e, (place, e) ∈ placesIn slashedListing →
        entry? (oneProject slashedEntries) (home ++ item.names ++ place) ≠ none ∧
          (defaultWorkspace.classify e.path = .ok ⟨e.kind, item.names ++ place⟩ ↔
            Path.Plain (item.names ++ place))) ∧
      ∀ p e q f, (p, e) ∈ placesIn slashedListing → (q, f) ∈ placesIn slashedListing →
        Path.Plain (item.names ++ p) → Path.Plain (item.names ++ q) → e.path = f.path →
          p = q ∧ e = f :=
  listed_path (storable_oneProject storable_slashedEntries)
    (named_oneProject named_slashedEntries) (render_oneProject listing_slashed)

/-- **Listed paths do not always address the listed items**: the file with the backslash is listed
with the path of the other one. -/
theorem not_listed_path : ¬ ∀ (w : Workspace) (t : FileTree) (path display : Text)
    (collapsed : Bool) (children : List TreeEntry), t.Storable → t.Named →
      w.render t path = .ok (.folder display collapsed children) →
        ∃ item, w.classify path = .ok item ∧
          (∀ place e, (place, e) ∈ placesIn children →
            w.classify e.path = .ok ⟨e.kind, item.names ++ place⟩) ∧
          ((placesIn children).map fun p => p.2.path).Nodup := by
  intro h
  obtain ⟨item, -, -, hnodup⟩ := h defaultWorkspace (oneProject slashedEntries) _ _ _ _
    (storable_oneProject storable_slashedEntries) (named_oneProject named_slashedEntries)
    (render_oneProject listing_slashed)
  revert hnodup
  decide

end Workspace

end PageFields
