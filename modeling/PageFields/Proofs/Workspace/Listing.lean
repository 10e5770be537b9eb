import PageFields.Proofs.FileTree.Agree
import PageFields.Proofs.Workspace.Operations

/-! # Workspaces: one level of a listing

A directory is listed name by name (`listing_eq_mapM`): the names are taken in order, and `entryAt`
makes the entry for each of them from what is under it. -/

namespace PageFields.Workspace

open FileTree

/-- The entry of a listing for an entry of a directory. -/
def entryOf (w : Workspace) (names : List Text) (name : Text) (t : FileTree) :
    Except Error TreeEntry :=
  let item : Item := ⟨Item.kindOf w.config w.globs (names ++ [name]), names ++ [name]⟩
  match item.kind with
  | .folder => do
    let _ ← w.storage.route item.path
    let children ← listing w (names ++ [name]) t
    pure (TreeEntry.mk name item.display item.kind children none)
  | .collapsedFolder => do
    let _ ← w.storage.route item.path
    pure (TreeEntry.mk name item.display item.kind [] (some t.entries.length))
  | kind => pure (TreeEntry.mk name item.display kind [] none)

/-- The entry of a listing for a name in a directory. -/
def entryAt (w : Workspace) (names : List Text) (es : Entries) (name : Text) :
    Except Error TreeEntry :=
  w.entryOf names name ((es.lookup name).getD empty)

variable (w : Workspace) (names : List Text) {es : Entries}

theorem listingIn_eq_map (es : Entries) :
    w.listingIn names es = es.map fun e => (e.1, w.entryOf names e.1 e.2) := by
  induction es with
  | nil => rfl
  | cons e es ih => rw [listingIn, ih]; rfl

theorem listingIn_eq_entryAt (h : (es.map Prod.fst).Nodup) :
    w.listingIn names es = (es.map Prod.fst).map fun name => (name, w.entryAt names es name) := by
  rw [listingIn_eq_map, List.map_map]
  refine List.map_congr_left fun e he => ?_
  show _ = (e.1, w.entryOf names e.1 ((es.lookup e.1).getD empty))
  rw [lookup_of_mem h he, Option.getD_some]

/-- **A directory is listed name by name**, in the order of the names. -/
theorem listing_eq_mapM (h : (es.map Prod.fst).Nodup) : w.listing names (.directory es) =
    ((es.map Prod.fst).mergeSort Text.le).mapM (w.entryAt names es) := by
  have hsort : ((es.map Prod.fst).mergeSort Text.le).map
      (fun name => (name, w.entryAt names es name)) = (w.listingIn names es).mergeSort
        fun a b => Text.le a.1 b.1 := by
    rw [listingIn_eq_entryAt w names h]
    exact List.map_mergeSort fun _ _ _ _ => rfl
  rw [listing, ← hsort, List.mapM_map]
  rfl

theorem listing_of_pairwise (h : (es.map Prod.fst).Pairwise fun a b => Text.le a b = true)
    (hnodup : (es.map Prod.fst).Nodup) {l : List TreeEntry}
    (hl : List.Forall₂ (fun name e => w.entryAt names es name = .ok e) (es.map Prod.fst) l) :
    w.listing names (.directory es) = .ok l := by
  rw [listing_eq_mapM w names hnodup, List.mergeSort_of_pairwise h, mapM_eq_ok]
  exact hl

/-! ### What an entry says -/

/-- The entry of a listing for what is at these names: below a folder there is its listing, below
anything else there is nothing. -/
structure Describes (w : Workspace) (names : List Text) (t : FileTree) (e : TreeEntry) : Prop where
  name : names.getLast? = some e.name
  path : e.path = Path.display (Path.ofNames names)
  kind : e.kind = Item.kindOf w.config w.globs names
  listing : e.kind = .folder → w.listing names t = .ok e.children
  leaf : e.kind ≠ .folder → e.children = []
  count : e.count = if e.kind = .collapsedFolder then some t.entries.length else none

variable {w : Workspace} {names : List Text} {name : Text} {t : FileTree} {e : TreeEntry}

/-! A file has an entry as it stands; a folder is looked up, and then it is listed or counted. -/

theorem entryOf_of_isFile {kind : ItemKind}
    (h : Item.kindOf w.config w.globs (names ++ [name]) = kind) (hfile : kind.isFile = true) :
    w.entryOf names name t =
      .ok ⟨name, Path.display (Path.ofNames (names ++ [name])), kind, [], none⟩ := by
  unfold entryOf
  rw [h]
  cases kind with
  | plainFile => rfl
  | templateFile => rfl
  | folder => cases hfile
  | collapsedFolder => cases hfile

theorem entryOf_of_folder (h : Item.kindOf w.config w.globs (names ++ [name]) = .folder) :
    w.entryOf names name t = w.storage.route (Path.ofNames (names ++ [name])) >>= fun _ =>
      w.listing (names ++ [name]) t >>= fun children =>
        .ok ⟨name, Path.display (Path.ofNames (names ++ [name])), .folder, children, none⟩ := by
  unfold entryOf
  rw [h]
  rfl

theorem entryOf_of_collapsed
    (h : Item.kindOf w.config w.globs (names ++ [name]) = .collapsedFolder) :
    w.entryOf names name t = w.storage.route (Path.ofNames (names ++ [name])) >>= fun _ =>
      .ok ⟨name, Path.display (Path.ofNames (names ++ [name])), .collapsedFolder, [],
        some t.entries.length⟩ := by
  unfold entryOf
  rw [h]
  rfl

theorem isFile_cases (kind : ItemKind) :
    kind.isFile = true ∨ kind = .folder ∨ kind = .collapsedFolder := by
  cases kind <;> decide

/-- **What an entry is made of.** -/
theorem describes_of_entryOf (h : w.entryOf names name t = .ok e) :
    Describes w (names ++ [name]) t e := by
  have hname : (names ++ [name]).getLast? = some name := List.getLast?_concat ..
  rcases isFile_cases (Item.kindOf w.config w.globs (names ++ [name])) with hkind | hkind | hkind
  · rw [entryOf_of_isFile rfl hkind] at h
    cases h
    have hne : ∀ kind : ItemKind, kind.isFile = false →
        Item.kindOf w.config w.globs (names ++ [name]) ≠ kind := by
      rintro kind hfile rfl
      rw [hfile] at hkind
      cases hkind
    exact ⟨hname, rfl, rfl, fun hf => absurd hf (hne _ rfl), fun _ => rfl,
      (if_neg (hne _ rfl)).symm⟩
  · rw [entryOf_of_folder hkind] at h
    obtain ⟨r, -, h⟩ := bind_eq_ok.1 h
    obtain ⟨children, hlisting, h⟩ := bind_eq_ok.1 h
    cases h
    exact ⟨hname, rfl, hkind.symm, fun _ => hlisting, fun hf => absurd rfl hf, rfl⟩
  · rw [entryOf_of_collapsed hkind] at h
    obtain ⟨r, -, h⟩ := bind_eq_ok.1 h
    cases h
    exact ⟨hname, rfl, hkind.symm, nofun, fun _ => rfl, rfl⟩

/-- An entry is there unless its path, or one below it, is too long. -/
theorem exists_entryOf : (∃ e, w.entryOf names name t = .ok e) ↔
    ((Item.kindOf w.config w.globs (names ++ [name])).isFile = false →
        ∃ r, w.storage.route (Path.ofNames (names ++ [name])) = .ok r) ∧
      (Item.kindOf w.config w.globs (names ++ [name]) = .folder →
        ∃ l, w.listing (names ++ [name]) t = .ok l) := by
  rcases isFile_cases (Item.kindOf w.config w.globs (names ++ [name])) with hkind | hkind | hkind
  · rw [entryOf_of_isFile rfl hkind, hkind]
    refine ⟨fun _ => ⟨nofun, fun hf => ?_⟩, fun _ => ⟨_, rfl⟩⟩
    rw [hf] at hkind
    cases hkind
  · rw [entryOf_of_folder hkind, hkind]
    simp only [bind_eq_ok]
    constructor
    · rintro ⟨e, r, hr, l, hl, -⟩
      exact ⟨fun _ => ⟨r, hr⟩, fun _ => ⟨l, hl⟩⟩
    · rintro ⟨hr, hl⟩
      obtain ⟨r, hr⟩ := hr rfl
      obtain ⟨l, hl⟩ := hl trivial
      exact ⟨_, r, hr, l, hl, rfl⟩
  · rw [entryOf_of_collapsed hkind, hkind]
    simp only [bind_eq_ok]
    constructor
    · rintro ⟨e, r, hr, -⟩
      exact ⟨fun _ => ⟨r, hr⟩, nofun⟩
    · rintro ⟨hr, -⟩
      obtain ⟨r, hr⟩ := hr rfl
      exact ⟨_, r, hr, rfl⟩

/-! ### What a listing of a directory says -/

theorem name_entryAt {es : Entries} (h : w.entryAt names es name = .ok e) : e.name = name := by
  have hname := (describes_of_entryOf h).name
  rw [List.getLast?_concat] at hname
  exact (Option.some_inj.1 hname).symm

theorem entryAt_of_mapM {es : Entries} {ns : List Text} {l : List TreeEntry}
    (h : ns.mapM (w.entryAt names es) = .ok l) :
    l.map TreeEntry.name = ns ∧ ∀ e ∈ l, w.entryAt names es e.name = .ok e := by
  rw [mapM_eq_ok] at h
  induction h with
  | nil => exact ⟨rfl, nofun⟩
  | cons hentry _ ih =>
    have hname := name_entryAt hentry
    refine ⟨congrArg₂ List.cons hname ih.1, List.forall_mem_cons.2 ⟨?_, ih.2⟩⟩
    rwa [hname]

section Directory

variable {es : Entries} {l : List TreeEntry} (hnodup : (es.map Prod.fst).Nodup)
  (h : w.listing names (.directory es) = .ok l)

include hnodup h

/-- **The names in a directory are listed in order.** -/
theorem map_name_of_listing : l.map TreeEntry.name = (es.map Prod.fst).mergeSort Text.le :=
  (entryAt_of_mapM ((listing_eq_mapM w names hnodup).symm.trans h)).1

theorem mem_names_of_listing : name ∈ l.map TreeEntry.name ↔ (es.lookup name).isSome := by
  rw [map_name_of_listing hnodup h, List.mem_mergeSort, mem_map_fst_iff]

theorem exists_describes (he : e ∈ l) :
    ∃ t, es.lookup e.name = some t ∧ Describes w (names ++ [e.name]) t e := by
  obtain ⟨t, ht⟩ := Option.isSome_iff_exists.1
    ((mem_names_of_listing hnodup h).1 (List.mem_map_of_mem he))
  have hentry := (entryAt_of_mapM ((listing_eq_mapM w names hnodup).symm.trans h)).2 e he
  rw [entryAt, ht, Option.getD_some] at hentry
  exact ⟨t, ht, describes_of_entryOf hentry⟩

end Directory

/-- A listing has its names in strictly increasing order. -/
theorem pairwise_of_listing (ht : t.Storable) {l : List TreeEntry} (h : w.listing names t = .ok l) :
    l.Pairwise fun a b => a.name < b.name := by
  cases ht with
  | file content =>
    cases h
    exact .nil
  | directory hnodup =>
    rw [← List.pairwise_map, map_name_of_listing hnodup h]
    exact Text.pairwise_lt_mergeSort hnodup

/-- A directory is listed unless one of its entries is not. -/
theorem exists_listing_directory {es : Entries} (hnodup : (es.map Prod.fst).Nodup) :
    (∃ l, w.listing names (.directory es) = .ok l) ↔
      ∀ name t, es.lookup name = some t → ∃ e, w.entryOf names name t = .ok e := by
  rw [listing_eq_mapM w names hnodup, exists_mapM_eq_ok]
  simp only [List.mem_mergeSort, mem_map_fst_iff, Option.isSome_iff_exists, entryAt]
  constructor
  · intro h name t ht
    have hentry := h name ⟨t, ht⟩
    rwa [ht, Option.getD_some] at hentry
  · rintro h name ⟨t, ht⟩
    rw [ht, Option.getD_some]
    exact h name t ht

end PageFields.Workspace
