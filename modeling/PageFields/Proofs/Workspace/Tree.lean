import PageFields.Proofs.Storage.Write
import PageFields.Proofs.Text.Bytes
import PageFields.Proofs.Workspace.Listing

/-! # Workspaces: the tree of a folder

The tree of a folder has an entry for each place that is reached from the folder through directories
that are folders (`Reaches`), and no other entry: the places of the listed entries are reached
(`exists_reaches`), each of them once (`nodup_placesIn_of_listing`), and what is reached is listed
(`exists_mem_placesIn`). The listing ends on every tree, and fails only for want of room for a path
(`exists_listing`). -/

namespace PageFields

/-! ### Trees of entries -/

namespace TreeEntry

mutual

/-- The entries of a tree with the names that lead to them, an entry before those below it. -/
def places : TreeEntry → List (List Text × TreeEntry)
  | .mk name path kind children count =>
    ([name], .mk name path kind children count) ::
      (placesIn children).map fun p => (name :: p.1, p.2)

/-- The entries of several trees with the names that lead to them. -/
def placesIn : List TreeEntry → List (List Text × TreeEntry)
  | [] => []
  | e :: rest => places e ++ placesIn rest

end

theorem places_eq (e : TreeEntry) : e.places =
    ([e.name], e) :: (placesIn e.children).map fun p => (e.name :: p.1, p.2) := by
  cases e
  rfl

theorem placesIn_eq_flatMap (l : List TreeEntry) : placesIn l = l.flatMap places := by
  induction l with
  | nil => rfl
  | cons e l ih => rw [placesIn, ih, List.flatMap_cons]

variable {l : List TreeEntry} {place : List Text} {e : TreeEntry}

/-- A place is the one of an entry, or it is below that entry. -/
theorem mem_placesIn : (place, e) ∈ placesIn l ↔ ∃ c ∈ l, (place = [c.name] ∧ e = c) ∨
    ∃ below, place = c.name :: below ∧ (below, e) ∈ placesIn c.children := by
  rw [placesIn_eq_flatMap, List.mem_flatMap]
  refine exists_congr fun c => and_congr_right fun _ => ?_
  rw [places_eq, List.mem_cons, List.mem_map, Prod.mk.injEq]
  refine or_congr_right ⟨?_, ?_⟩
  · rintro ⟨⟨below, e'⟩, hmem, heq⟩
    cases heq
    exact ⟨below, rfl, hmem⟩
  · rintro ⟨below, rfl, hmem⟩
    exact ⟨(below, e), hmem, rfl⟩

theorem exists_head (h : place ∈ (placesIn l).map Prod.fst) :
    ∃ name below, place = name :: below ∧ name ∈ l.map TreeEntry.name := by
  obtain ⟨⟨place, e⟩, hmem, rfl⟩ := List.mem_map.1 h
  obtain ⟨c, hc, ⟨rfl, -⟩ | ⟨below, rfl, -⟩⟩ := mem_placesIn.1 hmem
  · exact ⟨c.name, [], rfl, List.mem_map_of_mem hc⟩
  · exact ⟨c.name, below, rfl, List.mem_map_of_mem hc⟩

theorem map_fst_places (e : TreeEntry) : e.places.map Prod.fst =
    [e.name] :: ((placesIn e.children).map Prod.fst).map (e.name :: ·) := by
  rw [places_eq, List.map_cons, List.map_map, List.map_map]
  rfl

/-- Places are different if the names are on each level. -/
theorem nodup_placesIn (hnames : (l.map TreeEntry.name).Nodup)
    (hbelow : ∀ e ∈ l, ((placesIn e.children).map Prod.fst).Nodup) :
    ((placesIn l).map Prod.fst).Nodup := by
  induction l with
  | nil => exact List.nodup_nil
  | cons e l ih =>
    rw [List.map_cons, List.nodup_cons] at hnames
    rw [List.forall_mem_cons] at hbelow
    rw [placesIn, List.map_append, List.nodup_append, map_fst_places]
    refine ⟨List.nodup_cons.2 ⟨?_, hbelow.1.map (List.cons_injective)⟩, ih hnames.2 hbelow.2, ?_⟩
    · intro hmem
      obtain ⟨below, hb, heq⟩ := List.mem_map.1 hmem
      obtain ⟨name, rest, rfl, -⟩ := exists_head hb
      cases heq
    · -- The first name of a place tells the entries of one level apart.
      rintro place hplace other hother rfl
      obtain ⟨name, below, rfl, hname⟩ := exists_head hother
      rcases List.mem_cons.1 hplace with heq | hmem
      · cases heq
        exact hnames.1 hname
      · obtain ⟨rest, -, heq⟩ := List.mem_map.1 hmem
        cases heq
        exact hnames.1 hname

end TreeEntry

/-! ### Trees with names -/

namespace FileTree

/-- Every entry has a name that can stand between slashes. -/
inductive Named : FileTree → Prop
  | file (content : ByteArray) : Named (.file content)
  | directory {es : Entries} (isName : ∀ e ∈ es, Path.IsName e.1)
    (entries : ∀ e ∈ es, Named e.2) : Named (.directory es)

variable {t u : FileTree} {place : List Text} {name : Text}

theorem Named.singleton (hname : Path.IsName name) (h : t.Named) :
    (FileTree.directory [(name, t)]).Named :=
  .directory (List.forall_mem_singleton.2 hname) (List.forall_mem_singleton.2 h)

theorem Named.of_get? (h : t.Named) (hu : t.get? place = some u) :
    u.Named ∧ ∀ n ∈ place, Path.IsName n := by
  induction place generalizing t with
  | nil =>
    cases hu
    exact ⟨h, nofun⟩
  | cons name place ih =>
    rw [get?_cons] at hu
    obtain ⟨v, hv, huv⟩ := Option.bind_eq_some_iff.1 hu
    cases h with
    | file content => cases hv
    | directory isName entries =>
      have hmem := mem_of_lookup hv
      obtain ⟨hnamed, hplace⟩ := ih (entries _ hmem) huv
      exact ⟨hnamed, List.forall_mem_cons.2 ⟨isName _ hmem, hplace⟩⟩

theorem get?_singleton (t : FileTree) (name : Text) : t.get? [name] = t.entries.lookup name := by
  rw [get?_cons]
  cases t.entries.lookup name <;> rfl

end FileTree

namespace Workspace

open FileTree TreeEntry

theorem classify_ofNames (w : Workspace) {names : List Text} (h : ∀ n ∈ names, Path.IsName n) :
    w.classify (Path.ofNames names) = .ok ⟨Item.kindOf w.config w.globs names, names⟩ :=
  classify_eq_ok.2 ⟨Path.names?_ofNames h, rfl⟩

/-- From what is at these names, the place is reached through folders: it is the place of an entry,
or it is reached from an entry that is a folder. -/
inductive Reaches (w : Workspace) : List Text → FileTree → List Text → FileTree → Prop
  | entry {names : List Text} {t u : FileTree} {name : Text} (h : t.get? [name] = some u) :
    Reaches w names t [name] u
  | through {names : List Text} {t u v : FileTree} {name : Text} {place : List Text}
    (h : t.get? [name] = some u)
    (folder : w.classify (Path.ofNames (names ++ [name])) = .ok ⟨.folder, names ++ [name]⟩)
    (reaches : Reaches w (names ++ [name]) u place v) : Reaches w names t (name :: place) v

variable {w : Workspace} {names place : List Text} {t u v : FileTree} {l : List TreeEntry}

theorem Reaches.get?_eq (h : Reaches w names t place v) : t.get? place = some v := by
  induction h with
  | entry h => exact h
  | through h _ _ ih =>
    rw [get?_singleton] at h
    rw [get?_cons, h, Option.bind_some, ih]

/-- **What is reached is listed.** -/
theorem exists_mem_placesIn (h : Reaches w names t place v) (ht : t.Storable)
    (hl : w.listing names t = .ok l) : ∃ e, (place, e) ∈ placesIn l := by
  induction h generalizing l with
  | @entry names t u name h =>
    cases ht with
    | file content => cases h
    | directory hnodup =>
      rw [get?_singleton] at h
      obtain ⟨c, hc, rfl⟩ := List.mem_map.1
        ((mem_names_of_listing hnodup hl).2 (Option.isSome_iff_exists.2 ⟨u, h⟩))
      exact ⟨c, mem_placesIn.2 ⟨c, hc, .inl ⟨rfl, rfl⟩⟩⟩
  | @through names t u v name place h hfolder _ ih =>
    cases ht with
    | file content => cases h
    | directory hnodup entries =>
      rw [get?_singleton] at h
      obtain ⟨c, hc, rfl⟩ := List.mem_map.1
        ((mem_names_of_listing hnodup hl).2 (Option.isSome_iff_exists.2 ⟨u, h⟩))
      obtain ⟨u', hu', hdescribes⟩ := exists_describes hnodup hl hc
      obtain rfl : u = u' := Option.some_inj.1 (h.symm.trans hu')
      have hkind : c.kind = .folder := hdescribes.kind.trans (classify_eq_ok.1 hfolder).2.symm
      obtain ⟨e, he⟩ := ih (entries _ (mem_of_lookup h)) (hdescribes.listing hkind)
      exact ⟨e, mem_placesIn.2 ⟨c, hc, .inr ⟨place, rfl, he⟩⟩⟩

/-- **What is listed is reached**, and described by its entry. The induction is on the tree. -/
theorem exists_reaches (ht : t.Storable) (hnamed : t.Named) (hnames : ∀ n ∈ names, Path.IsName n)
    (hl : w.listing names t = .ok l) {e : TreeEntry} (he : (place, e) ∈ placesIn l) :
    ∃ v, Reaches w names t place v ∧ Describes w (names ++ place) v e := by
  induction ht generalizing names l place with
  | file content =>
    cases hl
    cases he
  | @directory es hnodup _ ih =>
    obtain ⟨c, hc, hcases⟩ := mem_placesIn.1 he
    obtain ⟨u, hu, hdescribes⟩ := exists_describes hnodup hl hc
    have hget : (directory es).get? [c.name] = some u := (get?_singleton _ _).trans hu
    rcases hcases with ⟨rfl, rfl⟩ | ⟨below, rfl, hbelow⟩
    · exact ⟨u, .entry hget, hdescribes⟩
    · have hfolder : c.kind = .folder := by
        by_contra hne
        rw [hdescribes.leaf hne] at hbelow
        cases hbelow
      obtain ⟨hun, hname⟩ := hnamed.of_get? hget
      have hnames' : ∀ n ∈ names ++ [c.name], Path.IsName n :=
        List.forall_mem_append.2 ⟨hnames, hname⟩
      obtain ⟨v, hv, hd⟩ := ih _ (mem_of_lookup hu) hun hnames' (hdescribes.listing hfolder) hbelow
      rw [List.append_assoc] at hd
      refine ⟨v, .through hget ?_ hv, hd⟩
      rw [classify_ofNames w hnames', ← hdescribes.kind, hfolder]

/-- **Nothing is listed twice.** -/
theorem nodup_placesIn_of_listing (ht : t.Storable) (hl : w.listing names t = .ok l) :
    ((placesIn l).map Prod.fst).Nodup := by
  induction ht generalizing names l with
  | file content =>
    cases hl
    exact List.nodup_nil
  | @directory es hnodup _ ih =>
    refine nodup_placesIn ?_ fun e he => ?_
    · rw [map_name_of_listing hnodup hl]
      exact (List.mergeSort_perm _ _).nodup_iff.2 hnodup
    · obtain ⟨u, hu, hdescribes⟩ := exists_describes hnodup hl he
      by_cases hfolder : e.kind = .folder
      · exact ih _ (mem_of_lookup hu) (hdescribes.listing hfolder)
      · rw [hdescribes.leaf hfolder]
        exact List.nodup_nil

/-- **A listing is there** unless the path of a folder in it is too long. -/
theorem exists_listing (ht : t.Storable) (hnamed : t.Named) (hnames : ∀ n ∈ names, Path.IsName n) :
    (∃ l, w.listing names t = .ok l) ↔ ∀ place v, Reaches w names t place v →
      (Item.kindOf w.config w.globs (names ++ place)).isFile = false →
        ∃ r, w.storage.route (Path.ofNames (names ++ place)) = .ok r := by
  induction ht generalizing names with
  | file content =>
    refine ⟨fun _ place v h => ?_, fun _ => ⟨[], rfl⟩⟩
    cases h with
    | entry h => cases h
    | through h => cases h
  | @directory es hnodup _ ih =>
    have hentry : ∀ name u, es.lookup name = some u →
        (directory es).get? [name] = some u := fun name u hu => (get?_singleton _ _).trans hu
    have hnames' : ∀ name u, es.lookup name = some u → ∀ n ∈ names ++ [name], Path.IsName n :=
      fun name u hu => List.forall_mem_append.2 ⟨hnames, (hnamed.of_get? (hentry name u hu)).2⟩
    simp only [exists_listing_directory hnodup, exists_entryOf]
    constructor
    · intro h place v hreaches hkind
      cases hreaches with
      | entry hget =>
        rw [get?_singleton] at hget
        exact (h _ _ hget).1 hkind
      | @through _ _ u _ name place hget hfolder hreaches =>
        rw [get?_singleton] at hget
        have hlisting := (h name u hget).2 (classify_eq_ok.1 hfolder).2.symm
        rw [ih _ (mem_of_lookup hget) (hnamed.of_get? (hentry name u hget)).1
          (hnames' name u hget)] at hlisting
        have hroute := hlisting place v hreaches
        rw [List.append_assoc] at hroute
        exact hroute hkind
    · intro h name u hu
      refine ⟨h [name] u (.entry (hentry name u hu)), fun hfolder => ?_⟩
      rw [ih _ (mem_of_lookup hu) (hnamed.of_get? (hentry name u hu)).1 (hnames' name u hu)]
      intro place v hreaches hkind
      have hclassify : w.classify (Path.ofNames (names ++ [name])) =
          .ok ⟨.folder, names ++ [name]⟩ := by
        rw [classify_ofNames w (hnames' name u hu), hfolder]
      rw [List.append_assoc] at hkind ⊢
      exact h _ v (.through (hentry name u hu) hclassify hreaches) hkind

end Workspace

end PageFields
