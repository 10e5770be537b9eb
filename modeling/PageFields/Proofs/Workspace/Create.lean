import PageFields.Proofs.Storage.Find
import PageFields.Proofs.Workspace.Operations

/-! # Workspaces: making an item

An item is made if its name is allowed, its directory is there and nothing is at its place
(`exists_create_iff`). The place is then a spot of the tree (`exists_spot_of_parent`), and making
the item is making an empty file or directory at this spot (`create_of_spot`). So a call adds one
entry to the tree or leaves it as it is (`create_adds_or_nothing`). -/

namespace PageFields

/-! ### Names of new items -/

/-- A new item can have these names, the last one being its own: it has letters, digits and hyphens,
and dots if it is not the one of a project, and a letter or digit at least. -/
def IsNewName (names : List Text) : Prop :=
  ∃ name, names.getLast? = some name ∧
    (∀ c ∈ name, c.isAlphanum = true ∨ c = '-' ∨ c = '.' ∧ 1 < names.length) ∧
      ∃ c ∈ name, c.isAlphanum = true

theorem Item.checkName_eq_ok {name label extra : Text} : checkName name label extra = .ok () ↔
    (∀ c ∈ name, c.isAlphanum = true ∨ c ∈ extra) ∧ ∃ c ∈ name, c.isAlphanum = true := by
  unfold checkName
  by_cases hnil : name = []
  · simp [hnil]
  · rw [if_neg hnil]
    by_cases hall : (name.all fun c => c.isAlphanum || extra.contains c) = true
    · by_cases hany : name.any Char.isAlphanum = true
      · simp only [hall, hany]
        simpa using ⟨by simpa using hall, by simpa using hany⟩
      · simp only [hall, hany]
        simpa using fun _ => by simpa using hany
    · rw [if_pos (by simpa using hall)]
      refine iff_of_false nofun fun h => hall ?_
      simpa using h.1

theorem isNewName_iff {names : List Text} {name : Text} (h : names.getLast? = some name) :
    IsNewName names ↔
      (if names.length = 1 then Item.checkName name "project name".toList ['-']
        else Item.checkName name "file name".toList ['-', '.']) = .ok () := by
  have hnames : IsNewName names ↔
      (∀ c ∈ name, c.isAlphanum = true ∨ c = '-' ∨ c = '.' ∧ 1 < names.length) ∧
        ∃ c ∈ name, c.isAlphanum = true := by
    unfold IsNewName
    simp only [h, Option.some.injEq, exists_eq_left']
  rw [hnames]
  by_cases hone : names.length = 1
  · rw [if_pos hone, Item.checkName_eq_ok, hone]
    simp
  · have hlength : 1 < names.length := by
      have : names ≠ [] := by
        rintro rfl
        cases h
      have := List.length_pos_of_ne_nil this
      omega
    rw [if_neg hone, Item.checkName_eq_ok]
    simp [hlength]

namespace Workspace

open FileTree Storage

variable {w : Workspace} {t t' : FileTree} {path : Text} {item : Item}

/-! ### Making an item -/

/-- What is made for an item of a kind. -/
def newTree (kind : ItemKind) : FileTree := if kind.isFile then .file ByteArray.empty else empty

theorem entries_newTree (kind : ItemKind) : (newTree kind).entries = [] := by
  unfold newTree
  split <;> rfl

theorem top_newTree (kind : ItemKind) : (newTree kind).top =
    if kind.isFile then .file ByteArray.empty else .directory := by
  unfold newTree
  split <;> rfl

theorem make_newTree (s : Spot t) (kind : ItemKind) : s.make (newTree kind) =
    if kind.isFile then t.createFile s.route else t.createDirectory s.route := by
  unfold newTree
  rw [s.createFile_route, s.createDirectory_route]
  split <;> rfl

theorem checkNew_eq_ok {names : List Text} : w.checkNew t names = .ok () ↔
    IsNewName names ∧
      w.storage.entryKind t (Path.ofNames names.dropLast) = .ok (some .directory) := by
  unfold checkNew
  cases hlast : names.getLast? with
  | none =>
    refine iff_of_false nofun ?_
    rintro ⟨⟨name, hname, -⟩, -⟩
    rw [hlast] at hname
    cases hname
  | some name =>
    have hparent : (w.storage.entryKind t (Path.ofNames names.dropLast) >>= fun k =>
        if k ≠ some .directory then throw (.notFound (Path.display (Path.ofNames names.dropLast)))
        else (pure () : Except Error Unit)) = .ok () ↔
          w.storage.entryKind t (Path.ofNames names.dropLast) = .ok (some .directory) := by
      rw [bind_eq_ok]
      constructor
      · rintro ⟨k, hk, h⟩
        by_cases hkind : k = some .directory
        · rw [hk, hkind]
        · rw [if_pos hkind] at h
          cases h
      · exact fun h => ⟨_, h, rfl⟩
    rw [isNewName_iff hlast]
    dsimp only
    by_cases hone : names.length = 1
    · rw [if_pos hone, if_pos hone, bind_eq_ok, hparent, exists_and_right]
      exact and_congr_left' ⟨fun ⟨_, h⟩ => h, fun h => ⟨(), h⟩⟩
    · rw [if_neg hone, if_neg hone, bind_eq_ok, hparent, exists_and_right]
      exact and_congr_left' ⟨fun ⟨_, h⟩ => h, fun h => ⟨(), h⟩⟩

theorem create_eq (hitem : w.classify path = .ok item) (hcheck : w.checkNew t item.names = .ok ()) :
    w.create t path =
      let made := commit t (w.storage.route item.path >>= fun r => attempt item.path
        (if item.kind.isFile then t.createFile r else t.createDirectory r))
      (made.1.map fun () => item, made.2) := by
  unfold create
  simp only [hitem, hcheck]
  unfold Storage.createFile Storage.createDirectory
  by_cases hkind : item.kind.isFile = true
  · simp only [hkind, if_true]
  · simp only [hkind, Bool.false_eq_true, if_false]

theorem create_of_spot (hitem : w.classify path = .ok item)
    (hcheck : w.checkNew t item.names = .ok ()) {s : Spot t}
    (hr : w.storage.route item.path = .ok s.route) : w.create t path =
      match s.make (newTree item.kind) with
      | .ok t' => (.ok item, t')
      | .error fault => (.error (errorAt item.path fault), t) := by
  rw [create_eq hitem hcheck, hr, ok_bind, ← make_newTree]
  cases s.make (newTree item.kind) <;> rfl

theorem create_of_route_error (hitem : w.classify path = .ok item)
    (hcheck : w.checkNew t item.names = .ok ()) {e : Error}
    (hr : w.storage.route item.path = .error e) : w.create t path = (.error e, t) := by
  rw [create_eq hitem hcheck, hr]
  rfl

/-! ### One entry or nothing -/

theorem exists_spot (hitem : w.classify path = .ok item)
    (hcheck : w.checkNew t item.names = .ok ()) :
    ∃ home, ∃ s : Spot t, t.walk [] (Path.steps w.storage.root) = .ok home ∧
      s.place = home ++ item.names ∧ ∀ r, w.storage.route item.path = .ok r → r = s.route := by
  obtain ⟨⟨name, hname, -⟩, hparent⟩ := checkNew_eq_ok.1 hcheck
  have hlast := List.dropLast_append_getLast? name hname
  have hnames := hlast.symm ▸ isName_of_classify hitem
  obtain ⟨home, s, hhome, -, hspot⟩ := exists_spot_of_parent hnames hparent
  rw [hlast] at hspot
  exact ⟨home, s, hhome, hspot⟩

/-- A call fails and leaves the tree as it is, or the item is made at a spot. -/
theorem create_cases (w : Workspace) (t : FileTree) (path : Text) :
    (∃ e, w.create t path = (.error e, t)) ∨
      ∃ item t' home, ∃ s : Spot t, w.create t path = (.ok item, t') ∧
        w.classify path = .ok item ∧ w.checkNew t item.names = .ok () ∧
          t.walk [] (Path.steps w.storage.root) = .ok home ∧ s.place = home ++ item.names ∧
            w.storage.route item.path = .ok s.route ∧ s.make (newTree item.kind) = .ok t' := by
  cases hitem : w.classify path with
  | error e => exact .inl ⟨e, by rw [create, hitem]⟩
  | ok item =>
    cases hcheck : w.checkNew t item.names with
    | error e =>
      refine .inl ⟨e, ?_⟩
      unfold create
      simp only [hitem, hcheck]
    | ok _ =>
      obtain ⟨home, s, hhome, hplace, hspot⟩ := exists_spot hitem hcheck
      cases hr : w.storage.route item.path with
      | error e => exact .inl ⟨e, create_of_route_error hitem hcheck hr⟩
      | ok r =>
        obtain rfl := hspot r hr
        have hcreate := create_of_spot hitem hcheck hr
        cases hmake : s.make (newTree item.kind) with
        | error fault => exact .inl ⟨_, by rw [hcreate, hmake]⟩
        | ok t' =>
          exact .inr ⟨item, t', home, s, by rw [hcreate, hmake], rfl, hcheck, hhome, hplace, hr,
            hmake⟩

theorem exists_spot_of_create (h : w.create t path = (.ok item, t')) :
    ∃ home, ∃ s : Spot t, w.classify path = .ok item ∧ w.checkNew t item.names = .ok () ∧
      t.walk [] (Path.steps w.storage.root) = .ok home ∧ s.place = home ++ item.names ∧
        w.storage.route item.path = .ok s.route ∧ s.make (newTree item.kind) = .ok t' := by
  rcases create_cases w t path with ⟨e, he⟩ | ⟨item', t'', home, s, hmade, hspot⟩
  · rw [he] at h
    cases h
  · rw [hmade] at h
    cases h
    exact ⟨home, s, hspot⟩

/-- **When an item can be made**: its name is allowed, its directory is there, and nothing is at its
place. -/
theorem exists_create_iff : (∃ t', w.create t path = (.ok item, t')) ↔
    w.classify path = .ok item ∧ IsNewName item.names ∧
      w.storage.entryKind t (Path.ofNames item.names.dropLast) = .ok (some .directory) ∧
        w.storage.entryKind t item.path = .ok none := by
  constructor
  · rintro ⟨t', h⟩
    obtain ⟨home, s, hitem, hcheck, -, -, hr, hmake⟩ := exists_spot_of_create h
    obtain ⟨hname, hparent⟩ := checkNew_eq_ok.1 hcheck
    obtain ⟨hlong, hnone, -⟩ := s.make_eq_ok.1 hmake
    exact ⟨hitem, hname, hparent, (entryKind_spot hr).2 ⟨hlong, hnone⟩⟩
  · rintro ⟨hitem, hname, hparent, hvacant⟩
    have hcheck := checkNew_eq_ok.2 ⟨hname, hparent⟩
    obtain ⟨home, s, -, -, hspot⟩ := exists_spot hitem hcheck
    obtain ⟨r, hr⟩ := exists_route_of_entryKind hvacant
    obtain rfl := hspot r hr
    obtain ⟨hlong, hnone⟩ := (entryKind_spot hr).1 hvacant
    have hmake : s.make (newTree item.kind) = .ok _ := s.make_eq_ok.2 ⟨hlong, hnone, rfl⟩
    exact ⟨_, by rw [create_of_spot hitem hcheck hr, hmake]⟩

/-- How it stands with an item that was made. -/
structure Made (w : Workspace) (t : FileTree) (path : Text) (item : Item) (t' : FileTree) :
    Prop where
  classify : w.classify path = .ok item
  isNewName : IsNewName item.names
  adds : ∃ home, t.walk [] (Path.steps w.storage.root) = .ok home ∧
    Adds t t' (home ++ item.names) (if item.kind.isFile then .file ByteArray.empty else .directory)
  again : w.create t' path = (.error (.alreadyExists item.display), t')

/-- What was made cannot be made again, as long as nothing gets lost. -/
theorem create_of_within (h : w.create t path = (.ok item, t')) {u : FileTree}
    (hu : t'.Within u) : w.create u path = (.error (.alreadyExists item.display), u) := by
  obtain ⟨home, s, hitem, hcheck, -, -, hr, hmake⟩ := exists_spot_of_create h
  obtain ⟨hlong, hnone, rfl⟩ := s.make_eq_ok.1 hmake
  have hwithin := (s.within_put hnone (newTree item.kind)).trans hu
  obtain ⟨s', hroute, hname, hplace⟩ := s.exists_within hwithin
  have hthere : (u.get? s'.place).isSome := by
    refine hplace ▸ hu.isSome s.place ?_
    rw [isSome_get?, (s.adds_put hnone (entries_newTree item.kind)).entry?_eq, if_pos rfl]
    exact Option.some_ne_none _
  obtain ⟨hallowed, hparent⟩ := checkNew_eq_ok.1 hcheck
  have hcheck' := checkNew_eq_ok.2 ⟨hallowed, entryKind_directory_mono hwithin hparent⟩
  rw [create_of_spot hitem hcheck' (hroute ▸ hr), Spot.make_of_isSome (hname ▸ hlong) hthere]
  rfl

theorem made_of_create (h : w.create t path = (.ok item, t')) : Made w t path item t' := by
  obtain ⟨home, s, hitem, hcheck, hhome, hplace, hr, hmake⟩ := exists_spot_of_create h
  refine ⟨hitem, (checkNew_eq_ok.1 hcheck).1, ⟨home, hhome, ?_⟩, create_of_within h (.refl t')⟩
  obtain ⟨-, hnone, hput⟩ := s.make_eq_ok.1 hmake
  rw [← hplace, hput, ← top_newTree]
  exact s.adds_put hnone (entries_newTree item.kind)

theorem eq_of_create {e : Error} (h : w.create t path = (.error e, t')) : t' = t := by
  rcases create_cases w t path with ⟨e', he⟩ | ⟨item, t'', home, s, hmade, -⟩
  · rw [he] at h
    cases h
    rfl
  · rw [hmade] at h
    cases h

theorem entryKind_of_create (h : w.create t path = (.ok item, t')) :
    w.storage.entryKind t' item.path =
      .ok (some (if item.kind.isFile then .file else .directory)) := by
  obtain ⟨home, s, -, -, -, -, hr, hmake⟩ := exists_spot_of_create h
  obtain ⟨hlong, hnone, rfl⟩ := s.make_eq_ok.1 hmake
  rw [entryKind_of_route hr, Spot.stat_afterPut hlong hnone]
  unfold newTree
  by_cases hkind : item.kind.isFile = true
  · simp only [hkind, if_true]
  · simp only [hkind]
    rfl

/-- **Making an item adds one entry or nothing.** A call that fails leaves the tree as it is. One
that succeeds adds an empty file or directory, as the kind of the item is, to a directory, at a
place where nothing was and under an allowed name, and nothing else is changed; a second call for
the same path then fails. It succeeds exactly if the path is one of an item with an allowed name,
whose directory is there and whose place is free. -/
theorem create_adds_or_nothing (w : Workspace) (t : FileTree) (path : Text) :
    (match w.create t path with
      | (.error _, t') => t' = t
      | (.ok item, t') => Made w t path item t') ∧
    ∀ item, (∃ t', w.create t path = (.ok item, t')) ↔
      w.classify path = .ok item ∧ IsNewName item.names ∧
        w.storage.entryKind t (Path.ofNames item.names.dropLast) = .ok (some .directory) ∧
          w.storage.entryKind t item.path = .ok none := by
  refine ⟨?_, fun item => exists_create_iff⟩
  split
  · rename_i h
    exact eq_of_create h
  · rename_i h
    exact made_of_create h

end Workspace

end PageFields
