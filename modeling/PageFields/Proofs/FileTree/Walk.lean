import Mathlib.Data.List.TakeWhile
import Mathlib.Tactic.Set
import PageFields.FileTree.Walk
import PageFields.Proofs.FileTree.Change
import PageFields.Proofs.Outcome

/-! # File trees: where a walk leads

`leads` says where one step of a walk leads, and a walk is one such step after another
(`walk_cons`). It looks only at which places are there and which of them are directories, so it
leads to the same place in a tree that has more files (`walk_mono`). A *spot* is what a route with a
name at its end leads to, the name in a directory, whether something is there or not; the system
calls at a spot change what is there or say why they cannot. -/

namespace PageFields.FileTree

/-! ### One step after another -/

/-- Where one step of a walk leads from a directory. -/
def leads (t : FileTree) (place : List Text) : Path.Component → Option (List Text)
  | .here => some place
  | .root => some []
  | .up => some place.dropLast
  | .name n =>
    if isTooLong n then none
    else if (t.get? (place ++ [n])).isSome then some (place ++ [n]) else none

theorem leads_name {t : FileTree} {place place' : List Text} {n : Text} :
    t.leads place (.name n) = some place' ↔
      isTooLong n = false ∧ (t.get? (place ++ [n])).isSome ∧ place ++ [n] = place' := by
  show (if isTooLong n then none
    else if (t.get? (place ++ [n])).isSome then some (place ++ [n]) else none) = some place' ↔ _
  by_cases hn : isTooLong n
  · simp [hn]
  · by_cases hs : (t.get? (place ++ [n])).isSome
    · simp [hn, hs]
    · simp [hn, hs]

theorem directoryAt_eq_ok {t : FileTree} {place : List Text} {es : Entries} :
    t.directoryAt place = .ok es ↔ t.get? place = some (directory es) := by
  unfold directoryAt
  cases t.get? place with
  | none => simp
  | some u => cases u <;> simp

theorem walk_cons {t : FileTree} {place place' : List Text} {step : Path.Component}
    {steps : List Path.Component} : t.walk place (step :: steps) = .ok place' ↔
      t.entry? place = some .directory ∧
        ∃ next, t.leads place step = some next ∧ t.walk next steps = .ok place' := by
  rw [walk, bind_eq_ok, ← get?_eq_directory_iff]
  constructor
  · rintro ⟨es, hes, h⟩
    rw [directoryAt_eq_ok] at hes
    refine ⟨⟨es, hes⟩, ?_⟩
    cases step with
    | here => exact ⟨_, rfl, h⟩
    | root => exact ⟨_, rfl, h⟩
    | up => exact ⟨_, rfl, h⟩
    | name n =>
      simp only [leads_name, get?_concat hes]
      by_cases hn : isTooLong n
      · simp [hn] at h
      · by_cases hl : (es.lookup n).isSome
        · simp only [hn, hl, if_true] at h
          exact ⟨_, ⟨by simpa using hn, hl, rfl⟩, by simpa using h⟩
        · simp [hn, hl] at h
  · rintro ⟨⟨es, hes⟩, next, hn, h⟩
    refine ⟨es, directoryAt_eq_ok.2 hes, ?_⟩
    cases step with
    | here => cases hn; exact h
    | root => cases hn; exact h
    | up => cases hn; exact h
    | name n =>
      rw [leads_name, get?_concat hes] at hn
      obtain ⟨hlong, hl, rfl⟩ := hn
      simpa [hlong, hl] using h

theorem walk_name {t : FileTree} {place : List Text} (h : t.entry? place = some .directory)
    (n : Text) (steps : List Path.Component) : t.walk place (.name n :: steps) =
      if isTooLong n then .error .invalidFilename
      else if (t.get? (place ++ [n])).isSome then t.walk (place ++ [n]) steps
      else .error .notFound := by
  obtain ⟨es, hes⟩ := get?_eq_directory_iff.2 h
  rw [walk, directoryAt_eq_ok.2 hes, ok_bind, get?_concat hes]

theorem walk_append_eq (t : FileTree) (place : List Text) (a b : List Path.Component) :
    t.walk place (a ++ b) = t.walk place a >>= fun next => t.walk next b := by
  induction a generalizing place with
  | nil => rfl
  | cons step a ih =>
    rw [List.cons_append, walk, walk]
    cases t.directoryAt place with
    | error fault => rfl
    | ok es =>
      rw [ok_bind, ok_bind]
      cases step with
      | here => exact ih place
      | root => exact ih []
      | up => exact ih place.dropLast
      | name n =>
        by_cases hn : isTooLong n
        · simp [hn]
        · by_cases hl : (es.lookup n).isSome
          · simp [hn, hl, ih]
          · simp [hn, hl]

theorem walk_append {t : FileTree} {place place' : List Text} {a b : List Path.Component} :
    t.walk place (a ++ b) = .ok place' ↔
      ∃ next, t.walk place a = .ok next ∧ t.walk next b = .ok place' := by
  rw [walk_append_eq, bind_eq_ok]

theorem eq_append_of_walk {t : FileTree} {place next names : List Text}
    (h : t.walk place (names.map .name) = .ok next) : next = place ++ names := by
  induction names generalizing place with
  | nil =>
    cases h
    exact (List.append_nil _).symm
  | cons n names ih =>
    obtain ⟨-, place', hn, h⟩ := walk_cons.1 h
    obtain ⟨-, -, rfl⟩ := leads_name.1 hn
    rw [ih h, List.append_assoc, List.singleton_append]

/-- Where a walk leads, if it leads anywhere, does not depend on the tree. -/
theorem walk_unique {t u : FileTree} {place a b : List Text} {steps : List Path.Component}
    (ht : t.walk place steps = .ok a) (hu : u.walk place steps = .ok b) : a = b := by
  induction steps generalizing place with
  | nil =>
    cases ht
    cases hu
    rfl
  | cons step steps ih =>
    obtain ⟨-, next, hn, ht⟩ := walk_cons.1 ht
    obtain ⟨-, next', hn', hu⟩ := walk_cons.1 hu
    have hsame : next = next' := by
      cases step with
      | here => exact Option.some_inj.1 (hn.symm.trans hn')
      | root => exact Option.some_inj.1 (hn.symm.trans hn')
      | up => exact Option.some_inj.1 (hn.symm.trans hn')
      | name n => exact (leads_name.1 hn).2.2.symm.trans (leads_name.1 hn').2.2
    subst hsame
    exact ih ht hu

/-- What is in the first tree is in the second one, and directories are directories there. -/
structure Within (t t' : FileTree) : Prop where
  directory : ∀ place, t.entry? place = some .directory → t'.entry? place = some .directory
  isSome : ∀ place, (t.get? place).isSome → (t'.get? place).isSome

theorem Within.refl (t : FileTree) : t.Within t := ⟨fun _ h => h, fun _ h => h⟩

theorem Within.trans {t u v : FileTree} (h : t.Within u) (h' : u.Within v) : t.Within v :=
  ⟨fun place hp => h'.directory place (h.directory place hp),
    fun place hp => h'.isSome place (h.isSome place hp)⟩

theorem leads_mono {t t' : FileTree} (h : t.Within t') {place place' : List Text}
    {step : Path.Component} (hl : t.leads place step = some place') :
    t'.leads place step = some place' := by
  cases step with
  | here => exact hl
  | root => exact hl
  | up => exact hl
  | name n =>
    rw [leads_name] at hl ⊢
    exact ⟨hl.1, h.isSome _ hl.2.1, hl.2.2⟩

/-- **A walk leads to the same place in a tree that has more in it.** -/
theorem walk_mono {t t' : FileTree} (h : t.Within t') {place place' : List Text}
    {steps : List Path.Component} (hw : t.walk place steps = .ok place') :
    t'.walk place steps = .ok place' := by
  induction steps generalizing place with
  | nil => exact hw
  | cons step steps ih =>
    obtain ⟨hd, next, hn, hw⟩ := walk_cons.1 hw
    exact walk_cons.2 ⟨h.directory _ hd, next, leads_mono h hn, ih hw⟩

theorem directory_of_walk {t : FileTree} {place dir : List Text} {steps : List Path.Component}
    (hdir : t.entry? dir = some .directory) (hw : t.walk place steps = .ok dir) :
    t.entry? place = some .directory := by
  cases steps with
  | nil =>
    cases hw
    exact hdir
  | cons step steps => exact (walk_cons.1 hw).1

/-- **A walk to a directory passes directories only**, so that it needs nothing else. -/
theorem walk_of_directories {t t' : FileTree}
    (h : ∀ p, t.entry? p = some .directory → t'.entry? p = some .directory)
    {place dir : List Text} {steps : List Path.Component} (hdir : t.entry? dir = some .directory)
    (hw : t.walk place steps = .ok dir) : t'.walk place steps = .ok dir := by
  induction steps generalizing place with
  | nil => exact hw
  | cons step steps ih =>
    obtain ⟨hd, next, hn, hw⟩ := walk_cons.1 hw
    refine walk_cons.2 ⟨h _ hd, next, ?_, ih hw⟩
    cases step with
    | here => exact hn
    | root => exact hn
    | up => exact hn
    | name n =>
      obtain ⟨hlong, -, rfl⟩ := leads_name.1 hn
      have hnext := h _ (directory_of_walk hdir hw)
      refine leads_name.2 ⟨hlong, isSome_get?.2 ?_, rfl⟩
      rw [hnext]
      exact Option.some_ne_none _

theorem get?_of_stat {t u : FileTree} {r : Route} (h : t.stat r = .ok u) :
    ∃ place, t.walk [] r.steps = .ok place ∧ t.get? place = some u := by
  unfold stat at h
  by_cases hr : r.steps = []
  · simp [hr] at h
  · simp only [hr, if_false] at h
    obtain ⟨place, hw, h⟩ := bind_eq_ok.1 h
    refine ⟨place, hw, ?_⟩
    cases hp : t.get? place with
    | none => simp [hp] at h
    | some v =>
      cases v with
      | file bytes =>
        simp only [hp] at h
        split at h
        · cases h
        · cases h
          rfl
      | directory es =>
        simp only [hp] at h
        cases h
        rfl

/-! ### Spots -/

/-- A name in a directory, as a route leads to it. -/
structure Spot (t : FileTree) where
  /-- The steps that lead to the directory. -/
  above : List Path.Component
  name : Text
  /-- The place of the directory. -/
  dir : List Text
  entries : Entries
  walk_eq : t.walk [] above = .ok dir
  get?_eq : t.get? dir = some (.directory entries)

namespace Spot

variable {t : FileTree} (s : Spot t)

/-- The route that leads to the spot. -/
def route : Route := { steps := s.above ++ [.name s.name] }

/-- The place of the spot. -/
def place : List Text := s.dir ++ [s.name]

/-- No directory is at the spot. -/
def IsFree : Prop := (s.entries.lookup s.name).map top ≠ some .directory

theorem isFree_of_none (h : s.entries.lookup s.name = none) : s.IsFree := by simp [IsFree, h]

theorem isFree_of_file {bytes : ByteArray} (h : s.entries.lookup s.name = some (.file bytes)) :
    s.IsFree := by simp [IsFree, h]

theorem exists_of_not_isFree (h : ¬ s.IsFree) :
    ∃ es, s.entries.lookup s.name = some (.directory es) := by
  obtain ⟨u, hu, htop⟩ := Option.map_eq_some_iff.1 (not_not.1 h)
  cases u with
  | file bytes => cases htop
  | directory es => exact ⟨es, hu⟩

theorem entry?_place_ne (h : s.IsFree) : t.entry? s.place ≠ some .directory := by
  rw [place, entry?_concat s.get?_eq]
  exact h

/-- Another name in the same directory. -/
def beside (name : Text) : Spot t := { s with name }

@[simp] theorem beside_name (name : Text) : (s.beside name).name = name := rfl

@[simp] theorem beside_dir (name : Text) : (s.beside name).dir = s.dir := rfl

theorem target_route : t.target s.route = .ok (s.dir, s.entries, .name s.name) := by
  unfold target route
  simp only [List.getLast?_append, List.getLast?_singleton, Option.some_or,
    List.dropLast_concat, s.walk_eq, ok_bind, directoryAt_eq_ok.2 s.get?_eq]

/-- What keeps a file from being written at the spot, if anything does. -/
def blocked? : Option IoFault :=
  if isTooLong s.name then some .invalidFilename
  else match t.entry? s.place with
    | some .directory => some .isADirectory
    | _ => none

theorem entry?_place : t.entry? s.place = (s.entries.lookup s.name).map top :=
  entry?_concat s.get?_eq s.name

theorem blocked?_eq_none : s.blocked? = none ↔ isTooLong s.name = false ∧ s.IsFree := by
  unfold blocked? IsFree
  rw [s.entry?_place]
  cases isTooLong s.name with
  | true => simp
  | false =>
    cases s.entries.lookup s.name with
    | none => simp
    | some u => cases u <;> simp

theorem blocked?_eq_some {fault : IoFault} : s.blocked? = some fault ↔
    isTooLong s.name = true ∧ fault = .invalidFilename ∨
      isTooLong s.name = false ∧ ¬ s.IsFree ∧ fault = .isADirectory := by
  unfold blocked? IsFree
  rw [s.entry?_place]
  cases isTooLong s.name with
  | true => simp [eq_comm]
  | false =>
    cases s.entries.lookup s.name with
    | none => simp
    | some u => cases u <;> simp [eq_comm]

/-- **Writing at a spot** puts the file there or says what keeps it from being there. -/
theorem writeFile_route (bytes : ByteArray) : t.writeFile s.route bytes =
    match s.blocked? with
    | some fault => .error fault
    | none => .ok (t.put s.dir s.name (.file bytes)) := by
  have hslash : s.route.slash = false := rfl
  unfold blocked?
  simp only [writeFile, s.target_route, s.entry?_place, ok_bind, hslash, if_false,
    Bool.false_eq_true]
  cases isTooLong s.name with
  | true => rfl
  | false =>
    cases s.entries.lookup s.name with
    | none => rfl
    | some u => cases u <;> rfl

/-! ### Removing a file -/

theorem removeFile_of_blocked {fault : IoFault} (h : s.blocked? = some fault) :
    t.removeFile s.route = t := by
  unfold removeFile
  rw [s.target_route]
  rcases s.blocked?_eq_some.1 h with ⟨hlong, -⟩ | ⟨-, hfree, -⟩
  · simp [hlong]
  · obtain ⟨es, hl⟩ := s.exists_of_not_isFree hfree
    simp [hl]

theorem removeFile_of_none (h : s.entries.lookup s.name = none) : t.removeFile s.route = t := by
  simp [removeFile, s.target_route, h]

theorem removeFile_of_file (hlong : isTooLong s.name = false) {bytes : ByteArray}
    (h : s.entries.lookup s.name = some (.file bytes)) :
    t.removeFile s.route = t.remove s.dir s.name := by
  have hslash : s.route.slash = false := rfl
  simp [removeFile, s.target_route, hslash, hlong, h]

/-- **Removing changes what is at the spot only**, and does so unless a file could not be written
there either. -/
theorem entry?_removeFile (place : List Text) : entry? (t.removeFile s.route) place =
    if place = s.place ∧ s.blocked? = none then none else t.entry? place := by
  cases hb : s.blocked? with
  | some fault => simp [s.removeFile_of_blocked hb]
  | none =>
    obtain ⟨hlong, hfree⟩ := s.blocked?_eq_none.1 hb
    have hat := s.entry?_place
    cases hl : s.entries.lookup s.name with
    | none =>
      rw [s.removeFile_of_none hl]
      split
      · rename_i h
        rw [h.1, hat, hl, Option.map_none]
      · rfl
    | some u =>
      cases u with
      | file bytes =>
        rw [s.removeFile_of_file hlong hl, entry?_remove s.get?_eq hfree]
        simp [Spot.place]
      | directory es =>
        rw [IsFree, hl] at hfree
        exact absurd rfl hfree

/-! ### Something put beside a spot -/

theorem within_put (h : s.entries.lookup s.name = none) (new : FileTree) :
    t.Within (t.put s.dir s.name new) := by
  have hnone : t.entry? (s.dir ++ [s.name]) = none := by
    rw [entry?_concat s.get?_eq, h, Option.map_none]
  have hkept : ∀ place, t.entry? place ≠ none →
      entry? (t.put s.dir s.name new) place = t.entry? place := by
    intro place hp
    refine entry?_change (touchesOnly_putEntry s.name new) t s.dir ?_
    rintro ⟨q, rfl⟩
    by_cases hq : q = []
    · rw [hq, List.append_nil] at hp
      exact hp hnone
    · exact hp (entry?_below (by rw [hnone]; exact nofun) hq)
  constructor
  · intro place hp
    rw [hkept place (by rw [hp]; exact nofun), hp]
  · intro place hp
    rw [isSome_get?] at hp ⊢
    rwa [hkept place hp]

theorem directory_put (h : s.IsFree) (new : FileTree) {place : List Text}
    (hp : t.entry? place = some .directory) :
    entry? (t.put s.dir s.name new) place = some .directory := by
  have hspot : t.entry? (s.dir ++ [s.name]) ≠ some .directory := s.entry?_place_ne h
  rw [← hp]
  refine entry?_change (touchesOnly_putEntry s.name new) t s.dir ?_
  rintro ⟨q, rfl⟩
  by_cases hq : q = []
  · rw [hq, List.append_nil] at hp
    exact hspot hp
  · rw [entry?_below hspot hq] at hp
    cases hp

/-- A spot after something was put under another name of its directory, or under its own. -/
def afterPut {m : Text} (hm : (s.beside m).IsFree) (new : FileTree) :
    Spot (t.put s.dir m new) where
  above := s.above
  name := s.name
  dir := s.dir
  entries := putEntry m new s.entries
  walk_eq := walk_of_directories (fun _ => (s.beside m).directory_put hm new)
    (get?_eq_directory_iff.1 ⟨_, s.get?_eq⟩) s.walk_eq
  get?_eq := get?_put s.get?_eq m _

/-- **A new file that is removed again** has left nothing. -/
theorem removeFile_put (hlong : isTooLong s.name = false) (h : s.entries.lookup s.name = none)
    (bytes : ByteArray) : (t.put s.dir s.name (.file bytes)).removeFile s.route = t := by
  have hthere : (putEntry s.name (.file bytes) s.entries).lookup s.name = some (.file bytes) := by
    rw [lookup_putEntry, if_pos rfl]
  let after : Spot (t.put s.dir s.name (.file bytes)) := s.afterPut (s.isFree_of_none h) _
  exact (after.removeFile_of_file hlong hthere).trans (remove_put s.get?_eq h _)

/-- The tree after a file was put beside the spot and moved to it. -/
def replaced (m : Text) (bytes : ByteArray) : FileTree :=
  ((t.put s.dir m (.file bytes)).remove s.dir m).put s.dir s.name (.file bytes)

section Moving

variable {s} {m : Text} (hm : (s.beside m).IsFree)

include hm

theorem target_afterPut (new : FileTree) (n : Text) : (t.put s.dir m new).target
    (s.beside n).route = .ok (s.dir, putEntry m new s.entries, .name n) :=
  ((s.beside n).afterPut hm new).target_route

/-- **Moving a file to the spot** puts it over the file that may be there, unless something keeps a
file from being written there. -/
theorem renameFile_route (bytes : ByteArray) :
    (t.put s.dir m (.file bytes)).renameFile (s.beside m).route s.route =
      match s.blocked? with
      | some fault => .error fault
      | none => .ok (s.replaced m bytes) := by
  have hsource := target_afterPut hm (.file bytes) m
  have htarget : (t.put s.dir m (.file bytes)).target s.route = _ :=
    target_afterPut hm (.file bytes) s.name
  have hslash : s.route.slash = false := rfl
  have hfound : (putEntry m (.file bytes) s.entries).lookup m = some (.file bytes) := by
    rw [lookup_putEntry, if_pos rfl]
  simp only [renameFile, hsource, htarget, ok_bind, hfound, hslash, if_false, Bool.false_eq_true]
  unfold blocked?
  rw [s.entry?_place]
  cases isTooLong s.name with
  | true => rfl
  | false =>
    -- The file that is moved can be the one at the spot.
    by_cases hname : s.name = m
    · have hfree : (s.entries.lookup s.name).map top ≠ some .directory := hname ▸ hm
      rw [hname, hfound, ← hname]
      cases hl : s.entries.lookup s.name with
      | none => rfl
      | some u =>
        cases u with
        | file old => rfl
        | directory es =>
          rw [hl] at hfree
          exact absurd rfl hfree
    · rw [lookup_putEntry, if_neg hname]
      cases s.entries.lookup s.name with
      | none => rfl
      | some u => cases u <;> rfl

/-- **After a file was moved to the spot**, it is there and no longer beside it, and nothing else
has changed. -/
theorem entry?_replaced (hfree : s.IsFree) (bytes : ByteArray) (place : List Text) :
    entry? (s.replaced m bytes) place =
      if place = s.place then some (.file bytes)
      else if place = (s.beside m).place then none else t.entry? place := by
  have hm : (s.entries.lookup m).map top ≠ some .directory := hm
  have hput := get?_put s.get?_eq m (.file bytes)
  have hremove := get?_remove hput m
  have hold : ((removeEntry m (putEntry m (.file bytes) s.entries)).lookup s.name).map top ≠
      some .directory := by
    rw [lookup_removeEntry]
    split
    · simp
    · rename_i hne
      rw [lookup_putEntry, if_neg hne]
      exact hfree
  have hfile : ((putEntry m (.file bytes) s.entries).lookup m).map top ≠ some .directory := by
    rw [lookup_putEntry, if_pos rfl]
    simp
  rw [replaced, entry?_put hremove hold, entry?_remove hput hfile, entry?_put s.get?_eq hm]
  unfold Spot.place
  rw [beside_dir, beside_name]
  by_cases hat : place = s.dir ++ [m]
  · simp only [if_pos hat]
  · simp only [if_neg hat]

theorem walk_replaced (hlong : isTooLong s.name = false) (hfree : s.IsFree) (bytes : ByteArray) :
    (s.replaced m bytes).walk [] s.route.steps = .ok s.place := by
  have hentry := entry?_replaced hm hfree bytes
  have hkept : ∀ p, t.entry? p = some .directory → entry? (s.replaced m bytes) p =
      some .directory := by
    intro p hp
    have hne : ∀ s' : Spot t, s'.IsFree → p ≠ s'.place := by
      rintro s' hfree' rfl
      exact s'.entry?_place_ne hfree' hp
    rw [hentry, if_neg (hne s hfree), if_neg (hne _ hm), hp]
  have hdir := get?_eq_directory_iff.1 ⟨_, s.get?_eq⟩
  have hthere : ((s.replaced m bytes).get? s.place).isSome := by
    rw [isSome_get?, hentry, if_pos rfl]
    exact Option.some_ne_none _
  exact walk_append.2 ⟨s.dir, walk_of_directories hkept hdir s.walk_eq,
    walk_cons.2 ⟨hkept _ hdir, s.place, leads_name.2 ⟨hlong, hthere, rfl⟩, rfl⟩⟩

end Moving

/-- After a new file was moved to the spot, only the spot has changed. -/
theorem entry?_replaced_of_none (hfree : s.IsFree) {m : Text} (hm : s.entries.lookup m = none)
    (bytes : ByteArray) (place : List Text) : entry? (s.replaced m bytes) place =
      if place = s.place then some (.file bytes) else t.entry? place := by
  have hnone : t.entry? (s.beside m).place = none := by
    rw [Spot.place, beside_dir, beside_name, entry?_concat s.get?_eq, hm, Option.map_none]
  rw [entry?_replaced ((s.beside m).isFree_of_none hm) hfree]
  split
  · rfl
  · split
    · rename_i h
      rw [h, hnone]
    · rfl

theorem within_replaced (hfree : s.IsFree) {m : Text} (hm : s.entries.lookup m = none)
    (bytes : ByteArray) : t.Within (s.replaced m bytes) := by
  have hentry := s.entry?_replaced_of_none hfree hm bytes
  constructor
  · intro place hp
    rw [hentry, if_neg]
    · exact hp
    · rintro rfl
      exact s.entry?_place_ne hfree hp
  · intro place hp
    rw [isSome_get?] at hp ⊢
    rw [hentry]
    split
    · exact Option.some_ne_none _
    · exact hp

/-! ### Finding the spot of a file -/

theorem exists_of_stat {r : Route} {above : List Path.Component} {n : Text} {u : FileTree}
    (hr : r.steps = above ++ [.name n]) (h : t.stat r = .ok u) :
    ∃ s : Spot t, s.above = above ∧ s.name = n ∧ isTooLong n = false ∧
      s.entries.lookup n = some u := by
  obtain ⟨place, hw, hget⟩ := get?_of_stat h
  rw [hr] at hw
  obtain ⟨dir, hdir, hw⟩ := walk_append.1 hw
  obtain ⟨hd, next, hn, hw⟩ := walk_cons.1 hw
  cases hw
  obtain ⟨es, hes⟩ := get?_eq_directory_iff.2 hd
  obtain ⟨hlong, -, rfl⟩ := leads_name.1 hn
  rw [get?_concat hes] at hget
  exact ⟨⟨above, n, dir, es, hdir, hes⟩, rfl, rfl, hlong, hget⟩

theorem stat_route : t.stat s.route =
    if isTooLong s.name then .error .invalidFilename
    else match s.entries.lookup s.name with
      | none => .error .notFound
      | some u => .ok u := by
  have hget := get?_concat s.get?_eq s.name
  have hslash : s.route.slash = false := rfl
  have hwalk : t.walk [] s.route.steps =
      if isTooLong s.name then .error .invalidFilename
      else if (s.entries.lookup s.name).isSome then .ok (s.dir ++ [s.name])
      else .error .notFound := by
    rw [route, walk_append_eq, s.walk_eq, ok_bind, walk, directoryAt_eq_ok.2 s.get?_eq, ok_bind]
    rfl
  have hne : s.route.steps ≠ [] := by simp [route]
  rw [stat, if_neg hne, hwalk]
  by_cases hlong : isTooLong s.name = true
  · simp [hlong]
  · cases hl : s.entries.lookup s.name with
    | none => simp [hlong]
    | some u =>
      rw [hl] at hget
      cases u with
      | file bytes => simp [hlong, hget, hslash]
      | directory es => simp [hlong, hget]

theorem exists_of_directoryAt {above : List Path.Component} {es : Entries}
    (h : (t.walk [] above >>= t.directoryAt) = .ok es) (name : Text) :
    ∃ s : Spot t, s.above = above ∧ s.name = name := by
  obtain ⟨dir, hdir, hes⟩ := bind_eq_ok.1 h
  exact ⟨⟨above, name, dir, es, hdir, directoryAt_eq_ok.1 hes⟩, rfl, rfl⟩

end Spot

/-! ### No directory -/

section Nowhere

variable {t : FileTree} {above : List Path.Component} {fault : IoFault}
  (h : (t.walk [] above >>= t.directoryAt) = .error fault) (name : Text)

include h

theorem stat_of_nowhere : t.stat { steps := above ++ [.name name] } = .error fault := by
  have hwalk : t.walk [] (above ++ [.name name]) = .error fault := by
    rw [walk_append_eq]
    cases hd : t.walk [] above with
    | error e =>
      rw [hd] at h
      cases h
      rfl
    | ok dir =>
      rw [hd, ok_bind] at h
      rw [ok_bind, walk, h]
      rfl
  have hne : above ++ [.name name] ≠ [] := by simp
  rw [stat, if_neg hne, hwalk]
  rfl

theorem target_of_nowhere : t.target { steps := above ++ [.name name] } = .error fault := by
  simp only [target, List.getLast?_append, List.getLast?_singleton, Option.some_or,
    List.dropLast_concat]
  cases hd : t.walk [] above with
  | error e =>
    rw [hd] at h
    cases h
    rfl
  | ok dir =>
    rw [hd, ok_bind] at h
    rw [ok_bind, h]
    rfl

end Nowhere

end PageFields.FileTree
