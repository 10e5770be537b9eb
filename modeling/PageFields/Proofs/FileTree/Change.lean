import PageFields.FileTree
import PageFields.Proofs.Lookup

/-! # File trees: what a change leaves alone

Putting a file into a directory, or removing one from it, changes what is at one place and nothing
else (`entry?_put`, `entry?_remove`), as long as no directory was at that place. Both follow from
what `change` does for any change of the entries of one directory that only touches one name. -/

namespace PageFields.FileTree

/-! ### Places -/

@[simp] theorem entries_directory (es : Entries) : (directory es).entries = es := rfl

@[simp] theorem get?_nil (t : FileTree) : t.get? [] = some t := rfl

theorem get?_cons (t : FileTree) (name : Text) (place : List Text) :
    t.get? (name :: place) = (t.entries.lookup name).bind (get? · place) := rfl

theorem get?_append (t : FileTree) (p q : List Text) :
    t.get? (p ++ q) = (t.get? p).bind (get? · q) := by
  induction p generalizing t with
  | nil => rfl
  | cons name p ih =>
    rw [List.cons_append, get?_cons, get?_cons]
    cases t.entries.lookup name with
    | none => rfl
    | some u => exact ih u

@[simp] theorem top_file (bytes : ByteArray) : (file bytes).top = .file bytes := rfl

@[simp] theorem top_directory (es : Entries) : (directory es).top = .directory := rfl

theorem isSome_get? {t : FileTree} {place : List Text} :
    (t.get? place).isSome ↔ t.entry? place ≠ none := by
  unfold entry?
  cases t.get? place <;> simp

theorem entry?_cons (t : FileTree) (name : Text) (place : List Text) :
    t.entry? (name :: place) = (t.entries.lookup name).bind fun u => entry? u place := by
  unfold entry?
  rw [get?_cons]
  cases t.entries.lookup name <;> rfl

theorem exists_directory_of_get? {t u : FileTree} {place : List Text} {es : Entries}
    (h : t.get? place = some u) (hu : u = directory es) : ∃ es', t = directory es' := by
  subst hu
  cases t with
  | directory es' => exact ⟨es', rfl⟩
  | file bytes =>
    cases place with
    | nil => cases h
    | cons name place => cases h

theorem get?_eq_directory_iff {t : FileTree} {place : List Text} :
    (∃ es, t.get? place = some (directory es)) ↔ t.entry? place = some .directory := by
  unfold entry?
  cases h : t.get? place with
  | none => simp
  | some u => cases u <;> simp

theorem get?_eq_file_iff {t : FileTree} {place : List Text} {bytes : ByteArray} :
    t.get? place = some (file bytes) ↔ t.entry? place = some (.file bytes) := by
  unfold entry?
  cases h : t.get? place with
  | none => simp
  | some u => cases u <;> simp

theorem get?_concat {t : FileTree} {dir : List Text} {es : Entries}
    (h : t.get? dir = some (directory es)) (name : Text) :
    t.get? (dir ++ [name]) = es.lookup name := by
  rw [get?_append, h, Option.bind_some, get?_cons, entries_directory]
  cases es.lookup name <;> rfl

theorem entry?_concat {t : FileTree} {dir : List Text} {es : Entries}
    (h : t.get? dir = some (directory es)) (name : Text) :
    t.entry? (dir ++ [name]) = (es.lookup name).map top := by
  unfold entry?
  rw [get?_concat h]

/-! ### Changing the entries of one directory -/

theorem lookup_putEntry (name : Text) (new : FileTree) (es : Entries) (m : Text) :
    (putEntry name new es).lookup m = if m = name then some new else es.lookup m := by
  induction es with
  | nil =>
    by_cases h : m = name
    · simp [putEntry, h]
    · rw [putEntry, lookup_cons_of_ne h, if_neg h]
  | cons e es ih =>
    obtain ⟨n, old⟩ := e
    unfold putEntry
    by_cases hm : m = n
    · by_cases h : n = name
      · simp [hm, h]
      · simp [hm, h]
    · by_cases h : n = name
      · rw [if_pos h, lookup_cons_of_ne hm, lookup_cons_of_ne hm, if_neg (h ▸ hm)]
      · rw [if_neg h, lookup_cons_of_ne hm, lookup_cons_of_ne hm, ih]

theorem lookup_removeEntry (name : Text) (es : Entries) (m : Text) :
    (removeEntry name es).lookup m = if m = name then none else es.lookup m :=
  lookup_filter_ne name es m

/-- The change touches what is under this name only. -/
def TouchesOnly (name : Text) (f : Entries → Entries) : Prop :=
  ∀ es m, m ≠ name → (f es).lookup m = es.lookup m

theorem touchesOnly_putEntry (name : Text) (new : FileTree) :
    TouchesOnly name (putEntry name new) := fun es m hm => by rw [lookup_putEntry, if_neg hm]

theorem touchesOnly_removeEntry (name : Text) : TouchesOnly name (removeEntry name) :=
  fun es m hm => by rw [lookup_removeEntry, if_neg hm]

theorem lookup_change_cons (f : Entries → Entries) (name : Text) (dir : List Text) (es : Entries)
    (m : Text) : ((change f (name :: dir) (directory es)).entries).lookup m =
      (es.lookup m).map fun t => if m = name then change f dir t else t := by
  rw [change, entries_directory]
  cases hl : es.lookup name with
  | none =>
    by_cases hm : m = name
    · rw [hm, hl, Option.map_none]
    · simp [hm]
  | some t =>
    simp only [lookup_putEntry]
    by_cases hm : m = name
    · rw [if_pos hm, hm, hl, Option.map_some, if_pos rfl]
    · simp [hm]

theorem get?_change {t : FileTree} {dir : List Text} {es : Entries}
    (h : t.get? dir = some (directory es)) (f : Entries → Entries) :
    (change f dir t).get? dir = some (directory (f es)) := by
  induction dir generalizing t with
  | nil =>
    cases h
    rfl
  | cons name dir ih =>
    obtain ⟨es', rfl⟩ := exists_directory_of_get? h rfl
    rw [get?_cons] at h
    obtain ⟨u, hu, h⟩ := Option.bind_eq_some_iff.1 h
    rw [get?_cons, lookup_change_cons, show es'.lookup name = some u from hu, Option.map_some,
      if_pos rfl, Option.bind_some, ih h]

/-- **All other places keep what is there.** The induction is on the place of the directory; a place
that leaves the way to it keeps all that is below. -/
theorem entry?_change {name : Text} {f : Entries → Entries} (hf : TouchesOnly name f)
    (t : FileTree) (dir : List Text) {place : List Text} (h : ¬ dir ++ [name] <+: place) :
    entry? (change f dir t) place = t.entry? place := by
  induction dir generalizing t place with
  | nil =>
    cases t with
    | file bytes => rfl
    | directory es =>
      cases place with
      | nil => rfl
      | cons m place =>
        have hm : m ≠ name := by
          rintro rfl
          exact h ⟨place, rfl⟩
        rw [entry?_cons, entry?_cons]
        exact congrArg (fun o => o.bind fun u => entry? u place) (hf es m hm)
  | cons n dir ih =>
    cases t with
    | file bytes => rfl
    | directory es =>
      cases place with
      | nil => rfl
      | cons m place =>
        rw [entry?_cons, entry?_cons, lookup_change_cons]
        show _ = (es.lookup m).bind fun u => entry? u place
        by_cases hm : m = n
        · subst hm
          have h' : ¬ dir ++ [name] <+: place := fun hp => h (by
            rw [List.cons_append]
            exact (List.prefix_cons_inj m).2 hp)
          cases es.lookup m with
          | none => rfl
          | some u =>
            rw [Option.map_some, if_pos rfl, Option.bind_some, Option.bind_some, ih u h']
        · cases es.lookup m with
          | none => rfl
          | some u => rw [Option.map_some, if_neg hm]

/-! ### Putting and removing a file -/

variable {t : FileTree} {dir : List Text} {es : Entries} {name : Text}

theorem get?_put (h : t.get? dir = some (directory es)) (name : Text) (new : FileTree) :
    (t.put dir name new).get? dir = some (directory (putEntry name new es)) := get?_change h _

theorem get?_remove (h : t.get? dir = some (directory es)) (name : Text) :
    (t.remove dir name).get? dir = some (directory (removeEntry name es)) := get?_change h _

theorem entry?_below {u : FileTree} {p q : List Text} (h : u.entry? p ≠ some .directory)
    (hq : q ≠ []) : u.entry? (p ++ q) = none := by
  unfold entry? at h ⊢
  rw [get?_append]
  cases hp : u.get? p with
  | none => rfl
  | some v =>
    rw [hp] at h
    cases v with
    | directory es => exact absurd rfl h
    | file bytes =>
      cases q with
      | nil => exact absurd rfl hq
      | cons m q => rfl

theorem entry?_change_name {f : Entries → Entries} (hf : TouchesOnly name f)
    (hdir : t.get? dir = some (directory es)) (hold : (es.lookup name).map top ≠ some .directory)
    (hnew : ((f es).lookup name).map top ≠ some .directory) (place : List Text) :
    entry? (change f dir t) place =
      if place = dir ++ [name] then ((f es).lookup name).map top else t.entry? place := by
  by_cases hp : dir ++ [name] <+: place
  · obtain ⟨q, rfl⟩ := hp
    have hat := entry?_concat (get?_change hdir f) name
    by_cases hq : q = []
    · subst hq
      rw [List.append_nil, if_pos rfl, hat]
    · have hne : dir ++ [name] ++ q ≠ dir ++ [name] := fun h => hq (by simpa using h)
      rw [if_neg hne, entry?_below (by rw [hat]; exact hnew) hq,
        entry?_below (by rw [entry?_concat hdir]; exact hold) hq]
  · have hne : place ≠ dir ++ [name] := by
      rintro rfl
      exact hp List.prefix_rfl
    rw [if_neg hne, entry?_change hf t dir hp]

/-- **Putting a file** changes what is at its place and nothing else. -/
theorem entry?_put (hdir : t.get? dir = some (directory es))
    (hold : (es.lookup name).map top ≠ some .directory) (bytes : ByteArray) (place : List Text) :
    entry? (t.put dir name (file bytes)) place =
      if place = dir ++ [name] then some (.file bytes) else t.entry? place := by
  have hnew : ((putEntry name (file bytes) es).lookup name).map top = some (.file bytes) := by
    rw [lookup_putEntry, if_pos rfl, Option.map_some, top_file]
  rw [put, entry?_change_name (touchesOnly_putEntry name _) hdir hold (by rw [hnew]; simp), hnew]

/-- **Removing a file** changes what is at its place and nothing else. -/
theorem entry?_remove (hdir : t.get? dir = some (directory es))
    (hold : (es.lookup name).map top ≠ some .directory) (place : List Text) :
    entry? (t.remove dir name) place = if place = dir ++ [name] then none else t.entry? place := by
  have hnew : ((removeEntry name es).lookup name).map top = none := by
    rw [lookup_removeEntry, if_pos rfl, Option.map_none]
  rw [remove, entry?_change_name (touchesOnly_removeEntry name) hdir hold (by rw [hnew]; simp),
    hnew]

/-! ### Taking a change back -/

theorem putEntry_putEntry (name : Text) (a b : FileTree) (es : Entries) :
    putEntry name b (putEntry name a es) = putEntry name b es := by
  induction es with
  | nil => simp [putEntry]
  | cons e es ih =>
    obtain ⟨n, old⟩ := e
    by_cases h : n = name
    · simp [putEntry, h]
    · simp [putEntry, h, ih]

theorem putEntry_of_lookup {u : FileTree} (h : es.lookup name = some u) :
    putEntry name u es = es := by
  induction es with
  | nil => cases h
  | cons e es ih =>
    obtain ⟨n, old⟩ := e
    by_cases hn : name = n
    · subst hn
      rw [List.lookup_cons_self] at h
      cases h
      rw [putEntry, if_pos rfl]
    · rw [lookup_cons_of_ne hn] at h
      rw [putEntry, if_neg (Ne.symm hn), ih h]

theorem removeEntry_putEntry (h : es.lookup name = none) (new : FileTree) :
    removeEntry name (putEntry name new es) = es := by
  induction es with
  | nil => simp [putEntry, removeEntry]
  | cons e es ih =>
    obtain ⟨n, old⟩ := e
    have hn : name ≠ n := by
      rintro rfl
      simp at h
    rw [lookup_cons_of_ne hn] at h
    rw [putEntry, if_neg (Ne.symm hn), removeEntry,
      List.filter_cons_of_pos (by simpa using hn.symm)]
    exact congrArg _ (ih h)

theorem change_change (f g : Entries → Entries) (t : FileTree) (dir : List Text) :
    change g dir (change f dir t) = change (fun es => g (f es)) dir t := by
  induction dir generalizing t with
  | nil => cases t <;> rfl
  | cons n dir ih =>
    cases t with
    | file bytes => rfl
    | directory es =>
      simp only [change]
      cases hl : es.lookup n with
      | none => simp [hl]
      | some u => simp [lookup_putEntry, putEntry_putEntry, ih]

theorem change_of_eq {f : Entries → Entries} (hdir : t.get? dir = some (directory es))
    (hf : f es = es) : change f dir t = t := by
  induction dir generalizing t with
  | nil =>
    cases hdir
    rw [change, hf]
  | cons n dir ih =>
    obtain ⟨es', rfl⟩ := exists_directory_of_get? hdir rfl
    rw [get?_cons] at hdir
    obtain ⟨u, hu, hdir⟩ := Option.bind_eq_some_iff.1 hdir
    have hu : es'.lookup n = some u := hu
    simp only [change, hu, ih hdir, putEntry_of_lookup hu]

/-- **Putting something new and removing it again** changes nothing. -/
theorem remove_put (hdir : t.get? dir = some (directory es)) (h : es.lookup name = none)
    (new : FileTree) : (t.put dir name new).remove dir name = t := by
  rw [put, remove, change_change]
  exact change_of_eq hdir (removeEntry_putEntry h new)

end PageFields.FileTree
