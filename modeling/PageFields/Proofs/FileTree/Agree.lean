import PageFields.Proofs.FileTree.Walk
import PageFields.Proofs.Text.Order

/-! # File trees: what is found in trees that agree

A tree that a file system can hold is `Storable`. Two of them `Agree` at a place if the same is
there and below; the order of the entries of a directory may differ, and so may all the rest. A walk
that goes down from this place leads to the same places in both (`walk_congr`), so that what a route
leads to there agrees as well (`stat_congr`), and what is read of it is the same. -/

namespace PageFields.FileTree

/-! ### Trees that a file system can hold -/

/-- In each directory the entries have different names. -/
inductive Storable : FileTree → Prop
  | file (content : ByteArray) : Storable (.file content)
  | directory {es : Entries} (nodup : (es.map Prod.fst).Nodup)
    (entries : ∀ e ∈ es, Storable e.2) : Storable (.directory es)

theorem Storable.of_get? {t u : FileTree} (h : t.Storable) {place : List Text}
    (hu : t.get? place = some u) : u.Storable := by
  induction place generalizing t with
  | nil =>
    cases hu
    exact h
  | cons name place ih =>
    cases h with
    | file content => cases hu
    | directory _ entries =>
      rw [get?_cons] at hu
      obtain ⟨v, hv, hu⟩ := Option.bind_eq_some_iff.1 hu
      exact ih (entries _ (mem_of_lookup hv)) hu

theorem Storable.singleton {name : Text} {t : FileTree} (h : t.Storable) :
    (FileTree.directory [(name, t)]).Storable :=
  .directory (List.nodup_singleton name) fun e he => by
    rwa [List.mem_singleton.1 he]

/-! ### Trees that agree -/

/-- Two trees have the same at a place and below. -/
structure Agree (t u : FileTree) (place : List Text) : Prop where
  left : t.Storable
  right : u.Storable
  entry?_eq : ∀ q, t.entry? (place ++ q) = u.entry? (place ++ q)

variable {t u : FileTree} {place : List Text}

namespace Agree

theorem symm (h : Agree t u place) : Agree u t place :=
  ⟨h.right, h.left, fun q => (h.entry?_eq q).symm⟩

theorem below (h : Agree t u place) (q : List Text) : Agree t u (place ++ q) :=
  ⟨h.left, h.right, fun r => by rw [List.append_assoc, h.entry?_eq]⟩

theorem entry?_place (h : Agree t u place) : t.entry? place = u.entry? place := by
  simpa using h.entry?_eq []

theorem exists_get? (h : Agree t u place) {a : FileTree} (ha : t.get? place = some a) :
    ∃ b, u.get? place = some b ∧ Agree a b [] := by
  have hsome : (u.get? place).isSome := by
    rw [isSome_get?, ← h.entry?_place, ← isSome_get?, ha]
    rfl
  obtain ⟨b, hb⟩ := Option.isSome_iff_exists.1 hsome
  refine ⟨b, hb, h.left.of_get? ha, h.right.of_get? hb, fun q => ?_⟩
  have hq := h.entry?_eq q
  unfold entry? at hq ⊢
  rw [get?_append, get?_append, ha, hb] at hq
  exact hq

theorem get?_eq_none (h : Agree t u place) (ht : t.get? place = none) : u.get? place = none := by
  have heq := h.entry?_place
  unfold entry? at heq
  rw [ht, Option.map_none] at heq
  exact Option.map_eq_none_iff.1 heq.symm

theorem eq_of_file {content : ByteArray} (h : Agree (file content) u []) : u = file content := by
  have htop := h.entry?_place
  cases u with
  | file other =>
    cases htop
    rfl
  | directory es => cases htop

theorem exists_directory {es : Entries} (h : Agree (directory es) u []) :
    ∃ es', u = directory es' := by
  have htop := h.entry?_place
  cases u with
  | file other => cases htop
  | directory es' => exact ⟨es', rfl⟩

theorem eq_or_directories (h : Agree t u []) :
    t = u ∨ ∃ es es', t = directory es ∧ u = directory es' := by
  cases t with
  | file content => exact .inl h.eq_of_file.symm
  | directory es =>
    obtain ⟨es', hu⟩ := h.exists_directory
    exact .inr ⟨es, es', rfl, hu⟩

section Directories

variable {es es' : Entries} (h : Agree (directory es) (directory es') [])

include h

theorem exists_lookup {name : Text} {a : FileTree} (ha : es.lookup name = some a) :
    ∃ b, es'.lookup name = some b ∧ Agree a b [] := by
  have hget : ∀ es : Entries, (directory es).get? [name] = es.lookup name :=
    fun es => get?_concat (get?_nil _) name
  obtain ⟨b, hb, hab⟩ := (h.below [name]).exists_get? ((hget es).trans ha)
  exact ⟨b, (hget es').symm.trans hb, hab⟩

theorem isSome_lookup (name : Text) : (es.lookup name).isSome = (es'.lookup name).isSome := by
  rw [Bool.eq_iff_iff]
  constructor
  · intro ha
    obtain ⟨a, ha⟩ := Option.isSome_iff_exists.1 ha
    obtain ⟨b, hb, -⟩ := h.exists_lookup ha
    exact Option.isSome_iff_exists.2 ⟨b, hb⟩
  · intro hb
    obtain ⟨b, hb⟩ := Option.isSome_iff_exists.1 hb
    obtain ⟨a, ha, -⟩ := h.symm.exists_lookup hb
    exact Option.isSome_iff_exists.2 ⟨a, ha⟩

theorem perm_names : (es.map Prod.fst).Perm (es'.map Prod.fst) := by
  cases h.left with | directory hnodup =>
  cases h.right with | directory hnodup' =>
  refine (List.perm_ext_iff_of_nodup hnodup hnodup').2 fun name => ?_
  rw [mem_map_fst_iff, mem_map_fst_iff, h.isSome_lookup]

theorem length_eq : es.length = es'.length := by
  simpa using h.perm_names.length_eq

end Directories

end Agree

/-! ### Walking down -/

/-- The step goes to a name or stays. -/
def IsDown (step : Path.Component) : Prop := step ≠ .root ∧ step ≠ .up

theorem directoryAt_of_not {t : FileTree} (h : t.entry? place ≠ some .directory) :
    t.directoryAt place =
      .error (if (t.entry? place).isSome then .notADirectory else .notFound) := by
  unfold directoryAt entry? at *
  cases ht : t.get? place with
  | none => rfl
  | some a =>
    cases a with
    | file content => rfl
    | directory es =>
      rw [ht] at h
      exact absurd rfl h

theorem directoryAt_congr (h : Agree t u place) :
    (∃ fault, t.directoryAt place = .error fault ∧ u.directoryAt place = .error fault) ∨
      ∃ es es', t.directoryAt place = .ok es ∧ u.directoryAt place = .ok es' ∧
        Agree (directory es) (directory es') [] := by
  by_cases hd : t.entry? place = some .directory
  · obtain ⟨es, hes⟩ := get?_eq_directory_iff.2 hd
    obtain ⟨b, hb, hab⟩ := h.exists_get? hes
    obtain ⟨es', rfl⟩ := hab.exists_directory
    exact .inr ⟨es, es', directoryAt_eq_ok.2 hes, directoryAt_eq_ok.2 hb, hab⟩
  · have hd' : u.entry? place ≠ some .directory := h.entry?_place ▸ hd
    refine .inl ⟨_, directoryAt_of_not hd, ?_⟩
    rw [directoryAt_of_not hd', h.entry?_place]

/-- **A walk down leads to the same place**, at or below the one where the trees agree. -/
theorem walk_congr (h : Agree t u place) {steps : List Path.Component}
    (hs : ∀ step ∈ steps, IsDown step) :
    t.walk place steps = u.walk place steps ∧
      ∀ next, t.walk place steps = .ok next → place <+: next := by
  induction steps generalizing place with
  | nil =>
    refine ⟨rfl, fun next hn => ?_⟩
    cases hn
    exact List.prefix_rfl
  | cons step steps ih =>
    rw [List.forall_mem_cons] at hs
    rw [walk, walk]
    rcases directoryAt_congr h with ⟨fault, ht, hu⟩ | ⟨es, es', ht, hu, hes⟩
    · rw [ht, hu]
      exact ⟨rfl, fun next hn => by cases hn⟩
    · rw [ht, hu, ok_bind, ok_bind]
      cases step with
      | root => exact absurd rfl hs.1.1
      | up => exact absurd rfl hs.1.2
      | here => exact ih h hs.2
      | name n =>
        obtain ⟨heq, hbelow⟩ := ih (h.below [n]) hs.2
        simp only [hes.isSome_lookup n, heq]
        refine ⟨trivial, fun next hn => ?_⟩
        split at hn
        · cases hn
        · split at hn
          · exact (List.prefix_append place [n]).trans (hbelow next (heq.trans hn))
          · cases hn

theorem stat_eq (t : FileTree) (r : Route) : t.stat r =
    if r.steps = [] then .error .notFound
    else t.walk [] r.steps >>= fun place =>
      match t.get? place with
      | none => .error .notFound
      | some (.file content) => if r.slash then .error .notADirectory else .ok (.file content)
      | some (.directory es) => .ok (.directory es) := by
  unfold stat
  split <;> rfl

/-- Both fail alike, or what they give agrees. -/
def SameOutcome (x y : Except IoFault FileTree) : Prop :=
  (∃ fault, x = .error fault ∧ y = .error fault) ∨ ∃ a b, x = .ok a ∧ y = .ok b ∧ Agree a b []

/-- **What a route leads to agrees**, if the route is one to the place where the trees agree or from
there down. -/
theorem stat_congr (h : Agree t u place) {r : Route} (hw : t.walk [] r.steps = u.walk [] r.steps)
    (hbelow : ∀ next, u.walk [] r.steps = .ok next → place <+: next) :
    SameOutcome (t.stat r) (u.stat r) := by
  rw [stat_eq, stat_eq, hw]
  by_cases hnil : r.steps = []
  · exact .inl ⟨.notFound, if_pos hnil, if_pos hnil⟩
  · simp only [if_neg hnil]
    cases hnext : u.walk [] r.steps with
    | error fault => exact .inl ⟨fault, rfl, rfl⟩
    | ok next =>
      obtain ⟨q, rfl⟩ := hbelow next hnext
      have hq := h.below q
      rw [ok_bind, ok_bind]
      cases ha : t.get? (place ++ q) with
      | none =>
        rw [hq.get?_eq_none ha]
        exact .inl ⟨_, rfl, rfl⟩
      | some a =>
        obtain ⟨b, hb, hab⟩ := hq.exists_get? ha
        rw [hb]
        cases a with
        | file content =>
          obtain rfl := hab.eq_of_file
          by_cases hslash : r.slash = true
          · exact .inl ⟨.notADirectory, if_pos hslash, if_pos hslash⟩
          · exact .inr ⟨_, _, if_neg hslash, if_neg hslash, hab⟩
        | directory es =>
          obtain ⟨es', rfl⟩ := hab.exists_directory
          exact .inr ⟨_, _, rfl, rfl, hab⟩

section Reading

variable {r : Route} (h : SameOutcome (t.stat r) (u.stat r))

include h

theorem readFile_congr : t.readFile r = u.readFile r := by
  unfold readFile
  rcases h with ⟨fault, ht, hu⟩ | ⟨a, b, ht, hu, hab⟩
  · rw [ht, hu]
  · rw [ht, hu, ok_bind, ok_bind]
    obtain rfl | ⟨es, es', rfl, rfl⟩ := hab.eq_or_directories
    · rfl
    · rfl

theorem readDirectory_congr : t.readDirectory r = u.readDirectory r := by
  unfold readDirectory
  rcases h with ⟨fault, ht, hu⟩ | ⟨a, b, ht, hu, hab⟩
  · rw [ht, hu]
  · rw [ht, hu, ok_bind, ok_bind]
    obtain rfl | ⟨es, es', rfl, rfl⟩ := hab.eq_or_directories
    · rfl
    · cases hab.left with | directory hnodup =>
      exact congrArg Except.ok
        (Text.mergeSort_eq_of_perm id hab.perm_names (by rwa [List.map_id]))

end Reading

end PageFields.FileTree
