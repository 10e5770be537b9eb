import PageFields.Proofs.FileTree.Make

/-! # File trees: directories with all that lead to them

A tree `Keeps` what is in another one if every entry of that one is in it as it was; it `Grows` if
all that it has besides are directories, so that it has the same files (`Grows.stat_file_iff`).
Making a directory together with those that lead to it is one attempt after another
(`createDirectories_cases`), each of which lets the tree grow (`ensureDirectory_spec`). So the tree
has grown whether the whole call succeeds or fails (`createDirectories_grows`), and where it
succeeds, the route leads to a directory (`createDirectories_spec`). The number of its steps is fuel
enough for the call (`createDirectories_congr`). -/

namespace PageFields.FileTree

variable {t t' : FileTree} {r : Route}

/-! ### Growing -/

/-- Every entry of the first tree is in the second one as it was. -/
def Keeps (t t' : FileTree) : Prop := ∀ place e, t.entry? place = some e → t'.entry? place = some e

theorem Keeps.refl (t : FileTree) : t.Keeps t := fun _ _ h => h

theorem Keeps.trans {t u v : FileTree} (h : t.Keeps u) (h' : u.Keeps v) : t.Keeps v :=
  fun place e he => h' place e (h place e he)

theorem Keeps.within (h : t.Keeps t') : t.Within t' := by
  constructor
  · exact fun place hp => h place _ hp
  · intro place hp
    rw [isSome_get?] at hp ⊢
    obtain ⟨e, he⟩ := Option.ne_none_iff_exists'.1 hp
    rw [h place e he]
    exact Option.some_ne_none e

theorem Adds.keeps {place : List Text} {new : Entry} (h : Adds t t' place new) : t.Keeps t' := by
  intro p e hp
  rw [h.entry?_eq, if_neg, hp]
  rintro rfl
  rw [h.vacant] at hp
  cases hp

/-- The second tree is the first one with further directories. -/
structure Grows (t t' : FileTree) : Prop where
  keeps : t.Keeps t'
  file : ∀ place bytes, t'.entry? place = some (.file bytes) → t.entry? place = some (.file bytes)

theorem Grows.refl (t : FileTree) : t.Grows t := ⟨.refl t, fun _ _ h => h⟩

theorem Grows.trans {t u v : FileTree} (h : t.Grows u) (h' : u.Grows v) : t.Grows v :=
  ⟨h.keeps.trans h'.keeps, fun place bytes hv => h.file place bytes (h'.file place bytes hv)⟩

theorem Adds.grows {place : List Text} (h : Adds t t' place .directory) : t.Grows t' := by
  refine ⟨h.keeps, fun p bytes hp => ?_⟩
  rw [h.entry?_eq] at hp
  split at hp
  · cases hp
  · exact hp

theorem Spot.stat_route_eq_file (s : Spot t) {bytes : ByteArray} :
    t.stat s.route = .ok (.file bytes) ↔
      isTooLong s.name = false ∧ t.entry? s.place = some (.file bytes) := by
  rw [s.stat_route, place, entry?_concat s.get?_eq]
  cases hlong : isTooLong s.name with
  | true => simp
  | false =>
    cases s.entries.lookup s.name with
    | none => simp
    | some u => cases u <;> simp

/-- **A tree that has grown has the same files**, by the same routes from the same directories. -/
theorem Grows.stat_file_iff (h : t.Grows t') (s : Spot t) {bytes : ByteArray} :
    t'.stat s.route = .ok (.file bytes) ↔ t.stat s.route = .ok (.file bytes) := by
  obtain ⟨s', hroute, hname, hplace⟩ := s.exists_within h.keeps.within
  rw [← hroute, s'.stat_route_eq_file, hname, hplace, hroute, s.stat_route_eq_file]
  exact and_congr_right fun _ => ⟨h.file s.place bytes, h.keeps s.place (.file bytes)⟩

/-! ### One directory -/

theorem any_isDirectory {x : Except IoFault FileTree} :
    x.toOption.any isDirectory = true ↔ ∃ es, x = .ok (.directory es) := by
  cases x with
  | error fault => simp [Except.toOption]
  | ok u => cases u <;> simp [Except.toOption, isDirectory]

theorem createDirectory_spec (h : t.createDirectory r = .ok t') :
    t.Grows t' ∧ ∃ es, t'.stat r = .ok (.directory es) := by
  obtain ⟨s, hsteps, hmake⟩ := exists_spot_of_createDirectory h
  obtain ⟨hlong, hnone, rfl⟩ := s.make_eq_ok.1 hmake
  have hmade := stat_eq_directory.1 (Spot.stat_afterPut hlong hnone empty)
  rw [← hsteps] at hmade
  exact ⟨(s.adds_put hnone rfl).grows, [], stat_eq_directory.2 hmade⟩

/-- Makes a directory unless there is one. -/
def ensureDirectory (t : FileTree) (r : Route) : Except IoFault Unit × FileTree :=
  match t.createDirectory r with
  | .ok t => (.ok (), t)
  | .error fault => (if (t.stat r).toOption.any isDirectory then .ok () else .error fault, t)

/-- The outcome of a call that is to leave a directory: the tree has grown, and if the call has
succeeded, the directory is there. -/
def Leaves (t : FileTree) (r : Route) (outcome : Except IoFault Unit × FileTree) : Prop :=
  t.Grows outcome.2 ∧ (outcome.1 = .ok () → ∃ es, outcome.2.stat r = .ok (.directory es))

theorem Leaves.error (h : t.Grows t') (fault : IoFault) : Leaves t r (.error fault, t') :=
  ⟨h, nofun⟩

theorem Leaves.trans {outcome : Except IoFault Unit × FileTree} (h : t.Grows t')
    (h' : Leaves t' r outcome) : Leaves t r outcome :=
  ⟨h.trans h'.1, h'.2⟩

theorem ensureDirectory_spec (t : FileTree) (r : Route) : Leaves t r (t.ensureDirectory r) := by
  unfold ensureDirectory
  cases hmake : t.createDirectory r with
  | ok t' =>
    obtain ⟨hgrows, hstat⟩ := createDirectory_spec hmake
    exact ⟨hgrows, fun _ => hstat⟩
  | error fault =>
    refine ⟨.refl t, fun hok => ?_⟩
    by_cases hthere : (t.stat r).toOption.any isDirectory = true
    · exact any_isDirectory.1 hthere
    · simp only [if_neg hthere] at hok
      cases hok

/-! ### All that lead to it -/

/-- **What a call can do**: one attempt is enough, the directory above cannot be made, or it can,
and the attempt is made again. -/
theorem createDirectories_cases (t : FileTree) (hne : r.steps ≠ []) (fuel : Nat) :
    t.createDirectories r (fuel + 1) = t.ensureDirectory r ∨
      (∃ fault t', t.createDirectories r.parent fuel = (.error fault, t') ∧
        t.createDirectories r (fuel + 1) = (.error fault, t')) ∨
      ∃ t', t.createDirectories r.parent fuel = (.ok (), t') ∧
        t.createDirectories r (fuel + 1) = t'.ensureDirectory r := by
  rw [createDirectories]
  simp only [if_neg hne]
  cases hmake : t.createDirectory r with
  | ok t' => exact .inl (by rw [ensureDirectory, hmake])
  | error fault =>
    by_cases hfault : fault = .notFound
    · subst hfault
      cases hparent : t.createDirectories r.parent fuel with
      | mk outcome t' =>
        cases outcome with
        | error fault => exact .inr (.inl ⟨fault, t', rfl, rfl⟩)
        | ok u => exact .inr (.inr ⟨t', rfl, rfl⟩)
    · refine .inl ?_
      rw [ensureDirectory, hmake]
      cases fault with
      | notFound => exact absurd rfl hfault
      | _ => rfl

/-- One step of the recursion: what holds of the directory above is passed on. -/
theorem leaves_of_parent {fuel : Nat} (hparent : t.Grows (t.createDirectories r.parent fuel).2)
    (hne : r.steps ≠ []) : Leaves t r (t.createDirectories r (fuel + 1)) := by
  rcases createDirectories_cases t hne fuel with heq | ⟨fault, t', hp, heq⟩ | ⟨t', hp, heq⟩
  · rw [heq]
    exact ensureDirectory_spec t r
  · rw [hp] at hparent
    rw [heq]
    exact .error hparent fault
  · rw [hp] at hparent
    rw [heq]
    exact .trans hparent (ensureDirectory_spec t' r)

theorem createDirectories_of_nil (h : r.steps = []) (fuel : Nat) :
    t.createDirectories r fuel = (.ok (), t) := by
  cases fuel with
  | zero => rfl
  | succ fuel => rw [createDirectories, if_pos h]

theorem createDirectories_grows (t : FileTree) (r : Route) (fuel : Nat) :
    t.Grows (t.createDirectories r fuel).2 := by
  induction fuel generalizing r with
  | zero => exact .refl t
  | succ fuel ih =>
    by_cases hnil : r.steps = []
    · rw [createDirectories_of_nil hnil]
      exact .refl t
    · exact (leaves_of_parent (ih r.parent) hnil).1

/-- **Making a directory with all that lead to it** only adds directories, and where it succeeds,
the route leads to one. -/
theorem createDirectories_spec (t : FileTree) (hne : r.steps ≠ []) :
    Leaves t r (t.createDirectories r r.steps.length) := by
  have hpos : 0 < r.steps.length := List.length_pos_iff.2 hne
  obtain ⟨fuel, hfuel⟩ : ∃ fuel, r.steps.length = fuel + 1 := ⟨r.steps.length - 1, by omega⟩
  rw [hfuel]
  exact leaves_of_parent (createDirectories_grows t r.parent fuel) hne

/-! ### The fuel -/

theorem length_parent_lt (h : r.steps ≠ []) : r.parent.steps.length < r.steps.length := by
  have hpos : 0 < r.steps.length := List.length_pos_iff.2 h
  have hrising := (List.dropWhile_suffix (l := r.steps.reverse) (· = .here)).length_le
  have hparent := (List.dropWhile_suffix
    (l := (r.steps.reverse.dropWhile (· = .here)).tail) (· = .here)).length_le
  rw [List.length_reverse] at hrising
  rw [List.length_tail] at hparent
  unfold Route.parent
  rw [List.length_reverse]
  omega

/-- **The steps are fuel enough**: each directory above has fewer of them, so that the call does the
same with any further fuel. -/
theorem createDirectories_congr {fuel m : Nat} (hfuel : r.steps.length ≤ fuel)
    (hm : r.steps.length ≤ m) : t.createDirectories r fuel = t.createDirectories r m := by
  induction fuel generalizing r m with
  | zero =>
    have hnil : r.steps = [] := List.length_eq_zero_iff.1 (by omega)
    rw [createDirectories_of_nil hnil, createDirectories_of_nil hnil]
  | succ fuel ih =>
    by_cases hnil : r.steps = []
    · rw [createDirectories_of_nil hnil, createDirectories_of_nil hnil]
    have hshorter := length_parent_lt hnil
    obtain ⟨m, rfl⟩ : ∃ k, m = k + 1 := ⟨m - 1, by omega⟩
    rw [createDirectories, createDirectories]
    simp only [if_neg hnil]
    rw [ih (r := r.parent) (m := m) (by omega) (by omega)]

end PageFields.FileTree
