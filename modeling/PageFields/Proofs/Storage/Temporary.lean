import PageFields.Proofs.FileTree.Walk
import PageFields.Proofs.Path
import PageFields.Storage

/-! # Storage: the temporary file

At a spot, the path of the temporary file leads to its name in the same directory, unless it is too
long (`Spelled.route_temporary`). Whether there is room for it depends on the path of the file and
the occasion, and not on the tree (`RoomBeside`). A write does not look whether its temporary file
takes the place of another one. That nothing is there yet (`Unused`) and that the file can be
removed again (`Tidy`) is for those to say who rely on it. -/

namespace PageFields.Storage

open PageFields.FileTree PageFields.Path

variable {o : Occasion}

/-! ### Temporary names -/

theorem mem_of_mem_stem {c : Char} {name : Text} (h : c ∈ stem name) : c ∈ name := by
  unfold stem at h
  split at h
  · exact h
  · exact h
  · rename_i d before _ hd
    have : c ∈ name.reverse.dropWhile (· ≠ '.') := by
      rw [hd]
      exact List.mem_cons_of_mem _ (List.mem_reverse.1 h)
    exact List.mem_reverse.1 ((List.dropWhile_sublist _).subset this)

/-- A temporary name has only characters of the name, and some that can be in every name. -/
theorem not_mem_temporaryName {c : Char} {name : Text} (h : c ∉ name)
    (hdot : c ∉ ".tmp-".toList) (hdigit : c.isDigit = false) : c ∉ temporaryName o name := by
  have hdigits : ∀ n, c ∉ Nat.toDigits 10 n := by
    intro n hd
    have := Nat.isDigit_of_mem_toDigits (by decide) (by decide) hd
    rw [hdigit] at this
    cases this
  have hdash : c ≠ '-' := by
    rintro rfl
    exact hdot (by decide)
  unfold temporaryName
  simp only [List.mem_append, List.mem_cons, not_or]
  exact ⟨⟨⟨fun hs => h (mem_of_mem_stem hs), hdot⟩, hdigits _⟩, hdash, hdigits _⟩

theorem isName_temporaryName {name : Text} (h : IsName name) : IsName (temporaryName o name) := by
  have hlen : 2 < (temporaryName o name).length := by
    have : ".tmp-".toList.length = 5 := by decide
    simp only [temporaryName, List.length_append, this]
    omega
  refine ⟨?_, ?_, ?_, not_mem_temporaryName h.slash (by decide) (by decide)⟩
  · intro hn
    rw [hn] at hlen
    exact absurd hlen (by decide)
  · intro hn
    rw [hn] at hlen
    exact absurd hlen (by decide)
  · intro hn
    rw [hn] at hlen
    exact absurd hlen (by decide)

/-! ### Routes -/

variable {base n : Text}

theorem ofText_eq (hbase : IsBase base) (hn : IsName n) :
    Route.ofText (base ++ n) =
      if (base ++ n).contains '\x00' then .error .invalidInput
      else if Route.lengthLimit < (Text.utf8 (base ++ n)).size then .error .invalidFilename
      else .ok { steps := steps base ++ [.name n] } := by
  unfold Route.ofText
  rw [steps_append hbase hn]
  have hslash : decide ((base ++ n).getLast? = some '/') = false := by
    simpa using hn.getLast? base
  rw [hslash]

theorem eq_of_ofText {r : Route} (hbase : IsBase base) (hn : IsName n)
    (h : Route.ofText (base ++ n) = .ok r) : r = { steps := steps base ++ [.name n] } := by
  rw [ofText_eq hbase hn] at h
  split at h
  · cases h
  · split at h
    · cases h
    · cases h
      rfl

theorem steps_of_ofText {p : Text} {r : Route} (h : Route.ofText p = .ok r) :
    r.steps = steps p := by
  unfold Route.ofText at h
  split at h
  · cases h
  · split at h
    · cases h
    · cases h
      rfl

theorem not_mem_nul {p : Text} {r : Route} (h : Route.ofText p = .ok r) : '\x00' ∉ p := by
  unfold Route.ofText at h
  split at h
  · cases h
  · rename_i hc
    simpa using hc

/-- The temporary path is beside the file and has no NUL character if the path has none. -/
theorem route_temporaryPath (o : Occasion) (hbase : IsBase base) (hn : IsName n)
    (hnul : '\x00' ∉ base ++ n) : Route.ofText (temporaryPath o (base ++ n)) =
      if Route.lengthLimit < (Text.utf8 (temporaryPath o (base ++ n))).size then
        .error .invalidFilename
      else .ok { steps := steps base ++ [.name (temporaryName o n)] } := by
  have hpath : temporaryPath o (base ++ n) = base ++ temporaryName o n := mapName_append _ hbase hn
  have hfree : '\x00' ∉ base ++ temporaryName o n := by
    rw [List.mem_append, not_or] at hnul ⊢
    exact ⟨hnul.1, not_mem_temporaryName hnul.2 (by decide) (by decide)⟩
  rw [hpath, ofText_eq hbase (isName_temporaryName hn), if_neg (by simpa using hfree)]

/-! ### What a write relies on -/

/-- The temporary file beside the file at a path has a path and a name that are not too long. -/
structure RoomBeside (o : Occasion) (p : Text) : Prop where
  path : (Text.utf8 (temporaryPath o p)).size ≤ Route.lengthLimit
  name : ∀ n, (steps (temporaryPath o p)).getLast? = some (.name n) → isTooLong n = false

/-- Nothing is found at the path of the temporary file. -/
def Unused (o : Occasion) (t : FileTree) (p : Text) : Prop :=
  ∀ u, (Route.ofText (temporaryPath o p)).bind t.stat ≠ .ok u

instance (o : Occasion) (t : FileTree) (p : Text) : Decidable (Unused o t p) :=
  decidable_of_iff (((Route.ofText (temporaryPath o p)).bind t.stat).toOption.isNone = true) (by
    unfold Unused
    cases (Route.ofText (temporaryPath o p)).bind t.stat <;> simp [Except.toOption])

/-- The temporary file takes no other's place and can be removed again. -/
structure Tidy (o : Occasion) (t : FileTree) (p : Text) : Prop where
  unused : Unused o t p
  removable : o.removeFails = false

/-! ### The temporary file beside a spot -/

variable {t : FileTree} {s : Spot t} {p : Text}

/-- The path is spelled as a way to the directory of the spot and its name, and can be walked. -/
structure Spelled (p : Text) (s : Spot t) : Prop where
  spelling : ∃ base, IsBase base ∧ p = base ++ s.name ∧ s.above = steps base
  isName : IsName s.name
  fits : isTooLong s.name = false
  route : Route.ofText p = .ok s.route

/-- The spot of the temporary file of a write to a spot. -/
def temporary (o : Occasion) (s : Spot t) : Spot t := s.beside (temporaryName o s.name)

namespace Spelled

/-- **The temporary path** leads to the temporary name in the same directory, unless it is too
long. -/
theorem route_temporary (h : Spelled p s) (o : Occasion) : Route.ofText (temporaryPath o p) =
    if Route.lengthLimit < (Text.utf8 (temporaryPath o p)).size then .error .invalidFilename
    else .ok (temporary o s).route := by
  obtain ⟨base, hbase, hp, habove⟩ := h.spelling
  have hnul := not_mem_nul h.route
  subst hp
  rw [route_temporaryPath o hbase h.isName hnul, ← habove]
  rfl

theorem roomBeside_iff (h : Spelled p s) : RoomBeside o p ↔
    (Text.utf8 (temporaryPath o p)).size ≤ Route.lengthLimit ∧
      isTooLong (temporary o s).name = false := by
  obtain ⟨base, hbase, rfl, habove⟩ := h.spelling
  have hlast : (steps (temporaryPath o (base ++ s.name))).getLast? =
      some (.name (temporary o s).name) := by
    rw [temporaryPath, mapName_append _ hbase h.isName,
      steps_append hbase (isName_temporaryName h.isName), List.getLast?_concat]
    rfl
  constructor
  · intro hroom
    exact ⟨hroom.path, hroom.name _ hlast⟩
  · rintro ⟨hpath, hname⟩
    refine ⟨hpath, fun n hn => ?_⟩
    rw [hlast] at hn
    cases hn
    exact hname

theorem lookup_temporary (h : Spelled p s) (hroom : RoomBeside o p) (hunused : Unused o t p) :
    s.entries.lookup (temporary o s).name = none := by
  obtain ⟨hpath, hname⟩ := h.roomBeside_iff.1 hroom
  have hroute := h.route_temporary o
  rw [if_neg (Nat.not_lt.2 hpath)] at hroute
  have hstat := (temporary o s).stat_route
  rw [hname] at hstat
  cases hl : s.entries.lookup (temporary o s).name with
  | none => rfl
  | some u =>
    have hl : (temporary o s).entries.lookup (temporary o s).name = some u := hl
    rw [hl] at hstat
    refine absurd ?_ (hunused u)
    rw [hroute]
    exact hstat

end Spelled

end PageFields.Storage
