import PageFields.Proofs.Storage.Write
import PageFields.Storage.Guard

/-! # Storage: what the guard lets through

A guarded write of a file that can be read is refused if the fingerprint is not the one of its
content (`guardedWrite_of_ne`), and else it is a write; so it is where no file is
(`guardedWrite_eq_write`). What is there but cannot be read stays (`guardedWrite_of_error`). So a
guarded write that succeeds is a write that does (`guardedWrite_eq_ok`). -/

namespace PageFields.Storage

open FileTree

variable {st : Storage} {t : FileTree} {path current : Text} {prior : Fingerprint} {o : Occasion}

theorem guardedWrite_of_ne (h : st.read t path = .ok current) (hne : Fingerprint.of current ≠ prior)
    (content : Text) :
    st.guardedWrite t path prior content o = (.error (.conflict (Path.display path)), t) := by
  unfold guardedWrite
  simp only [h, hne, if_false]

/-- What the guard lets through is a write. -/
theorem guardedWrite_eq_write (h : (∃ current, st.read t path = .ok current ∧
      Fingerprint.of current = prior) ∨ ∃ q, st.read t path = .error (.notFound q))
    (content : Text) : st.guardedWrite t path prior content o =
      ((st.write t path content o).1.map fun () => Fingerprint.of content,
        (st.write t path content o).2) := by
  unfold guardedWrite
  rcases h with ⟨current, hread, he⟩ | ⟨q, hread⟩
  · simp only [hread, he, if_true]
    rcases st.write t path content o with ⟨x, t'⟩
    cases x <;> rfl
  · simp only [hread]
    rcases st.write t path content o with ⟨x, t'⟩
    cases x <;> rfl

theorem guardedWrite_of_eq (h : st.read t path = .ok current) (he : Fingerprint.of current = prior)
    (content : Text) : st.guardedWrite t path prior content o =
      ((st.write t path content o).1.map fun () => Fingerprint.of content,
        (st.write t path content o).2) := guardedWrite_eq_write (.inl ⟨current, h, he⟩) content

/-- What cannot be read, for another reason than that it is not there, is not written. -/
theorem guardedWrite_of_error {e : Error} (h : st.read t path = .error e)
    (hne : ∀ q, e ≠ .notFound q) (content : Text) :
    st.guardedWrite t path prior content o = (.error e, t) := by
  unfold guardedWrite
  simp only [h]

/-- The guard has let a write of the content through. -/
def LetsThrough (st : Storage) (t : FileTree) (path : Text) (prior : Fingerprint) : Prop :=
  (∃ current, st.read t path = .ok current ∧ Fingerprint.of current = prior) ∨
    ∃ q, st.read t path = .error (.notFound q)

theorem LetsThrough.read (h : st.LetsThrough t path prior) :
    (∃ current, st.read t path = .ok current) ∨ ∃ q, st.read t path = .error (.notFound q) :=
  h.imp_left fun ⟨current, hread, _⟩ => ⟨current, hread⟩

/-- **What the guard decides**: there is a conflict, or something is there that cannot be read, or
the content is written. -/
theorem guardedWrite_cases (st : Storage) (t : FileTree) (path : Text) (prior : Fingerprint)
    (content : Text) (o : Occasion) :
    (∃ current, st.read t path = .ok current ∧ Fingerprint.of current ≠ prior ∧
        st.guardedWrite t path prior content o =
          (.error (.conflict (Path.display path)), t)) ∨
      (∃ e, st.read t path = .error e ∧ (∀ q, e ≠ .notFound q) ∧
        st.guardedWrite t path prior content o = (.error e, t)) ∨
      st.LetsThrough t path prior ∧ st.guardedWrite t path prior content o =
        ((st.write t path content o).1.map fun () => Fingerprint.of content,
          (st.write t path content o).2) := by
  cases hread : st.read t path with
  | ok current =>
    by_cases he : Fingerprint.of current = prior
    · have hlet : st.LetsThrough t path prior := .inl ⟨current, hread, he⟩
      exact .inr (.inr ⟨hlet, guardedWrite_eq_write hlet content⟩)
    · exact .inl ⟨current, rfl, he, guardedWrite_of_ne hread he content⟩
  | error e =>
    by_cases hq : ∃ q, e = .notFound q
    · obtain ⟨q, rfl⟩ := hq
      have hlet : st.LetsThrough t path prior := .inr ⟨q, hread⟩
      exact .inr (.inr ⟨hlet, guardedWrite_eq_write hlet content⟩)
    · have hne : ∀ q, e ≠ .notFound q := fun q he => hq ⟨q, he⟩
      exact .inr (.inl ⟨e, rfl, hne, guardedWrite_of_error hread hne content⟩)

theorem map_eq_ok_iff {x : Except Error Unit} {content : Text} {fp : Fingerprint} :
    (x.map fun () => Fingerprint.of content) = .ok fp ↔
      x = .ok () ∧ fp = Fingerprint.of content := by
  cases x <;> simp [Except.map, eq_comm]

theorem guardedWrite_eq_ok {content : Text} {fp : Fingerprint} {t' : FileTree}
    (h : st.guardedWrite t path prior content o = (.ok fp, t')) :
    st.LetsThrough t path prior ∧ fp = Fingerprint.of content ∧
      st.write t path content o = (.ok (), t') := by
  rcases guardedWrite_cases st t path prior content o with
    ⟨current, -, -, hw⟩ | ⟨e, -, -, hw⟩ | ⟨hlet, hw⟩
  · cases hw.symm.trans h
  · cases hw.symm.trans h
  · obtain ⟨hok, htree⟩ := Prod.ext_iff.1 (hw.symm.trans h)
    obtain ⟨hok, hfp⟩ := map_eq_ok_iff.1 hok
    exact ⟨hlet, hfp, Prod.ext hok htree⟩

/-! ### Conflicts -/

theorem errorAt_ne_conflict (path : Text) (fault : IoFault) (q : Text) :
    errorAt path fault ≠ .conflict q := by
  cases fault <;> exact nofun

theorem write_ne_conflict (st : Storage) (t : FileTree) (path content : Text) (o : Occasion)
    (q : Text) : (st.write t path content o).1 ≠ .error (.conflict q) := by
  unfold write resolve
  split
  · rename_i h
    split at h
    · cases h
      exact nofun
    · cases h
  · split
    · exact fun h => errorAt_ne_conflict _ _ q (Except.error.inj h)
    · split
      · exact fun h => errorAt_ne_conflict _ _ q (Except.error.inj h)
      · split
        · exact nofun
        · exact nofun

/-- **A conflict** is reported of a file that has another content, and of no other one. -/
theorem conflict_iff (hread : (∃ current, st.read t path = .ok current) ∨
      ∃ q, st.read t path = .error (.notFound q)) (prior : Fingerprint) (content : Text)
    (o : Occasion) :
    (∃ q, (st.guardedWrite t path prior content o).1 = .error (.conflict q)) ↔
      ∃ current, st.read t path = .ok current ∧ Fingerprint.of current ≠ prior := by
  rcases guardedWrite_cases st t path prior content o with
    ⟨current, hcurrent, hne, hw⟩ | ⟨e, herror, hne, -⟩ | ⟨hlet, hw⟩
  · rw [hw]
    exact iff_of_true ⟨_, rfl⟩ ⟨current, hcurrent, hne⟩
  · rw [herror] at hread
    obtain ⟨q, hq⟩ := hread.resolve_left nofun
    exact absurd (Except.error.inj hq) (hne q)
  · rw [hw]
    refine iff_of_false ?_ ?_
    · rintro ⟨q, hq⟩
      cases hwrite : (st.write t path content o).1 with
      | ok a =>
        rw [hwrite] at hq
        cases hq
      | error e =>
        rw [hwrite] at hq
        cases hq
        exact write_ne_conflict st t path content o q hwrite
    · rintro ⟨current, hcurrent, hne⟩
      rcases hlet with ⟨current', hcurrent', he⟩ | ⟨q, hmissing⟩
      · rw [hcurrent] at hcurrent'
        cases hcurrent'
        exact hne he
      · rw [hcurrent] at hmissing
        cases hmissing

end PageFields.Storage
