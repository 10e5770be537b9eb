import Mathlib.Data.List.Nodup
import PageFields.Edit
import PageFields.Proofs.Lookup
import PageFields.Proofs.Text.Normal

/-! # Edits: which fields are written

A field that is submitted several times counts once, in its first place and with its last content
(`mergeRepeated_eq`). Of the merged fields an edit writes those whose normal form is not empty
(`kept`), each as one block (`blocksText_eq_ok`). -/

namespace PageFields.Edit

/-! ### Merging -/

/-- The submitted fields with each name once: in its first place, with its last content. -/
def merged (fields : List (Text × Text)) : List (Text × Text) :=
  (fields.map Prod.fst).eraseDups.map fun name => (name, (fields.reverse.lookup name).getD [])

theorem map_fst_setContent (name content : Text) (fields : List (Text × Text)) :
    (setContent name content fields).map Prod.fst =
      if name ∈ fields.map Prod.fst then fields.map Prod.fst
      else fields.map Prod.fst ++ [name] := by
  induction fields with
  | nil => rfl
  | cons f fields ih =>
    obtain ⟨n, c⟩ := f
    unfold setContent
    by_cases h : n = name
    · simp [h]
    · by_cases hm : name ∈ fields.map Prod.fst
      · rw [if_neg h, List.map_cons, ih, if_pos hm, List.map_cons,
          if_pos (List.mem_cons_of_mem _ hm)]
      · rw [if_neg h, List.map_cons, ih, if_neg hm, List.map_cons, if_neg]
        · rfl
        · simpa [Ne.symm h] using hm

theorem lookup_setContent (name content other : Text) (fields : List (Text × Text)) :
    (setContent name content fields).lookup other =
      if other = name then some content else fields.lookup other := by
  induction fields with
  | nil =>
    by_cases h : other = name
    · simp [setContent, h]
    · rw [setContent, lookup_cons_of_ne h, if_neg h]
  | cons f fields ih =>
    obtain ⟨n, c⟩ := f
    unfold setContent
    by_cases ho : other = n
    · by_cases h : n = name
      · simp [ho, h]
      · simp [ho, h]
    · by_cases h : n = name
      · rw [if_pos h, lookup_cons_of_ne ho, lookup_cons_of_ne ho, if_neg (h ▸ ho)]
      · rw [if_neg h, lookup_cons_of_ne ho, lookup_cons_of_ne ho, ih]

theorem eq_map_lookup {fields : List (Text × Text)} (h : (fields.map Prod.fst).Nodup) :
    fields = (fields.map Prod.fst).map fun name => (name, (fields.lookup name).getD []) := by
  induction fields with
  | nil => rfl
  | cons f fields ih =>
    obtain ⟨n, c⟩ := f
    rw [List.map_cons, List.nodup_cons] at h
    rw [List.map_cons, List.map_cons]
    congr 1
    · simp
    · conv_lhs => rw [ih h.2]
      refine List.map_congr_left fun m hm => ?_
      rw [lookup_cons_of_ne]
      rintro rfl
      exact h.1 hm

theorem mergeRepeated_concat (fields : List (Text × Text)) (f : Text × Text) :
    mergeRepeated (fields ++ [f]) = setContent f.1 f.2 (mergeRepeated fields) := by
  unfold mergeRepeated
  rw [List.foldl_append]
  rfl

theorem map_fst_mergeRepeated (fields : List (Text × Text)) :
    (mergeRepeated fields).map Prod.fst = (fields.map Prod.fst).eraseDups := by
  induction fields using List.reverseRecOn with
  | nil => rfl
  | append_singleton fields f ih =>
    rw [mergeRepeated_concat, map_fst_setContent, ih, List.map_append, List.eraseDups_append]
    by_cases h : f.1 ∈ fields.map Prod.fst
    · rw [if_pos (by simpa using h)]
      simp [List.removeAll, h]
    · rw [if_neg (by simpa using h)]
      simp [List.removeAll, h, List.eraseDups_cons]

theorem lookup_mergeRepeated (fields : List (Text × Text)) (name : Text) :
    (mergeRepeated fields).lookup name = fields.reverse.lookup name := by
  induction fields using List.reverseRecOn with
  | nil => rfl
  | append_singleton fields f ih =>
    obtain ⟨n, c⟩ := f
    rw [mergeRepeated_concat, lookup_setContent, List.reverse_concat, ih]
    by_cases h : name = n
    · simp [h]
    · rw [if_neg h, lookup_cons_of_ne h]

theorem nodup_mergeRepeated (fields : List (Text × Text)) :
    ((mergeRepeated fields).map Prod.fst).Nodup := by
  induction fields using List.reverseRecOn with
  | nil => exact List.nodup_nil
  | append_singleton fields f ih =>
    rw [mergeRepeated_concat, map_fst_setContent]
    by_cases h : f.1 ∈ (mergeRepeated fields).map Prod.fst
    · rwa [if_pos h]
    · rw [if_neg h]
      exact ih.append (List.nodup_singleton _) (List.disjoint_singleton.2 h)

/-- **Merging keeps the first place and the last content.** -/
theorem mergeRepeated_eq (fields : List (Text × Text)) : mergeRepeated fields = merged fields := by
  rw [eq_map_lookup (nodup_mergeRepeated fields), map_fst_mergeRepeated, merged]
  simp only [lookup_mergeRepeated]

theorem setContent_of_not_mem {name : Text} {fields : List (Text × Text)}
    (h : name ∉ fields.map Prod.fst) (content : Text) :
    setContent name content fields = fields ++ [(name, content)] := by
  induction fields with
  | nil => rfl
  | cons f fields ih =>
    obtain ⟨n, c⟩ := f
    simp only [List.map_cons, List.mem_cons, not_or] at h
    rw [setContent, if_neg (Ne.symm h.1), ih h.2, List.cons_append]

theorem mergeRepeated_of_nodup {fields : List (Text × Text)}
    (h : (fields.map Prod.fst).Nodup) : mergeRepeated fields = fields := by
  induction fields using List.reverseRecOn with
  | nil => rfl
  | append_singleton fields f ih =>
    rw [List.map_append] at h
    have hf : f.1 ∉ fields.map Prod.fst :=
      List.disjoint_singleton.1 (List.disjoint_of_nodup_append h)
    rw [mergeRepeated_concat, ih h.of_append_left, setContent_of_not_mem hf]

/-! ### Writing -/

/-- The fields whose normal form is not empty, in normal form. -/
def nonempty (fields : List (Text × Text)) : List (Text × Text) :=
  (fields.map fun f => (f.1, Text.normalize f.2)).filter fun f => f.2 ≠ []

/-- The fields that an edit writes. -/
def kept (fields : List (Text × Text)) : List (Text × Text) := nonempty (merged fields)

/-- The text of the blocks. -/
def written (fields : List (Text × Text)) : Text := fields.flatMap fun f => blockText f.1 f.2

theorem map_fst_nonempty_sublist (fields : List (Text × Text)) :
    ((nonempty fields).map Prod.fst).Sublist (fields.map Prod.fst) := by
  have : fields.map Prod.fst =
      (fields.map fun f => (f.1, Text.normalize f.2)).map Prod.fst := by
    rw [List.map_map]
    rfl
  rw [this]
  exact List.filter_sublist.map _

theorem nodup_kept (fields : List (Text × Text)) : ((kept fields).map Prod.fst).Nodup := by
  have := nodup_mergeRepeated fields
  rw [mergeRepeated_eq] at this
  exact this.sublist (map_fst_nonempty_sublist _)

/-- Writing succeeds when all names that are written are identifiers. -/
theorem blocksText_eq_ok {fields : List (Text × Text)}
    (h : ∀ f ∈ nonempty fields, isFieldName f.1 = true) :
    blocksText fields = .ok (written (nonempty fields)) := by
  induction fields with
  | nil => rfl
  | cons f fields ih =>
    obtain ⟨name, content⟩ := f
    have hcons : nonempty ((name, content) :: fields) = if Text.normalize content = [] then
        nonempty fields else (name, Text.normalize content) :: nonempty fields := by
      by_cases hc : Text.normalize content = [] <;> simp [nonempty, hc]
    rw [hcons] at h ⊢
    unfold blocksText
    by_cases hc : Text.normalize content = []
    · rw [if_pos hc] at h ⊢
      simpa [hc] using ih h
    · rw [if_neg hc] at h ⊢
      have hn : checkFieldName name = .ok () := by
        rw [checkFieldName, if_pos (h _ List.mem_cons_self)]
      simp [hc, hn, ih fun f hf => h f (List.mem_cons_of_mem _ hf), bind, Except.bind, pure,
        Except.pure, written]

theorem parentName?_of_ne {parent : Option Text} (h : parent ≠ some []) :
    parentName? parent = parent := by
  cases parent with
  | none => rfl
  | some p =>
    have hp : p ≠ [] := fun hp => h (congrArg some hp)
    simp [parentName?, hp]

theorem serialize_eq_ok (parent : Option Text) {fields : List (Text × Text)}
    (h : ∀ f ∈ kept fields, isFieldName f.1 = true) :
    serialize parent (.structured fields) =
      .ok ((parentName? parent).elim [] parentLine ++ written (kept fields)) := by
  have hb : blocksText (mergeRepeated fields) = .ok (written (kept fields)) := by
    rw [mergeRepeated_eq]
    exact blocksText_eq_ok h
  simp only [serialize, hb, bind, Except.bind, pure, Except.pure]

end PageFields.Edit
