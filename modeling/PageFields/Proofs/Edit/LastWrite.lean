import PageFields.Proofs.Descriptor.Overlay

/-! # Edits: of several fields with one name the last counts

A name that comes again keeps its first place, and what was given for it last counts. So it is when
fields are collected (`Fields.upsert`) and when those of an edit are merged (`Edit.mergeRepeated`).
The two go together step by step (`pairs_upsertList`), so that `Collects`, which says what was
collected so far, has the names from the merged list. One more field changes no other one
(`upsertList_of_mem`), and merging a second time changes nothing, so that an edit and its merged
form stand for the same template (`collected_last_write`). -/

namespace PageFields.Fields

open Descriptor Edit

variable {fs : Fields} {l : List Field}

/-! ### One more field -/

/-- **A field is collected as its content is merged.** -/
theorem pairs_upsertList (f : Field) (l : List Field) :
    pairs (upsertList f l) = setContent f.name f.value (pairs l) := by
  induction l with
  | nil => rfl
  | cons g l ih =>
    rw [upsertList, pairs, pairs, List.map_cons, setContent]
    by_cases h : g.name = f.name
    · rw [if_pos h, if_pos h, List.map_cons, h]
    · rw [if_neg h, if_neg h, List.map_cons]
      exact congrArg _ ih

theorem find?_upsertList (f : Field) (l : List Field) (name : Text) :
    (upsertList f l).find? (·.name = name) =
      if f.name = name then some f else l.find? (·.name = name) := by
  induction l with
  | nil => by_cases h : f.name = name <;> simp [upsertList, h]
  | cons g l ih =>
    rw [upsertList]
    by_cases hg : g.name = f.name
    · by_cases h : f.name = name
      · simp [hg, h]
      · simp [hg, h]
    · rw [if_neg hg, List.find?_cons, List.find?_cons, ih]
      by_cases h : f.name = name
      · have hne : g.name ≠ name := h ▸ hg
        simp [h, hne]
      · rw [if_neg h, if_neg h]

theorem upsertList_of_mem {f : Field} (hd : (l.map Field.name).Nodup)
    (h : f.name ∈ l.map Field.name) :
    upsertList f l = l.map fun g => if g.name = f.name then f else g := by
  obtain ⟨g, hg, hname⟩ := List.mem_map.1 h
  obtain ⟨before, after, rfl⟩ := List.append_of_mem hg
  rw [List.map_append, List.map_cons, List.nodup_middle, List.nodup_cons, List.mem_append, not_or,
    hname] at hd
  obtain ⟨⟨hbefore, hafter⟩, -⟩ := hd
  have hother : ∀ l : List Field, f.name ∉ l.map Field.name →
      (l.map fun g => if g.name = f.name then f else g) = l := by
    intro l hl
    refine (List.map_congr_left fun g hg => if_neg fun hn => hl ?_).trans (List.map_id l)
    exact hn ▸ List.mem_map_of_mem hg
  rw [upsertList_append hbefore hname, List.map_append, List.map_cons, if_pos hname,
    hother before hbefore, hother after hafter]

/-! ### Any number of fields -/

/-- The fields are what is collected of a list. -/
structure Collects (l : List Field) (fs : Fields) : Prop where
  pairs_eq : pairs fs.toList = mergeRepeated (pairs l)
  get?_eq : ∀ name, fs.get? name = l.reverse.find? (·.name = name)

namespace Collects

theorem names_eq (h : Collects l fs) : fs.names = (l.map Field.name).eraseDups := by
  rw [names, ← map_fst_pairs, h.pairs_eq, map_fst_mergeRepeated, map_fst_pairs]

theorem nodup (h : Collects l fs) : fs.names.Nodup := by
  rw [names, ← map_fst_pairs, h.pairs_eq]
  exact nodup_mergeRepeated (pairs l)

theorem upsert (h : Collects l fs) (f : Field) : Collects (l ++ [f]) (fs.upsert f) := by
  constructor
  · have hconcat : pairs (l ++ [f]) = pairs l ++ [(f.name, f.value)] := List.map_append
    rw [hconcat, mergeRepeated_concat, ← h.pairs_eq]
    exact pairs_upsertList f fs.toList
  · intro name
    have hget : (fs.upsert f).get? name = if f.name = name then some f else fs.get? name :=
      find?_upsertList f fs.toList name
    rw [hget, h.get?_eq, List.reverse_concat, List.find?_cons]
    by_cases hname : f.name = name
    · simp [hname]
    · simp [hname]

theorem foldl_upsert (h : Collects l fs) (more : List Field) :
    Collects (l ++ more) (more.foldl Fields.upsert fs) := by
  induction more generalizing l fs with
  | nil => rwa [List.append_nil]
  | cons f more ih =>
    rw [List.append_cons]
    exact ih (h.upsert f)

end Collects

theorem collects_nil : Collects [] {} := ⟨rfl, fun _ => rfl⟩

theorem collects_ofList (l : List Field) : Collects l (ofList l) := collects_nil.foldl_upsert l

/-- **Of several fields with one name the last counts, in the first place.** Whatever is collected,
and then given one by one, the names are those in order of their first occurrence, and under each of
them is the field that was given last. One more field takes the place of the one with its name, or
the place behind all others, and changes nothing else. Merging the contents of the same fields gives
the same names and contents, and an edit is written as its merged form is. -/
theorem collected_last_write (l more : List Field) :
    let fs := more.foldl upsert (ofList l)
    (fs.names.Nodup ∧ fs.names = ((l ++ more).map Field.name).eraseDups) ∧
      (∀ name, fs.get? name = (l ++ more).reverse.find? (·.name = name)) ∧
      (∀ f, (fs.upsert f).toList = if f.name ∈ fs.names
        then fs.toList.map fun g => if g.name = f.name then f else g
        else fs.toList ++ [f]) ∧
      mergeRepeated (pairs (l ++ more)) = pairs fs.toList ∧
      ∀ parent fields, serialize parent (.structured fields) =
        serialize parent (.structured (mergeRepeated fields)) := by
  intro fs
  have h : Collects (l ++ more) fs := (collects_ofList l).foldl_upsert more
  refine ⟨⟨h.nodup, h.names_eq⟩, h.get?_eq, fun f => ?_, h.pairs_eq.symm, fun parent fields => ?_⟩
  · by_cases hf : f.name ∈ fs.names
    · rw [if_pos hf]
      exact upsertList_of_mem h.nodup hf
    · rw [if_neg hf]
      exact upsertList_of_not_mem hf
  · unfold serialize
    simp only [mergeRepeated_of_nodup (nodup_mergeRepeated fields)]

end PageFields.Fields
