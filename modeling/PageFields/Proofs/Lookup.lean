import PageFields.Text.Basic

/-! # Looking up names

Fields, contents, directory entries and given options are lists of pairs that are looked up by name:
the first pair with the name counts. -/

namespace PageFields

variable {α β : Type} {name other : Text} {l : List (Text × α)}

section Names

variable {κ : Type} [BEq κ] [LawfulBEq κ]

theorem lookup_cons_of_ne {name other : κ} (h : name ≠ other) (a : α) (l : List (κ × α)) :
    ((other, a) :: l).lookup name = l.lookup name := by
  have : (name == other) = false := by simpa using h
  rw [List.lookup_cons, this]

theorem lookup_filter_ne [DecidableEq κ] (name : κ) (l : List (κ × α)) (other : κ) :
    (l.filter (·.1 ≠ name)).lookup other = if other = name then none else l.lookup other := by
  induction l with
  | nil => simp
  | cons p l ih =>
    obtain ⟨n, a⟩ := p
    by_cases h : n = name
    · rw [List.filter_cons_of_neg (by simpa using h), ih]
      by_cases ho : other = name
      · rw [if_pos ho, if_pos ho]
      · rw [if_neg ho, if_neg ho, lookup_cons_of_ne (by rw [h]; exact ho)]
    · rw [List.filter_cons_of_pos (by simpa using h)]
      by_cases ho : other = n
      · subst ho
        rw [List.lookup_cons_self, List.lookup_cons_self, if_neg h]
      · rw [lookup_cons_of_ne ho, lookup_cons_of_ne ho, ih]

end Names

theorem lookup_eq_none (h : name ∉ l.map Prod.fst) : l.lookup name = none := by
  rw [List.lookup_eq_none_iff]
  intro p hp
  have hne : name ≠ p.1 := fun he => h (he ▸ List.mem_map_of_mem hp)
  simpa using hne

theorem mem_of_lookup {a : α} (h : l.lookup name = some a) : (name, a) ∈ l := by
  obtain ⟨l₁, l₂, rfl, -⟩ := List.lookup_eq_some_iff.1 h
  exact List.mem_append_right _ List.mem_cons_self

theorem lookup_of_mem {a : α} (hd : (l.map Prod.fst).Nodup) (h : (name, a) ∈ l) :
    l.lookup name = some a := by
  obtain ⟨l₁, l₂, rfl⟩ := List.append_of_mem h
  rw [List.map_append, List.map_cons, List.nodup_append] at hd
  refine List.lookup_eq_some_iff.2 ⟨l₁, l₂, rfl, fun p hp => ?_⟩
  have := hd.2.2 p.1 (List.mem_map_of_mem hp) name List.mem_cons_self
  simpa using Ne.symm this

theorem mem_map_fst_iff : name ∈ l.map Prod.fst ↔ (l.lookup name).isSome := by
  cases h : l.lookup name with
  | none =>
    rw [List.lookup_eq_none_iff] at h
    refine iff_of_false (fun hmem => ?_) Bool.false_ne_true
    obtain ⟨p, hp, rfl⟩ := List.mem_map.1 hmem
    simpa using h p hp
  | some a => exact iff_of_true (List.mem_map_of_mem (mem_of_lookup h)) rfl

end PageFields
