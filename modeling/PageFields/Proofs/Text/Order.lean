import Mathlib.Data.Char
import Mathlib.Data.List.Lex
import Mathlib.Data.List.Nodup
import PageFields.Text.Basic

/-! # Text: sorting

Texts are ordered as lists of characters (`le_iff`), which is a linear order. So things with
different names have one sorted order, whatever order they come in (`mergeSort_eq_of_perm`). -/

namespace PageFields.Text

theorem le_iff {s t : Text} : le s t = true ↔ s ≤ t := by
  rw [← not_lt]
  induction s generalizing t with
  | nil => simp [le]
  | cons a s ih =>
    cases t with
    | nil => simp [le]
    | cons b t =>
      rw [le, List.cons_lt_cons_iff]
      by_cases h : a = b
      · subst h
        simp [ih]
      · simp only [h, Ne.symm h, if_false, false_and, or_false, decide_eq_true_eq, not_lt]
        exact ⟨le_of_lt, fun hab => lt_of_le_of_ne hab h⟩

theorem pairwise_mergeSort {α : Type} (name : α → Text) (l : List α) :
    (l.mergeSort fun a b => le (name a) (name b)).Pairwise fun a b => name a ≤ name b := by
  refine (List.pairwise_mergeSort (fun a b c hab hbc => ?_) (fun a b => ?_) l).imp le_iff.1
  · exact le_iff.2 ((le_iff.1 hab).trans (le_iff.1 hbc))
  · rw [Bool.or_eq_true, le_iff, le_iff]
    exact le_total _ _

theorem pairwise_lt_mergeSort {l : List Text} (hd : l.Nodup) : (l.mergeSort le).Pairwise (· < ·) :=
  ((pairwise_mergeSort id l).and ((List.mergeSort_perm l le).nodup_iff.2 hd)).imp
    fun h => lt_of_le_of_ne h.1 h.2

/-- **Things with different names are sorted alike**, in whatever order they come. -/
theorem mergeSort_eq_of_perm {α : Type} (name : α → Text) {l l' : List α} (h : l.Perm l')
    (hd : (l.map name).Nodup) :
    l.mergeSort (fun a b => le (name a) (name b)) =
      l'.mergeSort (fun a b => le (name a) (name b)) := by
  have hperm : ∀ l : List α, (l.mergeSort fun a b => le (name a) (name b)).Perm l :=
    fun l => List.mergeSort_perm l _
  refine List.Perm.eq_of_pairwise (fun a b ha hb hab hba => ?_) (pairwise_mergeSort name l)
    (pairwise_mergeSort name l') ((hperm l).trans (h.trans (hperm l').symm))
  have ha : a ∈ l := List.mem_mergeSort.1 ha
  have hb : b ∈ l := h.mem_iff.2 (List.mem_mergeSort.1 hb)
  exact List.inj_on_of_nodup_map hd ha hb (le_antisymm hab hba)

/-! ### Sets of texts -/

theorem mem_insertSorted {s t : Text} {l : List Text} : s ∈ insertSorted t l ↔ s = t ∨ s ∈ l := by
  fun_induction insertSorted t l with
  | case1 => simp
  | case2 rest => simp
  | case3 u rest => exact List.mem_cons
  | case4 u rest _ _ ih => rw [List.mem_cons, ih, List.mem_cons, or_left_comm]

theorem pairwise_insertSorted {t : Text} {l : List Text} (h : l.Pairwise (· < ·)) :
    (insertSorted t l).Pairwise (· < ·) := by
  fun_induction insertSorted t l with
  | case1 => exact List.pairwise_singleton _ t
  | case2 rest => exact h
  | case3 u rest hne hle =>
    have hlt : t < u := lt_of_le_of_ne (le_iff.1 hle) hne
    refine List.pairwise_cons.2 ⟨List.forall_mem_cons.2 ⟨hlt, fun v hv => ?_⟩, h⟩
    exact hlt.trans ((List.pairwise_cons.1 h).1 v hv)
  | case4 u rest hne hle ih =>
    obtain ⟨hu, hrest⟩ := List.pairwise_cons.1 h
    refine List.pairwise_cons.2 ⟨fun v hv => ?_, ih hrest⟩
    rcases mem_insertSorted.1 hv with rfl | hv
    · exact lt_of_not_ge fun hle' => hle (le_iff.2 hle')
    · exact hu v hv

theorem mem_foldr_insertSorted {s : Text} {l : List Text} :
    s ∈ l.foldr insertSorted [] ↔ s ∈ l := by
  induction l with
  | nil => rfl
  | cons t l ih => rw [List.foldr_cons, mem_insertSorted, ih, List.mem_cons]

theorem pairwise_foldr_insertSorted (l : List Text) :
    (l.foldr insertSorted []).Pairwise (· < ·) := by
  induction l with
  | nil => exact .nil
  | cons t l ih => exact pairwise_insertSorted ih

end PageFields.Text
