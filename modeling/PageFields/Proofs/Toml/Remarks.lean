import PageFields.Proofs.Path
import PageFields.Toml.Document

/-! # TOML: documents without statements

A line that is blank or a comment says nothing. What follows it is read as if the line were not
there, only that a comment goes on until its line ends (`skipLines?_remark`). So a document that has
no other lines has no statement and is the empty table (`parse?_remarks`). -/

namespace PageFields.Toml

variable {c : Char} {l rest : Text}

/-- The line is blank or a comment. -/
def isRemark (l : Text) : Bool :=
  match skipSpace l with
  | [] => true
  | c :: body => c = '#' && body.all isPlain

theorem skipLines?_cons (h : c ≠ '\r') (inComment : Bool) (rest : Text) :
    skipLines? inComment (c :: rest) =
      if c = '\n' then skipLines? false rest
      else if inComment then if isPlain c then skipLines? true rest else none
      else if c = ' ' ∨ c = '\t' then skipLines? false rest
      else if c = '#' then skipLines? true rest
      else some (c :: rest) := by
  rw [skipLines?]
  exact fun _ hc _ => h hc

theorem skipLines?_space (hc : c = ' ' ∨ c = '\t') (rest : Text) :
    skipLines? false (c :: rest) = skipLines? false rest := by
  have hne : c ≠ '\r' ∧ c ≠ '\n' := by rcases hc with rfl | rfl <;> decide
  rw [skipLines?_cons hne.1, if_neg hne.2, if_neg Bool.false_ne_true, if_pos hc]

theorem skipLines?_skipSpace (l rest : Text) :
    skipLines? false (l ++ rest) = skipLines? false (skipSpace l ++ rest) := by
  induction l with
  | nil => rfl
  | cons c l ih =>
    by_cases hc : c = ' ' ∨ c = '\t'
    · have hskip : skipSpace (c :: l) = skipSpace l :=
        List.dropWhile_cons_of_pos (by simpa using hc)
      rw [List.cons_append, skipLines?_space hc, ih, hskip]
    · have hkeep : skipSpace (c :: l) = c :: l := List.dropWhile_cons_of_neg (by simpa using hc)
      rw [hkeep]

theorem skipLines?_plain {body : Text} (h : body.all isPlain = true) (rest : Text) :
    skipLines? true (body ++ rest) = skipLines? true rest := by
  induction body with
  | nil => rfl
  | cons c body ih =>
    rw [List.all_cons, Bool.and_eq_true] at h
    have hne : ∀ d, isPlain d = false → c ≠ d := by
      rintro d hd rfl
      rw [hd] at h
      exact Bool.false_ne_true h.1
    rw [List.cons_append, skipLines?_cons (hne '\r' (by decide)), if_neg (hne '\n' (by decide)),
      if_pos rfl, if_pos h.1]
    exact ih h.2

/-- **A line that is blank or a comment is skipped**, and what follows it is read like the rest of a
line, which a comment may have begun. -/
theorem skipLines?_remark (h : isRemark l = true) :
    ∃ inComment, ∀ rest, skipLines? false (l ++ rest) = skipLines? inComment rest := by
  unfold isRemark at h
  cases hl : skipSpace l with
  | nil =>
    refine ⟨false, fun rest => ?_⟩
    rw [skipLines?_skipSpace, hl, List.nil_append]
  | cons c body =>
    rw [hl] at h
    simp only [Bool.and_eq_true, decide_eq_true_eq] at h
    obtain ⟨rfl, hbody⟩ := h
    refine ⟨true, fun rest => ?_⟩
    have hsharp : skipLines? false ('#' :: (body ++ rest)) = skipLines? true (body ++ rest) := by
      rw [skipLines?_cons (by decide), if_neg (by decide), if_neg Bool.false_ne_true,
        if_neg (by decide), if_pos rfl]
    rw [skipLines?_skipSpace, hl, List.cons_append, hsharp, skipLines?_plain hbody]

theorem skipLines?_join {lines : List Text} (h : ∀ l ∈ lines, isRemark l = true) :
    skipLines? false (Text.join ['\n'] lines) = some [] := by
  induction lines with
  | nil => rfl
  | cons l lines ih =>
    obtain ⟨hl, hlines⟩ := List.forall_mem_cons.1 h
    obtain ⟨inComment, hskip⟩ := skipLines?_remark hl
    cases lines with
    | nil =>
      have hend := hskip []
      rw [List.append_nil] at hend
      exact hend
    | cons m lines =>
      rw [Text.join, List.append_assoc, List.singleton_append, hskip,
        skipLines?_cons (by decide), if_pos rfl]
      exact ih hlines

/-- **A document of blank lines and comments is the empty table.** -/
theorem parse?_remarks {s : Text} (h : ∀ l ∈ Text.splitOn '\n' s, isRemark l = true) :
    Document.parse? s = some [] := by
  have hskip : skipLines? false s = some [] := by
    have hjoin := skipLines?_join h
    rwa [Text.join_splitOn] at hjoin
  have hread : readStatements? (s.length + 1) s = some [] := by
    rw [readStatements?, hskip]
  unfold Document.parse?
  split
  · -- a byte order mark is no space, so it would not have been skipped
    rw [skipLines?_cons (by decide), if_neg (by decide), if_neg Bool.false_ne_true,
      if_neg (by decide), if_neg (by decide)] at hskip
    cases hskip
  · show (readStatements? (s.length + 1) s).bind Document.build = some []
    rw [hread]
    rfl

end PageFields.Toml
