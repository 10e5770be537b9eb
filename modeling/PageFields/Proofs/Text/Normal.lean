import Mathlib.Data.List.DropRight
import PageFields.Text.Blank
import PageFields.Text.Normal

/-! # Text: laws of the normal form

Trimming cuts a text into a margin, the middle and a margin (`exists_trimMatches`), and the middle
is known by its two end characters (`trimMatches_append`). `unifyBreaks` is a recursion over the
text that takes a carriage return with its line feed in one step; `breaks_induction` is its
induction. A text is in normal form (`IsNormal`) exactly when `normalize` does not change it, also
when a margin is put around it (`normalize_append`). -/

namespace PageFields.Text

/-! ### Trimming -/

variable {p : Char → Bool}

theorem trimMatches_eq (t : Text) : trimMatches p t = (t.dropWhile p).rdropWhile p := rfl

theorem trimMatches_eq_nil {t : Text} : trimMatches p t = [] ↔ ∀ c ∈ t, p c = true := by
  rw [trimMatches_eq, List.rdropWhile_eq_nil_iff]
  constructor
  · intro h c hc
    rw [← List.takeWhile_append_dropWhile (p := p) (l := t)] at hc
    rcases List.mem_append.1 hc with hc | hc
    · exact List.mem_takeWhile_imp hc
    · exact h c hc
  · exact fun h c hc => h c ((List.dropWhile_suffix p).subset hc)

theorem trimBlank_append_eq_nil {s t : Text} :
    trimBlank (s ++ t) = [] ↔ trimBlank s = [] ∧ trimBlank t = [] := by
  unfold trimBlank
  simp only [trimMatches_eq_nil, List.mem_append]
  constructor
  · intro h
    exact ⟨fun c hc => h c (Or.inl hc), fun c hc => h c (Or.inr hc)⟩
  · rintro ⟨h, h'⟩ c (hc | hc)
    · exact h c hc
    · exact h' c hc

/-- Neither end of the text has a character with `p`. -/
def IsTrimmed (p : Char → Bool) (t : Text) : Prop :=
  (∀ c ∈ t.head?, p c = false) ∧ ∀ c ∈ t.getLast?, p c = false

theorem isTrimmed_trimMatches (t : Text) : IsTrimmed p (trimMatches p t) := by
  have hlast : ∀ c ∈ (trimMatches p t).getLast?, p c = false := by
    intro c hc
    obtain ⟨h, rfl⟩ := List.mem_getLast?_eq_getLast hc
    have : ¬ p ((trimMatches p t).getLast h) = true := List.rdropWhile_last_not p (t.dropWhile p) h
    simpa using this
  refine ⟨fun c hc => ?_, hlast⟩
  obtain ⟨u, hu⟩ : trimMatches p t <+: t.dropWhile p := List.rdropWhile_prefix p _
  have := List.head?_dropWhile_not p t
  rw [← hu, List.head?_append, Option.mem_def.1 hc] at this
  simpa using this

theorem exists_trimMatches (p : Char → Bool) (t : Text) :
    ∃ l r, t = l ++ trimMatches p t ++ r ∧ (∀ c ∈ l, p c = true) ∧ ∀ c ∈ r, p c = true := by
  refine ⟨t.takeWhile p, (t.dropWhile p).rtakeWhile p, ?_, ?_, ?_⟩
  · rw [trimMatches_eq, List.append_assoc, List.rdropWhile_append_rtakeWhile,
      List.takeWhile_append_dropWhile]
  · exact fun c hc => List.mem_takeWhile_imp hc
  · exact fun c hc => List.mem_rtakeWhile_imp hc

theorem trimMatches_append {l t r : Text} (hl : ∀ c ∈ l, p c = true) (hr : ∀ c ∈ r, p c = true)
    (ht : IsTrimmed p t) : trimMatches p (l ++ t ++ r) = t := by
  have drop : ∀ {u v : Text}, (∀ c ∈ u, p c = true) → (∀ c ∈ v.head?, p c = false) →
      (u ++ v).dropWhile p = v := by
    intro u v hu hv
    rw [List.dropWhile_append_of_pos hu]
    cases v with
    | nil => rfl
    | cons c v => rw [List.dropWhile_cons, hv c rfl]; simp
  cases t with
  | nil =>
    rw [List.append_nil, trimMatches_eq_nil]
    exact fun c hc => (List.mem_append.1 hc).elim (hl c) (hr c)
  | cons c t =>
    unfold trimMatches
    rw [List.append_assoc, drop hl (by simpa using ht.1), List.reverse_append, drop,
      List.reverse_reverse]
    · exact fun d hd => hr d (List.mem_reverse.1 hd)
    · rw [List.head?_reverse]
      exact ht.2

/-! ### Line breaks -/

theorem unifyBreaks_nil : unifyBreaks [] = [] := rfl

theorem unifyBreaks_pair (s : Text) : unifyBreaks ('\r' :: '\n' :: s) = '\n' :: unifyBreaks s := by
  simp [unifyBreaks, replacePair]

theorem unifyBreaks_return {s : Text} (h : s.head? ≠ some '\n') :
    unifyBreaks ('\r' :: s) = '\n' :: unifyBreaks s := by
  cases s with
  | nil => rfl
  | cons d s =>
    have hd : d ≠ '\n' := by simpa using h
    simp [unifyBreaks, replacePair, hd]

theorem unifyBreaks_cons {c : Char} (h : c ≠ '\r') (s : Text) :
    unifyBreaks (c :: s) = c :: unifyBreaks s := by
  cases s with
  | nil => simp [unifyBreaks, replacePair, h]
  | cons d s => simp [unifyBreaks, replacePair, h]

/-- The induction that `unifyBreaks` asks for. -/
theorem breaks_induction {motive : Text → Prop} (nil : motive [])
    (pair : ∀ s, motive s → motive ('\r' :: '\n' :: s))
    (lone : ∀ s, s.head? ≠ some '\n' → motive s → motive ('\r' :: s))
    (cons : ∀ c s, c ≠ '\r' → motive s → motive (c :: s)) (s : Text) : motive s := by
  induction hn : s.length using Nat.strongRecOn generalizing s with
  | ind n ih =>
    subst hn
    match s with
    | [] => exact nil
    | c :: s =>
      have hs : motive s := ih s.length (by simp) s rfl
      by_cases hc : c = '\r'
      · subst hc
        by_cases hd : s.head? = some '\n'
        · obtain ⟨s, rfl⟩ := List.head?_eq_some_iff.1 hd
          exact pair s (ih s.length (by simp only [List.length_cons]; omega) s rfl)
        · exact lone s hd hs
      · exact cons c s hc hs

theorem head?_unifyBreaks (s : Text) :
    (unifyBreaks s).head? = s.head?.map fun c => if c = '\r' then '\n' else c := by
  induction s using breaks_induction with
  | nil => rfl
  | pair s ih => rw [unifyBreaks_pair]; rfl
  | lone s h ih => rw [unifyBreaks_return h]; rfl
  | cons c s h ih =>
    rw [unifyBreaks_cons h, List.head?_cons, List.head?_cons, Option.map_some, if_neg h]

theorem head?_unifyBreaks_eq_some {s : Text} {c : Char} (h : c ≠ '\n') (h' : c ≠ '\r') :
    (unifyBreaks s).head? = some c ↔ s.head? = some c := by
  rw [head?_unifyBreaks]
  cases hs : s.head? with
  | none => simp
  | some d =>
    by_cases hd : d = '\r'
    · simp [hd, Ne.symm h, Ne.symm h']
    · simp [hd]

theorem unifyBreaks_return_cases (s : Text) : unifyBreaks ('\r' :: s) = '\n' :: unifyBreaks s ∨
    unifyBreaks ('\r' :: s) = unifyBreaks s := by
  by_cases hs : s.head? = some '\n'
  · obtain ⟨s, rfl⟩ := List.head?_eq_some_iff.1 hs
    exact Or.inr (by rw [unifyBreaks_pair, unifyBreaks_cons (by decide)])
  · exact Or.inl (unifyBreaks_return hs)

theorem exists_unifyBreaks_return (s : Text) : ∃ u, unifyBreaks ('\r' :: s) = '\n' :: u :=
  List.head?_eq_some_iff.1 (head?_unifyBreaks _)

theorem mem_unifyBreaks {c : Char} (h : c ≠ '\n') (h' : c ≠ '\r') (s : Text) :
    c ∈ unifyBreaks s ↔ c ∈ s := by
  induction s using breaks_induction with
  | nil => rfl
  | pair s ih => rw [unifyBreaks_pair]; simp [h, h', ih]
  | lone s hs ih => rw [unifyBreaks_return hs]; simp [h, h', ih]
  | cons d s hd ih => rw [unifyBreaks_cons hd]; simp [ih]

theorem not_mem_unifyBreaks (s : Text) : '\r' ∉ unifyBreaks s := by
  induction s using breaks_induction with
  | nil => simp [unifyBreaks_nil]
  | pair s ih => rw [unifyBreaks_pair]; simpa using ih
  | lone s h ih => rw [unifyBreaks_return h]; simpa using ih
  | cons c s h ih => rw [unifyBreaks_cons h]; simpa [h.symm] using ih

theorem unifyBreaks_of_not_mem {s : Text} (h : '\r' ∉ s) : unifyBreaks s = s := by
  induction s with
  | nil => rfl
  | cons c s ih =>
    simp only [List.mem_cons, not_or] at h
    rw [unifyBreaks_cons (Ne.symm h.1), ih h.2]

theorem unifyBreaks_unifyBreaks (s : Text) : unifyBreaks (unifyBreaks s) = unifyBreaks s :=
  unifyBreaks_of_not_mem (not_mem_unifyBreaks s)

/-- The line breaks of two texts are unified apart, unless one break reaches over the seam. -/
theorem unifyBreaks_append {s t : Text}
    (h : s.getLast? = some '\r' → t.head? ≠ some '\n') :
    unifyBreaks (s ++ t) = unifyBreaks s ++ unifyBreaks t := by
  induction s using breaks_induction with
  | nil => rfl
  | pair s ih =>
    rw [List.cons_append, List.cons_append, unifyBreaks_pair, unifyBreaks_pair, ih]
    · rfl
    · intro hl
      exact h (by rw [List.getLast?_cons, List.getLast?_cons, hl]; rfl)
  | lone s hs ih =>
    rw [List.cons_append, unifyBreaks_return, unifyBreaks_return hs, ih]
    · rfl
    · intro hl
      exact h (by rw [List.getLast?_cons, hl]; rfl)
    · cases s with
      | nil => exact h rfl
      | cons d s => exact hs
  | cons c s hc ih =>
    rw [List.cons_append, unifyBreaks_cons hc, unifyBreaks_cons hc, ih]
    · rfl
    · intro hl
      exact h (by rw [List.getLast?_cons, hl]; rfl)

/-! ### Normal form -/

theorem ne_return_of_isMargin {c : Char} (h : isMargin c = true) : c ≠ '\r' := by
  rintro rfl
  exact absurd h (by decide)

theorem isMargin_newline : ∀ c ∈ ['\n'], isMargin c = true := List.forall_mem_singleton.2 rfl

/-- The text is in normal form. -/
structure IsNormal (t : Text) : Prop where
  unified : '\r' ∉ t
  trimmed : IsTrimmed isMargin t

theorem isNormal_nil : IsNormal [] := ⟨by simp, by simp [IsTrimmed]⟩

theorem isNormal_normalize (t : Text) : IsNormal (normalize t) := by
  refine ⟨fun h => ?_, isTrimmed_trimMatches _⟩
  obtain ⟨l, r, hlr, -, -⟩ := exists_trimMatches isMargin (unifyBreaks t)
  refine not_mem_unifyBreaks t ?_
  rw [hlr]
  exact List.mem_append_left _ (List.mem_append_right _ h)

/-- **A margin around a text in normal form is all that normalizing takes away.** -/
theorem normalize_append {l t r : Text} (hl : ∀ c ∈ l, isMargin c = true)
    (hr : ∀ c ∈ r, isMargin c = true) (ht : IsNormal t) : normalize (l ++ t ++ r) = t := by
  unfold normalize
  rw [unifyBreaks_of_not_mem, trimMatches_append hl hr ht.trimmed]
  intro h
  rcases List.mem_append.1 h with h | h
  · rcases List.mem_append.1 h with h | h
    · exact ne_return_of_isMargin (hl _ h) rfl
    · exact ht.unified h
  · exact ne_return_of_isMargin (hr _ h) rfl

theorem normalize_of_isNormal {t : Text} (h : IsNormal t) : normalize t = t := by
  have := normalize_append (l := []) (r := []) (by simp) (by simp) h
  rwa [List.nil_append, List.append_nil] at this

theorem normalize_normalize (t : Text) : normalize (normalize t) = normalize t :=
  normalize_of_isNormal (isNormal_normalize t)

/-! ### What stays -/

theorem count_unifyBreaks {c : Char} (h : c ≠ '\n') (h' : c ≠ '\r') (s : Text) :
    (unifyBreaks s).count c = s.count c := by
  induction s using breaks_induction with
  | nil => rfl
  | pair s ih =>
    rw [unifyBreaks_pair, List.count_cons_of_ne h.symm, List.count_cons_of_ne h'.symm,
      List.count_cons_of_ne h.symm, ih]
  | lone s hs ih =>
    rw [unifyBreaks_return hs, List.count_cons_of_ne h.symm, List.count_cons_of_ne h'.symm, ih]
  | cons d s hd ih => rw [unifyBreaks_cons hd, List.count_cons, List.count_cons, ih]

/-- **A character that is neither in a margin nor in a line break** stands in the normal form as
often as in the text. -/
theorem count_normalize {c : Char} (h : isMargin c = false) (h' : c ≠ '\r') (t : Text) :
    (normalize t).count c = t.count c := by
  have hn : c ≠ '\n' := by
    rintro rfl
    exact absurd h (by decide)
  have hzero : ∀ {m : Text}, (∀ d ∈ m, isMargin d = true) → m.count c = 0 := by
    intro m hm
    refine List.count_eq_zero.2 fun hc => ?_
    rw [hm c hc] at h
    cases h
  obtain ⟨l, r, hlr, hl, hr⟩ := exists_trimMatches isMargin (unifyBreaks t)
  rw [← count_unifyBreaks hn h' t, hlr, List.count_append, List.count_append, hzero hl, hzero hr,
    Nat.zero_add, Nat.add_zero]
  rfl

end PageFields.Text
