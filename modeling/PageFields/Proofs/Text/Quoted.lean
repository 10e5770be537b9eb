import PageFields.Proofs.Text.Normal
import PageFields.Proofs.Token.Reading

/-! # Text: an escaped text is read back

A text written with `escape` between double quotes is one string for the lexer
(`quotedRest?_quoted`), and the string stands for the text (`value?_quoted`). Whether a string
stands for a text at all does not depend on how its line breaks are written
(`isSome_value?_unifyBreaks`): no escape has a line break in it. -/

namespace PageFields.Quoted

/-- The characters that `escape` puts a backslash before. -/
def isSpecial (c : Char) : Bool := c = '\\' || c = '"'

theorem escape_special {c : Char} (h : isSpecial c = true) (t : Text) :
    escape (c :: t) = '\\' :: c :: escape t := by
  have hc : c = '\\' ∨ c = '"' := by simpa [isSpecial] using h
  rw [escape, List.flatMap_cons, if_pos hc]
  rfl

theorem escape_plain {c : Char} (h : isSpecial c = false) (t : Text) :
    escape (c :: t) = c :: escape t := by
  have hc : ¬ (c = '\\' ∨ c = '"') := by simpa [isSpecial] using h
  rw [escape, List.flatMap_cons, if_neg hc]
  rfl

theorem ne_of_not_isSpecial {c : Char} (h : isSpecial c = false) : c ≠ '"' ∧ c ≠ '\\' := by
  constructor
  · rintro rfl; exact absurd h (by decide)
  · rintro rfl; exact absurd h (by decide)

theorem escape_of_not_mem {t : Text} (h : '\\' ∉ escape t) : escape t = t := by
  induction t with
  | nil => rfl
  | cons c t ih =>
    cases hc : isSpecial c with
    | true => rw [escape_special hc] at h; simp at h
    | false =>
      rw [escape_plain hc] at h ⊢
      simp only [List.mem_cons, not_or] at h
      rw [ih h.2]

theorem quotedRest?_quoted (t u : Text) :
    Lexer.quotedRest? '"' (escape t ++ '"' :: u) = some (escape t ++ ['"'], u) := by
  induction t with
  | nil => exact Lexer.quotedRest?_close '"' u
  | cons c t ih =>
    cases hc : isSpecial c with
    | true =>
      have hn : c ≠ '\n' := by rintro rfl; exact absurd hc (by decide)
      rw [escape_special hc, List.cons_append, List.cons_append,
        Lexer.quotedRest?_escape (by decide) hn, ih]
      rfl
    | false =>
      obtain ⟨hq, hb⟩ := ne_of_not_isSpecial hc
      rw [escape_plain hc, List.cons_append, Lexer.quotedRest?_plain hq hb, ih]
      rfl

theorem unquote?_double_plain {c : Char} (h : isSpecial c = false) (t : Text) :
    unquote? .double (c :: t) = (unquote? .double t).map (c :: ·) := by
  obtain ⟨hq, hb⟩ := ne_of_not_isSpecial h
  rw [unquote?.eq_def]
  split <;> simp_all

theorem unquote?_double_special {c : Char} (h : isSpecial c = true) (t : Text) :
    unquote? .double ('\\' :: c :: t) = (unquote? .double t).map (c :: ·) := by
  have hc : c = '\\' ∨ c = '"' := by simpa [isSpecial] using h
  rcases hc with rfl | rfl
  · rw [unquote?.eq_def]; simp [simpleEscape?]
  · rw [unquote?.eq_def]; simp [simpleEscape?]

theorem unquote?_quoted (t : Text) : unquote? .double (escape t ++ ['"']) = some t := by
  induction t with
  | nil => rfl
  | cons c t ih =>
    cases hc : isSpecial c with
    | true =>
      rw [escape_special hc, List.cons_append, List.cons_append, unquote?_double_special hc, ih]
      rfl
    | false =>
      rw [escape_plain hc, List.cons_append, unquote?_double_plain hc, ih]
      rfl

theorem value?_concat (q : Char) (inner : Text) : value? (q :: (inner ++ [q])) =
    if '\\' ∉ inner then some inner
    else if q = '"' then unquote? .bare (q :: (inner ++ [q])) else some (unescapeSingle inner) := by
  obtain ⟨c, rest, h⟩ : ∃ c rest, inner ++ [q] = c :: rest :=
    List.exists_cons_of_ne_nil (by simp)
  have hd : (c :: rest).dropLast = inner := by rw [← h, List.dropLast_concat]
  rw [h, value?, hd]

/-- **A string stands for the text that was escaped.** -/
theorem value?_quoted (t : Text) : value? ('"' :: (escape t ++ ['"'])) = some t := by
  rw [value?_concat]
  by_cases hb : '\\' ∈ escape t
  · simp only [hb, not_true_eq_false, if_false, if_true]
    exact unquote?_quoted t
  · rw [if_pos hb, escape_of_not_mem hb]

/-! ### Line breaks -/

open Text

theorem hexValue?_eq_none {digits : Text} {c : Char} (hc : c ∈ digits) (h : hexDigit? c = none) :
    hexValue? digits = none := by
  have key : ∀ n, digits.foldlM (fun n c => (hexDigit? c).map (16 * n + ·)) n = none := by
    induction digits with
    | nil => cases hc
    | cons d digits ih =>
      intro n
      rw [List.foldlM_cons]
      rcases List.mem_cons.1 hc with rfl | hc
      · rw [h]
        rfl
      · cases hexDigit? d with
        | none => rfl
        | some k => exact ih hc _
  exact key 0

theorem codePoint?_eq_none {digits : Text} (h : '\n' ∈ digits ∨ '\r' ∈ digits) :
    codePoint? digits = none := by
  obtain ⟨c, hc, hp, hd⟩ : ∃ c ∈ digits, c ≠ '+' ∧ hexDigit? c = none := by
    rcases h with h | h
    · exact ⟨_, h, by decide, by decide⟩
    · exact ⟨_, h, by decide, by decide⟩
  fun_cases codePoint? digits with
  | case1 d rest =>
    rw [hexValue?_eq_none ((List.mem_cons.1 hc).resolve_left hp) hd]
    rfl
  | case2 d rest hne =>
    rw [hexValue?_eq_none hc hd]
    rfl
  | case3 => cases hc

theorem unquote?_code_cons {digits : Text} {c : Char} (h : c ≠ '}') (t : Text) :
    unquote? (.code digits) (c :: t) = unquote? (.code (digits ++ [c])) t := by
  rw [unquote?]
  exact h

theorem unquote?_code_eq_none {digits : Text} (h : '\n' ∈ digits ∨ '\r' ∈ digits) (t : Text) :
    unquote? (.code digits) t = none := by
  induction t generalizing digits with
  | nil => rw [unquote?, codePoint?_eq_none h]; rfl
  | cons c t ih =>
    by_cases hc : c = '}'
    · rw [hc, unquote?, codePoint?_eq_none h]; rfl
    · rw [unquote?_code_cons hc]
      exact ih (h.imp (List.mem_append_left _) (List.mem_append_left _))

/-- A character that is copied is still copied when it is a line break that is unified. -/
theorem isSome_unquote?_copied {w : Within} {c : Char} {t : Text}
    (hc : ∀ u, (unquote? w (c :: u)).isSome = (unquote? w u).isSome)
    (hn : ∀ u, (unquote? w ('\n' :: u)).isSome = (unquote? w u).isSome)
    (ih : (unquote? w (unifyBreaks t)).isSome = (unquote? w t).isSome) :
    (unquote? w (unifyBreaks (c :: t))).isSome = (unquote? w t).isSome := by
  by_cases hr : c = '\r'
  · subst hr
    rcases unifyBreaks_return_cases t with h | h
    · rw [h, hn, ih]
    · rw [h, ih]
  · rw [unifyBreaks_cons hr, hc, ih]

/-- An escape does not reach over a line break. -/
theorem isSome_unquote?_escape {c : Char} {t : Text}
    (hu : ∀ u, c = 'u' → t = '{' :: u → False)
    (ih : (unquote? .double (unifyBreaks t)).isSome = (unquote? .double t).isSome) :
    (unquote? .double (unifyBreaks ('\\' :: c :: t))).isSome =
      ((simpleEscape? c).bind fun d => (unquote? .double t).map (d :: ·)).isSome := by
  rw [unifyBreaks_cons (by decide)]
  by_cases hr : c = '\r'
  · subst hr
    obtain ⟨u, hs⟩ := exists_unifyBreaks_return t
    rw [hs]
    rfl
  · have hu' : ∀ u, c = 'u' → unifyBreaks t = '{' :: u → False := by
      intro u hc hs
      have hhead : (unifyBreaks t).head? = some '{' := by rw [hs]; rfl
      rw [head?_unifyBreaks_eq_some (by decide) (by decide)] at hhead
      obtain ⟨v, hv⟩ := List.head?_eq_some_iff.1 hhead
      exact hu v hc hv
    rw [unifyBreaks_cons hr, unquote?]
    · cases simpleEscape? c with
      | none => rfl
      | some d => simpa using ih
    · exact hu'

theorem isSome_unquote?_unifyBreaks (w : Within) (s : Text) :
    (unquote? w (unifyBreaks s)).isSome = (unquote? w s).isSome := by
  fun_induction unquote? w s with
  | case1 digits => rfl
  | case2 digits rest ih =>
    rw [unifyBreaks_cons (by decide), unquote?]
    cases codePoint? digits with
    | none => rfl
    | some c => simpa using ih
  | case3 digits c rest hc ih =>
    by_cases hr : c = '\r'
    · subst hr
      obtain ⟨u, hu⟩ := exists_unifyBreaks_return rest
      rw [hu, unquote?_code_cons (by decide), unquote?_code_eq_none (by simp),
        unquote?_code_eq_none (by simp)]
    · rw [unifyBreaks_cons hr, unquote?_code_cons hc, ih]
  | case4 w hw =>
    match w with
    | .bare | .single | .double => rfl
    | .code digits => exact absurd rfl (hw digits)
  | case5 rest ih | case6 rest ih | case8 rest ih | case10 rest ih =>
    rw [unifyBreaks_cons (by decide), unquote?, ih]
  | case7 c rest h1 h2 ih =>
    rw [Option.isSome_map]
    exact isSome_unquote?_copied (fun u => by rw [unquote?, Option.isSome_map]; exacts [h1, h2])
      (fun u => by simp [unquote?]) ih
  | case9 c rest h1 ih =>
    rw [Option.isSome_map]
    exact isSome_unquote?_copied (fun u => by rw [unquote?, Option.isSome_map]; exact h1)
      (fun u => by simp [unquote?]) ih
  | case11 rest ih =>
    rw [unifyBreaks_cons (by decide), unifyBreaks_cons (by decide), unifyBreaks_cons (by decide),
      unquote?, ih]
  | case12 c rest hu ih => exact isSome_unquote?_escape hu ih
  | case13 => rfl
  | case14 c rest h1 h2 h3 h4 ih =>
    have hb : c ≠ '\\' := fun hc => by
      cases rest with
      | nil => exact h4 hc rfl
      | cons d rest => exact h3 d rest hc rfl
    have hc : isSpecial c = false := by simpa [isSpecial] using ⟨hb, h1⟩
    rw [Option.isSome_map]
    exact isSome_unquote?_copied
      (fun u => by rw [unquote?_double_plain hc, Option.isSome_map])
      (fun u => by rw [unquote?_double_plain (by decide), Option.isSome_map]) ih

/-- Unifying the line breaks of a string neither makes nor mends a malformed escape. -/
theorem isSome_value?_unifyBreaks {q : Char} (hq : Lexer.IsQuote q) (inner : Text) :
    (value? (unifyBreaks (q :: (inner ++ [q])))).isSome =
      (value? (q :: (inner ++ [q]))).isSome := by
  obtain ⟨hqr, hqn⟩ := hq.ne_break
  have hu : unifyBreaks (q :: (inner ++ [q])) = q :: (unifyBreaks inner ++ [q]) := by
    rw [unifyBreaks_cons hqr, unifyBreaks_append fun _ => by simpa using hqn,
      unifyBreaks_cons hqr, unifyBreaks_nil]
  have hword := isSome_unquote?_unifyBreaks .bare (q :: (inner ++ [q]))
  rw [hu] at hword ⊢
  have hb : '\\' ∈ unifyBreaks inner ↔ '\\' ∈ inner :=
    mem_unifyBreaks (by decide) (by decide) inner
  simp only [value?_concat, hb]
  split
  · rfl
  · split
    · exact hword
    · rfl

end PageFields.Quoted
