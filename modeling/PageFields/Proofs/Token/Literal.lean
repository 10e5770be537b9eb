import Mathlib.Tactic.Common
import PageFields.Token.Lexer

/-! # Literal text, one character at a time

Outside directives the lexer jumps from one two-character mark to the next. `literalLength` reads
the same stretch one character at a time and only remembers whether it is in a comment; `inComment`
says where such a reading ends. The two agree (`directiveStart_eq`), and the second form says what
happens at a seam: a stretch that does not end in half a mark can be read without what follows it
(`literalLength_append`), and a stretch can be cut off again at the place where the lexer stopped
(`literalLength_of_append`). -/

namespace PageFields.Lexer

/-- The length of the literal text at the start of a text. The first argument says whether the
reading starts in a comment. -/
def literalLength : Bool → Text → Nat
  | _, [] => 0
  | _, [_] => 1
  | false, c :: d :: rest =>
    if c = '{' ∧ d = '%' then 0
    else if c = '{' ∧ d = '#' then literalLength true rest + 2
    else literalLength false (d :: rest) + 1
  | true, c :: d :: rest =>
    if c = '#' ∧ d = '}' then literalLength false rest + 2
    else literalLength true (d :: rest) + 1

/-- Reading the whole text as literal text ends in a comment. -/
def inComment : Bool → Text → Bool
  | b, [] => b
  | b, [_] => b
  | false, c :: d :: rest =>
    if c = '{' ∧ d = '#' then inComment true rest else inComment false (d :: rest)
  | true, c :: d :: rest =>
    if c = '#' ∧ d = '}' then inComment false rest else inComment true (d :: rest)

theorem literalLength_le (b : Bool) (s : Text) : literalLength b s ≤ s.length := by
  fun_induction literalLength b s <;> simp_all

/-! ### The two ways of reading agree -/

theorem findPair_cons (a b c : Char) (s : Text) :
    findPair a b (c :: s) =
      if c = a ∧ s.head? = some b then some 0 else (findPair a b s).map (· + 1) := by
  cases s with
  | nil => simp [findPair]
  | cons d s => simp only [findPair, List.head?_cons, Option.some.injEq]

theorem literalLength_of_no_mark {s : Text} (hs : findPair '{' '%' s = none) (b : Bool) :
    literalLength b s = s.length := by
  fun_induction literalLength b s with
  | case1 => rfl
  | case2 => rfl
  | case3 => simp_all [findPair]
  | case4 c d rest _ _ ih => simp_all [findPair_cons]
  | case5 c d rest h _ ih =>
    rw [findPair, if_neg h] at hs
    simp [ih (by simpa using hs)]
  | case6 c d rest _ ih => simp_all [findPair_cons]
  | case7 c d rest _ ih =>
    rw [findPair] at hs
    split_ifs at hs
    simp [ih (by simpa using hs)]

theorem literalLength_true_of_none {s : Text} (hs : findPair '#' '}' s = none) :
    literalLength true s = s.length := by
  induction s with
  | nil => rfl
  | cons c s ih =>
    cases s with
    | nil => rfl
    | cons d s =>
      simp only [findPair] at hs
      split_ifs at hs with h
      rw [literalLength, if_neg h, ih (by simpa using hs)]
      rfl

theorem literalLength_true_of_some {s : Text} {e : Nat} (hs : findPair '#' '}' s = some e) :
    literalLength true s = e + 2 + literalLength false (s.drop (e + 2)) := by
  induction s generalizing e with
  | nil => simp [findPair] at hs
  | cons c s ih =>
    cases s with
    | nil => simp [findPair] at hs
    | cons d s =>
      simp only [findPair] at hs
      split_ifs at hs with h
      · obtain rfl := Option.some.inj hs
        rw [literalLength, if_pos h]
        simp [Nat.add_comm]
      · obtain ⟨e', he, rfl⟩ := Option.map_eq_some_iff.1 hs
        rw [literalLength, if_neg h, ih he]
        simp only [List.drop_succ_cons]
        omega

theorem literalLength_false_of_comment {s : Text} {c : Nat} (hc : findPair '{' '#' s = some c)
    (hd : ∀ d, findPair '{' '%' s = some d → c < d) :
    literalLength false s = c + 2 + literalLength true (s.drop (c + 2)) := by
  induction s generalizing c with
  | nil => simp [findPair] at hc
  | cons x s ih =>
    cases s with
    | nil => simp [findPair] at hc
    | cons y s =>
      simp only [findPair] at hc hd
      split_ifs at hc hd with h1 h2
      · exact absurd (h1.2.symm.trans h2.2) (by decide)
      · obtain rfl := Option.some.inj hc
        rw [literalLength, if_neg (by rintro ⟨-, h⟩; exact absurd (h.symm.trans h1.2) (by decide)),
          if_pos h1]
        simp [Nat.add_comm]
      · exact absurd (hd 0 rfl) (by omega)
      · rename_i h3
        obtain ⟨c', hc', rfl⟩ := Option.map_eq_some_iff.1 hc
        have hd' : ∀ d, findPair '{' '%' (y :: s) = some d → c' < d := by
          intro d h
          have := hd (d + 1) (by rw [h]; rfl)
          omega
        rw [literalLength, if_neg h3, if_neg h1, ih hc' hd']
        simp only [List.drop_succ_cons]
        omega

theorem literalLength_false_of_mark {s : Text} {d : Nat} (hd : findPair '{' '%' s = some d)
    (hc : ∀ c, findPair '{' '#' s = some c → d ≤ c) : literalLength false s = d := by
  induction s generalizing d with
  | nil => simp [findPair] at hd
  | cons x s ih =>
    cases s with
    | nil => simp [findPair] at hd
    | cons y s =>
      simp only [findPair] at hc hd
      split_ifs at hc hd with h1 h2 h3
      · exact absurd (h1.2.symm.trans h2.2) (by decide)
      · obtain ⟨d', -, rfl⟩ := Option.map_eq_some_iff.1 hd
        exact absurd (hc 0 rfl) (by omega)
      · obtain rfl := Option.some.inj hd
        rw [literalLength, if_pos h3]
      · obtain ⟨d', hd', rfl⟩ := Option.map_eq_some_iff.1 hd
        have hc' : ∀ c, findPair '{' '#' (y :: s) = some c → d' ≤ c := by
          intro c h
          have := hc (c + 1) (by rw [h]; rfl)
          omega
        rw [literalLength, if_neg h3, if_neg h1, ih hd' hc']

/-- **The jumps from mark to mark stop where the reading one character at a time stops.** -/
theorem directiveStart_eq (s : Text) : directiveStart s = literalLength false s := by
  fun_induction directiveStart s with
  | case1 s d c hd hc hlt he =>
    have hlen := findPair_lt hc
    rw [literalLength_false_of_comment hc (fun d' h => by rw [hd] at h; cases h; exact hlt),
      literalLength_true_of_none he, List.length_drop]
    omega
  | case2 s d c hd hc hlt e he ih =>
    rw [literalLength_false_of_comment hc (fun d' h => by rw [hd] at h; cases h; exact hlt),
      literalLength_true_of_some he, List.drop_drop, ih, ← Nat.add_assoc (c + 2) e 2]
    omega
  | case3 s d c hd hc hlt =>
    exact (literalLength_false_of_mark hd fun c' h => by rw [hc] at h; cases h; omega).symm
  | case4 s d hd hc =>
    exact (literalLength_false_of_mark hd fun c' h => by rw [hc] at h; cases h).symm
  | case5 s hd => exact (literalLength_of_no_mark hd false).symm

/-! ### Seams -/

/-- A stretch of literal text that does not end in the first half of a mark that the following text
completes is read without what follows it; the reading goes on where the stretch ends. -/
theorem literalLength_append {b : Bool} {p t : Text} (hp : literalLength b p = p.length)
    (ht : inComment b p = false → p.getLast? = some '{' → t.head? ≠ some '%' ∧ t.head? ≠ some '#')
    (ht' : inComment b p = true → p.getLast? = some '#' → t.head? ≠ some '}') :
    literalLength b (p ++ t) = p.length + literalLength (inComment b p) t := by
  fun_induction literalLength b p with
  | case1 b => simp [inComment]
  | case2 b c =>
    cases t with
    | nil => cases b <;> rfl
    | cons d t =>
      simp only [List.getLast?_singleton, Option.some.injEq, List.head?_cons, ne_eq] at ht ht'
      cases b with
      | false =>
        rw [List.singleton_append, literalLength, if_neg (fun h => (ht rfl h.1).1 h.2),
          if_neg (fun h => (ht rfl h.1).2 h.2), List.length_singleton, Nat.add_comm]
        rfl
      | true =>
        rw [List.singleton_append, literalLength, if_neg (fun h => ht' rfl h.1 h.2),
          List.length_singleton, Nat.add_comm]
        rfl
  | case3 c d rest h => simp at hp
  | case4 c d rest h1 h2 ih =>
    rw [inComment, if_pos h2] at ht ht' ⊢
    have := ih (by simpa using hp) (fun hc h => ht hc (by simp [List.getLast?_cons, h]))
      fun hc h => ht' hc (by simp [List.getLast?_cons, h])
    rw [List.cons_append, List.cons_append, literalLength, if_neg h1, if_pos h2, this]
    simp only [List.length_cons]
    omega
  | case5 c d rest h1 h2 ih =>
    rw [inComment, if_neg h2] at ht ht' ⊢
    have := ih (by simpa using hp) (fun hc h => ht hc (by simpa using h))
      fun hc h => ht' hc (by simpa using h)
    rw [List.cons_append, List.cons_append, literalLength, if_neg h1, if_neg h2,
      ← List.cons_append, this]
    simp only [List.length_cons]
    omega
  | case6 c d rest h ih =>
    rw [inComment, if_pos h] at ht ht' ⊢
    have := ih (by simpa using hp) (fun hc h => ht hc (by simp [List.getLast?_cons, h]))
      fun hc h => ht' hc (by simp [List.getLast?_cons, h])
    rw [List.cons_append, List.cons_append, literalLength, if_pos h, this]
    simp only [List.length_cons]
    omega
  | case7 c d rest h ih =>
    rw [inComment, if_neg h] at ht ht' ⊢
    have := ih (by simpa using hp) (fun hc h => ht hc (by simpa using h))
      fun hc h => ht' hc (by simpa using h)
    rw [List.cons_append, List.cons_append, literalLength, if_neg h, ← List.cons_append, this]
    simp only [List.length_cons]
    omega

theorem inComment_append {b : Bool} {p t : Text}
    (ht : p.getLast? = some '{' → t.head? ≠ some '#')
    (ht' : inComment b p = true → p.getLast? = some '#' → t.head? ≠ some '}') :
    inComment b (p ++ t) = inComment (inComment b p) t := by
  fun_induction inComment b p with
  | case1 b => rfl
  | case2 b c =>
    cases t with
    | nil => rfl
    | cons d t =>
      simp only [List.getLast?_singleton, Option.some.injEq, List.head?_cons, ne_eq] at ht ht'
      cases b
      · rw [List.singleton_append, inComment, if_neg fun h => ht h.1 h.2]
      · rw [List.singleton_append, inComment, if_neg fun h => ht' rfl h.1 h.2]
  | case3 c d rest h ih =>
    rw [List.cons_append, List.cons_append, inComment, if_pos h]
    exact ih (fun h => ht (by simp [List.getLast?_cons, h]))
      fun hc h => ht' hc (by simp [List.getLast?_cons, h])
  | case4 c d rest h ih =>
    rw [List.cons_append, List.cons_append, inComment, if_neg h]
    exact ih (fun h => ht (by simpa using h))
      fun hc h => ht' hc (by simpa using h)
  | case5 c d rest h ih =>
    rw [List.cons_append, List.cons_append, inComment, if_pos h]
    exact ih (fun h => ht (by simp [List.getLast?_cons, h]))
      fun hc h => ht' hc (by simp [List.getLast?_cons, h])
  | case6 c d rest h ih =>
    rw [List.cons_append, List.cons_append, inComment, if_neg h]
    exact ih (fun h => ht (by simpa using h))
      fun hc h => ht' hc (by simpa using h)

/-- A stretch of literal text stays one when what follows it is cut off. -/
theorem literalLength_of_append {b : Bool} {p t : Text}
    (h : p.length ≤ literalLength b (p ++ t)) : literalLength b p = p.length := by
  fun_induction literalLength b p with
  | case1 b => rfl
  | case2 b c => rfl
  | case3 c d rest h1 => simp [literalLength, h1] at h
  | case4 c d rest h1 h2 ih =>
    rw [List.cons_append, List.cons_append, literalLength, if_neg h1, if_pos h2] at h
    simp only [List.length_cons] at h ⊢
    rw [ih (by omega)]
  | case5 c d rest h1 h2 ih =>
    rw [List.cons_append, List.cons_append, literalLength, if_neg h1, if_neg h2] at h
    simp only [ih (by simpa using h), List.length_cons]
  | case6 c d rest h1 ih =>
    rw [List.cons_append, List.cons_append, literalLength, if_pos h1] at h
    simp only [List.length_cons] at h ⊢
    rw [ih (by omega)]
  | case7 c d rest h1 ih =>
    rw [List.cons_append, List.cons_append, literalLength, if_neg h1] at h
    simp only [ih (by simpa using h), List.length_cons]

theorem literalLength_eq_zero {b : Bool} {s : Text} :
    literalLength b s = 0 ↔ s = [] ∨ b = false ∧ ∃ r, s = '{' :: '%' :: r := by
  fun_cases literalLength b s <;> simp_all

/-- Literal text ends at the end of the text or, outside a comment, before a directive. -/
theorem literalLength_append_iff {b : Bool} {p t : Text} :
    literalLength b (p ++ t) = p.length ↔
      literalLength b p = p.length ∧
        (t = [] ∨ inComment b p = false ∧ ∃ r, t = '{' :: '%' :: r) := by
  constructor
  · intro h
    refine ⟨literalLength_of_append (Nat.le_of_eq h.symm), ?_⟩
    fun_induction literalLength b p with
    | case1 b => simpa [inComment] using literalLength_eq_zero.1 h
    | case2 b c =>
      cases t with
      | nil => exact Or.inl rfl
      | cons d t =>
        have h' : literalLength b (d :: t) = 0 := by
          rw [List.singleton_append, List.length_singleton] at h
          cases b <;> rw [literalLength] at h <;> split_ifs at h <;> omega
        simpa [inComment] using literalLength_eq_zero.1 h'
    | case3 c d rest h1 => simp [literalLength, h1] at h
    | case4 c d rest h1 h2 ih =>
      rw [inComment, if_pos h2]
      exact ih (by simpa [literalLength, h1, h2] using h)
    | case5 c d rest h1 h2 ih =>
      rw [inComment, if_neg h2]
      exact ih (by simpa [literalLength, if_neg h1, if_neg h2] using h)
    | case6 c d rest h1 ih =>
      rw [inComment, if_pos h1]
      exact ih (by simpa [literalLength, h1] using h)
    | case7 c d rest h1 ih =>
      rw [inComment, if_neg h1]
      exact ih (by simpa [literalLength, if_neg h1] using h)
  · rintro ⟨hp, rfl | ⟨hc, r, rfl⟩⟩
    · rw [List.append_nil, hp]
    · rw [literalLength_append hp (fun _ _ => by simp) (fun h => by rw [hc] at h; cases h), hc,
        literalLength_eq_zero.2 (Or.inr ⟨rfl, r, rfl⟩), Nat.add_zero]

end PageFields.Lexer
