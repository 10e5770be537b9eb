import PageFields.Proofs.Text.Bytes
import PageFields.Proofs.Token.Breaks
import PageFields.Proofs.Token.Plain

/-! # The search for a directive, one character at a time

Outside directives the lexer jumps from mark to mark. `stop?` reads the same stretch one character
at a time, over any alphabet, and stops at the mark of a directive. It stops at the same place in a
text and in its bytes (`bytesAgree`), so it does not matter which of the two is searched. Behind a
cut outside directives, where it stops a directive starts (`startsBehind_iff`), and a comment
without its end takes what is left (`eq_text_of_unterminated`). -/

namespace PageFields.Lexer

/-- The characters of the marks of directives and comments. -/
structure Marks (α : Type) where
  brace : α
  percent : α
  hash : α
  close : α

namespace Marks

/-- The marks of a text. -/
@[simps]
def chars : Marks Char := ⟨'{', '%', '#', '}'⟩

/-- The marks of a string of bytes. -/
@[simps]
def bytes : Marks UInt8 := ⟨0x7b, 0x25, 0x23, 0x7d⟩

variable {α β : Type}

/-- The marks in another alphabet. -/
@[simps]
def map (f : α → β) (m : Marks α) : Marks β := ⟨f m.brace, f m.percent, f m.hash, f m.close⟩

/-- The first character of the marks that count, in a comment or outside. -/
def start (m : Marks α) : Bool → α
  | false => m.brace
  | true => m.hash

theorem map_bytes : bytes.map Char.ofUInt8 = chars := rfl

end Marks

variable {α β : Type} [DecidableEq α] [DecidableEq β] {m : Marks α}

/-- The place where a reading stops that goes from the left, one character at a time. The first
argument says whether it starts in a comment. In text it stops at a mark that opens a directive, and
the mark of a comment takes it into one. In a comment only the mark that closes it counts. -/
def stop? (m : Marks α) : Bool → List α → Option Nat
  | _, [] => none
  | _, [_] => none
  | false, c :: d :: rest =>
    if c = m.brace ∧ d = m.percent then some 0
    else if c = m.brace ∧ d = m.hash then (stop? m true rest).map (· + 2)
    else (stop? m false (d :: rest)).map (· + 1)
  | true, c :: d :: rest =>
    if c = m.hash ∧ d = m.close then (stop? m false rest).map (· + 2)
    else (stop? m true (d :: rest)).map (· + 1)

/-! ### Characters and bytes -/

theorem stop?_map {f : α → β} (hf : Function.Injective f) (b : Bool) (s : List α) :
    stop? (m.map f) b (s.map f) = stop? m b s := by
  fun_induction stop? m b s with
  | case1 b => rfl
  | case2 b c => rfl
  | case3 c d rest h => simp only [List.map_cons, stop?, Marks.map_brace, Marks.map_percent,
      hf.eq_iff, if_pos h]
  | case4 c d rest h h' ih => simp only [List.map_cons, stop?, Marks.map_brace, Marks.map_percent,
      Marks.map_hash, hf.eq_iff, if_neg h, if_pos h', ih]
  | case5 c d rest h h' ih =>
    rw [List.map_cons, List.map_cons, stop?, ← List.map_cons, ih]
    simp only [Marks.map_brace, Marks.map_percent, Marks.map_hash, hf.eq_iff, if_neg h, if_neg h']
  | case6 c d rest h ih => simp only [List.map_cons, stop?, Marks.map_hash, Marks.map_close,
      hf.eq_iff, if_pos h, ih]
  | case7 c d rest h ih =>
    rw [List.map_cons, List.map_cons, stop?, ← List.map_cons, ih]
    simp only [Marks.map_hash, Marks.map_close, hf.eq_iff, if_neg h]

theorem getD_map_add (x : Option Nat) (n k : Nat) :
    (x.map (· + k)).getD (n + k) = x.getD n + k := by
  cases x <;> rfl

theorem literalLength_eq_stop? (b : Bool) (s : Text) :
    literalLength b s = (stop? .chars b s).getD s.length := by
  fun_induction literalLength b s with
  | case1 => rfl
  | case2 => rfl
  | case3 c d rest h =>
    rw [stop?, Marks.chars_brace, Marks.chars_percent, if_pos h]
    rfl
  | case4 c d rest h h' ih =>
    rw [stop?, Marks.chars_brace, Marks.chars_percent, Marks.chars_hash, if_neg h, if_pos h', ih]
    exact (getD_map_add _ _ 2).symm
  | case5 c d rest h h' ih =>
    rw [stop?, Marks.chars_brace, Marks.chars_percent, Marks.chars_hash, if_neg h, if_neg h', ih]
    exact (getD_map_add _ _ 1).symm
  | case6 c d rest h ih =>
    rw [stop?, Marks.chars_hash, Marks.chars_close, if_pos h, ih]
    exact (getD_map_add _ _ 2).symm
  | case7 c d rest h ih =>
    rw [stop?, Marks.chars_hash, Marks.chars_close, if_neg h, ih]
    exact (getD_map_add _ _ 1).symm

theorem stop?_lt {b : Bool} {s : List α} {i : Nat} (h : stop? m b s = some i) : i < s.length := by
  fun_induction stop? m b s generalizing i with
  | case1 => cases h
  | case2 => cases h
  | case3 c d rest =>
    cases h
    exact Nat.succ_pos _
  | case4 c d rest _ _ ih | case6 c d rest _ ih =>
    obtain ⟨j, hj, rfl⟩ := Option.map_eq_some_iff.1 h
    exact Nat.add_lt_add_right (ih hj) 2
  | case5 c d rest _ _ ih | case7 c d rest _ ih =>
    obtain ⟨j, hj, rfl⟩ := Option.map_eq_some_iff.1 h
    exact Nat.add_lt_add_right (ih hj) 1

theorem stop?_eq_none {b : Bool} {s : Text} :
    stop? .chars b s = none ↔ literalLength b s = s.length := by
  rw [literalLength_eq_stop?]
  cases h : stop? .chars b s with
  | none => simp
  | some i => simpa using Nat.ne_of_lt (stop?_lt h)

/-! ### Bytes -/

theorem stop?_cons_of_ne {b : Bool} {c : α} (h : c ≠ m.start b) (s : List α) :
    stop? m b (c :: s) = (stop? m b s).map (· + 1) := by
  cases s with
  | nil => cases b <;> rfl
  | cons d s =>
    cases b with
    | false => rw [stop?, if_neg fun h' => h h'.1, if_neg fun h' => h h'.1]
    | true => rw [stop?, if_neg fun h' => h h'.1]

theorem stop?_append_of_not_mem {b : Bool} {w : List α} (h : m.start b ∉ w) (s : List α) :
    stop? m b (w ++ s) = (stop? m b s).map (· + w.length) := by
  induction w with
  | nil => simp
  | cons c w ih =>
    rw [List.mem_cons, not_or] at h
    rw [List.cons_append, stop?_cons_of_ne (Ne.symm h.1), ih h.2, Option.map_map]
    rfl

theorem stop?_brace (s : List α) :
    stop? m false (m.brace :: s) =
      if s.head? = some m.percent then some 0
      else if s.head? = some m.hash then (stop? m true s.tail).map (· + 2)
      else (stop? m false s).map (· + 1) := by
  cases s <;> simp [stop?]

theorem stop?_hash (s : List α) :
    stop? m true (m.hash :: s) =
      if s.head? = some m.close then (stop? m false s.tail).map (· + 2)
      else (stop? m true s).map (· + 1) := by
  cases s <;> simp [stop?]

theorem map_length_bytes (x : Option Nat) (w t : Text) :
    (x.map (· + w.length)).map (fun i => (Text.bytes ((w ++ t).take i)).length) =
      (x.map fun i => (Text.bytes (t.take i)).length).map (· + (Text.bytes w).length) := by
  rw [Option.map_map, Option.map_map]
  refine congrArg (Option.map · x) (funext fun i => ?_)
  simp only [Function.comp_apply, List.take_append, Nat.add_sub_cancel, Text.bytes_append,
    List.length_append, List.take_of_length_le (Nat.le_add_left w.length i)]
  omega

/-- The reading of the bytes stops where the reading of the text stops. -/
def BytesAgree (b : Bool) (s : Text) : Prop :=
  stop? .bytes b (Text.bytes s) = (stop? .chars b s).map fun i => (Text.bytes (s.take i)).length

theorem BytesAgree.cons_of_ne {b : Bool} {c : Char} {s : Text} (hc : c ≠ Marks.chars.start b)
    (h : BytesAgree b s) : BytesAgree b (c :: s) := by
  have hmem : Marks.bytes.start b ∉ String.utf8EncodeChar c := fun hmem => hc <| by
    cases b with
    | false => exact Text.eq_of_mem_encode (by decide) hmem
    | true => exact Text.eq_of_mem_encode (by decide) hmem
  have hlater := map_length_bytes (stop? .chars b s) [c] s
  rw [Text.bytes_cons, Text.bytes_nil, List.append_nil] at hlater
  rw [BytesAgree, Text.bytes_cons, stop?_append_of_not_mem hmem, stop?_cons_of_ne hc, h]
  exact hlater.symm

theorem BytesAgree.brace {s : Text} (h : BytesAgree false s)
    (hcomment : ∀ t, s = '#' :: t → BytesAgree true t) : BytesAgree false ('{' :: s) := by
  have hpercent : (Text.bytes s).head? = some Marks.bytes.percent ↔
    s.head? = some Marks.chars.percent := Text.head?_bytes (by decide) s
  have hhash : (Text.bytes s).head? = some Marks.bytes.hash ↔
    s.head? = some Marks.chars.hash := Text.head?_bytes (by decide) s
  have hbytes : Text.bytes ('{' :: s) = Marks.bytes.brace :: Text.bytes s :=
    Text.bytes_ofUInt8_cons (x := 0x7b) (by decide) s
  rw [BytesAgree, hbytes, ← Marks.chars_brace, stop?_brace, stop?_brace]
  simp only [hpercent, hhash]
  split_ifs with h1 h2
  · rfl
  · obtain ⟨t, rfl⟩ := List.head?_eq_some_iff.1 h2
    rw [show Text.bytes (Marks.chars.hash :: t) = Marks.bytes.hash :: Text.bytes t from
      Text.bytes_ofUInt8_cons (x := 0x23) (by decide) t, List.tail_cons, List.tail_cons,
      hcomment t rfl]
    exact (map_length_bytes _ ['{', '#'] t).symm
  · rw [h]
    exact (map_length_bytes _ ['{'] s).symm

theorem BytesAgree.hash {s : Text} (h : BytesAgree true s)
    (htext : ∀ t, s = '}' :: t → BytesAgree false t) : BytesAgree true ('#' :: s) := by
  have hclose : (Text.bytes s).head? = some Marks.bytes.close ↔
    s.head? = some Marks.chars.close := Text.head?_bytes (by decide) s
  have hbytes : Text.bytes ('#' :: s) = Marks.bytes.hash :: Text.bytes s :=
    Text.bytes_ofUInt8_cons (x := 0x23) (by decide) s
  rw [BytesAgree, hbytes, ← Marks.chars_hash, stop?_hash, stop?_hash]
  simp only [hclose]
  split_ifs with h1
  · obtain ⟨t, rfl⟩ := List.head?_eq_some_iff.1 h1
    rw [show Text.bytes (Marks.chars.close :: t) = Marks.bytes.close :: Text.bytes t from
      Text.bytes_ofUInt8_cons (x := 0x7d) (by decide) t, List.tail_cons, List.tail_cons,
      htext t rfl]
    exact (map_length_bytes _ ['#', '}'] t).symm
  · rw [h]
    exact (map_length_bytes _ ['#'] s).symm

/-- **The reading of the bytes of a text** stops where the reading of the text stops. -/
theorem bytesAgree (b : Bool) (s : Text) : BytesAgree b s := by
  induction hn : s.length using Nat.strongRecOn generalizing b s with
  | ind n ih =>
    subst hn
    cases s with
    | nil => cases b <;> rfl
    | cons c s =>
      have hnext := ih s.length (by simp) b s rfl
      have hlater : ∀ (b : Bool) (d : Char) t, s = d :: t → BytesAgree b t := by
        rintro b d t rfl
        exact ih t.length (by simp only [List.length_cons]; omega) b t rfl
      by_cases hc : c = Marks.chars.start b
      · subst hc
        cases b with
        | false => exact hnext.brace (hlater true '#')
        | true => exact hnext.hash (hlater false '}')
      · exact hnext.cons_of_ne hc

/-! ### The tokens behind a cut -/

theorem kind_of_mark (v : Text) : (nextOutside ('{' :: '%' :: v)).kind = .directiveOpen := by
  rw [nextOutside.eq_def]
  split
  · rfl
  · rfl
  · rfl
  · rename_i h
    exact absurd rfl (h v)

theorem exists_lexemes_of_mark (v : Text) :
    ∃ l ls, lexemes .text ('{' :: '%' :: v) = l :: ls ∧ l.kind = .directiveOpen :=
  ⟨_, _, lexemes_cons _ _ _, kind_of_mark v⟩

theorem lexemes_of_literal {s : Text} (h : 0 < literalLength false s) :
    lexemes .text s = ⟨.text, s.take (literalLength false s)⟩ ::
      lexemes .text (s.drop (literalLength false s)) := by
  cases s with
  | nil => exact absurd h (by decide)
  | cons c s =>
    rw [lexemes_cons, next, nextOutside_of_literal h]

end PageFields.Lexer

namespace PageFields

open Lexer Segment

/-- The last token, if there is one, ends outside directives. -/
def EndOutside (ts : List Token) : Prop :=
  ∀ t ∈ ts.getLast?, t.kind = .directiveClose ∨ t.kind = .text

/-- Among the tokens a directive starts behind the text `u`. -/
def StartsBehind (u : Text) (ts : List Token) : Prop :=
  ∃ front opening back, ts = front ++ opening :: back ∧ opening.kind = .directiveOpen ∧
    front.flatMap Token.value = u

variable {s u v : Text} {before rest : List Token}

/-- Behind a cut outside directives stand the tokens of the text behind it. -/
theorem exists_number_of_cut (h : tokenize s = before ++ rest) (hb : EndOutside before) :
    ∃ line, rest = number line (lexemes .text (rest.flatMap Token.value)) := by
  obtain ⟨la, lb, hls, rfl, rfl⟩ := number_eq_append h
  have hr := reads_lexemes .text s
  rw [hls] at hr
  have hm : endMode .text la = .text := by
    cases hlast : la.getLast? with
    | none => rw [List.getLast?_eq_none_iff.1 hlast]; rfl
    | some l =>
      obtain ⟨la, rfl⟩ := List.getLast?_eq_some_iff.1 hlast
      rw [number_append] at hb
      rw [endMode_append, endMode, endMode]
      rcases hb _ List.getLast?_concat with hk | hk
      · rw [show l.kind = _ from hk]; rfl
      · rw [show l.kind = _ from hk]; rfl
  have hrb := (reads_append.1 hr).2
  rw [hm] at hrb
  refine ⟨1 + Text.lineFeeds (Lexer.source la), ?_⟩
  rw [flatMap_value_number]
  exact congrArg _ hrb.lexemes_source.symm

theorem not_startsBehind_of_lt {line : Nat} (h : u.length < literalLength false s) :
    ¬ StartsBehind u (number line (lexemes .text s)) := by
  rw [lexemes_of_literal (Nat.zero_lt_of_lt h), number]
  rintro ⟨front, opening, back, hfront, hopening, hu⟩
  cases front with
  | nil =>
    rw [← (List.cons.inj hfront).1] at hopening
    cases hopening
  | cons t front =>
    have hlen : (s.take (literalLength false s)).length ≤ u.length := by
      rw [← hu, List.flatMap_cons, List.length_append, ← (List.cons.inj hfront).1]
      exact Nat.le_add_right _ _
    rw [List.length_take, Nat.min_eq_left (literalLength_le false s)] at hlen
    omega

/-- **A mark met in text** starts a directive exactly when it is not in a comment. -/
theorem startsBehind_iff (h : tokenize s = before ++ rest) (hb : EndOutside before)
    (hu : stop? .chars false u = none) (hrest : rest.flatMap Token.value = u ++ '{' :: '%' :: v) :
    StartsBehind u rest ↔ inComment false u = false := by
  obtain ⟨line, hnumber⟩ := exists_number_of_cut h hb
  rw [hrest] at hnumber
  have hlen : literalLength false (u ++ '{' :: '%' :: v) =
      u.length + literalLength (inComment false u) ('{' :: '%' :: v) :=
    literalLength_append (stop?_eq_none.1 hu) (fun _ _ => by simp) fun _ _ => by simp
  obtain ⟨l, ls, hls, hkind⟩ := exists_lexemes_of_mark v
  constructor
  · rw [hnumber]
    refine fun hstarts => Bool.eq_false_iff.2 fun hc => ?_
    -- the literal takes the mark along
    refine not_startsBehind_of_lt ?_ hstarts
    rw [hlen, hc, literalLength_true_cons, if_neg (by simp)]
    omega
  · intro hc
    rw [hc, literalLength_eq_zero.2 (.inr ⟨rfl, v, rfl⟩), Nat.add_zero] at hlen
    cases u with
    | nil =>
      rw [List.nil_append, hls, number] at hnumber
      exact ⟨[], _, _, hnumber, hkind, rfl⟩
    | cons c u =>
      rw [lexemes_of_literal (by rw [hlen]; exact Nat.succ_pos _), hlen, List.take_left,
        List.drop_left, hls, number, number] at hnumber
      exact ⟨[_], _, _, hnumber, hkind, List.append_nil _⟩

theorem findPair_eq_none {a b : Char} {s : Text} (h : ¬ [a, b] <:+: s) : findPair a b s = none := by
  fun_induction findPair a b s with
  | case1 => rfl
  | case2 => rfl
  | case3 c d rest hcd =>
    obtain ⟨rfl, rfl⟩ := hcd
    exact absurd (List.prefix_append [c, d] rest).isInfix h
  | case4 c d rest hcd ih =>
    rw [ih fun h' => h (h'.trans (List.suffix_cons c _).isInfix)]
    rfl

/-- **A comment without its end** takes the rest of the text, in one token. -/
theorem eq_text_of_unterminated (h : tokenize s = before ++ rest) (hb : EndOutside before)
    (hu : stop? .chars false u = none) (hc : inComment false u = false)
    (hrest : rest.flatMap Token.value = u ++ '{' :: '#' :: v) (hv : ¬ ['#', '}'] <:+: v) :
    ∃ t, rest = [t] ∧ t.kind = .text := by
  obtain ⟨line, hnumber⟩ := exists_number_of_cut h hb
  have hlen : literalLength false (u ++ '{' :: '#' :: v) =
      u.length + literalLength (inComment false u) ('{' :: '#' :: v) :=
    literalLength_append (stop?_eq_none.1 hu) (fun _ _ => by simp) fun _ _ => by simp
  have hmark : literalLength false ('{' :: '#' :: v) = literalLength true v + 2 := by
    simp [literalLength]
  have hall : literalLength false (u ++ '{' :: '#' :: v) = (u ++ '{' :: '#' :: v).length := by
    rw [hlen, hc, hmark, literalLength_true_of_none (findPair_eq_none hv)]
    simp
  rw [hrest, lexemes_of_literal (by rw [hlen, hc, hmark]; omega), hall, List.drop_length,
    lexemes_nil, number, number] at hnumber
  exact ⟨_, hnumber, rfl⟩

/-- **The search for a directive** is the reading from the left, one byte at a time: it gives the
place where the reading stops, or the length if it does not stop. This holds of any bytes, read as
the characters with their codes, and of the bytes of any text. Hence, behind a cut outside
directives, a mark that the reading meets starts a directive exactly when it is not in a comment,
and a comment without its end takes the rest of the text, in one token. Inside directives the
characters that open a comment are plain, and plain ones have no effect: with others in their place,
the tokens are the same but for these characters. -/
theorem directiveStart_stepwise :
    (∀ h : List UInt8, directiveStart (h.map Char.ofUInt8) =
      (stop? .bytes false h).getD h.length) ∧
    (∀ s : Text, (Text.bytes (s.take (directiveStart s))).length =
      (stop? .bytes false (Text.bytes s)).getD (Text.bytes s).length) ∧
    (∀ (s : Text) (before rest : List Token), tokenize s = before ++ rest → EndOutside before →
      ∀ u v : Text, stop? .chars false u = none →
        (rest.flatMap Token.value = u ++ '{' :: '%' :: v →
          (StartsBehind u rest ↔ inComment false u = false)) ∧
        (rest.flatMap Token.value = u ++ '{' :: '#' :: v → inComment false u = false →
          ¬ ['#', '}'] <:+: v → ∃ t, rest = [t] ∧ t.kind = .text)) ∧
    (IsPlain '{' ∧ IsPlain '#') ∧
    ∀ (s : Text) (before inner inner' after : List Token) (opening : Token),
      tokenize s = before ++ opening :: (inner ++ after) → opening.kind = .directiveOpen →
      (∀ t ∈ inner, t.kind ≠ .directiveClose) → List.Forall₂ Token.Alike inner inner' →
        tokenize ((before ++ opening :: (inner' ++ after)).flatMap Token.value) =
          before ++ opening :: (inner' ++ after) := by
  refine ⟨fun h => ?_, fun s => ?_, fun s before rest hs hb u v hu => ?_, isPlain_mark, ?_⟩
  · rw [directiveStart_eq, literalLength_eq_stop?, ← Marks.map_bytes,
      stop?_map Text.ofUInt8_injective, List.length_map]
  · rw [bytesAgree false s, directiveStart_eq, literalLength_eq_stop?]
    cases stop? .chars false s with
    | none => simp
    | some i => rfl
  · exact ⟨startsBehind_iff hs hb hu, fun hrest hc => eq_text_of_unterminated hs hb hu hc hrest⟩
  · exact fun _ _ _ _ _ _ => tokenize_of_alike

/-- The same for a text with a mark in a comment, the mark of a comment in a directive and a comment
without its end. -/
theorem directiveStart_stepwise_comments :
    let s := "\x7b# \x7b% #\x7d\x7b%\x7b#%\x7d\x7b#\x7b%".toList
    let ts := tokenize s
    ¬ StartsBehind "\x7b# ".toList ts ∧ StartsBehind "\x7b# \x7b% #\x7d".toList ts ∧
      (∃ t, ts.drop 5 = [t] ∧ t.kind = .text) ∧
      tokenize "\x7b# \x7b% #\x7d\x7b%!#%\x7d\x7b#\x7b%".toList = ts.set 2 ⟨1, .other, ['!']⟩ := by
  intro s ts
  obtain ⟨-, -, hcut, -, hplain⟩ := directiveStart_stepwise
  have hwhole := hcut s [] ts rfl nofun
  have hclosed : EndOutside (ts.take 5) := by
    unfold EndOutside
    decide +kernel
  have hrest := hcut s (ts.take 5) (ts.drop 5) (List.take_append_drop 5 ts).symm hclosed []
    "\x7b%".toList rfl
  have hother := hplain s (ts.take 1) [⟨1, .other, ['{']⟩] [⟨1, .other, ['!']⟩] (ts.drop 3)
    ⟨1, .directiveOpen, ['{', '%']⟩ (by decide +kernel) rfl (by simp)
    (.cons ⟨rfl, rfl, .cons (.inr ⟨isPlain_mark.1, rfl, rfl, by decide⟩) .nil⟩ .nil)
  refine ⟨?_, ?_, hrest.2 (by decide +kernel) rfl (by decide), ?_⟩
  · rw [(hwhole "\x7b# ".toList " #\x7d\x7b%\x7b#%\x7d\x7b#\x7b%".toList rfl).1 (by decide +kernel)]
    decide
  · exact ((hwhole "\x7b# \x7b% #\x7d".toList "\x7b#%\x7d\x7b#\x7b%".toList rfl).1
      (by decide +kernel)).2 rfl
  · have hset : ts.set 2 ⟨1, .other, ['!']⟩ = ts.take 1 ++
      ⟨1, .directiveOpen, ['{', '%']⟩ :: ([⟨1, .other, ['!']⟩] ++ ts.drop 3) := by decide +kernel
    rw [hset, ← hother]
    exact congrArg tokenize (by decide +kernel)

end PageFields
