import Mathlib.Data.List.Forall2
import PageFields.Proofs.Token.Stream

/-! # Plain characters in directives

Most characters mean nothing to the lexer inside a directive (`IsPlain`): outside of strings each
is a piece of its own, and in a string it is one character more. Both `{` and `#` are among them, of
which the mark of a comment is made. When plain characters are written in place of other plain ones
(`Alike`), strings end where they ended (`rel_quotedRest?`), and the lexer takes the same pieces
with the other characters in them (`Reads.alike`). -/

namespace PageFields

namespace Lexer

/-- The characters that delimit a string or the end of a directive, and the one that escapes in a
string. -/
def reserved : Text := ['"', '\x27', '\\', '%', '\x7d', '-', '+']

/-- Inside a directive the character is no space, stands in no name and belongs to no delimiter. -/
def IsPlain (c : Char) : Prop := isSpace c = false ∧ isNameRest c = false ∧ c ∉ reserved

/-- The two characters are the same, or both are plain. -/
def Alike (c d : Char) : Prop := c = d ∨ IsPlain c ∧ IsPlain d

variable {c d q : Char} {s s' t t' u u' v v' : Text} {l l' : Lexeme} {ls ls' : List Lexeme}

theorem isPlain_mark : IsPlain '{' ∧ IsPlain '#' :=
  ⟨⟨rfl, rfl, by decide⟩, rfl, rfl, by decide⟩

theorem Alike.refl (c : Char) : Alike c c := .inl rfl

theorem IsPlain.not_isNameStart (h : IsPlain c) : isNameStart c = false := by
  have hrest := h.2.1
  simp only [isNameRest, isNameStart, Char.isAlphanum, Bool.or_eq_false_iff] at hrest ⊢
  exact ⟨hrest.1.1, hrest.2⟩

theorem not_isPlain_of_mem (h : c ∈ reserved) : ¬ IsPlain c := fun hc => hc.2.2 h

theorem not_isPlain_of_isSpace (h : isSpace c = true) : ¬ IsPlain c := fun hc => by
  rw [hc.1] at h
  cases h

theorem not_isPlain_of_isNameRest (h : isNameRest c = true) : ¬ IsPlain c := fun hc => by
  rw [hc.2.1] at h
  cases h

theorem not_isPlain_of_isNameStart (h : isNameStart c = true) : ¬ IsPlain c := fun hc => by
  rw [hc.not_isNameStart] at h
  cases h

theorem not_isPlain_of_isQuote (h : IsQuote c) : ¬ IsPlain c := by
  rcases h with rfl | rfl
  · exact not_isPlain_of_mem (by decide)
  · exact not_isPlain_of_mem (by decide)

theorem Alike.eq_iff (h : Alike c d) {e : Char} (he : ¬ IsPlain e) : d = e ↔ c = e := by
  rcases h with rfl | ⟨hc, hd⟩
  · rfl
  · refine ⟨?_, ?_⟩
    · rintro rfl
      exact absurd hd he
    · rintro rfl
      exact absurd hc he

theorem Alike.eq_of_not (h : Alike c d) (hc : ¬ IsPlain c) : d = c := (h.eq_iff hc).2 rfl

theorem Alike.isSpace_eq (h : Alike c d) : isSpace d = isSpace c := by
  rcases h with rfl | ⟨hc, hd⟩
  · rfl
  · rw [hc.1, hd.1]

theorem Alike.isNameRest_eq (h : Alike c d) : isNameRest d = isNameRest c := by
  rcases h with rfl | ⟨hc, hd⟩
  · rfl
  · rw [hc.2.1, hd.2.1]

theorem Alike.isNameStart_eq (h : Alike c d) : isNameStart d = isNameStart c := by
  rcases h with rfl | ⟨hc, hd⟩
  · rfl
  · rw [hc.not_isNameStart, hd.not_isNameStart]

/-! ### Texts -/

theorem forall₂_alike_refl (t : Text) : List.Forall₂ Alike t t :=
  List.forall₂_same.2 fun c _ => Alike.refl c

theorem eq_of_alike (h : List.Forall₂ Alike v v') (hv : ∀ c ∈ v, ¬ IsPlain c) : v' = v := by
  induction h with
  | nil => rfl
  | cons hc _ ih =>
    rw [List.forall_mem_cons] at hv
    rw [hc.eq_of_not hv.1, ih hv.2]

theorem lineFeeds_of_alike (h : List.Forall₂ Alike v v') :
    Text.lineFeeds v' = Text.lineFeeds v := by
  unfold Text.lineFeeds
  induction h with
  | nil => rfl
  | @cons c d _ _ hc _ ih =>
    have hfeed : d = '\n' ↔ c = '\n' := hc.eq_iff (not_isPlain_of_isSpace rfl)
    simp only [List.count_cons, ih, beq_iff_eq, hfeed]

theorem exists_head?_of_alike (h : List.Forall₂ Alike t t') (hd : d ∈ t'.head?) :
    ∃ c ∈ t.head?, Alike c d := by
  cases h with
  | nil => cases hd
  | cons hc _ =>
    obtain rfl := Option.some.inj hd
    exact ⟨_, rfl, hc⟩

theorem head?_ne_of_alike (h : List.Forall₂ Alike t t') (hd : ¬ IsPlain d)
    (ht : t.head? ≠ some d) : t'.head? ≠ some d := by
  intro hhead
  obtain ⟨c, hc, halike⟩ := exists_head?_of_alike h hhead
  rw [(halike.eq_iff hd).1 rfl] at hc
  exact ht hc

theorem take_two_ne_of_alike (h : List.Forall₂ Alike t t') (hc : ¬ IsPlain c) (hd : ¬ IsPlain d)
    (ht : t.take 2 ≠ [c, d]) : t'.take 2 ≠ [c, d] := by
  intro htake
  have hkept : ∀ x ∈ t'.take 2, ¬ IsPlain x := by
    rw [htake]
    simpa using ⟨hc, hd⟩
  have halike : List.Forall₂ Alike (t'.take 2) (t.take 2) :=
    (List.forall₂_take 2 h).flip.imp fun _ _ => Or.imp Eq.symm And.symm
  rw [eq_of_alike halike hkept] at ht
  exact ht htake

theorem rel_map {α β α' β' : Type} {r : α → β → Prop} {r' : α' → β' → Prop} {f : α → α'}
    {g : β → β'} {x : Option α} {y : Option β} (h : Option.Rel r x y)
    (hfg : ∀ a b, r a b → r' (f a) (g b)) : Option.Rel r' (x.map f) (y.map g) := by
  cases h with
  | none => exact .none
  | some hab => exact .some (hfg _ _ hab)

/-- **Strings end at the same place.** -/
theorem rel_quotedRest? (hq : IsQuote q) (h : List.Forall₂ Alike s s') :
    Option.Rel (fun x y => List.Forall₂ Alike x.1 y.1 ∧ List.Forall₂ Alike x.2 y.2)
      (quotedRest? q s) (quotedRest? q s') := by
  have hqb : q ≠ '\\' := by rcases hq with rfl | rfl <;> decide
  have hslash : ¬ IsPlain '\\' := not_isPlain_of_mem (by decide)
  have hfeed : ¬ IsPlain '\n' := not_isPlain_of_isSpace rfl
  fun_induction quotedRest? q s generalizing s' with
  | case1 =>
    cases h
    exact .none
  | case2 rest =>
    cases h with
    | cons hc hrest =>
      rw [hc.eq_of_not (not_isPlain_of_isQuote hq), quotedRest?_close]
      exact .some ⟨.cons (.refl _) .nil, hrest⟩
  | case3 =>
    cases h with
    | cons hc hrest =>
      cases hrest
      rw [hc.eq_of_not hslash, quotedRest?.eq_def]
      simp [hqb.symm]
  | case4 rest =>
    cases h with
    | cons hc hrest =>
      cases hrest with
      | cons hd hrest =>
        rw [hc.eq_of_not hslash, hd.eq_of_not hfeed, quotedRest?.eq_def]
        simp [hqb.symm]
  | case5 rest d hd _ ih =>
    cases h with
    | cons hc hrest =>
      cases hrest with
      | @cons _ d' _ _ hdd' hrest =>
        have hd' : d' ≠ '\n' := fun h => hd ((hdd'.eq_iff hfeed).1 h)
        rw [hc.eq_of_not hslash, quotedRest?_escape hqb hd']
        exact rel_map (ih hrest) fun x y hxy => ⟨.cons (.refl _) (.cons hdd' hxy.1), hxy.2⟩
  | case6 c rest hcq hcb ih =>
    cases h with
    | @cons _ c' _ _ hc hrest =>
      have hcq' : c' ≠ q := fun h => hcq ((hc.eq_iff (not_isPlain_of_isQuote hq)).1 h)
      have hcb' : c' ≠ '\\' := fun h => hcb ((hc.eq_iff hslash).1 h)
      rw [quotedRest?_plain hcq' hcb']
      exact rel_map (ih hrest) fun x y hxy => ⟨.cons hc hxy.1, hxy.2⟩

theorem quotedRest?_alike_none (hq : IsQuote q) (h : List.Forall₂ Alike s s')
    (hs : quotedRest? q s = none) : quotedRest? q s' = none := by
  have hrel := rel_quotedRest? hq h
  cases hy : quotedRest? q s' with
  | none => rfl
  | some y =>
    rw [hs, hy] at hrel
    cases hrel

theorem quotedRest?_alike_self (hq : IsQuote q) (h : List.Forall₂ Alike s s')
    (hs : quotedRest? q s = some (s, [])) : quotedRest? q s' = some (s', []) := by
  have hrel := rel_quotedRest? hq h
  rw [hs] at hrel
  cases hy : quotedRest? q s' with
  | none =>
    rw [hy] at hrel
    cases hrel
  | some y =>
    obtain ⟨v, a⟩ := y
    rw [hy] at hrel
    cases hrel with
    | some hva =>
      obtain rfl : a = [] := List.forall₂_nil_left_iff.1 hva.2
      rw [← (quotedRest?_append hy).trans (List.append_nil v)]

/-! ### Pieces -/

/-- A piece of the same kind with an alike text. -/
def Lexeme.Alike (l l' : Lexeme) : Prop :=
  l'.kind = l.kind ∧ List.Forall₂ Lexer.Alike l.value l'.value

theorem shape_alike (h : Shape .directive l) (hc : l.kind ≠ .directiveClose)
    (hl : l.Alike l') : Shape .directive l' := by
  obtain ⟨kind, v⟩ := l
  obtain ⟨kind', v'⟩ := l'
  obtain ⟨rfl, hv⟩ : kind' = kind ∧ List.Forall₂ Lexer.Alike v v' := hl
  match kind', h with
  | .directiveClose, _ => exact absurd rfl hc
  | .whitespace, h =>
    rw [eq_of_alike hv fun c hc => not_isPlain_of_isSpace (h.2 c hc)]
    exact h
  | .name, ⟨c, cs, hvalue, hstart, hrest⟩ =>
    obtain rfl : v = c :: cs := hvalue
    rw [eq_of_alike hv (List.forall_mem_cons.2 ⟨not_isPlain_of_isNameStart hstart,
      fun d hd => not_isPlain_of_isNameRest (hrest d hd)⟩)]
    exact ⟨c, cs, rfl, hstart, hrest⟩
  | .string, ⟨q, cs, hvalue, hq, hs⟩ =>
    obtain rfl : v = q :: cs := hvalue
    obtain ⟨q', cs', hqq', hcs, rfl⟩ := List.forall₂_cons_left_iff.1 hv
    obtain rfl : q' = q := hqq'.eq_of_not (not_isPlain_of_isQuote hq)
    exact ⟨q', cs', rfl, hq, quotedRest?_alike_self hq hcs hs⟩
  | .other, ⟨c, hvalue, hspace, hname⟩ =>
    obtain rfl : v = [c] := hvalue
    obtain ⟨c', cs', hcc', hcs, rfl⟩ := List.forall₂_cons_left_iff.1 hv
    obtain rfl : cs' = [] := List.forall₂_nil_left_iff.1 hcs
    exact ⟨c', rfl, hcc'.isSpace_eq.trans hspace, hcc'.isNameStart_eq.trans hname⟩

theorem endsBefore_alike (hs : Shape .directive l) (h : EndsBefore l t) (hl : l.Alike l')
    (ht : List.Forall₂ Lexer.Alike t t') : EndsBefore l' t' := by
  obtain ⟨kind, v⟩ := l
  obtain ⟨kind', v'⟩ := l'
  obtain ⟨rfl, hv⟩ : kind' = kind ∧ List.Forall₂ Lexer.Alike v v' := hl
  have single : ∀ {d : Char}, ¬ IsPlain d → v' = [d] → v = [d] := by
    rintro d hd rfl
    refine eq_of_alike (hv.flip.imp fun _ _ => Or.imp Eq.symm And.symm) ?_
    simpa using hd
  match kind', hs, h with
  | .directiveClose, _, _ => trivial
  | .string, _, _ => trivial
  | .whitespace, _, h =>
    intro d hd
    obtain ⟨c, hc, hcd⟩ := exists_head?_of_alike ht hd
    rw [hcd.isSpace_eq, h c hc]
  | .name, _, h =>
    intro d hd
    obtain ⟨c, hc, hcd⟩ := exists_head?_of_alike ht hd
    rw [hcd.isNameRest_eq, h c hc]
  | .other, _, ⟨hclose, hmark, hquote⟩ =>
    have hpercent : ¬ IsPlain '%' := not_isPlain_of_mem (by decide)
    have hbrace : ¬ IsPlain '}' := not_isPlain_of_mem (by decide)
    have hminus : ¬ IsPlain '-' := not_isPlain_of_mem (by decide)
    have hplus : ¬ IsPlain '+' := not_isPlain_of_mem (by decide)
    refine ⟨fun hv' => ?_, fun hv' => ?_, fun q hq hv' => ?_⟩
    · exact head?_ne_of_alike ht hbrace (hclose (single hpercent hv'))
    · refine take_two_ne_of_alike ht hpercent hbrace (hmark ?_)
      exact hv'.imp (single hminus) (single hplus)
    · exact quotedRest?_alike_none hq ht (hquote q hq (single (not_isPlain_of_isQuote hq) hv'))

/-! ### Readings -/

theorem source_alike (h : List.Forall₂ Lexeme.Alike ls ls') (t : Text) :
    List.Forall₂ Lexer.Alike (source ls ++ t) (source ls' ++ t) := by
  induction h with
  | nil => exact forall₂_alike_refl t
  | cons hl _ ih =>
    rw [source_cons, source_cons, List.append_assoc, List.append_assoc]
    exact List.rel_append hl.2 ih

theorem kind_ne_of_alike {kind : TokenKind} (h : List.Forall₂ Lexeme.Alike ls ls')
    (hk : ∀ l ∈ ls, l.kind ≠ kind) : ∀ l ∈ ls', l.kind ≠ kind := by
  induction h with
  | nil => exact nofun
  | cons hl _ ih =>
    rw [List.forall_mem_cons] at hk
    exact List.forall_mem_cons.2 ⟨by rw [hl.1]; exact hk.1, ih hk.2⟩

/-- **What stands inside a directive** is read in the same way with other plain characters. -/
theorem Reads.alike (h : Reads .directive ls t) (hc : ∀ l ∈ ls, l.kind ≠ .directiveClose)
    (hls : List.Forall₂ Lexeme.Alike ls ls') : Reads .directive ls' t := by
  induction hls with
  | nil => trivial
  | cons hl hls ih =>
    obtain ⟨hs, he, hr⟩ := h
    rw [List.forall_mem_cons] at hc
    have hm : ∀ {l : Lexeme}, Shape .directive l → l.kind ≠ .directiveClose →
      modeAfter l.kind = .directive := fun hs hc => (Segment.isInner_of_shape hs hc 1).1
    rw [hm hs hc.1] at hr
    refine ⟨shape_alike hs hc.1 hl, endsBefore_alike hs he hl (source_alike hls t), ?_⟩
    rw [hl.1, hm hs hc.1]
    exact ih hr hc.2

theorem Reads.before_alike (h : Reads .text ls t) (hm : endMode .text ls = .text)
    (ht : List.Forall₂ Lexer.Alike t t') (htake : t'.take 2 = t.take 2) : Reads .text ls t' := by
  refine h.before hm (fun l hl => ?_) fun l _ _ q s hq => ?_
  · obtain ⟨ls, rfl⟩ := List.getLast?_eq_some_iff.1 hl
    exact endsBefore_congr h.shape_last.2 htake fun _ q hq => quotedRest?_alike_none hq ht
  · exact quotedRest?_alike_none hq (List.rel_append (forall₂_alike_refl s) ht)

theorem endMode_of_open {v : Text} (h : Shape (endMode .text ls) ⟨.directiveOpen, v⟩) :
    endMode .text ls = .text ∧ 2 ≤ v.length := by
  cases hm : endMode .text ls with
  | text =>
    rw [hm] at h
    refine ⟨rfl, ?_⟩
    rcases h with hv | hv | hv <;> obtain rfl : v = _ := hv <;> decide
  | directive =>
    rw [hm] at h
    exact h.elim

/-- With other plain characters in a directive, the pieces of a text are read alike. -/
theorem reads_alike {la lb : List Lexeme} {v : Text} (hc : ∀ l ∈ ls, l.kind ≠ .directiveClose)
    (hls : List.Forall₂ Lexeme.Alike ls ls')
    (h : Reads .text (la ++ ⟨.directiveOpen, v⟩ :: (ls ++ lb)) t) :
    Reads .text (la ++ ⟨.directiveOpen, v⟩ :: (ls' ++ lb)) t := by
  obtain ⟨hra, hshape, hends, hr⟩ := reads_append.1 h
  obtain ⟨hri, hrb⟩ := reads_append.1 hr
  obtain ⟨hm, hlen⟩ := endMode_of_open hshape
  have hri' := Reads.alike hri hc hls
  have hc' := kind_ne_of_alike hls hc
  have hinner : List.Forall₂ Lexer.Alike (source (ls ++ lb) ++ t) (source (ls' ++ lb) ++ t) := by
    rw [source_append, source_append, List.append_assoc, List.append_assoc]
    exact source_alike hls _
  refine reads_append.2 ⟨hra.before_alike hm ?_ ?_, hshape, ?_, reads_append.2 ⟨hri', ?_⟩⟩
  · rw [source_cons, source_cons, List.append_assoc, List.append_assoc]
    exact List.rel_append (forall₂_alike_refl v) hinner
  · rw [source_cons, source_cons, List.append_assoc, List.append_assoc,
      List.take_append_of_le_length hlen, List.take_append_of_le_length hlen]
  · intro hv
    exact (hends hv).imp (head?_ne_of_alike hinner (not_isPlain_of_mem (by decide)))
      (head?_ne_of_alike hinner (not_isPlain_of_mem (by decide)))
  · rw [show modeAfter .directiveOpen = .directive from rfl] at hrb ⊢
    rw [Segment.endMode_directive hri' hc']
    rwa [Segment.endMode_directive hri hc] at hrb

end Lexer

/-- The token has the same place and kind, and in its text at most plain characters are others. -/
def Token.Alike (t t' : Token) : Prop :=
  t'.line = t.line ∧ t'.kind = t.kind ∧ List.Forall₂ Lexer.Alike t.value t'.value

open Lexer Segment

theorem number_of_alike {line : Nat} {ls : List Lexeme} {ts ts' : List Token}
    (h : number line ls = ts) (hts : List.Forall₂ Token.Alike ts ts') :
    ∃ ls', List.Forall₂ Lexeme.Alike ls ls' ∧ number line ls' = ts' ∧
      Text.lineFeeds (Lexer.source ls') = Text.lineFeeds (Lexer.source ls) := by
  induction ls generalizing line ts ts' with
  | nil =>
    subst h
    obtain rfl : ts' = [] := List.forall₂_nil_left_iff.1 hts
    exact ⟨[], .nil, rfl, rfl⟩
  | cons l ls ih =>
    subst h
    obtain ⟨⟨line', kind, v⟩, ts', ht, hts', rfl⟩ := List.forall₂_cons_left_iff.1 hts
    obtain ⟨rfl, rfl, hv⟩ : line' = line ∧ kind = l.kind ∧ List.Forall₂ Lexer.Alike l.value v := ht
    obtain ⟨ls', hls, hnumber, hfeeds⟩ := ih rfl hts'
    refine ⟨⟨l.kind, v⟩ :: ls', .cons ⟨rfl, hv⟩ hls, ?_, ?_⟩
    · rw [number, lineFeeds_of_alike hv, hnumber]
    · rw [source_cons, source_cons, Text.lineFeeds_append, Text.lineFeeds_append, hfeeds,
        lineFeeds_of_alike hv]

/-- **Plain characters inside a directive have no effect**: with others in their place, the tokens
of the text are the same but for these characters. -/
theorem tokenize_of_alike {s : Text} {before inner inner' after : List Token} {opening : Token}
    (h : tokenize s = before ++ opening :: (inner ++ after)) (ho : opening.kind = .directiveOpen)
    (hinner : ∀ t ∈ inner, t.kind ≠ .directiveClose)
    (halike : List.Forall₂ Token.Alike inner inner') :
    tokenize ((before ++ opening :: (inner' ++ after)).flatMap Token.value) =
      before ++ opening :: (inner' ++ after) := by
  obtain ⟨la, lo, hls, hla, hlo⟩ := number_eq_append h
  cases lo with
  | nil => cases hlo
  | cons o lo =>
    obtain ⟨hopening, hlo⟩ := List.cons.inj hlo
    obtain ⟨li, lb, rfl, hli, hlb⟩ := number_eq_append hlo
    obtain ⟨li', hli', hnumber, hfeeds⟩ := number_of_alike hli halike
    have hreads := reads_lexemes .text s
    rw [hls] at hreads
    obtain ⟨kind, v⟩ := o
    obtain rfl : kind = .directiveOpen := by rw [← ho, ← hopening]
    have hclose : ∀ l ∈ li, l.kind ≠ .directiveClose := by
      intro l hl
      have hkinds : inner.map Token.kind = li.map Lexeme.kind := by rw [← hli, map_kind_number]
      have hmem : l.kind ∈ inner.map Token.kind := hkinds ▸ List.mem_map_of_mem hl
      obtain ⟨t, ht, hkind⟩ := List.mem_map.1 hmem
      exact hkind ▸ hinner t ht
    have hnumbered : number 1 (la ++ ⟨.directiveOpen, v⟩ :: (li' ++ lb)) =
        before ++ opening :: (inner' ++ after) := by
      rw [number_append, hla, number, hopening, number_append, hnumber, hfeeds, hlb]
    rw [← hnumbered, flatMap_value_number, tokenize]
    exact congrArg _ (reads_alike hclose hli' hreads).lexemes_source

end PageFields
