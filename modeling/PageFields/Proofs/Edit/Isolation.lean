import PageFields.Proofs.Edit.Bounds

/-! # Edits: one field does not change another

Two edits that differ in the content of one field are compared by what is read back. If the first is
read back as it was submitted, each of its blocks ends where it was written to end, and what is
written behind a block is read on its own (`IsReadBack.tail`). In the other direction a
self-contained content can be put in front of any fields that are read back (`IsReadBack.cons`). So
the fields behind the changed one are taken over from the first edit, and the fields in front of it
too, once their quotes have their partners: a quote that waits for its partner could find it in the
new content (`IsReadBack.replace`). -/

namespace PageFields.Edit

open Lexer Segment Scan Descriptor

variable {name x : Text} {f : Text × Text} {fields before rest rest' : List (Text × Text)}

/-- The field is one that an edit writes. -/
structure IsKept (f : Text × Text) : Prop where
  name : isFieldName f.1 = true
  normal : Text.IsNormal f.2
  nonempty : f.2 ≠ []

/-- A scan finds the fields in their blocks. -/
def IsReadBack (fields : List (Text × Text)) : Prop :=
  ∃ w, scan (written fields) = .ok w ∧ ownFields w = fields

theorem written_cons (f : Text × Text) (fields : List (Text × Text)) :
    written (f :: fields) = blockText f.1 f.2 ++ written fields := List.flatMap_cons

theorem not_mem_written (h : ∀ f ∈ fields, IsKept f) : '\r' ∉ written fields := by
  have hopen : '\r' ∉ "\n\x7b% block ".toList := by decide
  have hclose : '\r' ∉ " %\x7d\n".toList := by decide
  have hend : '\r' ∉ "\n\x7b% endblock %\x7d\n".toList := by decide
  intro hr
  obtain ⟨f, hf, hr⟩ := List.mem_flatMap.1 hr
  have hname : '\r' ∉ f.1 := not_mem_name (isWord_of_isFieldName (h f hf).name).shape
  have hcontent : '\r' ∉ f.2 := (h f hf).normal.unified
  unfold blockText at hr
  simp only [List.mem_append, hopen, hname, hclose, hcontent, hend, or_self] at hr

/-! ### Block by block -/

/-- **The fields behind the first** are read back on their own, and the first is enclosed. -/
theorem IsReadBack.tail (h : IsReadBack (f :: fields)) (hk : ∀ g ∈ f :: fields, IsKept g) :
    Enclosed f.2 ∧ IsReadBack fields := by
  obtain ⟨w, hw, hfields⟩ := h
  have hf := hk f List.mem_cons_self
  have hreturn := not_mem_written fun g hg => hk g (List.mem_cons_of_mem _ hg)
  rw [written_cons] at hw
  exact exists_scan_behind hf.name hf.normal hf.nonempty hreturn hw hfields

/-- **A block in front** changes nothing behind it, if its content nests and is read alike before
the directive that closes the block. -/
theorem IsReadBack.cons_before (h : IsReadBack fields) (hf : IsKept f)
    (hc : SettledBefore f.2 (blockTail (written fields)))
    (hnested : depthAfter 0 (ofText f.2) = some 0) (hnew : f.1 ∉ fields.map Prod.fst) :
    IsReadBack (f :: fields) := by
  obtain ⟨p, hp, hfields⟩ := h
  obtain ⟨line', line'', hread⟩ :=
    readFrom_block_before 0 (o := {}) hf.name hc hnested (List.not_mem_nil) 1
  rw [← hfields, map_fst_ownFields] at hnew
  let o : Outline := { regions := [⟨f.1, '\n' :: f.2 ++ ['\n'], 0, line'⟩] }
  have hapart : o.Apart p := by
    intro q hq r hr heq
    obtain rfl := List.mem_singleton.1 hq
    exact hnew (List.mem_map.2 ⟨r, hr, heq.symm⟩)
  have hown : ownFields o = [f] := by
    have hn := Text.normalize_append Text.isMargin_newline Text.isMargin_newline hf.normal
    exact congrArg (fun c => [(f.1, c)]) hn
  refine ⟨o.append (p.relined (· - 1 + line'')), scanAt_eq_ok.2 ?_, ?_⟩
  · change (readFrom 0 {} 1 (written (f :: fields))).outcome = _
    rw [written_cons, hread]
    exact foldlM_restart.2 ⟨p, hp, hapart, rfl⟩
  · rw [ownFields_append, ownFields_relined, hown, hfields]
    rfl

theorem IsReadBack.cons (h : IsReadBack fields) (hf : IsKept f) (hc : SelfContained f.2)
    (hnew : f.1 ∉ fields.map Prod.fst) : IsReadBack (f :: fields) :=
  h.cons_before hf (hc.settled.before _) hc.nested hnew

/-- **What stands behind may be changed**, if no quote before it waits for its partner. -/
theorem IsReadBack.replace (h : IsReadBack (before ++ rest)) (hk : ∀ g ∈ before ++ rest, IsKept g)
    (hq : ∀ g ∈ before, PairedQuotes g.2) (hd : ((before ++ rest').map Prod.fst).Nodup)
    (hrest : IsReadBack rest → IsReadBack rest') : IsReadBack (before ++ rest') := by
  induction before with
  | nil => exact hrest h
  | cons f before ih =>
    obtain ⟨henclosed, htail⟩ := h.tail hk
    have hf := hk f List.mem_cons_self
    rw [List.cons_append, List.map_cons, List.nodup_cons] at hd
    refine (ih htail (fun g hg => hk g (List.mem_cons_of_mem _ hg))
      (fun g hg => hq g (List.mem_cons_of_mem _ hg)) hd.2).cons hf ?_ hd.1
    exact henclosed.selfContained hf.normal (hq f List.mem_cons_self)

/-! ### The whole edit -/

theorem exists_readFrom_parent (parent : Option Text) (t : Text) :
    ∃ line, readFrom 0 {} 1 (parent.elim [] parentLine ++ t) =
      readFrom 0 ⟨{ parent }, none⟩ line t := by
  cases parent with
  | none => exact ⟨1, rfl⟩
  | some p => exact readFrom_parentLine_append 0 {} p 1 t

/-- The text with its parent scans exactly if it scans without it, and has the same fields. -/
theorem scan_parent_append (parent : Option Text) (t : Text) (fields : List (Text × Text)) :
    (∃ o, scan (parent.elim [] parentLine ++ t) = .ok o ∧ ownFields o = fields) ↔
      ∃ p, scan t = .ok p ∧ ownFields p = fields := by
  obtain ⟨line, hline⟩ := exists_readFrom_parent parent t
  have hscan : ∀ o, scan (parent.elim [] parentLine ++ t) = .ok o ↔
      ∃ p, scan t = .ok p ∧ o = ({ parent } : Outline).append (p.relined (· - 1 + line)) := by
    intro o
    have hapart : ∀ p, ({ parent } : Outline).Apart p := fun _ _ hq => nomatch hq
    have hrun : scan (parent.elim [] parentLine ++ t) = .ok o ↔
        (readFrom 0 ⟨{ parent }, none⟩ line t).outcome = .ok ⟨o, none⟩ := by
      rw [← hline]
      exact scanAt_eq_ok
    rw [hrun, readFrom, foldlM_restart]
    simp only [hapart, true_and]
    rfl
  have hown : ∀ p : Outline,
      ownFields (({ parent } : Outline).append (p.relined (· - 1 + line))) = ownFields p := by
    intro p
    rw [ownFields_append, ownFields_relined]
    rfl
  simp only [hscan]
  constructor
  · rintro ⟨_, ⟨p, hp, rfl⟩, hfields⟩
    exact ⟨p, hp, (hown p).symm.trans hfields⟩
  · rintro ⟨p, hp, hfields⟩
    exact ⟨_, ⟨p, hp, rfl⟩, (hown p).trans hfields⟩

theorem parent_of_scan_parent_append {parent : Option Text} {t : Text} {o : Outline}
    (h : scan (parent.elim [] parentLine ++ t) = .ok o) (ho : o.parent = none) : parent = none := by
  cases parent with
  | none => rfl
  | some p =>
    rw [parent_of_scan_parentLine h] at ho
    cases ho

theorem count_lt_blockText (name x : Text) : x.count '%' < (blockText name x).count '%' := by
  have hend : 0 < "\n\x7b% endblock %\x7d\n".toList.count '%' := by decide
  unfold blockText
  rw [List.count_append, List.count_append]
  omega

theorem eq_nil_of_written (h : written fields = []) : fields = [] := by
  cases fields with
  | nil => rfl
  | cons f fields => cases h

/-- An edit that is read back as it was submitted is read back block by block. -/
theorem isReadBack_of_extractFields {parent : Option Text}
    (h : extractFields (parent.elim [] parentLine ++ written fields) = .ok fields) :
    IsReadBack fields := by
  rw [extractFields_eq, map_eq_ok] at h
  obtain ⟨o, ho, hfields⟩ := h
  unfold fieldsOf at hfields
  split at hfields
  · -- a whole text is no field of its own
    have hmargin : Text.isMargin '%' = false := by decide
    have hcount := Text.count_normalize hmargin (by decide)
      (parent.elim [] parentLine ++ written fields)
    obtain ⟨n, hn⟩ : ∃ n, n = Text.normalize (parent.elim [] parentLine ++ written fields) :=
      ⟨_, rfl⟩
    rw [← hn] at hfields hcount
    have hwritten : written fields = blockText contentField n := by
      rw [← hfields, written_cons]
      exact List.append_nil _
    have hlt := count_lt_blockText contentField n
    rw [hwritten, List.count_append] at hcount
    omega
  · exact (scan_parent_append parent _ fields).1 ⟨o, ho, hfields⟩

/-- **Fields that are read back are the fields of the edit**, unless the edit is empty: then it is
one empty field. -/
theorem extractFields_written {parent : Option Text} (h : IsReadBack fields) :
    extractFields (parent.elim [] parentLine ++ written fields) =
      .ok (if parent.elim [] parentLine ++ written fields = [] then [(contentField, [])]
        else fields) := by
  obtain ⟨o, ho, hown⟩ := (scan_parent_append parent _ fields).2 h
  rw [extractFields_eq, ho]
  refine congrArg Except.ok ?_
  by_cases hnil : parent.elim [] parentLine ++ written fields = []
  · have hempty : scan [] = .ok {} := toOption_eq_some.1 (by decide +kernel)
    rw [if_pos hnil, hnil]
    rw [hnil, hempty] at ho
    cases ho
    rfl
  · rw [if_neg hnil]
    refine (if_neg ?_).trans hown
    rintro ⟨hregions, hparent⟩
    obtain rfl := parent_of_scan_parent_append ho hparent
    rw [ownFields, hregions, List.map_nil] at hown
    rw [← hown] at hnil
    exact hnil rfl

/-! ### Two edits -/

theorem nonempty_around (before after : List (Text × Text)) (f : Text × Text) :
    nonempty (before ++ f :: after) = nonempty before ++ (nonempty [f] ++ nonempty after) := by
  unfold nonempty
  rw [← List.filter_append, ← List.filter_append, ← List.map_append, ← List.map_append,
    List.singleton_append]

theorem nonempty_eq_map (h : ∀ f ∈ fields, Text.normalize f.2 ≠ []) :
    nonempty fields = fields.map fun f => (f.1, Text.normalize f.2) := by
  refine List.filter_eq_self.2 fun f hf => ?_
  obtain ⟨g, hg, rfl⟩ := List.mem_map.1 hf
  simpa using h g hg

theorem isKept_of_mem_nonempty (h : ∀ f ∈ fields, isFieldName f.1 = true) {f : Text × Text}
    (hf : f ∈ nonempty fields) : IsKept f := by
  obtain ⟨hmem, hne⟩ := List.mem_filter.1 hf
  obtain ⟨g, hg, rfl⟩ := List.mem_map.1 hmem
  exact ⟨h g hg, Text.isNormal_normalize _, by simpa using hne⟩

theorem IsReadBack.field {content : Text} (h : IsReadBack fields) (hname : isFieldName name = true)
    (hc : SelfContained (Text.normalize content)) (hnew : name ∉ fields.map Prod.fst) :
    IsReadBack (nonempty [(name, content)] ++ fields) := by
  by_cases hnil : Text.normalize content = []
  · -- an empty content is not written
    have hnone : nonempty [(name, content)] = [] := by simp [nonempty, hnil]
    rwa [hnone]
  · rw [nonempty_eq_map (List.forall_mem_singleton.2 hnil)]
    exact h.cons ⟨hname, Text.isNormal_normalize _, hnil⟩ hc hnew

theorem serialize_structured (parent : Option Text) (hn : ∀ f ∈ fields, isFieldName f.1 = true)
    (hd : (fields.map Prod.fst).Nodup) : serialize parent (.structured fields) =
      .ok ((parentName? parent).elim [] parentLine ++ written (nonempty fields)) := by
  have hkept : kept fields = nonempty fields := by
    rw [kept, ← mergeRepeated_eq, mergeRepeated_of_nodup hd]
  rw [serialize_eq_ok parent, hkept]
  rw [hkept]
  exact fun f hf => (isKept_of_mem_nonempty hn hf).name

section Replaced

variable {parent : Option Text} {after : List (Text × Text)} {old content out out' : Text}
  (hn : ∀ f ∈ before ++ (name, old) :: after, isFieldName f.1 = true ∧ Text.normalize f.2 ≠ [])
  (hd : ((before ++ (name, old) :: after).map Prod.fst).Nodup)
include hn hd

/-- The fields behind the changed one are read as before, and then those in front of it. -/
theorem isReadBack_replaced (h : IsReadBack (nonempty (before ++ (name, old) :: after)))
    (hq : ∀ f ∈ before, PairedQuotes (Text.normalize f.2))
    (hc : SelfContained (Text.normalize content)) :
    IsReadBack (nonempty (before ++ (name, content) :: after)) := by
  have hmem : (name, old) ∈ before ++ (name, old) :: after :=
    List.mem_append_right _ List.mem_cons_self
  have hkept : ∀ g ∈ nonempty (before ++ (name, old) :: after), IsKept g :=
    fun g hg => isKept_of_mem_nonempty (fun f hf => (hn f hf).1) hg
  have hquotes : ∀ g ∈ nonempty before, PairedQuotes g.2 := by
    intro g hg
    obtain ⟨f, hf, rfl⟩ := List.mem_map.1 (List.mem_of_mem_filter hg)
    exact hq f hf
  have hnames : ((nonempty (before ++ (name, content) :: after)).map Prod.fst).Nodup := by
    refine List.Nodup.sublist (map_fst_nonempty_sublist _) ?_
    simpa using hd
  have hnew : name ∉ (nonempty after).map Prod.fst := by
    rw [List.map_append, List.map_cons] at hd
    have hafter := (List.nodup_cons.1 (List.Nodup.of_append_right hd)).1
    exact fun h => hafter ((map_fst_nonempty_sublist after).subset h)
  rw [nonempty_around] at h hkept hnames ⊢
  refine h.replace hkept hquotes hnames fun hrest => ?_
  have hrest' : ∀ g ∈ nonempty [(name, old)] ++ nonempty after, IsKept g :=
    fun g hg => hkept g (List.mem_append_right _ hg)
  rw [nonempty_eq_map (List.forall_mem_singleton.2 (hn _ hmem).2)] at hrest hrest'
  obtain ⟨-, hafter⟩ := hrest.tail hrest'
  exact hafter.field (hn _ hmem).1 hc hnew

/-- **What is read back** of an edit with another content for one field: the fields that are not
empty, or one empty field, if nothing is written. -/
theorem extractFields_replaced
    (ho : serialize parent (.structured (before ++ (name, old) :: after)) = .ok out)
    (ho' : serialize parent (.structured (before ++ (name, content) :: after)) = .ok out')
    (hx : extractFields out =
      .ok ((before ++ (name, old) :: after).map fun f => (f.1, Text.normalize f.2)))
    (hq : ∀ f ∈ before, PairedQuotes (Text.normalize f.2))
    (hc : SelfContained (Text.normalize content)) :
    extractFields out' = .ok (if out' = [] then [(contentField, [])]
        else nonempty (before ++ (name, content) :: after)) ∧
      (out' = [] → nonempty (before ++ (name, content) :: after) = []) := by
  have hname : ∀ {fields : List (Text × Text)},
      fields.map Prod.fst = (before ++ (name, old) :: after).map Prod.fst →
        ∀ f ∈ fields, isFieldName f.1 = true := by
    intro fields hfields f hf
    have hmem := List.mem_map_of_mem (f := Prod.fst) hf
    rw [hfields] at hmem
    obtain ⟨g, hg, hgf⟩ := List.mem_map.1 hmem
    rw [← hgf]
    exact (hn g hg).1
  have hsame : (before ++ (name, content) :: after).map Prod.fst =
      (before ++ (name, old) :: after).map Prod.fst := by simp
  rw [serialize_structured parent (hname rfl) hd] at ho
  rw [serialize_structured parent (hname hsame) (hsame ▸ hd)] at ho'
  cases ho
  cases ho'
  rw [← nonempty_eq_map fun f hf => (hn f hf).2] at hx
  refine ⟨extractFields_written ?_, fun h => eq_nil_of_written (List.append_eq_nil_iff.1 h).2⟩
  exact isReadBack_replaced hn hd (isReadBack_of_extractFields hx) hq hc

/-- **One field does not change another.** Take an edit whose fields have different identifiers as
names and are not empty, which is read back as it was submitted, and the same edit with another
content for one field. If the new content is self-contained and no quote in the fields in front of
it waits for its partner, then the fields of the second edit can be read, every other field is there
with its content, and so is the changed one, unless it is empty. Nothing else is there, but for the
one empty field of a text that is empty. -/
theorem serialize_isolated
    (ho : serialize parent (.structured (before ++ (name, old) :: after)) = .ok out)
    (ho' : serialize parent (.structured (before ++ (name, content) :: after)) = .ok out')
    (hx : extractFields out =
      .ok ((before ++ (name, old) :: after).map fun f => (f.1, Text.normalize f.2)))
    (hq : ∀ f ∈ before, PairedQuotes (Text.normalize f.2))
    (hc : SelfContained (Text.normalize content)) :
    ∃ fs, extractFields out' = .ok fs ∧
      (∀ f ∈ before ++ after, (f.1, Text.normalize f.2) ∈ fs) ∧
      (Text.normalize content ≠ [] → (name, Text.normalize content) ∈ fs) ∧
      ∀ g ∈ fs, g ∈ (before ++ (name, content) :: after).map (fun f => (f.1, Text.normalize f.2)) ∨
        out' = [] ∧ g = (contentField, []) := by
  obtain ⟨hfields, hempty⟩ := extractFields_replaced hn hd ho ho' hx hq hc
  refine ⟨_, hfields, ?_⟩
  have hmem : ∀ f ∈ before ++ (name, content) :: after, Text.normalize f.2 ≠ [] →
      (f.1, Text.normalize f.2) ∈ if out' = [] then [(contentField, [])]
        else nonempty (before ++ (name, content) :: after) := by
    intro f hf hne
    have hkept : (f.1, Text.normalize f.2) ∈ nonempty (before ++ (name, content) :: after) :=
      List.mem_filter.2 ⟨List.mem_map.2 ⟨f, hf, rfl⟩, by simpa using hne⟩
    split
    · rename_i hnil
      rw [hempty hnil] at hkept
      cases hkept
    · exact hkept
  refine ⟨fun f hf => ?_, fun hne => hmem (name, content) (by simp) hne, fun g hg => ?_⟩
  · have hf' : f ∈ before ++ (name, content) :: after ∧ f ∈ before ++ (name, old) :: after := by
      rcases List.mem_append.1 hf with hf | hf
      · exact ⟨List.mem_append_left _ hf, List.mem_append_left _ hf⟩
      · exact ⟨by simp [hf], by simp [hf]⟩
    exact hmem f hf'.1 (hn f hf'.2).2
  · split at hg
    · rename_i hnil
      exact Or.inr ⟨hnil, List.mem_singleton.1 hg⟩
    · exact Or.inl (List.mem_of_mem_filter hg)

end Replaced

/-- The same for a content with a block in it and an `endblock` in a comment, which comes to stand
before a field with a lone quote. -/
theorem serialize_isolated_nested :
    let p := "p".toList
    let a := ("a".toList, "x".toList)
    let b := ("b".toList,
      "\x7b% block n %\x7d\x7b# \x7b% endblock %\x7d #\x7d\x7b% endblock %\x7d".toList)
    let c := ("c".toList, "\x7b% x ' %\x7d".toList)
    ∃ fs, serialize (some p) (.structured [a, b, c]) = .ok (parentLine p ++ written [a, b, c]) ∧
      extractFields (parentLine p ++ written [a, b, c]) = .ok fs ∧ a ∈ fs ∧ c ∈ fs ∧ b ∈ fs := by
  intro p a b c
  let d := (b.1, "y".toList)
  have ho : serialize (some p) (.structured ([a] ++ d :: [c])) =
      .ok (parentLine p ++ written [a, d, c]) := toOption_eq_some.1 (by decide +kernel)
  have ho' : serialize (some p) (.structured ([a] ++ b :: [c])) =
      .ok (parentLine p ++ written [a, b, c]) := toOption_eq_some.1 (by decide +kernel)
  have hx : extractFields (parentLine p ++ written [a, d, c]) =
      .ok (([a] ++ d :: [c]).map fun f => (f.1, Text.normalize f.2)) :=
    toOption_eq_some.1 (by decide +kernel)
  obtain ⟨fs, hfs, hothers, hnew, -⟩ := serialize_isolated (by decide +kernel) (by decide +kernel)
    ho ho' hx (by decide +kernel) (by decide +kernel)
  refine ⟨fs, ho', hfs, ?_, ?_, ?_⟩
  · exact hothers a (by simp)
  · exact hothers c (by simp)
  · exact hnew (by decide +kernel)

/-- Each condition is needed, and so is the empty field. A content that is not self-contained can
close its block and open another one (`closing`), or keep its block from being closed. The last of
these edits is also reached with a self-contained content, where a quote becomes the partner of one
in the field in front (`waiting`). And without any content and parent a field is read back that was
not submitted. -/
theorem not_serialize_isolated :
    let a := "a".toList
    let b := "b".toList
    let x := "x".toList
    let quote := "\"".toList
    let closing := "x\x7b% endblock %\x7d\x7b% block evil %\x7dz".toList
    let waiting := "\x7b% x \" %\x7d".toList
    (∀ fields ∈ [[(a, x), (b, quote)], [(a, waiting), (b, x)], [(a, x)]],
        (serialize none (.structured fields)).toOption = some (written fields) ∧
          (extractFields (written fields)).toOption = some fields) ∧
      (∀ c ∈ [closing, "\x7b#".toList, "\x7b% x".toList, waiting],
        (serialize none (.structured [(a, c), (b, quote)])).toOption =
          some (written [(a, c), (b, quote)]) ∧
        (extractFields (written [(a, c), (b, quote)])).toOption =
          if c = closing then some [(a, x), ("evil".toList, "z".toList), (b, quote)] else none) ∧
      SelfContained quote ∧ (serialize none (.structured [(a, [])])).toOption = some [] ∧
        (extractFields []).toOption = some [(contentField, [])] := by
  intro a b x quote closing waiting
  exact ⟨by decide +kernel, by decide +kernel, by decide +kernel, by decide +kernel,
    by decide +kernel⟩

end PageFields.Edit
