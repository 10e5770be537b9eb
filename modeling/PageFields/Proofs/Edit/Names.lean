import PageFields.Proofs.Edit.Blocks
import PageFields.Proofs.Edit.Parent
import PageFields.Proofs.Outline.Cut

/-! # Edits: which names can be written

A name is accepted if it is an identifier. These are exactly the names under which a written block
is read back (`isFieldName_iff_scan`): the lexer takes an identifier as one name, and the name of a
region is always an identifier. A structured edit fails at the first field with content whose name
is refused (`blocksText_eq_error`), and for no other reason. -/

namespace PageFields.Edit

open Scan

variable {name content : Text} {fields : List (Text × Text)} {e : Error}

theorem checkFieldName_eq_ok : checkFieldName name = .ok () ↔ isFieldName name = true := by
  unfold checkFieldName
  cases isFieldName name <;> simp

/-! ### Names that are read back -/

/-- A scan of the text finds one region, with this name and this content. -/
def FindsOne (s name content : Text) : Prop :=
  ∃ o, scan s = .ok o ∧ o.regions.map (fun q => (q.name, q.content)) = [(name, content)]

/-- **A block is read back** exactly if its name is an identifier. -/
theorem isFieldName_iff_scan (hcontent : SelfContained content) : isFieldName name = true ↔
    FindsOne (blockText name content) name ('\n' :: content ++ ['\n']) := by
  constructor
  · intro hname
    have hnames : ∀ f ∈ [(name, content)], isFieldName f.1 = true := by
      intro f hf
      rwa [List.mem_singleton.1 hf]
    have hcontents : ∀ f ∈ [(name, content)], SelfContained f.2 := by
      intro f hf
      rwa [List.mem_singleton.1 hf]
    obtain ⟨regions, hscan, hmap⟩ :=
      scanAt_written 0 none hnames hcontents (List.nodup_singleton name)
    have hwritten : written [(name, content)] = blockText name content := List.append_nil _
    rw [Option.elim_none, List.nil_append, hwritten] at hscan
    refine ⟨_, by rw [scan, hscan]; rfl, ?_⟩
    have hpairs := congrArg (List.map fun x : Text × Text × Nat => (x.1, x.2.1)) hmap
    simpa [Function.comp_def] using hpairs
  · rintro ⟨o, hscan, hregions⟩
    obtain ⟨q, hq, hpair⟩ : ∃ q ∈ o.regions, (q.name, q.content) =
        (name, '\n' :: content ++ ['\n']) := by
      rw [← List.mem_map, hregions]
      exact List.mem_singleton_self _
    obtain ⟨hcut, -⟩ := cut_of_scanAt hscan
    rw [← (Prod.mk.inj hpair).1]
    exact (hcut q hq).isFieldName

/-! ### The first name that is refused -/

/-- The field has content, and its name is refused. -/
def isRejected (f : Text × Text) : Bool :=
  Text.normalize f.2 ≠ [] ∧ checkFieldName f.1 ≠ .ok ()

theorem blocksText_of_rejected {f : Text × Text} (h : isRejected f = true)
    (rest : List (Text × Text)) :
    blocksText (f :: rest) = .error (.invalidName f.1 .notAnIdentifier) := by
  obtain ⟨hcontent, hname⟩ := of_decide_eq_true h
  rw [Ne, checkFieldName_eq_ok] at hname
  rw [blocksText]
  simp only [if_neg hcontent, checkFieldName, if_neg hname, error_bind]

theorem blocksText_cons {f : Text × Text} (h : isRejected f = false)
    (rest : List (Text × Text)) :
    blocksText (f :: rest) = .error e ↔ blocksText rest = .error e := by
  rw [blocksText]
  by_cases hcontent : Text.normalize f.2 = []
  · simp only [if_pos hcontent]
  · have hname : checkFieldName f.1 = .ok () := by
      by_contra hname
      exact of_decide_eq_false h ⟨hcontent, hname⟩
    simp only [if_neg hcontent, hname, ok_bind]
    rw [bind_eq_error]
    constructor
    · rintro (hrest | ⟨after, -, hafter⟩)
      · exact hrest
      · cases hafter
    · exact .inl

/-- **Writing fails at the first field that is refused.** -/
theorem blocksText_eq_error : blocksText fields = .error e ↔
    ∃ f, fields.find? isRejected = some f ∧ e = .invalidName f.1 .notAnIdentifier := by
  induction fields with
  | nil =>
    constructor
    · exact nofun
    · rintro ⟨f, hf, -⟩
      cases hf
  | cons f fields ih =>
    cases hf : isRejected f with
    | false => rw [blocksText_cons hf, ih, List.find?_cons_of_neg (by rw [hf]; decide)]
    | true =>
      rw [blocksText_of_rejected hf, List.find?_cons_of_pos hf]
      constructor
      · intro h
        exact ⟨f, rfl, (Except.error.inj h).symm⟩
      · rintro ⟨g, hg, rfl⟩
        rw [Option.some.inj hg]

theorem selfContained_letter : SelfContained ['x'] := by decide +kernel

/-- **The check of a name is exact.** It accepts a name exactly if the block of this name with a
letter in it is scanned as one region, with this name and the letter between two line feeds. For
every parent and every list of fields, the edit fails exactly if one of the merged fields has
content and a name that is refused; the error is that of the first such field. -/
theorem checkFieldName_exact :
    (∀ name, checkFieldName name = .ok () ↔
      FindsOne ("\n\x7b% block ".toList ++ name ++ " %\x7d\nx\n\x7b% endblock %\x7d\n".toList) name
        "\nx\n".toList) ∧
      ∀ parent fields e, serialize parent (.structured fields) = .error e ↔
        ∃ f, (mergeRepeated fields).find? isRejected = some f ∧
          e = .invalidName f.1 .notAnIdentifier := by
  constructor
  · intro name
    have htext : "\n\x7b% block ".toList ++ name ++ " %\x7d\nx\n\x7b% endblock %\x7d\n".toList =
        blockText name ['x'] := by
      have hafter : " %\x7d\nx\n\x7b% endblock %\x7d\n".toList =
          " %\x7d\n".toList ++ ['x'] ++ "\n\x7b% endblock %\x7d\n".toList := by decide
      unfold blockText
      rw [hafter]
      simp only [List.append_assoc]
    rw [checkFieldName_eq_ok, htext]
    exact isFieldName_iff_scan selfContained_letter
  · intro parent fields e
    rw [serialize_eq, map_eq_error]
    exact blocksText_eq_error

end PageFields.Edit
