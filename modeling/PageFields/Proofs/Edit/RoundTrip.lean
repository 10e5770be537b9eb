import PageFields.Proofs.Edit.Blocks

/-! # Edits: what is written is read back

A structured edit whose written contents are self-contained is a template with exactly these
contents as regions. -/

namespace PageFields.Edit

/-- **A structured edit is read back.** If the kept fields have identifiers as names and
self-contained contents, then the edit is written, and the scan of what is written gives no warning,
the parent, nothing outside the regions, and the kept fields as regions in their order, each content
between two line feeds. -/
theorem scan_serialize (parent : Option Text) (fields : List (Text × Text))
    (hn : ∀ f ∈ kept fields, isFieldName f.1 = true) (hc : ∀ f ∈ kept fields, SelfContained f.2) :
    ∃ out o, serialize parent (.structured fields) = .ok out ∧ scan out = .ok o ∧
      (scanAt 0 out).warnings = [] ∧ o.parent = parentName? parent ∧ o.hasOutside = false ∧
      o.regions.map (fun q => (q.name, q.content)) =
        (kept fields).map fun f => (f.1, ['\n'] ++ f.2 ++ ['\n']) := by
  obtain ⟨regions, hscan, hmap⟩ :=
    scanAt_written 0 (parentName? parent) hn hc (nodup_kept fields)
  refine ⟨_, _, serialize_eq_ok parent hn, by rw [scan, hscan]; rfl, by rw [hscan]; rfl, rfl, rfl,
    ?_⟩
  have := congrArg (List.map fun x : Text × Text × Nat => (x.1, x.2.1)) hmap
  simpa [Function.comp_def] using this

/-- The same for a template with a parent, a repeated field, an empty one and a nested block. -/
theorem scan_serialize_nested :
    ∃ out o, serialize (some "base".toList) (.structured
        [("a".toList, "x".toList), ("b".toList, " ".toList),
          ("a".toList, "\x7b% block c %\x7dy\x7b% endblock %\x7d\n".toList)]) = .ok out ∧
      scan out = .ok o ∧ (scanAt 0 out).warnings = [] ∧ o.parent = some "base".toList ∧
      o.hasOutside = false ∧
      o.regions.map (fun q => (q.name, q.content)) =
        [("a".toList, "\n\x7b% block c %\x7dy\x7b% endblock %\x7d\n".toList)] := by
  obtain ⟨out, o, hs, ho, hw, hp, hout, hr⟩ := scan_serialize (some "base".toList)
    [("a".toList, "x".toList), ("b".toList, " ".toList),
      ("a".toList, "\x7b% block c %\x7dy\x7b% endblock %\x7d\n".toList)]
    (by decide +kernel) (by decide +kernel)
  refine ⟨out, o, hs, ho, hw, hp.trans (by decide), hout, hr.trans ?_⟩
  decide +kernel

end PageFields.Edit
