import PageFields.Proofs.Descriptor.Overlay
import PageFields.Proofs.Edit.Blocks
import PageFields.Proofs.Outline.Cut

/-! # Descriptors: saving what is shown

The structured fields of a template are its own regions laid over the fields it inherits
(`resolve_structured`). An editor that submits them unchanged writes a template that shows the same
fields, but for the empty ones, and that is written the same when it is saved once more. -/

namespace PageFields

namespace Scan

theorem nodup_extractFields {s : Text} {fields : List (Text × Text)}
    (h : extractFields s = .ok fields) : (fields.map Prod.fst).Nodup := by
  rw [extractFields_eq] at h
  obtain ⟨o, ho, rfl⟩ := map_eq_ok.1 h
  unfold fieldsOf
  split
  · simp
  · rw [List.map_map]
    exact (cut_of_scanAt ho).2

end Scan

namespace Descriptor

/-- The regions of a template as fields. -/
def ownFields (o : Outline) : List (Text × Text) :=
  o.regions.map fun r => (r.name, Text.normalize r.content)

/-- The field that a template inherits. -/
def seed (f : Text × Text) : Field := { name := f.1, placeholder := f.2, active := false }

/-- The fields that a template with this parent inherits. -/
def seeds (load : Loader) : Option Text → Except Error (List Field)
  | none => .ok []
  | some parent => do
    let s ← load parent
    let fields ← extractFields s
    .ok (fields.map seed)

theorem seeds_some_eq_ok {load : Loader} {parent : Text} {fs : List Field} :
    seeds load (some parent) = .ok fs ↔
      ∃ s fields, load parent = .ok s ∧ extractFields s = .ok fields ∧ fs = fields.map seed := by
  unfold seeds
  simp only [bind_eq_ok, Except.ok.injEq]
  constructor
  · rintro ⟨s, hs, fields, hf, rfl⟩; exact ⟨s, fields, hs, hf, rfl⟩
  · rintro ⟨s, fields, hs, hf, rfl⟩; exact ⟨s, hs, fields, hf, rfl⟩

theorem nodup_seeds {fields : List (Text × Text)} (h : (fields.map Prod.fst).Nodup) :
    ((fields.map seed).map Field.name).Nodup := by
  rw [List.map_map]
  exact h

theorem seeds_spec {load : Loader} {parent : Option Text} {fs : List Field}
    (h : seeds load parent = .ok fs) :
    (fs.map Field.name).Nodup ∧ ∀ f ∈ fs, IsInherited f := by
  match parent with
  | none => cases h; simp
  | some p =>
    obtain ⟨s, fields, -, hx, rfl⟩ := seeds_some_eq_ok.1 h
    refine ⟨nodup_seeds (Scan.nodup_extractFields hx), fun f hf => ?_⟩
    obtain ⟨g, -, rfl⟩ := List.mem_map.1 hf
    exact ⟨rfl, rfl⟩

theorem map_fst_ownFields (o : Outline) :
    (ownFields o).map Prod.fst = o.regions.map Region.name := by
  rw [ownFields, List.map_map]
  rfl

theorem laidOver_nil (own : List (Text × Text)) : laidOver own [] = own.map ownField := by
  simp [laidOver]

theorem standalone_structured {o : Outline} (s : Text)
    (hr : o.regions ≠ []) (hout : o.hasOutside = false) (hd : (o.regions.map Region.name).Nodup) :
    standalone o s = ⟨none, .structured, ⟨laidOver (ownFields o) []⟩⟩ := by
  have hfields : fieldsOf o s = ownFields o := by rw [fieldsOf, if_neg fun h => hr h.1]; rfl
  have hnd : (((ownFields o).map ownField).map Field.name).Nodup := by
    rw [List.map_map]
    exact (map_fst_ownFields o).symm ▸ hd
  rw [standalone, if_neg (by simp [hr, hout]), hfields, laidOver_nil, ← Fields.ofList_eq hnd]
  rfl

theorem foldl_fieldsOf {o : Outline} {parent : Text} {fields : List (Text × Text)} (s : Text)
    (ho : o.parent = some parent) (hd : (o.regions.map Region.name).Nodup)
    (hf : (fields.map Prod.fst).Nodup) : (fieldsOf o s).foldl overlay (inherited fields) =
      ⟨laidOver (ownFields o) (fields.map seed)⟩ := by
  have hown : fieldsOf o s = ownFields o := by rw [fieldsOf, if_neg (by simp [ho])]; rfl
  have hin : inherited fields = ⟨fields.map seed⟩ := Fields.ofList_eq (nodup_seeds hf)
  rw [hown, hin, foldl_overlay (by rwa [map_fst_ownFields]) (nodup_seeds hf)]

theorem scan_of_resolve {load : Loader} {s : Text} {d : Descriptor}
    (h : resolve load s = .ok d) : ∃ o, scan s = .ok o := by
  rw [resolve, resolveLogged, Logged.outcome_bind, bind_eq_ok] at h
  obtain ⟨o, ho, -⟩ := h
  exact ⟨o, ho⟩

theorem resolve_orphan {load : Loader} {s : Text} {o : Outline} (ho : scan s = .ok o)
    (hp : o.parent = none) : resolve load s = .ok (standalone o s) := by
  have hs : (scanAt 0 s).outcome = .ok o := ho
  rw [resolve, resolveLogged, Logged.outcome_bind, hs, ok_bind]
  simp only [hp]
  rfl

/-- A template with a parent fails as its loader or the scan of the parent does, and else shows its
regions over the fields of the parent. -/
theorem resolve_of_parent {load : Loader} {s : Text} {o : Outline} {parent : Text}
    (ho : scan s = .ok o) (hp : o.parent = some parent) : resolve load s =
      load parent >>= fun text => extractFields text >>= fun fields =>
        .ok ⟨some parent, .structured, (fieldsOf o s).foldl overlay (inherited fields)⟩ := by
  have hs : (scanAt 0 s).outcome = .ok o := ho
  have hx : ∀ t, (extractFieldsLogged t).outcome = extractFields t := fun _ => rfl
  have hw : (Logged.warn (.droppedContent parent)).outcome = .ok () := rfl
  rw [resolve, resolveLogged, Logged.outcome_bind, hs, ok_bind]
  simp only [hp]
  by_cases hout : o.hasOutside = true
  · simp only [hout, if_true, Logged.outcome_bind, hw, ok_bind, Logged.outcome_liftM, hx,
      Logged.outcome_pure]
  · simp only [hout, if_false, Logged.outcome_bind, Logged.outcome_liftM, hx, Logged.outcome_pure,
      Bool.false_eq_true]

theorem resolve_child {load : Loader} {s : Text} {o : Outline} {parent : Text} {d : Descriptor}
    (ho : scan s = .ok o) (hp : o.parent = some parent) :
    resolve load s = .ok d ↔ ∃ text fields, load parent = .ok text ∧
      extractFields text = .ok fields ∧
      d = ⟨some parent, .structured, (fieldsOf o s).foldl overlay (inherited fields)⟩ := by
  rw [resolve_of_parent ho hp]
  simp only [bind_eq_ok, Except.ok.injEq]
  constructor
  · rintro ⟨text, ht, fields, hf, rfl⟩; exact ⟨text, fields, ht, hf, rfl⟩
  · rintro ⟨text, fields, ht, hf, rfl⟩; exact ⟨text, ht, fields, hf, rfl⟩

/-- **The structured fields of a template** are its regions laid over what it inherits. Without a
parent they are only shown when there are some and nothing stands outside of them. -/
theorem resolve_structured {load : Loader} {s : Text} {d : Descriptor} :
    resolve load s = .ok d ∧ d.mode = .structured ↔
      ∃ o fs, scan s = .ok o ∧ (o.parent = none → o.regions ≠ [] ∧ o.hasOutside = false) ∧
        seeds load o.parent = .ok fs ∧
        d = ⟨o.parent, .structured, ⟨laidOver (ownFields o) fs⟩⟩ := by
  constructor
  · rintro ⟨h, hm⟩
    obtain ⟨o, ho⟩ := scan_of_resolve h
    have hd := (Scan.cut_of_scanAt ho).2
    cases hp : o.parent with
    | none =>
      rw [resolve_orphan ho hp] at h
      cases h
      have hr : ¬ (o.regions = [] ∨ o.hasOutside) := fun hr => by
        rw [standalone, if_pos hr] at hm
        cases hm
      simp only [not_or, Bool.not_eq_true] at hr
      exact ⟨o, [], ho, fun _ => hr, by rw [hp]; rfl,
        by rw [hp]; exact standalone_structured s hr.1 hr.2 hd⟩
    | some parent =>
      obtain ⟨text, fields, ht, hx, rfl⟩ := (resolve_child ho hp).1 h
      refine ⟨o, fields.map seed, ho, by simp [hp], ?_, ?_⟩
      · rw [hp]
        exact seeds_some_eq_ok.2 ⟨text, fields, ht, hx, rfl⟩
      · rw [hp, foldl_fieldsOf s hp hd (Scan.nodup_extractFields hx)]
  · rintro ⟨o, fs, ho, hnone, hs, rfl⟩
    have hd := (Scan.cut_of_scanAt ho).2
    refine ⟨?_, rfl⟩
    cases hp : o.parent with
    | none =>
      obtain ⟨hr, hout⟩ := hnone hp
      rw [hp] at hs
      cases hs
      rw [resolve_orphan ho hp, standalone_structured s hr hout hd]
    | some parent =>
      rw [hp] at hs
      obtain ⟨text, fields, ht, hx, rfl⟩ := seeds_some_eq_ok.1 hs
      refine (resolve_child ho hp).2 ⟨text, fields, ht, hx, ?_⟩
      rw [foldl_fieldsOf s hp hd (Scan.nodup_extractFields hx)]

/-! ### Saving -/

/-- The fields as an editor submits them unchanged. -/
def submitted (d : Descriptor) : Payload := .structured (pairs d.fields.toList)

/-- The names of the fields that the parent template defines. -/
def inheritedNames (load : Loader) (parent : Option Text) : List Text :=
  match seeds load parent with
  | .ok fs => fs.map Field.name
  | .error _ => []

/-- What is written of the fields can be read back. -/
structure Writable (fields : List (Text × Text)) : Prop where
  names : ∀ f ∈ fields, Edit.isFieldName f.1 = true
  contents : ∀ f ∈ fields, SelfContained f.2

/-- The fields of a template are writable, unless line endings and quotes are in the way. -/
theorem writable_ownFields {s : Text} {o : Outline} (ho : scan s = .ok o)
    (hq : PairedQuotes s) (he : ¬ HasEscapedReturn s) :
    Writable (ownFields o) := by
  have hcut := (Scan.cut_of_scanAt ho).1
  refine ⟨fun f hf => ?_, fun f hf => ?_⟩
  · obtain ⟨r, hr, rfl⟩ := List.mem_map.1 hf
    exact (hcut r hr).isFieldName
  · obtain ⟨r, hr, rfl⟩ := List.mem_map.1 hf
    have hself := (hcut r hr).selfContained (pairedQuotes_iff.1 hq)
    exact hself.normalize fun h => he (h.trans (hcut r hr).isInfix)

theorem isNormal_ownFields (o : Outline) : ∀ f ∈ ownFields o, Text.IsNormal f.2 := by
  intro f hf
  obtain ⟨r, -, rfl⟩ := List.mem_map.1 hf
  exact Text.isNormal_normalize _

theorem ownFields_written {regions : List Region} {fields : List (Text × Text)} {depth : Nat}
    (hnormal : ∀ f ∈ fields, Text.IsNormal f.2)
    (h : regions.map (fun q => (q.name, q.content, q.depth)) =
      fields.map fun f => (f.1, '\n' :: f.2 ++ ['\n'], depth)) :
    regions.map (fun r => (r.name, Text.normalize r.content)) = fields := by
  have := congrArg (List.map fun x : Text × Text × Nat => (x.1, Text.normalize x.2.1)) h
  rw [List.map_map, List.map_map] at this
  refine this.trans ((List.map_congr_left fun f hf => ?_).trans (List.map_id fields))
  have hn : Text.normalize (['\n'] ++ f.2 ++ ['\n']) = f.2 :=
    Text.normalize_append (List.forall_mem_singleton.2 rfl) (List.forall_mem_singleton.2 rfl)
      (hnormal f hf)
  exact congrArg (Prod.mk f.1) hn

/-- What an edit writes is read as the parent and the fields, with nothing outside of them. -/
theorem scan_written (parent : Option Text) {fields : List (Text × Text)} (hw : Writable fields)
    (hd : (fields.map Prod.fst).Nodup) (hnormal : ∀ f ∈ fields, Text.IsNormal f.2) :
    ∃ o, scan (parent.elim [] Edit.parentLine ++ Edit.written fields) = .ok o ∧
      o.parent = parent ∧ o.hasOutside = false ∧ ownFields o = fields := by
  obtain ⟨regions, hscan, hmap⟩ := Edit.scanAt_written 0 parent hw.names hw.contents hd
  refine ⟨{ parent, regions, hasOutside := false }, ?_, rfl, rfl, ownFields_written hnormal hmap⟩
  rw [scan, hscan]
  rfl

/-- **Show, save unchanged, show again.** The structured fields that a template shows can be saved
as they are. The template that is written shows the same parent and the same fields, but for the
empty ones: those that the parent defines are inherited again, and the others are gone. Saving these
fields once more gives the same text. -/
theorem resolve_serialize_submitted {t : Text} {load : Loader} {d : Descriptor}
    (hq : PairedQuotes t) (he : ¬ HasEscapedReturn t) (hd : resolve load t = .ok d)
    (hm : d.mode = .structured) (hp : d.parent ≠ some [])
    (hne : d.parent.isSome ∨ ∃ f ∈ d.fields.toList, f.value ≠ []) :
    ∃ out d', Edit.serialize d.parent d.submitted = .ok out ∧ resolve load out = .ok d' ∧
      d'.mode = .structured ∧ d'.parent = d.parent ∧
      d'.fields.toList = d.fields.toList.filterMap (resaved (inheritedNames load d.parent)) ∧
      Edit.serialize d'.parent d'.submitted = .ok out := by
  obtain ⟨o, fs, ho, -, hs, rfl⟩ := resolve_structured.1 ⟨hd, hm⟩
  simp only at hp hne ⊢
  obtain ⟨hfs, hin⟩ := seeds_spec hs
  have hw := writable_ownFields ho hq he
  have hnormal := isNormal_ownFields o
  have hown : ((ownFields o).map Prod.fst).Nodup := by
    rw [map_fst_ownFields]
    exact (Scan.cut_of_scanAt ho).2
  have hnames : inheritedNames load o.parent = fs.map Field.name := by
    rw [inheritedNames, hs]
  have hparent : Edit.parentName? o.parent = o.parent := Edit.parentName?_of_ne hp
  -- what is written are own fields, and it is read back
  have hmem : ∀ f ∈ Edit.kept (pairs (laidOver (ownFields o) fs)), f ∈ ownFields o := fun _ hf =>
    mem_own_of_mem_kept hown hnormal hfs hin hf
  have hkept : Writable (Edit.kept (pairs (laidOver (ownFields o) fs))) :=
    ⟨fun f hf => hw.names f (hmem f hf), fun f hf => hw.contents f (hmem f hf)⟩
  have hser := Edit.serialize_eq_ok o.parent hkept.names
  rw [hparent] at hser
  obtain ⟨o', hscan, hop, hout, hread⟩ := scan_written o.parent hkept (Edit.nodup_kept _)
    fun f hf => hnormal f (hmem f hf)
  have hnone : o'.parent = none → o'.regions ≠ [] ∧ o'.hasOutside = false := by
    intro hnone
    refine ⟨fun hr => ?_, hout⟩
    obtain ⟨f, hf, hv⟩ := hne.resolve_left (by rw [← hop, hnone]; simp)
    have hfield := mem_kept_of_mem_laidOver hown hnormal hfs hin hf hv
    rw [← hread, ownFields, hr] at hfield
    cases hfield
  obtain ⟨hd', -⟩ := resolve_structured.2 ⟨o', fs, hscan, hnone, by rw [hop]; exact hs, rfl⟩
  rw [hread, hop, laidOver_kept hown hnormal hfs hin] at hd'
  refine ⟨_, _, hser, hd', rfl, rfl, by rw [hnames], ?_⟩
  -- the fields that are shown then are written alike
  have hagain := kept_resaved hown hnormal hfs hin
  have hser' := Edit.serialize_eq_ok o.parent (hagain.symm ▸ hkept.names)
  rw [hagain, hparent] at hser'
  exact hser'

/-- The same for a template that fills one field of its parent, clears another and adds a third: the
cleared field is inherited again. -/
theorem resolve_serialize_submitted_cleared :
    let load : Loader := fun _ =>
      .ok "\x7b% block a %\x7d1\x7b% endblock %\x7d\x7b% block b %\x7d2\x7b% endblock %\x7d".toList
    let d : Descriptor := ⟨some "base".toList, .structured, ⟨[
      { name := "a".toList, placeholder := "1".toList, active := true },
      { name := "b".toList, placeholder := "2".toList, value := "x".toList, active := true },
      { name := "c".toList, value := "y".toList, active := true }]⟩⟩
    ∃ out d', Edit.serialize d.parent d.submitted = .ok out ∧ resolve load out = .ok d' ∧
      d'.mode = .structured ∧ d'.parent = d.parent ∧ d'.fields.toList = [
        { name := "a".toList, placeholder := "1".toList, active := false },
        { name := "b".toList, placeholder := "2".toList, value := "x".toList, active := true },
        { name := "c".toList, value := "y".toList, active := true }] ∧
      Edit.serialize d'.parent d'.submitted = .ok out := by
  intro load d
  have hd : resolve load ("\x7b% extends \"base\" %\x7d\x7b% block b %\x7dx\x7b% endblock %\x7d" ++
      "\x7b% block c %\x7dy\x7b% endblock %\x7d\x7b% block a %\x7d\x7b% endblock %\x7d").toList =
      .ok d := by decide +kernel
  obtain ⟨out, d', h⟩ := resolve_serialize_submitted (by decide +kernel) (by decide +kernel) hd rfl
    (by decide) (Or.inl rfl)
  have hfields : d.fields.toList.filterMap (resaved (inheritedNames load d.parent)) = [
      { name := "a".toList, placeholder := "1".toList, active := false },
      { name := "b".toList, placeholder := "2".toList, value := "x".toList, active := true },
      { name := "c".toList, value := "y".toList, active := true }] := by decide +kernel
  rw [hfields] at h
  exact ⟨out, d', h⟩

end Descriptor

end PageFields
