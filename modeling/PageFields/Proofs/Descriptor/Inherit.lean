import PageFields.Proofs.Descriptor.Resave

/-! # Descriptors: what a child template inherits

A template that names a parent has the fields that the parent passes on, in the order of the parent,
and after them the regions of its own that the parent lacks (`childNames`). The placeholder of a
field comes from the parent, and its value from the region of the template, if there is one
(`childField`). These two say what laying the own fields over the inherited ones gives
(`laidOver_eq_map`), and so all that a template shows of its parent (`resolve_inherits`). -/

namespace PageFields.Descriptor

/-- The names of the fields that a template passes on: those of its regions. With neither regions
nor a parent it passes on one field that holds its text. -/
def passedNames (o : Outline) : List Text :=
  if o.regions = [] ∧ o.parent = none then [contentField] else o.regions.map Region.name

/-- The names of the fields of a child template with the outline `o`, whose parent has the outline
`base`. -/
def childNames (o base : Outline) : List Text :=
  passedNames base ++ (o.regions.map Region.name).filter (!(passedNames base).contains ·)

/-- The field of a child template under a name; `baseText` is the text of the parent. -/
def childField (o base : Outline) (baseText name : Text) : Field where
  name := name
  placeholder := ((fieldsOf base baseText).lookup name).getD []
  value := ((o.regions.find? (·.name = name)).map fun r => Text.normalize r.content).getD []
  active := o.regions.any (·.name = name)

theorem map_fst_fieldsOf (o : Outline) (s : Text) :
    (fieldsOf o s).map Prod.fst = passedNames o := by
  unfold fieldsOf passedNames
  split
  · rfl
  · rw [List.map_map]
    rfl

theorem lookup_ownFields (o : Outline) (name : Text) : (ownFields o).lookup name =
    (o.regions.find? (·.name = name)).map fun r => Text.normalize r.content := by
  unfold ownFields
  induction o.regions with
  | nil => rfl
  | cons r rs ih =>
    rw [List.map_cons]
    by_cases h : r.name = name
    · subst h
      rw [List.lookup_cons_self, List.find?_cons_of_pos (by simp), Option.map_some]
    · rw [lookup_cons_of_ne (Ne.symm h), List.find?_cons_of_neg (by simpa using h), ih]

theorem any_region_eq (o : Outline) (name : Text) :
    o.regions.any (·.name = name) = ((ownFields o).lookup name).isSome := by
  rw [lookup_ownFields, Option.isSome_map, List.isSome_find?]

theorem filled_seed {o base : Outline} {baseText : Text} {f : Text × Text}
    (hd : ((fieldsOf base baseText).map Prod.fst).Nodup) (hf : f ∈ fieldsOf base baseText) :
    filled (ownFields o) (seed f) = childField o base baseText f.1 := by
  have hplace : ((fieldsOf base baseText).lookup f.1).getD [] = f.2 := by
    rw [lookup_of_mem hd hf, Option.getD_some]
  have hvalue := lookup_ownFields o f.1
  unfold childField filled
  rw [any_region_eq, hplace, ← hvalue]
  rw [show (seed f).name = f.1 from rfl]
  cases (ownFields o).lookup f.1 <;> rfl

theorem ownField_eq {o base : Outline} {baseText : Text} {f : Text × Text}
    (hd : ((ownFields o).map Prod.fst).Nodup) (hf : f ∈ ownFields o)
    (hnew : f.1 ∉ passedNames base) : ownField f = childField o base baseText f.1 := by
  have hplace : (fieldsOf base baseText).lookup f.1 = none :=
    lookup_eq_none (by rwa [map_fst_fieldsOf])
  have hvalue := lookup_ownFields o f.1
  rw [lookup_of_mem hd hf] at hvalue
  unfold childField ownField
  rw [any_region_eq, hplace, ← hvalue, lookup_of_mem hd hf]
  rfl

/-- **The fields laid over the inherited ones**, each told by its name. -/
theorem laidOver_eq_map {o base : Outline} {baseText : Text}
    (ho : ((ownFields o).map Prod.fst).Nodup)
    (hb : ((fieldsOf base baseText).map Prod.fst).Nodup) :
    laidOver (ownFields o) ((fieldsOf base baseText).map seed) =
      (childNames o base).map (childField o base baseText) := by
  have hnames : ((fieldsOf base baseText).map seed).map Field.name = passedNames base := by
    rw [List.map_map, ← map_fst_fieldsOf base baseText]
    rfl
  have hinherited : ((fieldsOf base baseText).map seed).map (filled (ownFields o)) =
      (passedNames base).map (childField o base baseText) := by
    rw [List.map_map, ← map_fst_fieldsOf base baseText, List.map_map]
    exact List.map_congr_left fun f hf => filled_seed hb hf
  have hnew : ((ownFields o).filter fun f => f.1 ∉ passedNames base).map ownField =
      ((o.regions.map Region.name).filter (!(passedNames base).contains ·)).map
        (childField o base baseText) := by
    rw [← map_fst_ownFields, List.filter_map, List.map_map]
    have hfilter : (ownFields o).filter (fun f => f.1 ∉ passedNames base) =
        (ownFields o).filter ((!(passedNames base).contains ·) ∘ Prod.fst) :=
      List.filter_congr fun f _ => by simp
    rw [hfilter]
    refine List.map_congr_left fun f hf => ?_
    obtain ⟨hf, hnew⟩ := List.mem_filter.1 hf
    exact ownField_eq ho hf (by simpa using hnew)
  rw [laidOver, hnames, hinherited, hnew, childNames, List.map_append]

theorem nodup_childNames {o base : Outline} (ho : (o.regions.map Region.name).Nodup)
    (hb : (passedNames base).Nodup) : (childNames o base).Nodup := by
  refine List.Nodup.append hb (ho.filter _) fun n hn hn' => ?_
  have := (List.mem_filter.1 hn').2
  exact absurd hn (by simpa using this)

theorem nodup_passedNames {s : Text} {o : Outline} (h : scan s = .ok o) :
    (passedNames o).Nodup := by
  rw [← map_fst_fieldsOf o s]
  exact Scan.nodup_extractFields (by rw [extractFields_eq, h]; rfl)

theorem resolve_of_scan_error {load : Loader} {s : Text} {e : Error} (h : scan s = .error e) :
    resolve load s = .error e := by
  have hs : (scanAt 0 s).outcome = .error e := h
  rw [resolve, resolveLogged, Logged.outcome_bind, hs]
  rfl

/-- The parent fails the template by its loader or by its own scan, or it passes its fields on. -/
theorem resolve_eq (load : Loader) {s parent : Text} {o : Outline} (ho : scan s = .ok o)
    (hp : o.parent = some parent) : resolve load s =
      load parent >>= fun baseText => scan baseText >>= fun base =>
        .ok ⟨some parent, .structured,
          ⟨(childNames o base).map (childField o base baseText)⟩⟩ := by
  have hd := (Scan.cut_of_scanAt ho).2
  rw [resolve_of_parent ho hp]
  cases load parent with
  | error e => rfl
  | ok baseText =>
    rw [ok_bind, ok_bind]
    cases hscan : scan baseText with
    | error e =>
      rw [extractFields_eq, hscan]
      rfl
    | ok base =>
      have hb : ((fieldsOf base baseText).map Prod.fst).Nodup :=
        map_fst_fieldsOf base baseText ▸ nodup_passedNames hscan
      rw [extractFields_eq, hscan, Except.map, ok_bind, ok_bind, foldl_fieldsOf s hp hd hb,
        laidOver_eq_map (by rwa [map_fst_ownFields]) hb]

/-- **What a template shows of its parent.** A template that cannot be scanned fails with the error
of the scan, whatever the loader. One without a parent is shown alike with every loader. One with a
parent depends on what the loader gives for the name of the parent and on nothing else that it
gives: it fails as the loader or the scan of the parent does, and else it has a field for each name
that the parent passes on, and for each further region of its own, each name once. -/
theorem resolve_inherits (load : Loader) (s : Text) :
    match scan s with
    | .error e => resolve load s = .error e
    | .ok o =>
      match o.parent with
      | none => ∃ d, ∀ other : Loader, resolve other s = .ok d
      | some parent =>
        (∀ other : Loader, other parent = load parent → resolve other s = resolve load s) ∧
        match load parent with
        | .error e => resolve load s = .error e
        | .ok baseText =>
          match scan baseText with
          | .error e => resolve load s = .error e
          | .ok base => (childNames o base).Nodup ∧ resolve load s =
              .ok ⟨some parent, .structured,
                ⟨(childNames o base).map (childField o base baseText)⟩⟩ := by
  cases ho : scan s with
  | error e => exact resolve_of_scan_error ho
  | ok o =>
    dsimp only
    cases hp : o.parent with
    | none => exact ⟨standalone o s, fun other => resolve_orphan ho hp⟩
    | some parent =>
      refine ⟨fun other hother => by rw [resolve_eq other ho hp, resolve_eq load ho hp, hother], ?_⟩
      have heq := resolve_eq load ho hp
      cases hload : load parent with
      | error e => rw [heq, hload, error_bind]
      | ok baseText =>
        dsimp only
        rw [hload, ok_bind] at heq
        cases hscan : scan baseText with
        | error e => rw [heq, hscan, error_bind]
        | ok base =>
          rw [hscan, ok_bind] at heq
          exact ⟨nodup_childNames (Scan.cut_of_scanAt ho).2 (nodup_passedNames hscan), heq⟩

end PageFields.Descriptor
