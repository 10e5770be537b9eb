import PageFields.Descriptor
import PageFields.Proofs.Edit.Kept

/-! # Descriptors: laying fields over others

Fields have different names, and then collecting and overlaying them have closed forms: collecting
changes nothing (`Fields.ofList_eq`), and overlaying fills the fields in their places and appends
those that are new (`foldl_overlay`). Of the fields that are overlaid, those with a content are what
an edit writes; laying these over the inherited fields again gives the fields as before, but for the
empty ones (`laidOver_kept`). -/

namespace PageFields

namespace Fields

/-! ### Collecting -/

theorem upsertList_of_not_mem {f : Field} {l : List Field} (h : f.name ∉ l.map Field.name) :
    upsertList f l = l ++ [f] := by
  induction l with
  | nil => rfl
  | cons g l ih =>
    simp only [List.map_cons, List.mem_cons, not_or] at h
    rw [upsertList, if_neg (Ne.symm h.1), ih h.2, List.cons_append]

theorem upsertList_append {f g : Field} {l : List Field} (hl : f.name ∉ l.map Field.name)
    (hg : g.name = f.name) (l' : List Field) : upsertList f (l ++ g :: l') = l ++ f :: l' := by
  induction l with
  | nil => rw [List.nil_append, upsertList, if_pos hg, List.nil_append]
  | cons x l ih =>
    simp only [List.map_cons, List.mem_cons, not_or] at hl
    rw [List.cons_append, upsertList, if_neg (Ne.symm hl.1), ih hl.2, List.cons_append]

theorem foldl_upsert {l l' : List Field} (h : ((l ++ l').map Field.name).Nodup) :
    l'.foldl upsert ⟨l⟩ = ⟨l ++ l'⟩ := by
  induction l' generalizing l with
  | nil => rw [List.foldl_nil, List.append_nil]
  | cons f l' ih =>
    have hf : f.name ∉ l.map Field.name := fun hm => by
      rw [List.map_append] at h
      exact List.disjoint_of_nodup_append h hm List.mem_cons_self
    have hstep : upsert ⟨l⟩ f = ⟨l ++ [f]⟩ := congrArg Fields.mk (upsertList_of_not_mem hf)
    rw [List.foldl_cons, hstep, ih (by rwa [List.append_assoc]), List.append_assoc]
    rfl

theorem ofList_eq {l : List Field} (h : (l.map Field.name).Nodup) : ofList l = ⟨l⟩ :=
  foldl_upsert (l := []) h

end Fields

namespace Descriptor

/-! ### Overlaying -/

/-- The field that a template defines itself under a new name. -/
def ownField (own : Text × Text) : Field := { name := own.1, value := own.2, active := true }

/-- The field with the content that the template gives it. -/
def filled (own : List (Text × Text)) (f : Field) : Field :=
  match own.lookup f.name with
  | some value => { f with value, active := true }
  | none => f

/-- The fields with the contents that the template gives them, and the new ones after them. -/
def laidOver (own : List (Text × Text)) (fs : List Field) : List Field :=
  fs.map (filled own) ++ (own.filter fun o => o.1 ∉ fs.map Field.name).map ownField

@[simp] theorem filled_name (own : List (Text × Text)) (f : Field) :
    (filled own f).name = f.name := by
  unfold filled
  split <;> rfl

theorem map_name_filled (own : List (Text × Text)) (fs : List Field) :
    (fs.map (filled own)).map Field.name = fs.map Field.name := by
  rw [List.map_map]
  exact List.map_congr_left fun f _ => filled_name own f

theorem filled_of_not_mem {own : List (Text × Text)} {f : Field}
    (h : f.name ∉ own.map Prod.fst) : filled own f = f := by
  unfold filled
  rw [lookup_eq_none h]

theorem filled_cons_of_ne {n v : Text} {f : Field} (h : f.name ≠ n) (own : List (Text × Text)) :
    filled ((n, v) :: own) f = filled own f := by
  unfold filled
  rw [lookup_cons_of_ne h]

theorem overlay_of_not_mem {fs : List Field} {o : Text × Text}
    (h : o.1 ∉ fs.map Field.name) : overlay ⟨fs⟩ o = ⟨fs ++ [ownField o]⟩ := by
  have hget : Fields.get? ⟨fs⟩ o.1 = none := by
    rw [Fields.get?, List.find?_eq_none]
    intro f hf hn
    exact h (List.mem_map.2 ⟨f, hf, by simpa using hn⟩)
  unfold overlay
  rw [hget]
  exact congrArg Fields.mk (Fields.upsertList_of_not_mem h)

/-- Giving one field a new content. -/
def refill (name value : Text) (f : Field) : Field :=
  if f.name = name then { f with value, active := true } else f

theorem map_refill_of_not_mem {name : Text} {fs : List Field} (h : name ∉ fs.map Field.name)
    (value : Text) : fs.map (refill name value) = fs := by
  refine (List.map_congr_left fun f hf => ?_).trans (List.map_id fs)
  rw [refill, if_neg]
  · rfl
  · rintro rfl
    exact h (List.mem_map_of_mem hf)

@[simp] theorem refill_name (name value : Text) (f : Field) :
    (refill name value f).name = f.name := by
  unfold refill
  split <;> rfl

theorem overlay_of_mem {fs : List Field} (hfs : (fs.map Field.name).Nodup) {name : Text}
    (h : name ∈ fs.map Field.name) (value : Text) :
    overlay ⟨fs⟩ (name, value) = ⟨fs.map (refill name value)⟩ := by
  obtain ⟨g, hg, rfl⟩ := List.mem_map.1 h
  obtain ⟨l, l', rfl⟩ := List.append_of_mem hg
  rw [List.map_append, List.map_cons, List.nodup_append_comm, List.cons_append,
    List.nodup_cons, List.mem_append, not_or] at hfs
  obtain ⟨⟨hl', hl⟩, -⟩ := hfs
  have hget : Fields.get? ⟨l ++ g :: l'⟩ g.name = some g := by
    have hnone : l.find? (·.name = g.name) = none := by
      rw [List.find?_eq_none]
      intro f hf hn
      exact hl (List.mem_map.2 ⟨f, hf, by simpa using hn⟩)
    rw [Fields.get?, List.find?_append, hnone]
    simp
  unfold overlay
  rw [hget]
  rw [List.map_append, List.map_cons, map_refill_of_not_mem hl, map_refill_of_not_mem hl', refill,
    if_pos rfl]
  let f : Field := { g with value, active := true }
  exact congrArg Fields.mk (Fields.upsertList_append (f := f) (g := g) hl rfl l')

theorem filled_cons_of_mem {own : List (Text × Text)} {name : Text} (h : name ∉ own.map Prod.fst)
    (value : Text) (f : Field) :
    filled own (refill name value f) = filled ((name, value) :: own) f := by
  by_cases hf : f.name = name
  · have hnone : filled own (refill name value f) = refill name value f :=
      filled_of_not_mem (by rw [refill_name, hf]; exact h)
    rw [hnone, refill, if_pos hf, filled, hf, List.lookup_cons_self]
  · rw [filled_cons_of_ne hf, refill, if_neg hf]

/-- **Overlaying** fills the fields in their places and appends the new ones. -/
theorem foldl_overlay {own : List (Text × Text)} (hown : (own.map Prod.fst).Nodup)
    {fs : List Field} (hfs : (fs.map Field.name).Nodup) :
    own.foldl overlay ⟨fs⟩ = ⟨laidOver own fs⟩ := by
  induction own generalizing fs with
  | nil =>
    have : fs.map (filled []) = fs := (List.map_congr_left fun _ _ => rfl).trans (List.map_id fs)
    rw [List.foldl_nil, laidOver, this]
    simp
  | cons o own ih =>
    obtain ⟨n, v⟩ := o
    rw [List.map_cons, List.nodup_cons] at hown
    rw [List.foldl_cons]
    by_cases hn : n ∈ fs.map Field.name
    · have hnames : (fs.map (refill n v)).map Field.name = fs.map Field.name := by
        rw [List.map_map]
        exact List.map_congr_left fun f _ => refill_name n v f
      rw [overlay_of_mem hfs hn, ih hown.2 (by rw [hnames]; exact hfs), laidOver, laidOver, hnames,
        List.map_map, List.filter_cons_of_neg (by simpa using hn)]
      congr 2
      exact List.map_congr_left fun f _ => filled_cons_of_mem hown.1 v f
    · have hfs' : ((fs ++ [ownField (n, v)]).map Field.name).Nodup := by
        rw [List.map_append]
        exact List.Nodup.append hfs (List.nodup_singleton _) (List.disjoint_singleton.2 hn)
      have hfill : fs.map (filled ((n, v) :: own)) = fs.map (filled own) :=
        List.map_congr_left fun f hf => filled_cons_of_ne (by
          rintro rfl
          exact hn (List.mem_map_of_mem hf)) own
      have hfilter : (own.filter fun o => o.1 ∉ (fs ++ [ownField (n, v)]).map Field.name) =
          own.filter fun o => o.1 ∉ fs.map Field.name := by
        refine List.filter_congr fun o ho => ?_
        have hne : o.1 ≠ n := by
          rintro rfl
          exact hown.1 (List.mem_map.2 ⟨o, ho, rfl⟩)
        simp [ownField, hne]
      rw [overlay_of_not_mem hn, ih hown.2 hfs', laidOver, laidOver, hfill, hfilter,
        List.filter_cons_of_pos (by simpa using hn), List.map_append, List.map_cons, List.map_nil,
        filled_of_not_mem hown.1, List.map_cons, List.append_assoc]
      rfl

theorem nodup_laidOver {own : List (Text × Text)} (hown : (own.map Prod.fst).Nodup)
    {fs : List Field} (hfs : (fs.map Field.name).Nodup) :
    ((laidOver own fs).map Field.name).Nodup := by
  have hnew : ((own.filter fun o => o.1 ∉ fs.map Field.name).map ownField).map Field.name =
      (own.filter fun o => o.1 ∉ fs.map Field.name).map Prod.fst := by
    rw [List.map_map]
    rfl
  rw [laidOver, List.map_append, map_name_filled, hnew]
  refine List.Nodup.append hfs (hown.sublist (List.filter_sublist.map _)) ?_
  intro n hn hn'
  obtain ⟨o, ho, rfl⟩ := List.mem_map.1 hn'
  have := (List.mem_filter.1 ho).2
  exact absurd hn (by simpa using this)

/-! ### What is written, laid over again -/

/-- The names and contents of fields, as an editor submits them. -/
def pairs (fs : List Field) : List (Text × Text) := fs.map fun f => (f.name, f.value)

/-- What an empty field becomes when the fields are written and read: the inherited field if there
is one, and else nothing. Other fields stay. -/
def resaved (inherited : List Text) (f : Field) : Option Field :=
  if f.active ∧ f.value = [] then
    if f.name ∈ inherited then some { f with active := false } else none
  else some f

theorem map_fst_pairs (fs : List Field) : (pairs fs).map Prod.fst = fs.map Field.name := by
  rw [pairs, List.map_map]
  rfl

theorem kept_pairs {fs : List Field} (h : (fs.map Field.name).Nodup) :
    Edit.kept (pairs fs) = Edit.nonempty (pairs fs) := by
  rw [Edit.kept, ← Edit.mergeRepeated_eq, Edit.mergeRepeated_of_nodup (by rwa [map_fst_pairs])]

theorem nonempty_pairs {fs : List Field} (h : ∀ f ∈ fs, Text.IsNormal f.value) :
    Edit.nonempty (pairs fs) = pairs (fs.filter fun f => f.value ≠ []) := by
  have hmap : (pairs fs).map (fun f => (f.1, Text.normalize f.2)) = pairs fs := by
    rw [pairs, List.map_map]
    exact List.map_congr_left fun f hf => by
      simp only [Function.comp_apply, Text.normalize_of_isNormal (h f hf)]
  rw [Edit.nonempty, hmap, pairs, List.filter_map, pairs]
  rfl

theorem filter_resaved (inherited : List Text) (fs : List Field) :
    pairs ((fs.filterMap (resaved inherited)).filter fun f => f.value ≠ []) =
      pairs (fs.filter fun f => f.value ≠ []) := by
  induction fs with
  | nil => rfl
  | cons f fs ih =>
    by_cases hv : f.value = []
    · have hf : ∀ g, resaved inherited f = some g → g.value = [] := by
        intro g hg
        unfold resaved at hg
        split at hg
        · split at hg
          · cases hg; exact hv
          · cases hg
        · cases hg; exact hv
      cases hr : resaved inherited f with
      | none => simpa [hr, hv] using ih
      | some g => simpa [hr, hf g hr, hv] using ih
    · have hr : resaved inherited f = some f := by rw [resaved, if_neg fun h => hv h.2]
      simp only [List.filterMap_cons, hr, List.filter_cons, hv, ne_eq, not_false_eq_true,
        decide_true, if_true]
      rw [pairs, pairs, List.map_cons, List.map_cons]
      exact congrArg _ ih

theorem lookup_pairs {fs : List Field} (h : (fs.map Field.name).Nodup) {f : Field} (hf : f ∈ fs) :
    (pairs (fs.filter fun f => f.value ≠ [])).lookup f.name =
      if f.value = [] then none else some f.value := by
  induction fs with
  | nil => cases hf
  | cons g fs ih =>
    rw [List.map_cons, List.nodup_cons] at h
    rcases List.mem_cons.1 hf with rfl | hf
    · by_cases hv : f.value = []
      · rw [if_pos hv, List.filter_cons_of_neg (by simpa using hv)]
        refine lookup_eq_none fun hm => h.1 ?_
        rw [map_fst_pairs] at hm
        exact (List.filter_sublist.map _).subset hm
      · rw [if_neg hv, List.filter_cons_of_pos (by simpa using hv), pairs, List.map_cons,
          List.lookup_cons_self]
    · have hne : f.name ≠ g.name := by
        intro hn
        exact h.1 (hn ▸ List.mem_map_of_mem hf)
      by_cases hv : g.value = []
      · rw [List.filter_cons_of_neg (by simpa using hv), ih h.2 hf]
      · rw [List.filter_cons_of_pos (by simpa using hv), pairs, List.map_cons,
          lookup_cons_of_ne hne, ← pairs, ih h.2 hf]

/-- The field is as it is inherited: not defined by the template itself. -/
structure IsInherited (f : Field) : Prop where
  inactive : f.active = false
  empty : f.value = []

theorem mem_own_of_mem_laidOver {own : List (Text × Text)} {fs : List Field}
    (hin : ∀ f ∈ fs, IsInherited f) {f : Field} (hf : f ∈ laidOver own fs) (hv : f.value ≠ []) :
    (f.name, f.value) ∈ own := by
  rcases List.mem_append.1 hf with hf | hf
  · obtain ⟨g, hg, rfl⟩ := List.mem_map.1 hf
    rw [filled_name]
    unfold filled at hv ⊢
    split at hv
    · rename_i v hl
      exact mem_of_lookup hl
    · exact absurd (hin g hg).empty hv
  · obtain ⟨o, ho, rfl⟩ := List.mem_map.1 hf
    exact (List.mem_filter.1 ho).1

theorem isNormal_laidOver {own : List (Text × Text)} (hnormal : ∀ o ∈ own, Text.IsNormal o.2)
    {fs : List Field} (hin : ∀ f ∈ fs, IsInherited f) :
    ∀ f ∈ laidOver own fs, Text.IsNormal f.value := by
  intro f hf
  by_cases hv : f.value = []
  · rw [hv]
    exact Text.isNormal_nil
  · exact hnormal _ (mem_own_of_mem_laidOver hin hf hv)

/-- An inherited field is filled again with what was written of it. -/
theorem resaved_filled {own written : List (Text × Text)} {inherited : List Text} {f : Field}
    (hf : IsInherited f) (hn : f.name ∈ inherited) (hw : written.lookup f.name =
      if (filled own f).value = [] then none else some (filled own f).value) :
    resaved inherited (filled own f) = some (filled written f) := by
  obtain ⟨name, placeholder, value, active⟩ := f
  obtain ⟨ha, hv⟩ := hf
  simp only at ha hv hn
  subst ha hv
  cases hl : own.lookup name with
  | none =>
    have hfill : filled own ⟨name, placeholder, [], false⟩ = ⟨name, placeholder, [], false⟩ := by
      simp only [filled, hl]
    rw [hfill] at hw ⊢
    simp only [filled, resaved, if_true] at hw ⊢
    simp [hw]
  | some v =>
    have hfill : filled own ⟨name, placeholder, [], false⟩ = ⟨name, placeholder, v, true⟩ := by
      simp only [filled, hl]
    rw [hfill] at hw ⊢
    by_cases hv : v = []
    · subst hv
      simp only [filled, resaved, if_true] at hw ⊢
      simp [hw, hn]
    · simp only [filled, resaved, hv, if_false] at hw ⊢
      simp [hw]

theorem filterMap_resaved_new {own : List (Text × Text)} {inherited : List Text}
    (h : ∀ o ∈ own, o.1 ∉ inherited) : (own.map ownField).filterMap (resaved inherited) =
      (pairs ((own.map ownField).filter fun f => f.value ≠ [])).map ownField := by
  induction own with
  | nil => rfl
  | cons o own ih =>
    have ih := ih fun x hx => h x (List.mem_cons_of_mem _ hx)
    have ho : (ownField o).name ∉ inherited := h o List.mem_cons_self
    rw [List.map_cons]
    by_cases hv : o.2 = []
    · have hr : resaved inherited (ownField o) = none := by
        rw [resaved, if_pos ⟨rfl, hv⟩, if_neg ho]
      rw [List.filterMap_cons_none hr, ih, List.filter_cons_of_neg (by simp [ownField, hv])]
    · have hr : resaved inherited (ownField o) = some (ownField o) := by
        rw [resaved, if_neg fun h => hv h.2]
      rw [List.filterMap_cons_some hr, ih, List.filter_cons_of_pos (by simp [ownField, hv])]
      rfl

section Saved

variable {own : List (Text × Text)} (hown : (own.map Prod.fst).Nodup)
variable (hnormal : ∀ o ∈ own, Text.IsNormal o.2)
variable {fs : List Field} (hfs : (fs.map Field.name).Nodup) (hin : ∀ f ∈ fs, IsInherited f)

include hown hnormal hfs hin

theorem kept_laidOver : Edit.kept (pairs (laidOver own fs)) =
    pairs ((laidOver own fs).filter fun f => f.value ≠ []) := by
  rw [kept_pairs (nodup_laidOver hown hfs), nonempty_pairs (isNormal_laidOver hnormal hin)]

theorem mem_own_of_mem_kept {f : Text × Text} (hf : f ∈ Edit.kept (pairs (laidOver own fs))) :
    f ∈ own := by
  rw [kept_laidOver hown hnormal hfs hin] at hf
  obtain ⟨g, hg, rfl⟩ := List.mem_map.1 hf
  obtain ⟨hg, hv⟩ := List.mem_filter.1 hg
  exact mem_own_of_mem_laidOver hin hg (by simpa using hv)

theorem mem_kept_of_mem_laidOver {f : Field} (hf : f ∈ laidOver own fs) (hv : f.value ≠ []) :
    (f.name, f.value) ∈ Edit.kept (pairs (laidOver own fs)) := by
  rw [kept_laidOver hown hnormal hfs hin]
  exact List.mem_map_of_mem (List.mem_filter.2 ⟨hf, by simpa using hv⟩)

/-- **What is written of overlaid fields, laid over the inherited ones again**, gives the fields as
before but for the empty ones. -/
theorem laidOver_kept : laidOver (Edit.kept (pairs (laidOver own fs))) fs =
    (laidOver own fs).filterMap (resaved (fs.map Field.name)) := by
  have hnd := nodup_laidOver hown hfs
  rw [kept_laidOver hown hnormal hfs hin]
  set written := pairs ((laidOver own fs).filter fun f => f.value ≠ []) with hw
  have hfilled : fs.map (filled written) =
      (fs.map (filled own)).filterMap (resaved (fs.map Field.name)) := by
    rw [List.filterMap_map, ← List.filterMap_eq_map]
    refine List.filterMap_congr fun f hf => ?_
    have hmem : filled own f ∈ laidOver own fs :=
      List.mem_append_left _ (List.mem_map_of_mem hf)
    have hlookup := lookup_pairs hnd hmem
    rw [filled_name] at hlookup
    exact (resaved_filled (hin f hf) (List.mem_map_of_mem hf) hlookup).symm
  have hnew : ∀ o ∈ own.filter (fun o => o.1 ∉ fs.map Field.name), o.1 ∉ fs.map Field.name :=
    fun o ho => by simpa using (List.mem_filter.1 ho).2
  rw [laidOver, hfilled, laidOver, List.filterMap_append, filterMap_resaved_new hnew]
  congr 2
  -- of what was written, the inherited names go to the first part and the new ones to the second
  rw [hw, laidOver, List.filter_append, pairs, List.map_append, List.filter_append, ← pairs,
    ← pairs]
  have hfirst : (pairs ((fs.map (filled own)).filter fun f => f.value ≠ [])).filter
      (fun o => o.1 ∉ fs.map Field.name) = [] := by
    rw [List.filter_eq_nil_iff]
    intro o ho
    obtain ⟨f, hf, rfl⟩ := List.mem_map.1 ho
    obtain ⟨g, hg, rfl⟩ := List.mem_map.1 (List.mem_of_mem_filter hf)
    rw [filled_name]
    simpa using ⟨g, hg, rfl⟩
  have hsecond : (pairs (((own.filter fun o => o.1 ∉ fs.map Field.name).map ownField).filter
      fun f => f.value ≠ [])).filter (fun o => o.1 ∉ fs.map Field.name) =
      pairs (((own.filter fun o => o.1 ∉ fs.map Field.name).map ownField).filter
        fun f => f.value ≠ []) := by
    rw [List.filter_eq_self]
    intro o ho
    obtain ⟨f, hf, rfl⟩ := List.mem_map.1 ho
    obtain ⟨g, hg, rfl⟩ := List.mem_map.1 (List.mem_of_mem_filter hf)
    exact decide_eq_true (hnew g hg)
  rw [hfirst, hsecond, List.nil_append]

theorem kept_resaved :
    Edit.kept (pairs ((laidOver own fs).filterMap (resaved (fs.map Field.name)))) =
      Edit.kept (pairs (laidOver own fs)) := by
  have hown' := Edit.nodup_kept (pairs (laidOver own fs))
  have hnormal' : ∀ f ∈ Edit.kept (pairs (laidOver own fs)), Text.IsNormal f.2 := fun f hf =>
    hnormal f (mem_own_of_mem_kept hown hnormal hfs hin hf)
  rw [← laidOver_kept hown hnormal hfs hin, kept_laidOver hown' hnormal' hfs hin,
    laidOver_kept hown hnormal hfs hin, filter_resaved, kept_laidOver hown hnormal hfs hin]

end Saved

end Descriptor

end PageFields
