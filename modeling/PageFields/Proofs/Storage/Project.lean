import PageFields.Proofs.FileTree.Agree
import PageFields.Proofs.Storage.Guard
import PageFields.Storage.Templates

/-! # Storage: what is read and written of one project

A path leads `Into` a project if the name of the project is its first step; it still does with any
name joined to it, unless it gets absolute (`into_join`). A storage takes no absolute path and none
with a step up, so that all it reads at such a path is in the project: two trees that agree on the
project give the same (`read_congr`, `list_congr`, `entryKind_congr`), and so do all loaders and
listings of parent templates that are made of them. A write at such a path has the same outcome in
both, and changes the same place in the project (`write_congr`). -/

namespace PageFields.Storage

open PageFields.FileTree PageFields.Path

/-! ### Paths into a project -/

/-- The path leads into the project, or it is absolute, so that no storage takes it. -/
def Into (project path : Text) : Prop :=
  isAbsolute path = true ∨ ∃ down, steps path = .name project :: down

theorem into_join {project path : Text} (h : Into project path) (p : Text) :
    Into project (join path p) := by
  by_cases hp : isAbsolute p = true
  · rw [join, if_pos hp]
    exact .inl hp
  · rcases h with h | ⟨down, hdown⟩
    · exact .inl (isAbsolute_join h p)
    · exact .inr ⟨down ++ steps p, by rw [steps_join path (by simpa using hp), hdown]; rfl⟩

theorem into_ofNames {project : Text} {rest : List Text}
    (h : ∀ n ∈ project :: rest, IsName n) : Into project (ofNames (project :: rest)) :=
  .inr ⟨rest.map .name, steps_ofNames h⟩

theorem into_self {project : Text} (h : IsName project) : Into project project :=
  show Into project (ofNames [project]) from
    into_ofNames fun n hn => by rwa [List.mem_singleton.1 hn]

variable {st : Storage} {project path full : Text}

/-- **A path that a storage takes** leads down from its directory. -/
theorem steps_of_resolve (h : st.resolve path = .ok full) :
    steps full = steps st.root ++ steps path ∧ isAbsolute path = false ∧
      ∀ step ∈ steps path, IsDown step := by
  have hplain : ∀ c ∈ components path, c ≠ .root ∧ c ≠ .up := by
    unfold resolve at h
    split at h
    · cases h
    · rename_i hany
      simpa using hany
  have hdown : ∀ step ∈ steps path, IsDown step := by
    intro step hstep
    by_cases hhere : step = .here
    · subst hhere
      exact ⟨by simp, by simp⟩
    · exact hplain step (mem_components hstep hhere)
  have habs : isAbsolute path = false := by
    by_contra habs
    have habs : isAbsolute path = true := by simpa using habs
    refine (hdown .root ?_).1 rfl
    rw [steps_eq, if_pos habs]
    exact List.mem_cons_self
  refine ⟨?_, habs, hdown⟩
  rw [resolve_eq_ok h, steps_join st.root habs]

/-! ### Two trees with the same project -/

/-- The directory of the storage is at this place of the tree. -/
structure HasRoot (st : Storage) (t : FileTree) (home : List Text) : Prop where
  storable : t.Storable
  walk_eq : t.walk [] (steps st.root) = .ok home
  directory : t.entry? home = some .directory

/-- Two trees with the directory of the storage at the same place, in which the same is at and below
the name of a project. -/
structure SameProject (st : Storage) (project : Text) (home : List Text) (t u : FileTree) :
    Prop where
  left : HasRoot st t home
  right : HasRoot st u home
  agree : Agree t u (home ++ [project])

namespace SameProject

variable {t u : FileTree} {home : List Text} (h : SameProject st project home t u)

include h

/-- **A walk into the project leads to the same place in it.** -/
theorem walk_congr {down : List Path.Component} (hdown : ∀ step ∈ down, IsDown step) :
    t.walk [] (steps st.root ++ .name project :: down) =
        u.walk [] (steps st.root ++ .name project :: down) ∧
      ∀ next, u.walk [] (steps st.root ++ .name project :: down) = .ok next →
        home ++ [project] <+: next := by
  have hsome : (t.get? (home ++ [project])).isSome = (u.get? (home ++ [project])).isSome := by
    rw [Bool.eq_iff_iff, isSome_get?, isSome_get?, h.agree.entry?_place]
  obtain ⟨heq, hbelow⟩ := FileTree.walk_congr h.agree hdown
  rw [walk_append_eq, walk_append_eq, h.left.walk_eq, h.right.walk_eq, ok_bind, ok_bind,
    walk_name h.left.directory, walk_name h.right.directory, hsome, heq]
  refine ⟨rfl, fun next hnext => ?_⟩
  split at hnext
  · cases hnext
  · split at hnext
    · exact hbelow next (heq.trans hnext)
    · cases hnext

theorem stat_congr (hp : Into project path) (hfull : st.resolve path = .ok full) {r : Route}
    (hr : Route.ofText full = .ok r) : SameOutcome (t.stat r) (u.stat r) := by
  obtain ⟨hsteps, habs, hdown⟩ := steps_of_resolve hfull
  obtain ⟨down, hproject⟩ : ∃ down, steps path = .name project :: down := by
    refine hp.resolve_left ?_
    simp [habs]
  rw [hproject, List.forall_mem_cons] at hdown
  have hroute : r.steps = steps st.root ++ .name project :: down := by
    rw [steps_of_ofText hr, hsteps, hproject]
  obtain ⟨heq, hbelow⟩ := h.walk_congr hdown.2
  rw [← hroute] at heq hbelow
  exact FileTree.stat_congr h.agree heq hbelow

theorem symm : SameProject st project home u t := ⟨h.right, h.left, h.agree.symm⟩

/-! ### Reading -/

variable (hp : Into project path)

include hp

/-- **What is read in the project is the same.** -/
theorem read_congr : st.read t path = st.read u path := by
  unfold read
  cases hroute : st.route path with
  | error e => rfl
  | ok r =>
    obtain ⟨full, hfull, hr⟩ := route_eq_ok.1 hroute
    have hstat := h.stat_congr hp hfull hr
    rw [ok_bind, ok_bind, readFile_congr hstat]
    rcases hstat with ⟨fault, ht, hu⟩ | ⟨a, b, ht, hu, hab⟩
    · rw [ht, hu]
    · have hsize : sizeOf a = sizeOf b := by
        obtain rfl | ⟨es, es', rfl, rfl⟩ := hab.eq_or_directories
        · rfl
        · rfl
      rw [ht, hu]
      change (if st.maxFileSize < sizeOf a then _ else _) =
        if st.maxFileSize < sizeOf b then _ else _
      rw [hsize]

theorem list_congr : st.list t path = st.list u path := by
  unfold list
  cases hroute : st.route path with
  | error e => rfl
  | ok r =>
    obtain ⟨full, hfull, hr⟩ := route_eq_ok.1 hroute
    rw [ok_bind, ok_bind, readDirectory_congr (h.stat_congr hp hfull hr)]

theorem entryKind_congr : st.entryKind t path = st.entryKind u path := by
  unfold entryKind
  cases hfull : st.resolve path with
  | error e => rfl
  | ok full =>
    rw [ok_bind, ok_bind]
    cases hr : Route.ofText full with
    | error fault => rfl
    | ok r =>
      rcases h.stat_congr hp hfull hr with ⟨fault, ht, hu⟩ | ⟨a, b, ht, hu, hab⟩
      · simp only [Except.bind, ht, hu]
      · simp only [Except.bind, ht, hu]
        obtain rfl | ⟨es, es', rfl, rfl⟩ := hab.eq_or_directories
        · rfl
        · rfl

omit hp in
theorem templateLoader_congr (hproject : IsName project) :
    st.templateLoader t project = st.templateLoader u project := by
  funext name
  unfold templateLoader
  rw [h.read_congr (into_join (into_self hproject) name)]

omit hp in
theorem availableTemplates_congr (hproject : IsName project) (templateDir : Text)
    (current : Option Text) : st.availableTemplates t project templateDir current =
      st.availableTemplates u project templateDir current := by
  have hdir := into_join (into_self hproject) templateDir
  unfold availableTemplates
  simp only [h.list_congr hdir, h.entryKind_congr (into_join hdir _)]

end SameProject

/-! ### Writing -/

/-- Two trees have changed in the project only, and have the same there. -/
structure ChangedAlike (project : Text) (home : List Text) (t t' u u' : FileTree) : Prop where
  agree : ∀ q, t'.entry? (home ++ project :: q) = u'.entry? (home ++ project :: q)
  left : ∀ place, ¬ home ++ [project] <+: place → t'.entry? place = t.entry? place
  right : ∀ place, ¬ home ++ [project] <+: place → u'.entry? place = u.entry? place

/-- Two runs, one on each tree, have the same outcome and change the trees alike. -/
structure SameEffect {α : Type} (project : Text) (home : List Text) (t u : FileTree)
    (x y : Except Error α × FileTree) : Prop where
  outcome : x.1 = y.1
  changed : ChangedAlike project home t x.2 u y.2

variable {t u t' u' : FileTree} {home : List Text} {o : Occasion}

theorem SameEffect.map {α β : Type} {x y : Except Error α × FileTree}
    (h : SameEffect project home t u x y) (f : α → β) :
    SameEffect project home t u (x.1.map f, x.2) (y.1.map f, y.2) :=
  ⟨congrArg (Except.map f) h.outcome, h.changed⟩

namespace SameProject

variable (h : SameProject st project home t u)

include h

theorem changedAlike : ChangedAlike project home t t u u :=
  ⟨fun q => by simpa using h.agree.entry?_eq q, fun _ _ => rfl, fun _ _ => rfl⟩

/-- Trees that are changed by one rule, in the project only, have changed alike. -/
theorem changedAlike_of_rule (rule : List Text → Option Entry → Option Entry)
    (ht : ∀ p, t'.entry? p = rule p (t.entry? p)) (hu : ∀ p, u'.entry? p = rule p (u.entry? p))
    (hout : ∀ p old, ¬ home ++ [project] <+: p → rule p old = old) :
    ChangedAlike project home t t' u u' := by
  refine ⟨fun q => ?_, fun place hp => ?_, fun place hp => ?_⟩
  · rw [ht, hu, h.changedAlike.agree q]
  · rw [ht, hout place _ hp]
  · rw [hu, hout place _ hp]

theorem sameEffect {α : Type} (x : Except Error α) :
    SameEffect project home t u (x, t) (x, u) := ⟨rfl, h.changedAlike⟩

theorem above_congr {init rest : List Text} {last : Text}
    (hinit : project :: rest = init ++ [last]) :
    t.walk [] (steps st.root ++ init.map .name) = u.walk [] (steps st.root ++ init.map .name) ∧
      ∀ dir, u.walk [] (steps st.root ++ init.map .name) = .ok dir →
        t.entry? dir = u.entry? dir := by
  cases init with
  | nil =>
    rw [List.map_nil, List.append_nil, h.left.walk_eq, h.right.walk_eq]
    refine ⟨rfl, fun dir hdir => ?_⟩
    cases hdir
    rw [h.left.directory, h.right.directory]
  | cons m init =>
    cases (List.cons.inj hinit).1
    have hdown : ∀ step ∈ init.map Path.Component.name, IsDown step := by
      intro step hstep
      obtain ⟨n, -, rfl⟩ := List.mem_map.1 hstep
      exact ⟨by simp, by simp⟩
    obtain ⟨heq, hbelow⟩ := h.walk_congr hdown
    refine ⟨heq, fun dir hdir => ?_⟩
    obtain ⟨q, rfl⟩ := hbelow dir hdir
    exact h.agree.entry?_eq q

end SameProject

section Writing

variable {init rest : List Text} {last : Text} (hinit : project :: rest = init ++ [last])
  (hnames : ∀ n ∈ project :: rest, IsName n)
  (hfull : st.resolve (ofNames (project :: rest)) = .ok full)

include hinit hnames hfull

theorem steps_full : steps full = steps st.root ++ init.map .name ++ [.name last] := by
  rw [(steps_of_resolve hfull).1, steps_ofNames hnames, hinit, List.map_append, List.append_assoc]
  rfl

theorem spot_place (ht : HasRoot st t home) {s : Spot t} (hs : Spelled full s) :
    s.place = home ++ project :: rest := by
  obtain ⟨habove, hname⟩ := hs.eq_of_steps (steps_full hinit hnames hfull)
  have hwalk := s.walk_eq
  rw [habove, walk_append_eq, ht.walk_eq, ok_bind] at hwalk
  rw [Spot.place, eq_append_of_walk hwalk, hname, hinit, List.append_assoc]

theorem SameProject.not_nowhere (h : SameProject st project home t u) {s : Spot t}
    (hs : Spelled full s) {base n : Text} (hbase : IsBase base) (hn : IsName n)
    (hp : full = base ++ n) {fault : IoFault} :
    (u.walk [] (steps base) >>= u.directoryAt) ≠ .error fault := by
  obtain ⟨heq, hentry⟩ := h.above_congr hinit
  have hsteps := steps_full hinit hnames hfull
  have hwalk := s.walk_eq
  obtain ⟨habove, -⟩ := hs.eq_of_steps hsteps
  rw [habove, heq] at hwalk
  rw [hp, steps_append hbase hn] at hsteps
  have hdir := hentry s.dir hwalk
  rw [get?_eq_directory_iff.1 ⟨_, s.get?_eq⟩] at hdir
  obtain ⟨es, hes⟩ := get?_eq_directory_iff.2 hdir.symm
  rw [(List.append_inj' hsteps rfl).1, hwalk, ok_bind, directoryAt_eq_ok.2 hes]
  exact nofun

end Writing

/-! ### Writing at two spots -/

theorem ne_of_outside {place : List Text} (h : ¬ home ++ [project] <+: place) (q : List Text) :
    place ≠ home ++ project :: q := by
  rintro rfl
  exact h ⟨q, by simp⟩

theorem stop?_congr {s : Spot t} {s' : Spot u} (hs : Spelled full s) (hs' : Spelled full s')
    (hfree : s.IsFree) (hfree' : s'.IsFree)
    (hbeside : (Text.utf8 (temporaryPath o full)).size ≤ Route.lengthLimit →
      (temporary o s').blocked? = (temporary o s).blocked?) (path : Text) :
    stop? o path full (temporary o s').blocked? s'.blocked? =
      stop? o path full (temporary o s).blocked? s.blocked? := by
  rw [s.blocked?_eq_none.2 ⟨hs.fits, hfree⟩, s'.blocked?_eq_none.2 ⟨hs'.fits, hfree'⟩]
  unfold stop?
  split
  · rfl
  · rename_i hpath
    rw [hbeside (Nat.le_of_not_lt hpath)]

section Spots

variable {rest : List Text} {s : Spot t} {s' : Spot u} (h : SameProject st project home t u)
  (hnames : ∀ n ∈ project :: rest, IsName n)
  (hfull : st.resolve (ofNames (project :: rest)) = .ok full) (hs : Spelled full s)
  (hs' : Spelled full s')

include h hnames hfull hs hs'

theorem spots_eq : s'.name = s.name ∧ s.place = home ++ project :: rest ∧
    s'.place = home ++ project :: rest := by
  have hinit := (List.dropLast_concat_getLast (List.cons_ne_nil project rest)).symm
  have hsteps := steps_full hinit hnames hfull
  exact ⟨(hs'.eq_of_steps hsteps).2.trans (hs.eq_of_steps hsteps).2.symm,
    spot_place hinit hnames hfull h.left hs, spot_place hinit hnames hfull h.right hs'⟩

/-- Below the name of the project, so are the spots of their temporary files, and the same is there.
-/
theorem temporary_eq (hrest : rest ≠ []) (o : Occasion) : ∃ q,
    (temporary o s).place = home ++ project :: q ∧ (temporary o s').place = home ++ project :: q ∧
      (temporary o s').blocked? = (temporary o s).blocked? := by
  obtain ⟨hname, hplace, hplace'⟩ := spots_eq h hnames hfull hs hs'
  have hdir : s.dir = home ++ project :: rest.dropLast := by
    rw [← List.dropLast_concat_getLast hrest, ← List.cons_append, ← List.append_assoc] at hplace
    rw [(List.append_inj' hplace rfl).1]
  have hdir' : s'.dir = s.dir := (List.append_inj' (hplace'.trans hplace.symm) rfl).1
  have hat : (temporary o s).place =
      home ++ project :: (rest.dropLast ++ [temporaryName o s.name]) := by
    show s.dir ++ [temporaryName o s.name] = _
    rw [hdir, List.append_assoc, List.cons_append]
  have hat' : (temporary o s').place = (temporary o s).place := by
    show s'.dir ++ [temporaryName o s'.name] = s.dir ++ [temporaryName o s.name]
    rw [hdir', hname]
  refine ⟨_, hat, hat'.trans hat, ?_⟩
  unfold Spot.blocked?
  rw [show (temporary o s').name = (temporary o s).name from congrArg (temporaryName o) hname,
    hat', hat, h.changedAlike.agree]

variable (hfree : s.IsFree) (hfree' : s'.IsFree)

include hfree hfree'

/-- A write whose temporary file takes no other's place has the same effect in both trees. -/
theorem write_congr_of_tidy (ht : Tidy o t full) (hu : Tidy o u full) (content : Text) :
    SameEffect project home t u (st.write t (ofNames (project :: rest)) content o)
      (st.write u (ofNames (project :: rest)) content o) := by
  obtain ⟨hname, hplace, hplace'⟩ := spots_eq h hnames hfull hs hs'
  have hbeside : (Text.utf8 (temporaryPath o full)).size ≤ Route.lengthLimit →
      (temporary o s').blocked? = (temporary o s).blocked? := by
    intro hpath
    rw [hs.blocked?_temporary ht.unused hpath, hs'.blocked?_temporary hu.unused hpath,
      show (temporary o s').name = (temporary o s).name from congrArg (temporaryName o) hname]
  rw [write_eq hs hfull, write_eq hs' hfull, stopped_eq hs ht, stopped_eq hs' hu,
    stop?_congr hs hs' hfree hfree' hbeside]
  cases hstop : stop? o (ofNames (project :: rest)) full (temporary o s).blocked? s.blocked? with
  | some e => exact h.sameEffect _
  | none =>
    obtain ⟨hroom, -⟩ := hs.room_of_stop? hstop
    have hleft := entry?_written hfree (hs.lookup_temporary hroom ht.unused) content
    have hright := entry?_written hfree' (hs'.lookup_temporary hroom hu.unused) content
    rw [hplace] at hleft
    rw [hplace'] at hright
    refine ⟨rfl, h.changedAlike_of_rule (fun p old =>
      if p = home ++ project :: rest then some (.file (Text.utf8 content)) else old)
      hleft hright fun p old hp => ?_⟩
    rw [if_neg (ne_of_outside hp rest)]

/-- A write below the name of the project has the same effect in both trees, whatever is at the
temporary name. -/
theorem write_congr_of_ne_nil (hrest : rest ≠ []) (content : Text) :
    SameEffect project home t u (st.write t (ofNames (project :: rest)) content o)
      (st.write u (ofNames (project :: rest)) content o) := by
  obtain ⟨-, hplace, hplace'⟩ := spots_eq h hnames hfull hs hs'
  obtain ⟨q, hq, hq', hbeside⟩ := temporary_eq h hnames hfull hs hs' hrest o
  rw [write_eq hs hfull, write_eq hs' hfull, stop?_congr hs hs' hfree hfree' fun _ => hbeside]
  cases hstop : stop? o (ofNames (project :: rest)) full (temporary o s).blocked? s.blocked? with
  | some e =>
    have hleft := entry?_stopped o full s content
    have hright := entry?_stopped o full s' content
    rw [hq] at hleft
    rw [hq', hbeside, ← h.changedAlike.agree] at hright
    refine ⟨rfl, h.changedAlike_of_rule (fun p old =>
      if Route.lengthLimit < (Text.utf8 (temporaryPath o full)).size then old
      else if p = home ++ project :: q then leftover o (temporary o s).blocked?
        (Text.utf8 content) (t.entry? (home ++ project :: q))
      else old) hleft hright fun p old hp => ?_⟩
    rw [if_neg (ne_of_outside hp q), ite_self]
  | none =>
    obtain ⟨-, hb⟩ := hs.room_of_stop? hstop
    obtain ⟨-, hb'⟩ := hs'.room_of_stop? (hbeside ▸ hstop)
    have hleft := entry?_written_of_isFree hfree hb content
    have hright := entry?_written_of_isFree hfree' hb' content
    rw [hplace, hq] at hleft
    rw [hplace', hq'] at hright
    refine ⟨rfl, h.changedAlike_of_rule (fun p old =>
      if p = home ++ project :: rest then some (.file (Text.utf8 content))
      else if p = home ++ project :: q then none else old) hleft hright fun p old hp => ?_⟩
    rw [if_neg (ne_of_outside hp rest), if_neg (ne_of_outside hp q)]

end Spots

/-- **A write in the project has the same outcome in both trees**, and changes them alike. Only the
temporary file beside the project itself is outside, and must take no other's place in either. -/
theorem write_congr (h : SameProject st project home t u) {rest : List Text}
    (hnames : ∀ n ∈ project :: rest, IsName n)
    (hfull : st.resolve (ofNames (project :: rest)) = .ok full)
    (htidy : rest = [] → Tidy o t full ∧ Tidy o u full)
    (hread : (∃ text, st.read t (ofNames (project :: rest)) = .ok text) ∨
      ∃ q, st.read t (ofNames (project :: rest)) = .error (.notFound q)) (content : Text) :
    SameEffect project home t u (st.write t (ofNames (project :: rest)) content o)
      (st.write u (ofNames (project :: rest)) content o) := by
  have hne : project :: rest ≠ [] := List.cons_ne_nil project rest
  have hinit := (List.dropLast_concat_getLast hne).symm
  have hread' := hread
  rw [h.read_congr (into_ofNames hnames)] at hread'
  rcases isFree_cases hnames hne hfull hread with ⟨s, hs, hfree⟩ | ⟨b, m, hb, hm, hbm, hnul, hdir⟩
  · rcases isFree_cases hnames hne hfull hread' with
      ⟨s', hs', hfree'⟩ | ⟨b', m', hb', hm', hbm', -, hdir'⟩
    · by_cases hrest : rest = []
      · exact write_congr_of_tidy h hnames hfull hs hs' hfree hfree' (htidy hrest).1
          (htidy hrest).2 content
      · exact write_congr_of_ne_nil h hnames hfull hs hs' hfree hfree' hrest content
    · exact absurd hdir' (h.not_nowhere hinit hnames hfull hs hb' hm' hbm')
  · rcases isFree_cases hnames hne hfull hread' with
      ⟨s', hs', -⟩ | ⟨b', m', hb', hm', hbm', hnul', hdir'⟩
    · exact absurd hdir (h.symm.not_nowhere hinit hnames hfull hs' hb hm hbm)
    · rw [write_of_nowhere hb hm (hbm ▸ hfull) (hbm ▸ hnul) hdir,
        write_of_nowhere hb' hm' (hbm' ▸ hfull) (hbm' ▸ hnul') hdir', ← hbm, ← hbm']
      exact h.sameEffect _

theorem guardedWrite_congr (h : SameProject st project home t u) {rest : List Text}
    (hnames : ∀ n ∈ project :: rest, IsName n)
    (hfull : st.resolve (ofNames (project :: rest)) = .ok full)
    (htidy : rest = [] → Tidy o t full ∧ Tidy o u full) (prior : Fingerprint) (content : Text) :
    SameEffect project home t u (st.guardedWrite t (ofNames (project :: rest)) prior content o)
      (st.guardedWrite u (ofNames (project :: rest)) prior content o) := by
  have hread := h.read_congr (into_ofNames hnames)
  cases hright : st.read u (ofNames (project :: rest)) with
  | ok current =>
    have hleft := hread.trans hright
    by_cases he : Fingerprint.of current = prior
    · rw [guardedWrite_of_eq hleft he, guardedWrite_of_eq hright he]
      exact (write_congr h hnames hfull htidy (.inl ⟨current, hleft⟩) content).map _
    · rw [guardedWrite_of_ne hleft he, guardedWrite_of_ne hright he]
      exact h.sameEffect _
  | error e =>
    have hleft := hread.trans hright
    by_cases hq : ∃ q, e = .notFound q
    · obtain ⟨q, rfl⟩ := hq
      rw [guardedWrite_eq_write (.inr ⟨q, hleft⟩), guardedWrite_eq_write (.inr ⟨q, hright⟩)]
      exact (write_congr h hnames hfull htidy (.inr ⟨q, hleft⟩) content).map _
    · have hne : ∀ q, e ≠ .notFound q := fun q he => hq ⟨q, he⟩
      rw [guardedWrite_of_error hleft hne, guardedWrite_of_error hright hne]
      exact h.sameEffect _

end PageFields.Storage
