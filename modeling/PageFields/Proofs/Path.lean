import Mathlib.Data.List.Basic
import PageFields.Path

/-! # Paths: their steps and their last name

The pieces of a path between slashes are those of `List.splitOn` (`Text.splitOn_eq`), and joining
them is `List.intercalate` (`Text.join_eq`). So the steps of a path that is seen from a directory
are those to the directory and its own (`steps_join`). A path of names ends in its last name
(`exists_base_ofNames`), also when it is seen from a directory (`exists_base_join`); that name is
the last step of the path (`steps_append`) and the one that `mapName` changes (`mapName_append`). -/

namespace PageFields

namespace Text

theorem splitOn_eq (c : Char) (t : Text) : splitOn c t = List.splitOn c t := by
  induction t with
  | nil => rw [splitOn, List.splitOn_nil]
  | cons d t ih =>
    rw [splitOn, ih, List.splitOn_cons_eq_if_modifyHead]
    by_cases h : d = c
    · rw [if_pos h, if_pos (by simpa using h)]
    · rw [if_neg h, if_neg (by simpa using h)]
      cases hs : List.splitOn c t with
      | nil => exact absurd hs (List.splitOn_ne_nil c t)
      | cons piece pieces => rfl

theorem join_eq (sep : Text) (l : List Text) : join sep l = sep.intercalate l := by
  induction l with
  | nil => rfl
  | cons t l ih =>
    cases l with
    | nil => rw [join, List.intercalate_singleton]
    | cons u l => rw [join, ih, List.intercalate_cons_cons]

theorem splitOn_append_cons (c : Char) (s t : Text) :
    splitOn c (s ++ c :: t) = splitOn c s ++ splitOn c t := by
  rw [splitOn_eq, splitOn_eq, splitOn_eq, List.splitOn_append_cons_self]

theorem splitOn_of_not_mem {c : Char} {t : Text} (h : c ∉ t) : splitOn c t = [t] := by
  rw [splitOn_eq, List.splitOn_eq_singleton h]

theorem join_splitOn (c : Char) (t : Text) : join [c] (splitOn c t) = t := by
  rw [splitOn_eq, join_eq, List.intercalate_splitOn]

theorem splitOn_ne_nil (c : Char) (t : Text) : splitOn c t ≠ [] := by
  rw [splitOn_eq]
  exact List.splitOn_ne_nil c t

theorem join_concat (sep : Text) {l : List Text} (h : l ≠ []) (t : Text) :
    join sep (l ++ [t]) = join sep l ++ sep ++ t := by
  induction l with
  | nil => exact absurd rfl h
  | cons u l ih =>
    cases l with
    | nil => rfl
    | cons v l =>
      rw [List.cons_append, List.cons_append, join, ← List.cons_append, ih (List.cons_ne_nil v l),
        join]
      simp

theorem not_mem_of_mem_splitOn {c : Char} {t piece : Text} (h : piece ∈ splitOn c t) :
    c ∉ piece := by
  induction t generalizing piece with
  | nil =>
    rw [splitOn, List.mem_singleton] at h
    simp [h]
  | cons d t ih =>
    rw [splitOn] at h
    split at h
    · rcases List.mem_cons.1 h with rfl | h
      · simp
      · exact ih h
    · rename_i hd
      cases hs : splitOn c t with
      | nil => exact absurd hs (splitOn_ne_nil c t)
      | cons p ps =>
        rw [hs] at h ih
        rcases List.mem_cons.1 h with rfl | h
        · have hp := ih List.mem_cons_self
          simp [Ne.symm hd, hp]
        · exact ih (List.mem_cons_of_mem _ h)

end Text

namespace Path

/-- A piece between slashes that is a name. -/
structure IsName (n : Text) : Prop where
  ne_nil : n ≠ []
  ne_here : n ≠ ['.']
  ne_up : n ≠ ['.', '.']
  slash : '/' ∉ n

instance (n : Text) : Decidable (IsName n) :=
  decidable_of_iff (n ≠ [] ∧ n ≠ ['.'] ∧ n ≠ ['.', '.'] ∧ '/' ∉ n)
    ⟨fun ⟨hnil, hhere, hup, hslash⟩ => ⟨hnil, hhere, hup, hslash⟩,
      fun h => ⟨h.ne_nil, h.ne_here, h.ne_up, h.slash⟩⟩

/-- A path after which a name can stand. -/
def IsBase (b : Text) : Prop := b = [] ∨ ∃ c, b = c ++ ['/']

variable {base n : Text}

theorem IsName.isAbsolute (hn : IsName n) : isAbsolute n = false := by
  cases n with
  | nil => rfl
  | cons c n =>
    have : c ≠ '/' := fun h => hn.slash (h ▸ List.mem_cons_self)
    simpa [Path.isAbsolute] using this

theorem IsName.getLast? (hn : IsName n) (base : Text) : (base ++ n).getLast? ≠ some '/' := by
  intro h
  rw [List.getLast?_append, List.getLast?_eq_some_getLast hn.ne_nil, Option.some_or] at h
  exact hn.slash (Option.some_inj.1 h ▸ List.getLast_mem hn.ne_nil)

/-- What a piece between slashes stands for. -/
def step? (piece : Text) : Option Component :=
  if piece = [] then none
  else if piece = ['.'] then some .here
  else if piece = ['.', '.'] then some .up
  else some (.name piece)

theorem step?_eq_none {piece : Text} : step? piece = none ↔ piece = [] := by
  unfold step?
  by_cases hnil : piece = []
  · simp [hnil]
  · by_cases hhere : piece = ['.']
    · simp [hhere]
    · by_cases hup : piece = ['.', '.']
      · simp [hup]
      · simp [hnil, hhere, hup]

theorem steps_eq (p : Text) : steps p =
    (if isAbsolute p then [.root] else []) ++ (Text.splitOn '/' p).filterMap step? := by
  unfold steps
  split <;> rfl

theorem IsName.step? (hn : IsName n) : step? n = some (.name n) := by
  rw [Path.step?, if_neg hn.ne_nil, if_neg hn.ne_here, if_neg hn.ne_up]

theorem filterMap_splitOn_slash (b : Text) :
    (Text.splitOn '/' (b ++ ['/'])).filterMap step? = (Text.splitOn '/' b).filterMap step? := by
  have hsplit : Text.splitOn '/' (b ++ ['/']) = Text.splitOn '/' b ++ [[]] :=
    Text.splitOn_append_cons '/' b []
  have hempty : [([] : Text)].filterMap step? = [] := rfl
  rw [hsplit, List.filterMap_append, hempty, List.append_nil]

theorem steps_concat_slash {p : Text} (h : p ≠ []) : steps (p ++ ['/']) = steps p := by
  obtain ⟨c, p, rfl⟩ := List.exists_cons_of_ne_nil h
  rw [steps_eq, steps_eq, filterMap_splitOn_slash]
  rfl

/-- **A path seen from another one** goes on where that one leads. -/
theorem steps_join (base : Text) {p : Text} (h : isAbsolute p = false) :
    steps (join base p) = steps base ++ steps p := by
  have hp : steps p = (Text.splitOn '/' p).filterMap step? := by
    rw [steps_eq, h]
    rfl
  have key : ∀ b : Text, isAbsolute (b ++ '/' :: p) = isAbsolute (b ++ ['/']) →
      steps (b ++ '/' :: p) = steps (b ++ ['/']) ++ steps p := by
    intro b hb
    rw [hp, steps_eq, steps_eq, hb, filterMap_splitOn_slash, Text.splitOn_append_cons,
      List.filterMap_append, List.append_assoc]
  unfold join
  simp only [h, Bool.false_eq_true, if_false]
  split
  · rename_i hbase
    rcases hbase with rfl | hlast
    · rfl
    · obtain ⟨b, rfl⟩ := List.getLast?_eq_some_iff.1 hlast
      rw [List.append_assoc, List.singleton_append]
      exact key b (by cases b <;> rfl)
  · rename_i hbase
    rw [not_or] at hbase
    obtain ⟨c, b, rfl⟩ := List.exists_cons_of_ne_nil hbase.1
    rw [key (c :: b) rfl, steps_concat_slash hbase.1]

theorem isAbsolute_join {base : Text} (h : isAbsolute base = true) (p : Text) :
    isAbsolute (join base p) = true := by
  unfold join
  cases base with
  | nil => cases h
  | cons c b =>
    split
    · assumption
    · split <;> exact h

theorem join_eq (base : Text) {p : Text} (h : isAbsolute p = false) :
    join base p = join base [] ++ p := by
  have hnil : isAbsolute [] = false := rfl
  unfold join
  rw [h, hnil]
  simp only [Bool.false_eq_true, if_false]
  split
  · rw [List.append_nil]
  · rw [List.append_assoc, List.singleton_append]

theorem isAbsolute_append {p : Text} (h : p ≠ []) (q : Text) :
    isAbsolute (p ++ q) = isAbsolute p := by
  obtain ⟨c, p, rfl⟩ := List.exists_cons_of_ne_nil h
  rfl

theorem join_of_not_isBase (hnil : base ≠ []) (hlast : base.getLast? ≠ some '/') {p : Text}
    (h : isAbsolute p = false) : join base p = base ++ '/' :: p := by
  unfold join
  rw [h, if_neg Bool.false_ne_true, if_neg (not_or.2 ⟨hnil, hlast⟩)]

theorem join_append (base : Text) {p : Text} (h : p ≠ []) (q : Text) :
    join base (p ++ q) = join base p ++ q := by
  have habs := isAbsolute_append h q
  cases hp : isAbsolute p with
  | true =>
    rw [hp] at habs
    rw [join, if_pos habs, join, if_pos hp]
  | false =>
    rw [hp] at habs
    rw [join_eq base habs, join_eq base hp, List.append_assoc]

theorem getLast?_join (base : Text) {p : Text} (h : p ≠ []) :
    (join base p).getLast? = p.getLast? := by
  cases hp : isAbsolute p with
  | true => rw [join, if_pos hp]
  | false => rw [join_eq base hp, List.getLast?_append_of_ne_nil _ h]

theorem join_ne_nil (base : Text) {p : Text} (h : p ≠ []) : join base p ≠ [] := by
  intro hnil
  have hlast := getLast?_join base h
  rw [hnil, List.getLast?_eq_some_getLast h] at hlast
  cases hlast

theorem join_ne_nil_of_base (h : base ≠ []) (p : Text) : join base p ≠ [] := by
  by_cases hp : p = []
  · unfold join
    rw [hp]
    split
    · contradiction
    · split
      · rwa [List.append_nil]
      · exact List.append_ne_nil_of_right_ne_nil base (List.cons_ne_nil _ _)
  · exact join_ne_nil base hp

theorem steps_ne_nil {p : Text} (h : p ≠ []) : steps p ≠ [] := by
  obtain ⟨c, p, rfl⟩ := List.exists_cons_of_ne_nil h
  intro hnil
  rw [steps_eq, List.append_eq_nil_iff, List.filterMap_eq_nil_iff] at hnil
  have hc : c ≠ '/' := by
    rintro rfl
    exact List.cons_ne_nil _ _ hnil.1
  have hpiece : ∃ piece, c :: piece ∈ Text.splitOn '/' (c :: p) := by
    rw [Text.splitOn, if_neg hc]
    cases Text.splitOn '/' p with
    | nil => exact ⟨[], List.mem_cons_self⟩
    | cons piece pieces => exact ⟨piece, List.mem_cons_self⟩
  obtain ⟨piece, hmem⟩ := hpiece
  exact List.cons_ne_nil c piece (step?_eq_none.1 (hnil.2 _ hmem))

theorem join_of_isBase (hbase : IsBase base) {p : Text} (h : isAbsolute p = false) :
    join base p = base ++ p := by
  unfold join
  rw [h, if_neg Bool.false_ne_true, if_pos]
  rcases hbase with rfl | ⟨b, rfl⟩
  · exact .inl rfl
  · exact .inr (List.getLast?_concat ..)

/-- **The last name of a path is its last step.** -/
theorem steps_append (hbase : IsBase base) (hn : IsName n) :
    steps (base ++ n) = steps base ++ [.name n] := by
  rw [← join_of_isBase hbase hn.isAbsolute, steps_join base hn.isAbsolute, steps_eq n,
    hn.isAbsolute, Text.splitOn_of_not_mem hn.slash, List.filterMap_cons_some hn.step?,
    List.filterMap_nil]
  rfl

theorem IsName.steps_eq (hn : IsName n) : steps n = [.name n] :=
  steps_append (.inl rfl) hn

/-- **The last name of a path is the one that is changed.** -/
theorem mapName_append (f : Text → Text) (hbase : IsBase base) (hn : IsName n) :
    mapName f (base ++ n) = base ++ f n := by
  have hidle : ¬ isIdle n = true := by simp [isIdle, hn.ne_nil, hn.ne_here]
  unfold mapName
  rcases hbase with rfl | ⟨b, rfl⟩
  · rw [List.nil_append, Text.splitOn_of_not_mem hn.slash, List.reverse_singleton,
      List.dropWhile_cons_of_neg hidle]
    simp only [hn.ne_up, if_false, List.reverse_nil, List.nil_append]
    rfl
  · have hsplit : Text.splitOn '/' (b ++ ['/'] ++ n) = Text.splitOn '/' b ++ [n] := by
      rw [List.append_assoc, List.singleton_append, Text.splitOn_append_cons,
        Text.splitOn_of_not_mem hn.slash]
    rw [hsplit, List.reverse_concat, List.dropWhile_cons_of_neg hidle]
    simp only [hn.ne_up, if_false, List.reverse_reverse]
    rw [Text.join_concat _ (Text.splitOn_ne_nil '/' b), Text.join_splitOn]

/-! ### Paths of names -/

theorem exists_base_ofNames (init : List Text) (n : Text) :
    ∃ base, IsBase base ∧ ofNames (init ++ [n]) = base ++ n := by
  by_cases h : init = []
  · subst h
    exact ⟨[], .inl rfl, rfl⟩
  · exact ⟨ofNames init ++ ['/'], .inr ⟨_, rfl⟩, Text.join_concat ['/'] h n⟩

theorem isAbsolute_ofNames {names : List Text} (h : ∀ n ∈ names, IsName n) :
    isAbsolute (ofNames names) = false := by
  cases names with
  | nil => rfl
  | cons n names =>
    have hn := h n List.mem_cons_self
    cases names with
    | nil => exact hn.isAbsolute
    | cons m names =>
      obtain ⟨c, n, rfl⟩ := List.exists_cons_of_ne_nil hn.ne_nil
      exact hn.isAbsolute

theorem steps_ofNames {names : List Text} (h : ∀ n ∈ names, IsName n) :
    steps (ofNames names) = names.map .name := by
  have hpieces : (Text.splitOn '/' (ofNames names)).filterMap step? = names.filterMap step? := by
    by_cases hne : names = []
    · subst hne
      rfl
    · rw [ofNames, Text.splitOn_eq, Text.join_eq, List.splitOn_intercalate _
        (fun n hn => (h n hn).slash) hne]
  have hnames : names.filterMap step? = names.map .name :=
    List.filterMap_eq_map_iff_forall_eq_some.2 fun n hn => (h n hn).step?
  rw [steps_eq, isAbsolute_ofNames h, hpieces, hnames]
  rfl

/-- A path that ends in a name does so as seen from a directory. -/
theorem exists_base_join (root : Text) {p : Text} (habs : isAbsolute p = false)
    (hbase : IsBase base) (hp : p = base ++ n) :
    ∃ base', IsBase base' ∧ join root p = base' ++ n := by
  have hprefix : ∀ q : Text, IsBase q → IsBase (q ++ base) := by
    intro q hq
    rcases hbase with rfl | ⟨b, rfl⟩
    · rwa [List.append_nil]
    · exact .inr ⟨q ++ b, by rw [List.append_assoc]⟩
  unfold join
  rw [habs]
  simp only [Bool.false_eq_true, if_false]
  split
  · rename_i h
    refine ⟨root ++ base, hprefix root ?_, by rw [hp, List.append_assoc]⟩
    rcases h with h | h
    · exact .inl h
    · obtain ⟨q, hq⟩ := List.getLast?_eq_some_iff.1 h
      exact .inr ⟨q, hq⟩
  · exact ⟨root ++ ['/'] ++ base, hprefix _ (.inr ⟨root, rfl⟩), by
      rw [hp, List.append_assoc, List.append_assoc, List.singleton_append]⟩

theorem isName_of_mem_steps {p : Text} (h : .name n ∈ steps p) : IsName n := by
  rw [steps_eq, List.mem_append] at h
  rcases h with h | h
  · split at h
    · simp at h
    · cases h
  · obtain ⟨piece, hmem, hstep⟩ := List.mem_filterMap.1 h
    unfold step? at hstep
    split at hstep
    · cases hstep
    · split at hstep
      · cases hstep
      · split at hstep
        · cases hstep
        · rename_i hnil hhere hup
          cases hstep
          exact ⟨hnil, hhere, hup, Text.not_mem_of_mem_splitOn hmem⟩

theorem mem_steps_of_mem_components {p : Text} {part : Component} (h : part ∈ components p) :
    part ∈ steps p := by
  unfold components at h
  split at h
  · rename_i parts hs
    rw [hs]
    rcases List.mem_cons.1 h with rfl | h
    · exact List.mem_cons_self
    · exact List.mem_cons_of_mem _ (List.mem_filter.1 h).1
  · exact (List.mem_filter.1 h).1

theorem mem_components {p : Text} {part : Component} (h : part ∈ steps p) (hne : part ≠ .here) :
    part ∈ components p := by
  unfold components
  split
  · rename_i parts hs
    rw [hs] at h
    exact List.mem_cons_of_mem _
      (List.mem_filter.2 ⟨(List.mem_cons.1 h).resolve_left hne, by simpa using hne⟩)
  · exact List.mem_filter.2 ⟨h, by simpa using hne⟩

theorem components_congr {p q : Text} (h : steps p = steps q) : components p = components q := by
  unfold components
  rw [h]

/-- The names among the parts of a path, if these are names and dots. -/
def namesIn? : List Component → Option (List Text)
  | [] => some []
  | .name n :: parts => (namesIn? parts).map (n :: ·)
  | .here :: parts => namesIn? parts
  | .root :: _ => none
  | .up :: _ => none

theorem names?_eq (p : Text) : names? p = namesIn? (components p) := by
  unfold names?
  induction components p with
  | nil => rfl
  | cons part parts ih =>
    rw [List.foldr_cons, ih]
    cases part <;> rfl

theorem mem_of_mem_namesIn? {parts : List Component} {names : List Text}
    (h : namesIn? parts = some names) : ∀ n ∈ names, .name n ∈ parts := by
  induction parts generalizing names with
  | nil =>
    cases h
    exact fun n hn => nomatch hn
  | cons part parts ih =>
    cases part with
    | root => cases h
    | up => cases h
    | here => exact fun n hn => List.mem_cons_of_mem _ (ih h n hn)
    | name m =>
      obtain ⟨names, hnames, rfl⟩ := Option.map_eq_some_iff.1 h
      intro n hn
      rcases List.mem_cons.1 hn with rfl | hn
      · exact List.mem_cons_self
      · exact List.mem_cons_of_mem _ (ih hnames n hn)

theorem names?_ofNames {names : List Text} (h : ∀ n ∈ names, IsName n) :
    names? (ofNames names) = some names := by
  have hcomponents : components (ofNames names) = names.map .name := by
    have hfilter : (names.map Component.name).filter (· ≠ .here) = names.map .name := by
      rw [List.filter_eq_self]
      intro part hpart
      obtain ⟨n, -, rfl⟩ := List.mem_map.1 hpart
      simp
    unfold components
    rw [steps_ofNames h]
    cases names with
    | nil => rfl
    | cons n names => exact hfilter
  rw [names?_eq, hcomponents]
  clear h hcomponents
  induction names with
  | nil => rfl
  | cons n names ih => rw [List.map_cons, namesIn?, ih, Option.map_some]

theorem isName_of_names? {p : Text} {names : List Text} (h : names? p = some names) {n : Text}
    (hn : n ∈ names) : IsName n := by
  rw [names?_eq] at h
  exact isName_of_mem_steps (mem_steps_of_mem_components (mem_of_mem_namesIn? h n hn))

end Path

end PageFields
