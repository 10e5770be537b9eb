import Mathlib.Data.List.Basic
import PageFields.Cli.Options
import PageFields.Proofs.Lookup
import PageFields.Proofs.Outcome
import PageFields.Proofs.Path

/-! # Command line: leaving out a switch

A switch that has no letter is given by one argument only, its name after two dashes (`dashes`).
Reading any other argument neither gives the switch nor depends on it (`spares_readDashed`). So a
level that was given the switch is read from the arguments without that one as well, and is the same
but for the switch (`read_erase`); and the arguments before a command can be kept while those after
it change (`exists_leadsTo`). -/

namespace PageFields

theorem Text.splitOnce?_eq_none {c : Char} {t : Text} (h : c ∉ t) : Text.splitOnce? c t = none := by
  induction t with
  | nil => rfl
  | cons d t ih =>
    rw [List.mem_cons, not_or] at h
    rw [Text.splitOnce?, if_neg (Ne.symm h.1), ih h.2, Option.map_none]

namespace Cli

/-- The argument that gives a switch. -/
def dashes (name : String) : Text := '-' :: '-' :: name.toList

/-- An option of this name, if there is one, is a switch without a letter. -/
structure Grammar.IsSwitch (g : Grammar) (name : String) : Prop where
  ne_nil : name.toList ≠ []
  not_mem : '=' ∉ name.toList
  switch : ∀ o ∈ g.options, o.name = name → o.letter = none ∧ o.value = none ∧ o.repeats = false

namespace Level

/-- The level without what was given of an option. -/
def without (name : String) (l : Level) : Level := { l with given := l.given.filter (·.1 ≠ name) }

variable {g : Grammar} {name : String} {l l' : Level} {o : OptionSpec}

theorem value?_without {other : String} (h : other ≠ name) (l : Level) :
    (l.without name).value? other = l.value? other :=
  (lookup_filter_ne name l.given other).trans (if_neg h)

theorem has_without {other : String} (h : other ≠ name) (l : Level) :
    (l.without name).has other = l.has other := congrArg Option.isSome (value?_without h l)

theorem values_without {other : String} (h : other ≠ name) (l : Level) :
    (l.without name).values other = l.values other := by
  unfold values without
  rw [List.filter_filter]
  congr 3
  funext p
  by_cases hp : p.1 = other
  · simp [hp, h]
  · simp [hp]

theorem without_of_has (h : l.has name = false) : l.without name = l := by
  have hnot : ∀ p ∈ l.given, p.1 ≠ name := by
    rintro p hp rfl
    have hnone := Option.not_isSome_iff_eq_none.1 (Bool.eq_false_iff.1 h)
    simpa using List.lookup_eq_none_iff.1 hnone p hp
  unfold without
  rw [List.filter_eq_self.2 fun p hp => by simpa using hnot p hp]

theorem add_eq_ok {value : Text} : l.add o value = .ok l' ↔
    (l.has o.name && !o.repeats) = false ∧ o.value.all (· value) = true ∧
      { l with given := (o.name, value) :: l.given } = l' := by
  unfold add
  by_cases hhas : (l.has o.name && !o.repeats) = true
  · simp [hhas]
  · by_cases hvalue : o.value.all (· value) = true
    · simp [hhas, hvalue]
    · simp [hhas, hvalue]

theorem command_add {value : Text} (h : l.add o value = .ok l') : l'.command = l.command := by
  obtain ⟨-, -, rfl⟩ := add_eq_ok.1 h
  rfl

/-! ### Arguments that do not give the switch -/

/-- The reading does not give the option, and goes on alike without it. -/
def Spares (name : String) (f : Level → Except Stop Reading) : Prop :=
  ∀ l l' awaiting, f l = .ok (l', awaiting) →
    f (l.without name) = .ok (l'.without name, awaiting) ∧ l'.has name = l.has name ∧
      l'.command = l.command ∧ ∀ o, awaiting = some o → o.name ≠ name

theorem add_without {value : Text} (hne : o.name ≠ name) (h : l.add o value = .ok l') :
    (l.without name).add o value = .ok (l'.without name) ∧ l'.has name = l.has name ∧
      l'.command = l.command := by
  obtain ⟨hhas, hvalue, rfl⟩ := add_eq_ok.1 h
  refine ⟨add_eq_ok.2 ⟨by rwa [has_without hne], hvalue, ?_⟩, ?_, rfl⟩
  · unfold without
    rw [List.filter_cons_of_pos (by simpa using hne)]
  · exact congrArg Option.isSome (lookup_cons_of_ne (Ne.symm hne) value l.given)

theorem spares_add (hne : o.name ≠ name) (value : Text) :
    Spares name fun l => (do pure (← l.add o value, none)) := by
  intro l l' awaiting h
  obtain ⟨l₁, hadd, h⟩ := bind_eq_ok.1 h
  cases h
  obtain ⟨hwithout, hhas, hcommand⟩ := add_without hne hadd
  exact ⟨bind_eq_ok.2 ⟨_, hwithout, rfl⟩, hhas, hcommand, nofun⟩

theorem spares_error (stop : Stop) : Spares name fun _ => .error stop := nofun

theorem spares_await (hne : o.name ≠ name) : Spares name fun l => .ok (l, some o) := by
  intro l l' awaiting h
  cases h
  exact ⟨rfl, rfl, rfl, fun o' ho => Option.some_inj.1 ho ▸ hne⟩

variable (hg : g.IsSwitch name)

include hg

theorem ne_of_value (ho : o ∈ g.options) (h : o.value.isSome = true) : o.name ≠ name := by
  intro hname
  rw [(hg.switch o ho hname).2.1] at h
  cases h

theorem spares_readLong {long : Text} {attached : Option Text}
    (h : attached = none → long ≠ name.toList) :
    Spares name fun l => readLong g l long attached := by
  unfold readLong
  cases hfind : g.options.find? (·.name.toList = long) with
  | none =>
    cases attached with
    | some value => exact spares_error _
    | none =>
      simp only
      split
      · exact spares_error _
      · split
        · exact spares_error _
        · exact spares_error _
  | some o =>
    have ho := List.mem_of_find?_eq_some hfind
    have hlong : o.name.toList = long := by simpa using List.find?_some hfind
    cases attached with
    | some value =>
      by_cases hvalue : o.value.isSome = true
      · simp only [if_pos hvalue]
        exact spares_add (ne_of_value hg ho hvalue) value
      · simp only [if_neg hvalue]
        exact spares_error _
    | none =>
      have hne : o.name ≠ name := fun hname => h rfl (hname ▸ hlong.symm)
      by_cases hvalue : o.value.isSome = true
      · simp only [if_pos hvalue]
        exact spares_await hne
      · simp only [if_neg hvalue]
        exact spares_add hne []

theorem ne_of_letter {c : Char} (ho : o ∈ g.options) (h : o.letter = some c) : o.name ≠ name := by
  intro hname
  rw [(hg.switch o ho hname).1] at h
  cases h

theorem spares_readLetters (letters : Text) : Spares name fun l => readLetters g l letters := by
  induction letters with
  | nil =>
    intro l l' awaiting h
    cases h
    exact ⟨rfl, rfl, rfl, nofun⟩
  | cons c rest ih =>
    unfold readLetters
    cases hfind : g.options.find? (·.letter = some c) with
    | none =>
      simp only
      split
      · exact spares_error _
      · split
        · exact spares_error _
        · exact spares_error _
    | some o =>
      have hne := ne_of_letter hg (List.mem_of_find?_eq_some hfind)
        (by simpa using List.find?_some hfind)
      by_cases hvalue : o.value.isNone = true
      · simp only [if_pos hvalue]
        intro l l' awaiting h
        obtain ⟨l₁, hadd, h⟩ := bind_eq_ok.1 h
        obtain ⟨hwithout, hhas, hcommand⟩ := add_without hne hadd
        obtain ⟨hrest, hhas', hcommand', hawaiting⟩ := ih l₁ l' awaiting h
        exact ⟨bind_eq_ok.2 ⟨_, hwithout, hrest⟩, hhas'.trans hhas, hcommand'.trans hcommand,
          hawaiting⟩
      · simp only [if_neg hvalue]
        split
        · exact spares_await hne
        · exact spares_add hne _
        · exact spares_add hne _

/-- **Another argument does not give the switch.** -/
theorem spares_readDashed {arg : Text} (hne : arg ≠ dashes name) :
    Spares name fun l => readDashed g l arg := by
  unfold readDashed
  split
  · rename_i long
    split
    · exact spares_readLong hg nofun
    · exact spares_readLong hg fun _ hlong => hne (by rw [hlong, dashes])
  · exact spares_readLetters hg _
  · exact spares_error _

omit hg in
theorem addWord_without {word : Text} (h : l.addWord g word = .ok l') :
    (l.without name).addWord g word = .ok (l'.without name) ∧ l'.has name = l.has name ∧
      l'.command = l.command := by
  unfold addWord at h ⊢
  split at h
  · rename_i hword
    cases h
    exact ⟨if_pos hword, rfl, rfl⟩
  · cases h

omit hg in
theorem foldlM_addWord {words : List Text} (h : words.foldlM (addWord g) l = .ok l') :
    words.foldlM (addWord g) (l.without name) = .ok (l'.without name) ∧ l'.has name = l.has name ∧
      l'.command = l.command := by
  induction words generalizing l with
  | nil =>
    cases h
    exact ⟨rfl, rfl, rfl⟩
  | cons word words ih =>
    rw [List.foldlM_cons] at h ⊢
    obtain ⟨l₁, hword, h⟩ := bind_eq_ok.1 h
    obtain ⟨hwithout, hhas, hcommand⟩ := addWord_without hword
    obtain ⟨hrest, hhas', hcommand'⟩ := ih h
    exact ⟨bind_eq_ok.2 ⟨_, hwithout, hrest⟩, hhas'.trans hhas, hcommand'.trans hcommand⟩

/-! ### The switch -/

/-- **The argument of the switch gives it**, where it was not given yet. -/
theorem readDashed_dashes (ho : o ∈ g.options) (hname : o.name = name)
    {awaiting : Option OptionSpec} : readDashed g l (dashes name) = .ok (l', awaiting) ↔
      l.has name = false ∧ { l with given := (name, []) :: l.given } = l' ∧ awaiting = none := by
  have hread : readDashed g l (dashes name) = readLong g l name.toList none := by
    simp only [dashes, readDashed, Text.splitOnce?_eq_none hg.not_mem]
  obtain ⟨o', hfind⟩ : ∃ o', g.options.find? (·.name.toList = name.toList) = some o' := by
    rw [← Option.isSome_iff_exists, List.find?_isSome]
    exact ⟨o, ho, by simp [hname]⟩
  have hname' : o'.name = name := by
    have : o'.name.toList = name.toList := by simpa using List.find?_some hfind
    exact String.toList_inj.1 this
  obtain ⟨-, hvalue, hrepeats⟩ := hg.switch o' (List.mem_of_find?_eq_some hfind) hname'
  have hlong : readLong g l name.toList none = (do pure (← l.add o' [], none)) := by
    unfold readLong
    simp [hfind, hvalue]
  have hadd : ∀ l₁, l.add o' [] = .ok l₁ ↔
      l.has name = false ∧ { l with given := (name, []) :: l.given } = l₁ := by
    intro l₁
    rw [add_eq_ok, hvalue, hrepeats, hname']
    simp
  rw [hread, hlong, bind_eq_ok]
  simp only [hadd]
  constructor
  · rintro ⟨l₁, ⟨hhas, rfl⟩, h⟩
    cases h
    exact ⟨hhas, rfl, rfl⟩
  · rintro ⟨hhas, rfl, rfl⟩
    exact ⟨_, ⟨hhas, rfl⟩, rfl⟩

/-! ### The arguments of a level -/

/-- How the first argument of a level is taken, and the rest after it. -/
inductive Takes (g : Grammar) :
    Option OptionSpec → Level → Text → List Text → Level → Prop
  | value {o : OptionSpec} {l l₁ l' : Level} {arg : Text} {rest : List Text} :
    isDashed arg = false → l.add o arg = .ok l₁ → read g none l₁ rest = .ok l' →
      Takes g (some o) l arg rest l'
  | words {l l' : Level} {rest : List Text} :
    rest.foldlM (addWord g) l = .ok l' → Takes g none l ['-', '-'] rest l'
  | dashed {l l₁ l' : Level} {arg : Text} {rest : List Text} {awaiting : Option OptionSpec} :
    arg ≠ ['-', '-'] → isDashed arg = true → readDashed g l arg = .ok (l₁, awaiting) →
      read g awaiting l₁ rest = .ok l' → Takes g none l arg rest l'
  | command {l : Level} {arg : Text} {rest : List Text} :
    isDashed arg = false → g.commands.any (·.toList = arg) = true →
      Takes g none l arg rest { l with command := some (arg, rest) }
  | word {l l₁ l' : Level} {arg : Text} {rest : List Text} :
    isDashed arg = false → g.commands.any (·.toList = arg) = false → l.addWord g arg = .ok l₁ →
      read g none l₁ rest = .ok l' → Takes g none l arg rest l'

omit hg in
theorem ne_of_not_isDashed {arg : Text} (h : isDashed arg = false) : arg ≠ ['-', '-'] := by
  rintro rfl
  cases h

omit hg in
theorem ne_dashes {arg : Text} (h : isDashed arg = false) : arg ≠ dashes name := by
  rintro rfl
  cases h

omit hg in
theorem read_cons_eq_ok {awaiting : Option OptionSpec} {arg : Text} {rest : List Text} :
    read g awaiting l (arg :: rest) = .ok l' ↔ Takes g awaiting l arg rest l' := by
  cases awaiting with
  | some o =>
    change (if isDashed arg then .error .misuse else l.add o arg >>= fun l => read g none l rest) =
      .ok l' ↔ _
    constructor
    · intro h
      split at h
      · cases h
      · rename_i hdashed
        obtain ⟨l₁, hadd, h⟩ := bind_eq_ok.1 h
        exact .value (by simpa using hdashed) hadd h
    · rintro (⟨hdashed, hadd, h⟩)
      rw [hdashed, if_neg Bool.false_ne_true]
      exact bind_eq_ok.2 ⟨_, hadd, h⟩
  | none =>
    change (if arg = ['-', '-'] then rest.foldlM (addWord g) l
      else if isDashed arg then readDashed g l arg >>= fun r => read g r.2 r.1 rest
      else if g.commands.any (·.toList = arg) then .ok { l with command := some (arg, rest) }
      else l.addWord g arg >>= fun l => read g none l rest) = .ok l' ↔ _
    constructor
    · intro h
      split at h
      · rename_i harg
        subst harg
        exact .words h
      · split at h
        · rename_i harg hdashed
          obtain ⟨⟨l₁, awaiting⟩, hread, h⟩ := bind_eq_ok.1 h
          exact .dashed harg hdashed hread h
        · rename_i hdashed
          have hdashed : isDashed arg = false := by simpa using hdashed
          split at h
          · rename_i hcommand
            cases h
            exact .command hdashed hcommand
          · rename_i hcommand
            obtain ⟨l₁, hword, h⟩ := bind_eq_ok.1 h
            exact .word hdashed (Bool.eq_false_iff.2 hcommand) hword h
    · intro h
      cases h with
      | words h => exact h
      | dashed harg hdashed hread h =>
        rw [if_neg harg, if_pos hdashed]
        exact bind_eq_ok.2 ⟨_, hread, h⟩
      | command hdashed hcommand =>
        rw [if_neg (ne_of_not_isDashed hdashed), hdashed, if_neg Bool.false_ne_true,
          if_pos hcommand]
      | word hdashed hcommand hword h =>
        rw [if_neg (ne_of_not_isDashed hdashed), hdashed, if_neg Bool.false_ne_true, hcommand,
          if_neg Bool.false_ne_true]
        exact bind_eq_ok.2 ⟨_, hword, h⟩

/-- **Where the switch is given already, the rest is read alike without it**: it cannot be given
again. -/
theorem read_without (ho : o ∈ g.options) (hname : o.name = name) {awaiting : Option OptionSpec}
    (hawaiting : ∀ o, awaiting = some o → o.name ≠ name) {args : List Text}
    (hhas : l.has name = true) (h : read g awaiting l args = .ok l') :
    read g awaiting (l.without name) args = .ok (l'.without name) := by
  induction args generalizing awaiting l with
  | nil =>
    unfold read at h ⊢
    split at h
    · cases h
    · rename_i hnone
      cases h
      exact if_neg hnone
  | cons arg rest ih =>
    rw [read_cons_eq_ok] at h ⊢
    cases h with
    | value hdashed hadd h =>
      obtain ⟨hwithout, hsame, -⟩ := add_without (hawaiting _ rfl) hadd
      exact .value hdashed hwithout (ih nofun (hsame.trans hhas) h)
    | words h => exact .words (foldlM_addWord h).1
    | dashed harg hdashed hread h =>
      have hne : arg ≠ dashes name := by
        rintro rfl
        have hnot := ((readDashed_dashes hg ho hname).1 hread).1
        rw [hhas] at hnot
        cases hnot
      obtain ⟨hwithout, hsame, -, hawaiting'⟩ := spares_readDashed hg hne _ _ _ hread
      exact .dashed harg hdashed hwithout (ih hawaiting' (hsame.trans hhas) h)
    | command hdashed hcommand => exact .command hdashed hcommand
    | word hdashed hcommand hword h =>
      obtain ⟨hwithout, hsame, -⟩ := addWord_without hword
      exact .word hdashed hcommand hwithout (ih nofun (hsame.trans hhas) h)

/-- **A level that was given the switch** is read without the argument of the switch as well, and is
the same but for the switch. -/
theorem read_erase (ho : o ∈ g.options) (hname : o.name = name) {awaiting : Option OptionSpec}
    (hawaiting : ∀ o, awaiting = some o → o.name ≠ name) {args : List Text}
    (hnot : l.has name = false) (hhas : l'.has name = true)
    (h : read g awaiting l args = .ok l') :
    read g awaiting l (args.erase (dashes name)) = .ok (l'.without name) := by
  induction args generalizing awaiting l with
  | nil =>
    unfold read at h
    split at h
    · cases h
    · cases h
      rw [hnot] at hhas
      cases hhas
  | cons arg rest ih =>
    have hplain : isDashed arg = false → (arg :: rest).erase (dashes name) =
        arg :: rest.erase (dashes name) := fun hdashed => by
      rw [List.erase_cons_tail (by simpa using ne_dashes hdashed)]
    rw [read_cons_eq_ok] at h
    cases h with
    | value hdashed hadd h =>
      obtain ⟨-, hsame, -⟩ := add_without (hawaiting _ rfl) hadd
      rw [hplain hdashed, read_cons_eq_ok]
      exact .value hdashed hadd (ih nofun (hsame.trans hnot) h)
    | words h =>
      rw [(foldlM_addWord h).2.1, hnot] at hhas
      cases hhas
    | @dashed _ l₁ _ _ _ awaiting hend hdashed hread h =>
      by_cases harg : arg = dashes name
      · subst harg
        obtain ⟨-, rfl, rfl⟩ := (readDashed_dashes hg ho hname).1 hread
        rw [List.erase_cons_head]
        have hgiven : has { l with given := (name, []) :: l.given } name = true := by
          simp [has]
        have hwithout : Level.without name { l with given := (name, []) :: l.given } = l := by
          conv_rhs => rw [← without_of_has hnot]
          simp [without]
        have hawaiting : ∀ o, (none : Option OptionSpec) = some o → o.name ≠ name := nofun
        have hrest := read_without hg ho hname hawaiting hgiven h
        rwa [hwithout] at hrest
      · obtain ⟨-, hsame, -, hawaiting'⟩ := spares_readDashed hg harg _ _ _ hread
        rw [List.erase_cons_tail (by simpa using harg), read_cons_eq_ok]
        exact .dashed hend hdashed hread (ih hawaiting' (hsame.trans hnot) h)
    | command hdashed hcommand =>
      have hhas : l.has name = true := hhas
      rw [hnot] at hhas
      cases hhas
    | word hdashed hcommand hword h =>
      obtain ⟨-, hsame, -⟩ := addWord_without hword
      rw [hplain hdashed, read_cons_eq_ok]
      exact .word hdashed hcommand hword (ih nofun (hsame.trans hnot) h)

/-- These arguments are read up to a command in the same way, whatever follows the command, and none
of them is the one of the switch. -/
structure LeadsTo (g : Grammar) (name : String) (command : Text) (awaiting : Option OptionSpec)
    (l l' : Level) (before : List Text) : Prop where
  not_mem : dashes name ∉ before
  read_eq : ∀ rest, read g awaiting l (before ++ command :: rest) =
    .ok { l' with command := some (command, rest) }

omit hg in
theorem LeadsTo.cons {command arg : Text} {awaiting awaiting₁ : Option OptionSpec} {l₁ : Level}
    {before : List Text} (h : LeadsTo g name command awaiting₁ l₁ l' before)
    (harg : arg ≠ dashes name) (htakes : ∀ rest l', read g awaiting₁ l₁ rest = .ok l' →
      Takes g awaiting l arg rest l') : LeadsTo g name command awaiting l l' (arg :: before) := by
  refine ⟨?_, fun rest => read_cons_eq_ok.2 (htakes _ _ (h.read_eq rest))⟩
  rw [List.mem_cons, not_or]
  exact ⟨Ne.symm harg, h.not_mem⟩

/-- **The arguments up to a command** can be kept while those after it change, and none of them is
the one of a switch that is unknown there. -/
theorem exists_leadsTo (hunknown : ∀ l : Level, ∃ stop, readDashed g l (dashes name) = .error stop)
    {awaiting : Option OptionSpec} {args rest : List Text} {command : Text}
    (hnone : l.command = none) (hcommand : l'.command = some (command, rest))
    (h : read g awaiting l args = .ok l') :
    ∃ before, args = before ++ command :: rest ∧ LeadsTo g name command awaiting l l' before := by
  induction args generalizing awaiting l with
  | nil =>
    unfold read at h
    split at h
    · cases h
    · cases h
      rw [hnone] at hcommand
      cases hcommand
  | cons arg args ih =>
    rw [read_cons_eq_ok] at h
    cases h with
    | value hdashed hadd h =>
      obtain ⟨before, rfl, hbefore⟩ := ih ((command_add hadd).trans hnone) h
      exact ⟨_, rfl, hbefore.cons (ne_dashes hdashed) fun _ _ h => .value hdashed hadd h⟩
    | words h =>
      have hsame : l'.has name = l.has name ∧ l'.command = l.command := (foldlM_addWord h).2
      rw [hsame.2, hnone] at hcommand
      cases hcommand
    | dashed hend hdashed hread h =>
      have harg : arg ≠ dashes name := by
        rintro rfl
        obtain ⟨stop, hstop⟩ := hunknown l
        rw [hread] at hstop
        cases hstop
      obtain ⟨-, -, hsame, -⟩ := spares_readDashed hg harg _ _ _ hread
      obtain ⟨before, rfl, hbefore⟩ := ih (hsame.trans hnone) h
      exact ⟨_, rfl, hbefore.cons harg fun _ _ h => .dashed hend hdashed hread h⟩
    | command hdashed hmem =>
      cases hcommand
      exact ⟨[], rfl, List.not_mem_nil, fun rest' => read_cons_eq_ok.2 (.command hdashed hmem)⟩
    | @word _ l₁ _ _ _ hdashed hmem hword h =>
      have hsame : l₁.has name = l.has name ∧ l₁.command = l.command := (addWord_without hword).2
      obtain ⟨before, rfl, hbefore⟩ := ih (hsame.2.trans hnone) h
      exact ⟨_, rfl, hbefore.cons (ne_dashes hdashed) fun _ _ h => .word hdashed hmem hword h⟩

end Level

end Cli

end PageFields
