import PageFields.Cli.Command
import PageFields.Proofs.Cli.Options

/-! # Command line: an edit without its dry run

An edit is asked for by the arguments before the command, the command and its own arguments
(`ofArguments_eq_edit`). The switch `--dry-run` is one of the last, so that without its argument the
same edit is asked for, to be carried out (`ofArguments_erase`). -/

namespace PageFields.Cli

theorem isSwitch_edit : (grammarOf "edit").IsSwitch "dry-run" := by
  refine ⟨by decide, by decide, ?_⟩
  simp [grammarOf, globalOptions, editOptions]

theorem isSwitch_root : rootGrammar.IsSwitch "dry-run" := by
  refine ⟨by decide, by decide, ?_⟩
  simp [rootGrammar, globalOptions]

theorem mem_edit : ({ name := "dry-run" } : OptionSpec) ∈ (grammarOf "edit").options := by
  simp [grammarOf, globalOptions, editOptions]

namespace Level

theorem command?_eq_edit {l : Level} {name : String} {e : EditCommand} :
    l.command? name = some (.edit e) ↔ name = "edit" ∧ l.words = [e.item] ∧
      l.value? "fingerprint" = some e.fingerprint ∧ l.source? = some e.source ∧
        l.value? "template" = e.template ∧ l.has "dry-run" = e.dryRun := by
  constructor
  · intro h
    unfold command? at h
    split at h
    case h_5 item hwords =>
      simp only [Option.bind_eq_bind, Option.bind_eq_some_iff] at h
      obtain ⟨fingerprint, hfingerprint, source, hsource, h⟩ := h
      cases h
      exact ⟨rfl, hwords, hfingerprint, hsource, rfl, rfl⟩
    all_goals cases h
  · rintro ⟨rfl, hwords, hfingerprint, hsource, htemplate, hdry⟩
    unfold command?
    simp only [hwords, hfingerprint, hsource, htemplate, hdry]
    rfl

theorem has_without_self (name : String) (l : Level) : (l.without name).has name = false := by
  unfold has without
  rw [lookup_filter_ne, if_pos rfl]
  rfl

theorem source?_without {name : String} (hcontent : "content" ≠ name)
    (hfile : "content-file" ≠ name) (hfield : "field" ≠ name) (l : Level) :
    (l.without name).source? = l.source? := by
  unfold source?
  rw [value?_without hcontent, value?_without hfile, has_without hfield, values_without hfield]

theorem command?_without {l : Level} {name : String} {e : EditCommand}
    (h : l.command? name = some (.edit e)) :
    (l.without "dry-run").command? name = some (.edit { e with dryRun := false }) := by
  obtain ⟨rfl, hwords, hfingerprint, hsource, htemplate, -⟩ := command?_eq_edit.1 h
  refine command?_eq_edit.2 ⟨rfl, hwords, ?_, ?_, ?_, has_without_self _ l⟩
  · rwa [value?_without (by decide)]
  · rwa [source?_without (by decide) (by decide) (by decide)]
  · rwa [value?_without (by decide)]

end Level

theorem commandRequest_eq_edit {outer : Level} {name : Text} {args : List Text} {root : Option Text}
    {color : Bool} {e : EditCommand} : commandRequest outer name args = .run root color (.edit e) ↔
      ∃ inner, Level.read (grammarOf name.shown) none {} args = .ok inner ∧
        inner.command? name.shown = some (.edit e) ∧
          ((inner.value? "path").orElse fun _ => outer.value? "path") = root ∧
            (!(inner.has "no-color" || outer.has "no-color")) = color := by
  unfold commandRequest
  cases hread : Level.read (grammarOf name.shown) none {} args with
  | error stop => cases stop <;> simp [Request.ofStop]
  | ok inner =>
    simp only [Except.ok.injEq, exists_eq_left']
    cases hcommand : inner.command? name.shown with
    | none => simp
    | some command =>
      simp only [Request.run.injEq, Option.some.injEq]
      tauto

theorem helpOn_ne_run (names : List Text) (root : Option Text) (color : Bool) (command : Command) :
    helpOn names ≠ .run root color command := by
  unfold helpOn
  split
  · exact nofun
  · split
    · exact nofun
    · exact nofun
  · exact nofun

theorem ofArguments_eq_edit {args : List Text} {root : Option Text} {color : Bool}
    {e : EditCommand} : Request.ofArguments args = .run root color (.edit e) ↔
      ∃ outer name rest, Level.read rootGrammar none {} args = .ok outer ∧
        outer.command = some (name, rest) ∧ name ≠ "help".toList ∧
          commandRequest outer name rest = .run root color (.edit e) := by
  unfold Request.ofArguments
  cases hread : Level.read rootGrammar none {} args with
  | error stop => cases stop <;> simp [Request.ofStop]
  | ok outer =>
    cases hcommand : outer.command with
    | none => simp [hcommand]
    | some found =>
      obtain ⟨name, rest⟩ := found
      simp only [hcommand]
      constructor
      · intro h
        split at h
        · exact absurd h (helpOn_ne_run rest root color _)
        · rename_i hhelp
          exact ⟨outer, name, rest, rfl, hcommand, hhelp, h⟩
      · rintro ⟨outer', name', rest', houter, hcommand', hhelp, h⟩
        cases houter
        cases hcommand.symm.trans hcommand'
        rwa [if_neg hhelp]

/-- **Without the argument of the switch**, the same edit is asked for, to be carried out. -/
theorem ofArguments_erase {args : List Text} {root : Option Text} {color : Bool} {e : EditCommand}
    (h : Request.ofArguments args = .run root color (.edit e)) (hdry : e.dryRun = true) :
    Request.ofArguments (args.erase (dashes "dry-run")) =
      .run root color (.edit { e with dryRun := false }) := by
  obtain ⟨outer, name, rest, houter, hcommand, hhelp, h⟩ := ofArguments_eq_edit.1 h
  obtain ⟨inner, hinner, hedit, hroot, hcolor⟩ := commandRequest_eq_edit.1 h
  obtain ⟨hname, -, -, -, -, hhas⟩ := Level.command?_eq_edit.1 hedit
  -- The arguments before the command stay.
  obtain ⟨before, rfl, hbefore⟩ := Level.exists_leadsTo isSwitch_root
    (fun l => ⟨.misuse, rfl⟩) rfl hcommand houter
  have hne : name ≠ dashes "dry-run" := by
    rintro rfl
    exact absurd hname (by decide)
  rw [List.erase_append_right _ hbefore.not_mem, List.erase_cons_tail (by simpa using hne)]
  -- Those after it lose the switch.
  have hrest : Level.read (grammarOf name.shown) none {} (rest.erase (dashes "dry-run")) =
      .ok (inner.without "dry-run") := by
    have hawaiting : ∀ o, (none : Option OptionSpec) = some o → o.name ≠ "dry-run" := nofun
    rw [hname] at hinner ⊢
    exact Level.read_erase isSwitch_edit mem_edit rfl hawaiting rfl (hhas.trans hdry) hinner
  have hpath : (inner.without "dry-run").value? "path" = inner.value? "path" :=
    Level.value?_without (by decide) inner
  have hplain : (inner.without "dry-run").has "no-color" = inner.has "no-color" :=
    Level.has_without (by decide) inner
  refine ofArguments_eq_edit.2 ⟨_, name, _, hbefore.read_eq _, rfl, hhelp,
    commandRequest_eq_edit.2 ⟨_, hrest, Level.command?_without hedit, ?_, ?_⟩⟩
  · rw [hpath]
    exact hroot
  · rw [hplain]
    exact hcolor

end PageFields.Cli
