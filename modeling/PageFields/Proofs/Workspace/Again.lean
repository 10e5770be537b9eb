import PageFields.Proofs.Workspace.Atomic
import PageFields.Proofs.Workspace.LostUpdate

/-! # Workspaces: saving again

An update gives the fingerprint of the text that it saved. Handed back with the next edit of the
same file, it lets this edit through (`update_again`). Each of the two updates has its own temporary
file: that there was room for the first one says nothing about the second. The one other exception
is a text that is too large to be read. It is saved, but then the file cannot be edited any more
(`not_always_updated_again`). -/

namespace PageFields.Workspace

open FileTree Storage

/-- **Saving again.** After an update, an edit of the same file that hands back the fingerprint is
carried out as well, if nothing else has touched the file, whatever else has changed. Only if the
text that was saved is larger than what is read of a file, the edit is refused for this reason. -/
theorem update_again {w : Workspace} {t t' u : FileTree} {request next : EditRequest} {item : Item}
    {full text' : Text} {fp : Fingerprint} {o : Occasion} (o' : Occasion)
    (hitem : w.classify request.path = .ok item) (hfull : w.storage.resolve item.path = .ok full)
    (hsaved : w.update t request o = (.ok fp, t'))
    (huntouched : (Route.ofText full).bind u.readFile = (Route.ofText full).bind t'.readFile)
    (hpath : next.path = request.path) (hprior : fp.HandedBack next.prior)
    (hnext : w.preview next = .ok text') :
    ∃ text, w.preview request = .ok text ∧
      ((Text.utf8 text).size ≤ w.storage.maxFileSize → Calm o' → RoomBeside o' full →
        Unused o' u full →
        ∃ u', w.update u next o' = (.ok (Fingerprint.of text'), u') ∧ Holding u u' full text') ∧
      (w.storage.maxFileSize < (Text.utf8 text).size →
        w.update u next o' = (.error (.fileTooLarge item.display (Text.utf8 text).size
          w.storage.maxFileSize), u)) := by
  cases htext : w.preview request with
  | error e =>
    rw [update_of_error htext] at hsaved
    cases hsaved
  | ok text =>
    refine ⟨text, rfl, ?_⟩
    have hnames := isName_of_classify hitem
    have hne := names_ne_nil hitem htext
    rw [update_eq hitem htext] at hsaved
    obtain ⟨hlet, rfl, hwrite⟩ := guardedWrite_eq_ok hsaved
    obtain ⟨s, hs, hfree, hb, -, rfl⟩ := exists_spot_of_write hnames hne hfull hlet.read hwrite
    -- The file has the text in both trees.
    have hfile : u.stat s.route = .ok (.file (Text.utf8 text)) := by
      rw [hs.route] at huntouched
      exact readFile_eq_ok.1 (huntouched.trans (readFile_eq_ok.2 (stat_written hs hfree hb text)))
    have hcurrent := read_of_stat hfull hs.route hfile
    rw [update_eq (hpath ▸ hitem) hnext]
    constructor
    · intro hsize hcalm hroom hunused
      rw [if_neg (Nat.not_lt.2 hsize), Text.ofUtf8?_utf8] at hcurrent
      obtain ⟨s', hs', bytes, hbytes, -⟩ := exists_spot_of_read hnames hne hfull hcurrent
      have hfree' := s'.isFree_of_file hbytes
      have hnone := hs'.lookup_temporary hroom hunused
      have hb' := (temporary o' s').isFree_of_none hnone
      rw [guardedWrite_of_eq hcurrent hprior.eq.symm,
        write_of_isFree hs' hfull hfree' hcalm hroom hunused]
      exact ⟨written o' s' text', rfl, s'.place, walk_written hs' hfree' hb' text',
        entry?_written hfree' hnone text'⟩
    · intro hsize
      rw [if_pos hsize] at hcurrent
      exact guardedWrite_of_error hcurrent nofun text'

/-! ### Two edits of one file -/

open Session

/-- An edit of the file with the short name. -/
def replacing (prior content : Text) : EditRequest :=
  ⟨shortName, Fingerprint.of prior, none, .raw content⟩

theorem handedBack_replacing (prior content : Text) :
    (Fingerprint.of prior).HandedBack (replacing prior content).prior := .inl rfl

theorem exists_update_oneFile {text content saved : Text} (hsize : (Text.utf8 text).size ≤ 100)
    (hunused : Unused {} (oneFile shortName text) (pathOf shortName))
    (hsaved : plainWorkspace.preview (replacing text content) = .ok saved) :
    ∃ s : Spot (oneFile shortName text), Spelled (pathOf shortName) s ∧ s.IsFree ∧
      (temporary {} s).IsFree ∧
      plainWorkspace.update (oneFile shortName text) (replacing text content) {} =
        (.ok (Fingerprint.of saved), written {} s saved) := by
  have h := plain_shortName
  have hread := h.read hsize
  obtain ⟨s, hs, bytes, hbytes, -⟩ := exists_spot_of_read (isName_of_classify h.classify)
    (List.cons_ne_nil shortName []) h.resolve hread
  have hfree := s.isFree_of_file hbytes
  have hb := (temporary {} s).isFree_of_none (hs.lookup_temporary roomBeside_shortName hunused)
  have hguard := guardedWrite_of_eq (o := {}) hread
    (show _ = (replacing text content).prior from rfl) saved
  rw [show (itemOf shortName).path = _ from rfl,
    write_of_isFree hs h.resolve hfree ⟨rfl, rfl⟩ roomBeside_shortName hunused] at hguard
  exact ⟨s, hs, hfree, hb, (update_eq h.classify hsaved).trans hguard⟩

theorem readFile_written {text saved : Text} {s : Spot (oneFile shortName text)}
    (hs : Spelled (pathOf shortName) s) (hfree : s.IsFree) (hb : (temporary {} s).IsFree) :
    (Route.ofText (pathOf shortName)).bind (oneFile shortName saved).readFile =
      (Route.ofText (pathOf shortName)).bind (written {} s saved).readFile := by
  have h := plain_shortName
  have hroute : s.route = { steps := [.name projects, .name shortName] } :=
    Except.ok.inj (hs.route.symm.trans h.route)
  have hstat := stat_written hs hfree hb saved
  rw [hroute] at hstat
  rw [h.route]
  exact (readFile_eq_ok.2 (h.stat saved)).trans (readFile_eq_ok.2 hstat).symm

/-- A short text that was saved can be replaced. -/
theorem update_again_short : ∃ u',
    plainWorkspace.update (oneFile shortName ['y', '\n']) (replacing ['y', '\n'] ['z']) {} =
      (.ok (Fingerprint.of ['z', '\n']), u') := by
  have h := plain_shortName
  have hclassify : plainWorkspace.classify (replacing ['x'] ['y']).path =
      .ok (itemOf shortName) := h.classify
  have hpath : (replacing ['y', '\n'] ['z']).path = (replacing ['x'] ['y']).path := rfl
  have hprior := handedBack_replacing ['y', '\n'] ['z']
  have hfirst : plainWorkspace.preview (replacing ['x'] ['y']) = .ok ['y', '\n'] :=
    toOption_eq_some.1 (by decide +kernel)
  have hnext : plainWorkspace.preview (replacing ['y', '\n'] ['z']) = .ok ['z', '\n'] :=
    toOption_eq_some.1 (by decide +kernel)
  obtain ⟨s, hs, hfree, hb, hsaved⟩ := exists_update_oneFile (by decide) (by decide +kernel) hfirst
  obtain ⟨text, htext, hsmall, -⟩ := update_again {}
    hclassify h.resolve hsaved (readFile_written hs hfree hb) hpath hprior hnext
  cases htext.symm.trans hfirst
  obtain ⟨u', hu', -⟩ := hsmall (by decide) ⟨rfl, rfl⟩ roomBeside_shortName (by decide +kernel)
  exact ⟨u', hu'⟩

/-- A text that is too large to be read. -/
def largeText : Text := List.replicate 100 'y' ++ ['\n']

/-- A text that is too large to be read can be saved, but there is no occasion to replace it. -/
theorem not_always_updated_again : ¬ ∀ (w : Workspace) (t t' : FileTree)
    (request next : EditRequest) (fp : Fingerprint) (text : Text) (o : Occasion),
    w.update t request o = (.ok fp, t') → next.path = request.path → next.prior = fp →
      w.preview next = .ok text → ∃ o' fp' t'', w.update t' next o' = (.ok fp', t'') := by
  intro hall
  have h := plain_shortName
  have hfirst : plainWorkspace.preview (replacing ['x'] largeText) = .ok largeText :=
    toOption_eq_some.1 (by decide +kernel)
  have hnext : plainWorkspace.preview (replacing largeText ['z']) = .ok ['z', '\n'] :=
    toOption_eq_some.1 (by decide +kernel)
  have hpath : (replacing largeText ['z']).path = (replacing ['x'] largeText).path := rfl
  have hprior : (replacing largeText ['z']).prior = Fingerprint.of largeText := rfl
  obtain ⟨s, hs, hfree, hb, hsaved⟩ := exists_update_oneFile (by decide) (by decide +kernel) hfirst
  obtain ⟨o', fp, t', hupdate⟩ := hall _ _ _ _ _ _ _ _ hsaved hpath hprior hnext
  have hread := read_of_stat h.resolve hs.route (stat_written hs hfree hb largeText)
  rw [if_pos (by decide +kernel)] at hread
  have heq := update_eq (t := written {} s largeText) (o := o') h.classify hnext
  rw [guardedWrite_of_error hread nofun] at heq
  cases heq.symm.trans hupdate

end PageFields.Workspace
