import Mathlib.Data.List.Find
import PageFields.Proofs.FileTree.Directories
import PageFields.Proofs.Storage.Write
import PageFields.Proofs.Toml.Remarks
import PageFields.Workspace

/-! # Workspaces: the configuration that is found

The configuration files of a workspace all stand in its directory, each as the last step of its
route (`ofText_join`). A file that is found is still found in a tree that has only further
directories, even where one of these takes the name of another configuration file, and the
configuration is the same (`configFile?_grows`). A file that has no statements gives every key its
default (`ofToml_remarks`). -/

namespace PageFields.Workspace

open FileTree PageFields.Path

variable {t t' : FileTree} {root name p : Text} {bytes : ByteArray}

/-! ### Files in the directory of a workspace -/

/-- A file with these bytes is at a path. -/
def FoundAt (t : FileTree) (p : Text) (bytes : ByteArray) : Prop :=
  (Route.ofText p).bind t.stat = .ok (.file bytes)

theorem foundAt_iff : FoundAt t p bytes ↔
    ∃ r, Route.ofText p = .ok r ∧ t.stat r = .ok (.file bytes) := bind_eq_ok

/-- **A name in the directory of a workspace** is the last step of its route. -/
theorem ofText_join {r : Route} (hn : IsName name) (hr : Route.ofText (join root name) = .ok r) :
    r = { steps := steps root ++ [.name name] } := by
  obtain ⟨base, hbase, hjoin⟩ :=
    exists_base_join root hn.isAbsolute (.inl rfl) (List.nil_append name).symm
  have hsteps : steps base ++ [.name name] = steps root ++ [.name name] := by
    rw [← steps_append hbase hn, ← hjoin, steps_join root hn.isAbsolute, hn.steps_eq]
  rw [hjoin] at hr
  rw [Storage.eq_of_ofText hbase hn hr, hsteps]

theorem exists_spot_of_foundAt (hn : IsName name) (h : FoundAt t (join root name) bytes) :
    ∃ s : Spot t, s.above = steps root := by
  obtain ⟨r, hr, hstat⟩ := foundAt_iff.1 h
  obtain rfl := ofText_join hn hr
  obtain ⟨s, hs, -⟩ := Spot.exists_of_stat rfl hstat
  exact ⟨s, hs⟩

theorem foundAt_grows (h : t.Grows t') {s : Spot t} (hs : s.above = steps root)
    (hn : IsName name) : FoundAt t' (join root name) bytes ↔ FoundAt t (join root name) bytes := by
  rw [foundAt_iff, foundAt_iff]
  refine exists_congr fun r => and_congr_right fun hr => ?_
  rw [ofText_join hn hr, ← hs]
  exact h.stat_file_iff (s.beside name)

/-! ### The configuration file -/

/-- A file is at a path. -/
def isFileAt (t : FileTree) (p : Text) : Bool :=
  match (Route.ofText p).bind t.stat with
  | .ok (.file _) => true
  | _ => false

theorem isFileAt_iff : isFileAt t p = true ↔ ∃ bytes, FoundAt t p bytes := by
  unfold isFileAt FoundAt
  cases (Route.ofText p).bind t.stat with
  | error fault => simp
  | ok u => cases u <;> simp

theorem configFile?_eq (t : FileTree) (root : Text) :
    configFile? t root = (Config.fileNames.map (join root)).find? (isFileAt t) := rfl

theorem isName_of_mem_fileNames (h : name ∈ Config.fileNames) : IsName name := by
  revert name
  decide +kernel

theorem exists_of_configFile? (h : configFile? t root = some p) :
    ∃ name ∈ Config.fileNames, join root name = p ∧ ∃ bytes, FoundAt t p bytes := by
  rw [configFile?_eq] at h
  obtain ⟨name, hname, hp⟩ := List.mem_map.1 (List.mem_of_find?_eq_some h)
  exact ⟨name, hname, hp, isFileAt_iff.1 (List.find?_some h)⟩

theorem not_foundAt_of_none (h : configFile? t root = none) (hname : name ∈ Config.fileNames) :
    ¬ FoundAt t (join root name) bytes := by
  intro hfound
  rw [configFile?_eq, List.find?_eq_none] at h
  exact h _ (List.mem_map_of_mem hname) (isFileAt_iff.2 ⟨bytes, hfound⟩)

theorem configFile?_of_foundAt (h : FoundAt t (join root "pagesmith.toml".toList) bytes) :
    configFile? t root = some (join root "pagesmith.toml".toList) := by
  rw [configFile?_eq]
  exact List.find?_cons_of_pos (isFileAt_iff.2 ⟨bytes, h⟩)

theorem loadConfig_of_foundAt (hp : configFile? t root = some p) (h : FoundAt t p bytes) :
    loadConfig t root =
      (Text.ofUtf8? bytes).elim (.error (.io .invalidData)) Config.ofToml := by
  obtain ⟨r, hr, hstat⟩ := foundAt_iff.1 h
  have hread : (Route.ofText p).bind t.readFile = .ok bytes :=
    bind_eq_ok.2 ⟨r, hr, Storage.readFile_eq_ok.2 hstat⟩
  unfold loadConfig
  simp only [hp, hread]
  cases Text.ofUtf8? bytes with
  | none => rfl
  | some text => rfl

/-- **Further directories do not change the configuration**: the same file is found, and it says
the same. -/
theorem configFile?_grows (hgrows : t.Grows t') (h : configFile? t root = some p) :
    configFile? t' root = some p ∧ loadConfig t' root = loadConfig t root := by
  obtain ⟨name, hname, rfl, bytes, hfound⟩ := exists_of_configFile? h
  obtain ⟨s, hs⟩ := exists_spot_of_foundAt (isName_of_mem_fileNames hname) hfound
  have hsame : ∀ m ∈ Config.fileNames, ∀ bytes,
      FoundAt t' (join root m) bytes ↔ FoundAt t (join root m) bytes :=
    fun m hm _ => foundAt_grows hgrows hs (isName_of_mem_fileNames hm)
  have hfile : configFile? t' root = some (join root name) := by
    rw [configFile?_eq] at h
    rw [configFile?_eq, ← h]
    refine List.find?_congr fun q hq => ?_
    obtain ⟨m, hm, rfl⟩ := List.mem_map.1 hq
    rw [Bool.eq_iff_iff, isFileAt_iff, isFileAt_iff]
    exact exists_congr (hsame m hm)
  refine ⟨hfile, ?_⟩
  rw [loadConfig_of_foundAt h hfound,
    loadConfig_of_foundAt hfile ((hsame name hname bytes).2 hfound)]

/-- **A configuration without statements** has all defaults. -/
theorem ofToml_remarks {s : Text} (h : ∀ l ∈ Text.splitOn '\n' s, Toml.isRemark l = true) :
    Config.ofToml s = .ok {} := by
  unfold Config.ofToml
  rw [Toml.parse?_remarks h]
  rfl

end PageFields.Workspace
