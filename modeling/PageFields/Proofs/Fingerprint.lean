import PageFields.Fingerprint
import PageFields.Proofs.Text.Normal

/-! # Fingerprints: what comes back

Without collisions, texts have the same fingerprint when they have the same normal form
(`CollisionFree.of_eq_iff`). A fingerprint has lower-case hexadecimal digits only (`mem_hex`), none
of which is blank. So it is read back from every text that spells it in any case, with blank space
around (`ofInput_of`), and a client that hands it back hands back the same fingerprint
(`HandedBack.eq`). -/

namespace PageFields

namespace Sha256

/-- The digits of a digest. -/
def hexDigits : Text := "0123456789abcdef".toList

theorem mem_hexWord {w : UInt32} {c : Char} (h : c ∈ hexWord w) : c ∈ hexDigits := by
  have hdigit : ∀ n < 16, Nat.digitChar n ∈ hexDigits := by decide
  obtain ⟨k, -, rfl⟩ := List.mem_map.1 h
  exact hdigit _ (Nat.mod_lt _ (by decide))

theorem mem_hex {message : ByteArray} {c : Char} (h : c ∈ hex message) : c ∈ hexDigits := by
  obtain ⟨w, -, hw⟩ := List.mem_flatMap.1 h
  exact mem_hexWord hw

theorem isBlank_of_mem_hexDigits {c : Char} (h : c ∈ hexDigits) : Text.isBlank c = false := by
  have hall : hexDigits.all (fun c => !Text.isBlank c) = true := by decide
  simpa using List.all_eq_true.1 hall c h

end Sha256

namespace Text

theorem toLower_of_isBlank {c : Char} (h : isBlank c = true) : c.toLower = c := by
  have hnot : ¬ (65 ≤ c.toNat ∧ c.toNat ≤ 90) := by
    simp only [isBlank, blanks, Bool.or_eq_true, Bool.and_eq_true, decide_eq_true_eq,
      List.contains_iff_mem, List.mem_cons, List.not_mem_nil, or_false] at h
    omega
  unfold Char.toLower
  rw [dif_neg]
  exact hnot

end Text

namespace Fingerprint

theorem isBlank_of_toLower {c : Char} (h : c.toLower ∈ Sha256.hexDigits) :
    Text.isBlank c = false := by
  by_contra hb
  have hblank : Text.isBlank c = true := by simpa using hb
  rw [Text.toLower_of_isBlank hblank] at h
  exact hb (Sha256.isBlank_of_mem_hexDigits h)

/-- **A fingerprint is read back** from its digits in any case, with blank space around them. -/
theorem ofInput_of {content before digits after : Text}
    (hbefore : ∀ c ∈ before, Text.isBlank c = true) (hafter : ∀ c ∈ after, Text.isBlank c = true)
    (hdigits : digits.map Char.toLower = (Fingerprint.of content).digits) :
    ofInput (before ++ digits ++ after) = Fingerprint.of content := by
  have hnot : ∀ c ∈ digits, Text.isBlank c = false := by
    intro c hc
    have : c.toLower ∈ (Fingerprint.of content).digits := hdigits ▸ List.mem_map_of_mem hc
    exact isBlank_of_toLower (Sha256.mem_hex this)
  have htrim : Text.IsTrimmed Text.isBlank digits :=
    ⟨fun c hc => hnot c (List.mem_of_head? hc), fun c hc => hnot c (List.mem_of_getLast? hc)⟩
  unfold ofInput Text.trimBlank
  rw [Text.trimMatches_append hbefore hafter htrim, hdigits]

/-- What a client hands back for a fingerprint: the fingerprint itself, or what is read from a text
that has its digits, in any case and with blank space around them. -/
def HandedBack (shown prior : Fingerprint) : Prop :=
  prior = shown ∨ ∃ before digits after, (∀ c ∈ before, Text.isBlank c = true) ∧
    (∀ c ∈ after, Text.isBlank c = true) ∧ digits.map Char.toLower = shown.digits ∧
      prior = ofInput (before ++ digits ++ after)

theorem HandedBack.eq {content : Text} {prior : Fingerprint}
    (h : HandedBack (Fingerprint.of content) prior) : prior = Fingerprint.of content := by
  rcases h with h | ⟨before, digits, after, hbefore, hafter, hdigits, h⟩
  · exact h
  · rw [h, ofInput_of hbefore hafter hdigits]

end Fingerprint

end PageFields
