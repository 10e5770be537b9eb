import PageFields.Sha256
import PageFields.Text.Blank
import PageFields.Text.Normal

/-! # Fingerprints

A fingerprint stands for the content of a file. It is the digest of the normal form, so line endings
and space around the text do not change it, and it is compared for equality only. -/

namespace PageFields

/-- A fingerprint, as hexadecimal digits. -/
structure Fingerprint where
  digits : Text
  deriving DecidableEq, Repr

namespace Fingerprint

/-- The fingerprint of a content. -/
def of (content : Text) : Fingerprint := ⟨Sha256.hex (Text.utf8 (Text.normalize content))⟩

/-- The fingerprint that a caller hands back, without the space around it and in lower case. -/
def ofInput (s : Text) : Fingerprint := ⟨(Text.trimBlank s).map Char.toLower⟩

end Fingerprint

end PageFields
