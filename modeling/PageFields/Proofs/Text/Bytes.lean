import PageFields.Proofs.Text.Order

/-! # Text: the order of the bytes

The order of texts by their characters is the one of their UTF-8 bytes (`bytes_lt_bytes`): of two
different characters the smaller one has the smaller bytes, whatever comes after them
(`encode_lt`). A byte with a small code stands for one character and for nothing else
(`eq_of_mem_encode`). -/

namespace PageFields.Text

/-- The UTF-8 bytes of a text, one after another. -/
def bytes (t : Text) : List UInt8 := (utf8 t).data.toList

theorem bytes_eq_flatMap (t : Text) : bytes t = t.flatMap String.utf8EncodeChar := by
  unfold bytes utf8
  rw [String.toUTF8_eq_toByteArray, String.toByteArray_ofList, List.utf8Encode,
    List.data_toByteArray, List.toList_toArray]

@[simp] theorem bytes_nil : bytes [] = [] := by
  rw [bytes_eq_flatMap, List.flatMap_nil]

theorem bytes_append (s t : Text) : bytes (s ++ t) = bytes s ++ bytes t := by
  rw [bytes_eq_flatMap, bytes_eq_flatMap, bytes_eq_flatMap, List.flatMap_append]

theorem bytes_cons (c : Char) (s : Text) : bytes (c :: s) = String.utf8EncodeChar c ++ bytes s := by
  rw [bytes_eq_flatMap, bytes_eq_flatMap, List.flatMap_cons]

theorem ofNat_lt_ofNat {m n : Nat} (hm : m < 256) (hn : n < 256) :
    UInt8.ofNat m < UInt8.ofNat n ↔ m < n := by
  rw [UInt8.lt_iff_toNat_lt, UInt8.toNat_ofNat', UInt8.toNat_ofNat', Nat.mod_eq_of_lt hm,
    Nat.mod_eq_of_lt hn]

theorem ofNat_eq_ofNat {m n : Nat} (hm : m < 256) (hn : n < 256) :
    UInt8.ofNat m = UInt8.ofNat n ↔ m = n := by
  rw [← UInt8.toNat_inj, UInt8.toNat_ofNat', UInt8.toNat_ofNat', Nat.mod_eq_of_lt hm,
    Nat.mod_eq_of_lt hn]

/-- The smaller one of two numbers has the smaller digit where they first differ to the base 64. -/
theorem digits_lt {m n : Nat} (h : m < n) : m / 262144 < n / 262144 ∨ m / 262144 = n / 262144 ∧
    (m / 4096 % 64 < n / 4096 % 64 ∨ m / 4096 % 64 = n / 4096 % 64 ∧
      (m / 64 % 64 < n / 64 % 64 ∨ m / 64 % 64 = n / 64 % 64 ∧ m % 64 < n % 64)) := by
  have hm := Nat.div_div_eq_div_mul m 4096 64
  have hn := Nat.div_div_eq_div_mul n 4096 64
  have hm' := Nat.div_div_eq_div_mul m 64 64
  have hn' := Nat.div_div_eq_div_mul n 64 64
  omega

/-- **Characters are encoded in order.** The number of bytes of a character grows with its code, and
with it the first byte; for the same number of bytes these are the digits of the code. -/
theorem encode_lt {a b : Char} (h : a < b) (s t : List UInt8) :
    String.utf8EncodeChar a ++ s < String.utf8EncodeChar b ++ t := by
  have hlt : a.val.toNat < b.val.toNat := h
  have hb : b.val.toNat < 0x110000 := by
    rcases b.valid with hb | hb
    · exact hb.trans (by decide)
    · exact hb.2
  unfold String.utf8EncodeChar
  dsimp only
  generalize a.val.toNat = m at *
  generalize b.val.toNat = n at *
  have hdigits := digits_lt hlt
  have hm : m / 262144 % 8 = m / 262144 := Nat.mod_eq_of_lt (by omega)
  have hn : n / 262144 % 8 = n / 262144 := Nat.mod_eq_of_lt (by omega)
  split_ifs <;> simp only [List.cons_append, List.nil_append, List.cons_lt_cons_iff] <;>
    simp (disch := omega) only [ofNat_lt_ofNat, ofNat_eq_ofNat] <;> omega

/-- **The order of texts is that of their bytes.** -/
theorem bytes_lt_bytes {s t : Text} : bytes s < bytes t ↔ s < t := by
  have key : ∀ {s t : Text}, s < t → bytes s < bytes t := by
    intro s t h
    rw [bytes_eq_flatMap, bytes_eq_flatMap]
    induction s generalizing t with
    | nil =>
      cases t with
      | nil => exact absurd h (lt_irrefl _)
      | cons b t =>
        obtain ⟨x, l, hx⟩ := List.exists_cons_of_ne_nil (String.utf8EncodeChar_ne_nil (c := b))
        rw [List.flatMap_cons, hx]
        exact List.nil_lt_cons x _
    | cons a s ih =>
      cases t with
      | nil => exact absurd h (List.not_lt_nil _)
      | cons b t =>
        rw [List.flatMap_cons, List.flatMap_cons]
        rcases List.cons_lt_cons_iff.1 h with hab | ⟨rfl, hst⟩
        · exact encode_lt hab _ _
        · exact List.append_left_lt (ih hst)
  refine ⟨fun h => ?_, key⟩
  rcases lt_trichotomy s t with hst | rfl | hts
  · exact hst
  · exact absurd h (List.lt_irrefl _)
  · exact absurd h (List.lt_asymm (key hts))

/-! ### Characters of one byte -/

theorem encode_of_ascii {c : Char} (h : c.val.toNat < 128) :
    String.utf8EncodeChar c = [UInt8.ofNat c.val.toNat] := by
  unfold String.utf8EncodeChar
  rw [if_pos (Nat.le_of_lt_succ h)]

theorem le_of_mem_encode {c : Char} (h : ¬ c.val.toNat < 128) :
    ∀ x ∈ String.utf8EncodeChar c, 128 ≤ x.toNat := by
  unfold String.utf8EncodeChar
  dsimp only
  generalize c.val.toNat = n at *
  rw [if_neg (by omega)]
  split_ifs <;> simp only [List.forall_mem_cons, List.not_mem_nil, false_imp_iff, implies_true,
    and_true, UInt8.toNat_ofNat'] <;> omega

theorem toNat_ofUInt8 (x : UInt8) : (Char.ofUInt8 x).val.toNat = x.toNat :=
  UInt8.toNat_toUInt32 x

theorem ofUInt8_injective : Function.Injective Char.ofUInt8 := by
  intro x y h
  rw [← UInt8.toNat_inj, ← toNat_ofUInt8, ← toNat_ofUInt8, h]

theorem encode_ofUInt8 {x : UInt8} (hx : x.toNat < 128) :
    String.utf8EncodeChar (Char.ofUInt8 x) = [x] := by
  rw [← toNat_ofUInt8] at hx
  rw [encode_of_ascii hx, toNat_ofUInt8, UInt8.ofNat_toNat]

theorem eq_of_mem_encode {x : UInt8} (hx : x.toNat < 128) {c : Char}
    (h : x ∈ String.utf8EncodeChar c) : c = Char.ofUInt8 x := by
  by_cases hc : c.val.toNat < 128
  · rw [encode_of_ascii hc, List.mem_singleton] at h
    refine Char.ext (UInt32.toNat_inj.1 ?_)
    rw [toNat_ofUInt8, h, UInt8.toNat_ofNat', Nat.mod_eq_of_lt (by omega)]
  · exact absurd (le_of_mem_encode hc x h) (by omega)

theorem head?_bytes {x : UInt8} (hx : x.toNat < 128) (s : Text) :
    (bytes s).head? = some x ↔ s.head? = some (Char.ofUInt8 x) := by
  rw [bytes_eq_flatMap]
  cases s with
  | nil => simp
  | cons c s =>
    rw [List.flatMap_cons, List.head?_append_of_ne_nil _ String.utf8EncodeChar_ne_nil,
      List.head?_cons, Option.some.injEq]
    refine ⟨fun h => eq_of_mem_encode hx (List.mem_of_mem_head? h), ?_⟩
    rintro rfl
    rw [encode_ofUInt8 hx]
    rfl

theorem bytes_ofUInt8_cons {x : UInt8} (hx : x.toNat < 128) (s : Text) :
    bytes (Char.ofUInt8 x :: s) = x :: bytes s := by
  rw [bytes_cons, encode_ofUInt8 hx, List.singleton_append]

end PageFields.Text
