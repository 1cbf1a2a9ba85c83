import OxideSource.Uri.Split

/-!
# UTF-8

Decoding inverts encoding, so text is determined by its bytes. The bytes below 128
stand for the ASCII characters and for nothing else: a scan for an ASCII byte sees
the same as a scan for its character.
-/

namespace OxideSource

/-! ### Decoding -/

theorem byteArray_eq (bs : Bytes) : (⟨bs.toArray⟩ : ByteArray) = bs.toByteArray :=
  ByteArray.ext List.data_toByteArray.symm

/-- `from_utf8` finds the text with the given bytes. -/
theorem fromUtf8_eq_some {bs : Bytes} {s : Text} : fromUtf8 bs = some s ↔ utf8 s = bs := by
  unfold fromUtf8
  rw [byteArray_eq, Option.map_eq_some_iff]
  constructor
  · rintro ⟨str, hstr, rfl⟩
    unfold String.fromUTF8? at hstr
    split at hstr
    · obtain rfl := Option.some.inj hstr
      exact List.toByteArray_inj.mp String.utf8Encode_toList
    · cases hstr
  · rintro rfl
    have hvalid : (utf8 s).toByteArray.IsValidUTF8 := ByteArray.isValidUTF8_utf8Encode
    refine ⟨String.ofList s, ?_, String.toList_ofList⟩
    unfold String.fromUTF8?
    rw [dif_pos hvalid]
    exact congrArg some (String.toByteArray_inj.mp String.toByteArray_ofList.symm)

/-- Text is determined by its bytes. -/
theorem utf8_injective : Function.Injective utf8 := by
  intro s t h
  have hs : fromUtf8 (utf8 t) = some s := fromUtf8_eq_some.mpr h
  have ht : fromUtf8 (utf8 t) = some t := fromUtf8_eq_some.mpr rfl
  exact Option.some.inj (hs.symm.trans ht)

/-! ### ASCII -/

/-- An ASCII character is one byte, its code. -/
theorem utf8EncodeChar_of_ascii {c : Char} (h : c.toNat < 128) :
    String.utf8EncodeChar c = [.ofNat c.toNat] := by
  have hval : c.val.toNat = c.toNat := rfl
  have hsize : c.utf8Size = 1 := by
    rw [Char.utf8Size_eq_one_iff, UInt32.le_iff_toNat_le]
    have h127 : (127 : UInt32).toNat = 127 := rfl
    omega
  rw [String.utf8EncodeChar_eq_singleton hsize]
  rfl

theorem le_or_of_right {x y : UInt8} (h : 128 ≤ y.toNat) : 128 ≤ (x ||| y).toNat := by
  rw [UInt8.toNat_or]
  exact h.trans Nat.right_le_or

/-- Every byte of another character is at least 128. -/
theorem le_of_mem_utf8EncodeChar {c : Char} (h : 128 ≤ c.toNat) {b : UInt8}
    (hb : b ∈ String.utf8EncodeChar c) : 128 ≤ b.toNat := by
  obtain h1 | h2 | h3 | h4 := Char.utf8Size_eq c
  · have hval : c.val.toNat = c.toNat := rfl
    have h127 : (127 : UInt32).toNat = 127 := rfl
    have hle := UInt32.le_iff_toNat_le.mp (Char.utf8Size_eq_one_iff.mp h1)
    omega
  · rw [String.utf8EncodeChar_eq_cons_cons h2] at hb
    simp only [List.mem_cons, List.not_mem_nil, or_false] at hb
    rcases hb with rfl | rfl <;> exact le_or_of_right (by decide)
  · rw [String.utf8EncodeChar_eq_cons_cons_cons h3] at hb
    simp only [List.mem_cons, List.not_mem_nil, or_false] at hb
    rcases hb with rfl | rfl | rfl <;> exact le_or_of_right (by decide)
  · rw [String.utf8EncodeChar_eq_cons_cons_cons_cons h4] at hb
    simp only [List.mem_cons, List.not_mem_nil, or_false] at hb
    rcases hb with rfl | rfl | rfl | rfl <;> exact le_or_of_right (by decide)

/-- Text whose bytes begin with an ASCII byte begins with its character. -/
theorem utf8_eq_cons {s : Text} {b : UInt8} {rest : Bytes} (hb : b.toNat < 128)
    (h : utf8 s = b :: rest) : ∃ s', s = Char.ofNat b.toNat :: s' ∧ utf8 s' = rest := by
  cases s with
  | nil => cases h
  | cons c s =>
      rw [utf8_cons] at h
      by_cases hc : c.toNat < 128
      · rw [utf8EncodeChar_of_ascii hc] at h
        obtain ⟨rfl, rfl⟩ := List.cons.inj h
        refine ⟨s, ?_, rfl⟩
        rw [UInt8.toNat_ofNat', Nat.mod_eq_of_lt (by omega), Char.ofNat_toNat]
      · obtain ⟨b', bs, hcons⟩ := List.exists_cons_of_ne_nil (String.utf8EncodeChar_ne_nil (c := c))
        rw [hcons] at h
        obtain ⟨rfl, _⟩ := List.cons.inj h
        have hmem : b' ∈ String.utf8EncodeChar c := hcons ▸ List.mem_cons_self
        have hle := le_of_mem_utf8EncodeChar (Nat.not_lt.mp hc) hmem
        omega

/-! ### ASCII case -/

/-- Lower-casing an ASCII character is lower-casing its byte. -/
theorem toLower_ofNat {n : Nat} (h : n < 128) :
    (Char.ofNat n).toLower = Char.ofNat (toAsciiLowercase (.ofNat n)).toNat ∧
      toAsciiLowercase (.ofNat n) = .ofNat (Char.ofNat n).toLower.toNat ∧
      (Char.ofNat n).toLower.toNat < 128 := by
  have hall : ∀ n < 128, (Char.ofNat n).toLower =
      Char.ofNat (toAsciiLowercase (.ofNat n)).toNat ∧
      toAsciiLowercase (.ofNat n) = .ofNat (Char.ofNat n).toLower.toNat ∧
      (Char.ofNat n).toLower.toNat < 128 := by
    decide +kernel
  exact hall n h

/-- No other character becomes an ASCII one. -/
theorem ascii_of_toLower {c : Char} (h : c.toLower.toNat < 128) : c.toNat < 128 := by
  by_contra hc
  have hupper : c.isUpper = false := by
    refine decide_eq_false ?_
    rintro ⟨_, hle⟩
    have hle := UInt32.le_iff_toNat_le.mp hle
    have hval : c.val.toNat = c.toNat := rfl
    have hZ : 'Z'.val.toNat = 90 := rfl
    omega
  rw [Uri.toLower_eq_self hupper] at h
  exact hc h

/-- Lower-casing stays on either side of 128. -/
theorem toAsciiLowercase_lt {b : UInt8} : (toAsciiLowercase b).toNat < 128 ↔ b.toNat < 128 := by
  have hall : ∀ n < 256, (toAsciiLowercase (.ofNat n)).toNat < 128 ↔ n < 128 := by
    decide +kernel
  have hb := hall b.toNat b.toNat_lt
  rwa [UInt8.ofNat_toNat] at hb

/-- Text whose first bytes are an ASCII word in any case begins with the word's
characters, in that case. -/
theorem eqIgnoreAsciiCase_of_bytes {want : Text} (hwant : ∀ c ∈ want, c.toNat < 128) {s : Text}
    {bs rest : Bytes} (hs : utf8 s = bs ++ rest)
    (h : bytesEqIgnoreAsciiCase bs (utf8 want) = true) :
    ∃ a t, s = a ++ t ∧ utf8 t = rest ∧ eqIgnoreAsciiCase a want = true := by
  have hlower : bs.map toAsciiLowercase = (utf8 want).map toAsciiLowercase := beq_iff_eq.mp h
  clear h
  induction want generalizing s bs with
  | nil =>
      obtain rfl := List.map_eq_nil_iff.mp hlower
      exact ⟨[], s, rfl, hs, rfl⟩
  | cons c want ih =>
      obtain ⟨hc, hwant⟩ := List.forall_mem_cons.mp hwant
      rw [utf8_cons, utf8EncodeChar_of_ascii hc, List.singleton_append, List.map_cons] at hlower
      obtain ⟨b, bs, rfl, hb, hbs⟩ := List.map_eq_cons_iff.mp hlower
      have hcode : (UInt8.ofNat c.toNat).toNat = c.toNat :=
        UInt8.toNat_ofNat_of_lt' (hc.trans (by decide))
      have hascii : b.toNat < 128 := by
        rw [← toAsciiLowercase_lt, hb, toAsciiLowercase_lt, hcode]
        exact hc
      obtain ⟨s', rfl, hs'⟩ := utf8_eq_cons hascii hs
      obtain ⟨a, t, rfl, ht, ha⟩ := ih hwant hs' hbs
      refine ⟨Char.ofNat b.toNat :: a, t, rfl, ht, ?_⟩
      have hchar : (Char.ofNat b.toNat).toLower = c.toLower := by
        rw [(toLower_ofNat hascii).1, UInt8.ofNat_toNat, hb, ← (toLower_ofNat hc).1,
          Char.ofNat_toNat]
      rw [eqIgnoreAsciiCase_iff] at ha ⊢
      rw [List.map_cons, List.map_cons, hchar, ha]

/-- An ASCII word in any case has the bytes of the word, in that case. -/
theorem bytes_of_eqIgnoreAsciiCase {a want : Text} (hwant : ∀ c ∈ want, c.toNat < 128)
    (h : eqIgnoreAsciiCase a want = true) :
    bytesEqIgnoreAsciiCase (utf8 a) (utf8 want) = true ∧ (utf8 a).length = want.length := by
  rw [eqIgnoreAsciiCase_iff] at h
  have hmap : (utf8 a).map toAsciiLowercase = (utf8 want).map toAsciiLowercase ∧
      (utf8 a).length = want.length := by
    induction want generalizing a with
    | nil =>
        obtain rfl := List.map_eq_nil_iff.mp h
        exact ⟨rfl, rfl⟩
    | cons c want ih =>
        obtain ⟨hc, hwant⟩ := List.forall_mem_cons.mp hwant
        obtain ⟨d, a, rfl, hd, ha⟩ := List.map_eq_cons_iff.mp h
        obtain ⟨hmap, hlen⟩ := ih hwant ha
        have hlow := toLower_ofNat hc
        rw [Char.ofNat_toNat] at hlow
        have hascii : d.toNat < 128 := ascii_of_toLower (hd ▸ hlow.2.2)
        have hbyte := (toLower_ofNat hascii).2.1
        rw [Char.ofNat_toNat, hd, ← hlow.2.1] at hbyte
        rw [utf8_cons, utf8_cons, utf8EncodeChar_of_ascii hc, utf8EncodeChar_of_ascii hascii]
        simp only [List.singleton_append, List.map_cons, List.length_cons, hbyte, hmap, hlen,
          and_self]
  exact ⟨beq_iff_eq.mpr hmap.1, hmap.2⟩

end OxideSource
