import OxideSource.Uri.Data
import OxideSource.Uri.Utf8

/-!
# Percent-spellings

What a percent-decoder is for: a text spells bytes when it writes each of them, in
order, as itself or as an escape with its two hex digits. The scanner inverts every
spelling and fails on everything else.
-/

namespace OxideSource

namespace Uri

/-- The byte `c` is the hex digit of `n`, in either case. -/
def HexDigit (n : Nat) (c : UInt8) : Prop :=
  (utf8 "0123456789ABCDEF".toList)[n]? = some c ∨ (utf8 "0123456789abcdef".toList)[n]? = some c

instance (n : Nat) (c : UInt8) : Decidable (HexDigit n c) := inferInstanceAs (Decidable (_ ∨ _))

/-- The spellings of a byte string: each byte as itself, unless it is a `%`, or as a
`%` with its two hex digits. -/
inductive Spelling : Bytes → Bytes → Prop
  | nil : Spelling [] []
  | plain {b : UInt8} {d s : Bytes} (hb : b ≠ 37) (rest : Spelling d s) :
      Spelling (b :: d) (b :: s)
  | escape {b hi lo : UInt8} {d s : Bytes} (hhi : HexDigit (b.toNat / 16) hi)
      (hlo : HexDigit (b.toNat % 16) lo) (rest : Spelling d s) :
      Spelling (b :: d) (37 :: hi :: lo :: s)

/-- There are sixteen digits. -/
theorem HexDigit.lt {n : Nat} {c : UInt8} (h : HexDigit n c) : n < 16 := by
  have hupper : (utf8 "0123456789ABCDEF".toList).length = 16 := by decide
  have hlower : (utf8 "0123456789abcdef".toList).length = 16 := by decide
  obtain h | h := h
  · have hlt := (List.getElem?_eq_some_iff.mp h).1
    omega
  · have hlt := (List.getElem?_eq_some_iff.mp h).1
    omega

/-- `hex_nibble` reads the digits and nothing else. -/
theorem hexNibble_eq_some {c v : UInt8} : hexNibble c = some v ↔ HexDigit v.toNat c := by
  constructor
  · intro h
    have hall : ∀ n < 256, ∀ w ∈ hexNibble (.ofNat n), HexDigit w.toNat (.ofNat n) := by
      decide +kernel
    have hc := hall c.toNat c.toNat_lt
    rw [UInt8.ofNat_toNat] at hc
    exact hc v h
  · intro h
    have hall : ∀ n < 16,
        (∀ c ∈ (utf8 "0123456789ABCDEF".toList)[n]?, hexNibble c = some (.ofNat n)) ∧
          ∀ c ∈ (utf8 "0123456789abcdef".toList)[n]?, hexNibble c = some (.ofNat n) := by
      decide +kernel
    have hv := hall v.toNat h.lt
    rw [UInt8.ofNat_toNat] at hv
    exact h.elim (hv.1 c) (hv.2 c)

/-- `(hi << 4) | lo` of two digits is the byte with these digits. -/
theorem nibbles_eq {h l : UInt8} (hh : h.toNat < 16) (hl : l.toNat < 16) :
    (h <<< 4 ||| l).toNat = h.toNat * 16 + l.toNat := by
  have hall : ∀ n < 16, ∀ m < 16,
      ((.ofNat n : UInt8) <<< 4 ||| .ofNat m).toNat = n * 16 + m := by
    decide +kernel
  have heq := hall h.toNat hh l.toNat hl
  rwa [UInt8.ofNat_toNat, UInt8.ofNat_toNat] at heq

/-- Two digits decode to the byte that they are the digits of. -/
theorem escape_iff {hi lo b : UInt8} :
    (∃ h l, hexNibble hi = some h ∧ hexNibble lo = some l ∧ h <<< 4 ||| l = b) ↔
      HexDigit (b.toNat / 16) hi ∧ HexDigit (b.toNat % 16) lo := by
  constructor
  · rintro ⟨h, l, hhi, hlo, rfl⟩
    rw [hexNibble_eq_some] at hhi hlo
    have hh := hhi.lt
    have hl := hlo.lt
    rw [nibbles_eq hh hl]
    have hdiv : (h.toNat * 16 + l.toNat) / 16 = h.toNat := by omega
    have hmod : (h.toNat * 16 + l.toNat) % 16 = l.toNat := by omega
    rw [hdiv, hmod]
    exact ⟨hhi, hlo⟩
  · rintro ⟨hhi, hlo⟩
    have hdiv : (UInt8.ofNat (b.toNat / 16)).toNat = b.toNat / 16 := by
      rw [UInt8.toNat_ofNat', Nat.mod_eq_of_lt]
      exact (Nat.div_le_self _ _).trans_lt b.toNat_lt
    have hmod : (UInt8.ofNat (b.toNat % 16)).toNat = b.toNat % 16 := by
      rw [UInt8.toNat_ofNat', Nat.mod_eq_of_lt]
      exact (Nat.mod_le _ _).trans_lt b.toNat_lt
    refine ⟨.ofNat (b.toNat / 16), .ofNat (b.toNat % 16), ?_, ?_, ?_⟩
    · rwa [hexNibble_eq_some, hdiv]
    · rwa [hexNibble_eq_some, hmod]
    · apply UInt8.toNat_inj.mp
      have hh := hhi.lt
      have hl := hlo.lt
      rw [← hdiv] at hh
      rw [← hmod] at hl
      rw [nibbles_eq hh hl, hdiv, hmod]
      omega

/-- The scanner inverts spelling, from any offset. -/
theorem percentDecodeFrom_eq_ok {i : Nat} {s d : Bytes} :
    percentDecodeFrom i s = .ok d ↔ Spelling d s := by
  constructor
  · intro h
    fun_induction percentDecodeFrom i s generalizing d with
    | case1 i =>
        obtain rfl := Except.ok.inj h
        exact .nil
    | case2 i hi lo rest hhi => cases h
    | case3 i hi lo rest h' hhi hlo => cases h
    | case4 i hi lo rest h' hhi l hlo ih =>
        obtain ⟨d', hd, rfl⟩ := exceptMap_eq_ok.mp h
        obtain ⟨hdiv, hmod⟩ := escape_iff.mp ⟨h', l, hhi, hlo, rfl⟩
        exact .escape hdiv hmod (ih hd)
    | case5 i rest hshort => cases h
    | case6 i b rest hb ih =>
        obtain ⟨d', hd, rfl⟩ := exceptMap_eq_ok.mp h
        exact .plain hb (ih hd)
  · intro h
    induction h generalizing i with
    | nil => rw [percentDecodeFrom]
    | plain hb rest ih => rw [percentDecodeFrom_cons hb, ih, Except.map]
    | escape hhi hlo rest ih =>
        obtain ⟨h, l, hh, hl, rfl⟩ := escape_iff.mpr ⟨hhi, hlo⟩
        rw [percentDecodeFrom_escape hh hl, ih, Except.map]

theorem percentDecodeBytes_eq_ok {s : Text} {d : Bytes} :
    percentDecodeBytes s = .ok d ↔ Spelling d (utf8 s) :=
  percentDecodeFrom_eq_ok

/-- A path is decoded when what it spells is text. -/
theorem percentDecodePath_eq_ok {s p : Text} :
    percentDecodePath s = .ok p ↔ Spelling (utf8 p) (utf8 s) := by
  unfold percentDecodePath
  constructor
  · intro h
    split at h
    · cases h
    rename_i bytes hbytes
    split at h
    · rename_i path hpath
      obtain rfl := Except.ok.inj h
      rw [fromUtf8_eq_some.mp hpath]
      exact percentDecodeBytes_eq_ok.mp hbytes
    · cases h
  · intro h
    have hpath : fromUtf8 (utf8 p) = some p := fromUtf8_eq_some.mpr rfl
    simp only [percentDecodeBytes_eq_ok.mpr h, hpath]

theorem percentDecodePath_of_bytes_error {s : Text} {e : Error}
    (h : percentDecodeBytes s = .error e) : percentDecodePath s = .error e := by
  simp only [percentDecodePath, h]

theorem percentDecodePath_of_not_text {s : Text} {d : Bytes} (hd : Spelling d (utf8 s))
    (hp : ∀ p, utf8 p ≠ d) :
    percentDecodePath s =
      .error (.invalid ["percent-decoded path is not valid UTF-8: ", .utf8Error d]) := by
  have hnone : fromUtf8 d = none := by
    rw [Option.eq_none_iff_forall_ne_some]
    intro p h
    exact hp p (fromUtf8_eq_some.mp h)
  simp only [percentDecodePath, percentDecodeBytes_eq_ok.mpr hd, hnone]

/-- The decoder fails on what spells nothing. -/
theorem percentDecodeBytes_eq_error {s : Text} :
    (∃ e, percentDecodeBytes s = .error e) ↔ ∀ d, ¬ Spelling d (utf8 s) := by
  simp only [← percentDecodeBytes_eq_ok]
  cases percentDecodeBytes s with
  | error e => simp
  | ok d => simp

/-- Decoding inverts every spelling and rejects everything else; a path must spell
text. The payload that `format` emits is a spelling of the bytes it was given. -/
theorem percentDecode_spelling :
    (∀ s, (∀ d, percentDecodeBytes s = .ok d ↔ Spelling d (utf8 s)) ∧
      ((∃ e, percentDecodeBytes s = .error e) ↔ ∀ d, ¬ Spelling d (utf8 s)) ∧
      (∀ p, percentDecodePath s = .ok p ↔ Spelling (utf8 p) (utf8 s)) ∧
      ((∃ p, percentDecodePath s = .ok p) ↔
        ∃ d, percentDecodeBytes s = .ok d ∧ ∃ p, utf8 p = d)) ∧
    ∀ m d, ∃ payload, DataUri.format ⟨m, false, d⟩ = "data:".toList ++ m ++ ',' :: payload ∧
      Spelling d (utf8 payload) ∧ percentDecodeBytes payload = .ok d := by
  constructor
  · intro s
    refine ⟨fun d => percentDecodeBytes_eq_ok, percentDecodeBytes_eq_error,
      fun p => percentDecodePath_eq_ok, ?_⟩
    simp only [percentDecodePath_eq_ok, percentDecodeBytes_eq_ok]
    constructor
    · rintro ⟨p, h⟩
      exact ⟨utf8 p, h, p, rfl⟩
    · rintro ⟨d, h, p, rfl⟩
      exact ⟨p, h⟩
  · intro m d
    have hdecode := percentDecodeBytes_percentEncode d
    exact ⟨percentEncode d, rfl, percentDecodeBytes_eq_ok.mp hdecode, hdecode⟩

-- Escapes are decoded once, and `+` is kept.
example : percentDecodeBytes "%2525+%c3%A9".toList = .ok (utf8 "%25+é".toList) := by
  decide +kernel

end Uri

end OxideSource
