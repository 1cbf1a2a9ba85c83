import OxideSource.Uri.Split

/-!
# Percent-encoding

The decoder that file paths and `data:` payloads share, and the spelling that
`DataUri::format` emits. The scanner is a recursion on the bytes still to come, with
the offset kept for its error.
-/

namespace OxideSource

namespace Uri

/-- `hex_nibble`. -/
def hexNibble (b : UInt8) : Option UInt8 :=
  if 48 ≤ b ∧ b ≤ 57 then some (b - 48)
  else if 97 ≤ b ∧ b ≤ 102 then some (b - 97 + 10)
  else if 65 ≤ b ∧ b ≤ 70 then some (b - 65 + 10)
  else none

/-- The loop of `percent_decode_bytes` at offset `i`, with the bytes from there on:
`i + 2 >= bytes.len()` says that fewer than two follow. -/
def percentDecodeFrom (i : Nat) : Bytes → Except Error Bytes
  | [] => .ok []
  | b :: rest =>
      if b = 37 then
        match rest with
        | hi :: lo :: rest =>
            match hexNibble hi with
            | none => .error (.invalid ["percent-encoding: non-hex digit ", .byte hi])
            | some h =>
                match hexNibble lo with
                | none => .error (.invalid ["percent-encoding: non-hex digit ", .byte lo])
                | some l => (percentDecodeFrom (i + 3) rest).map ((h <<< 4 ||| l) :: ·)
        | _ => .error (.invalid ["percent-encoding truncated at offset ", .num i])
      else (percentDecodeFrom (i + 1) rest).map (b :: ·)

/-- `uri::percent_decode_bytes`. -/
def percentDecodeBytes (s : Text) : Except Error Bytes := percentDecodeFrom 0 (utf8 s)

/-- `uri::percent_decode_path`. -/
def percentDecodePath (s : Text) : Except Error Text :=
  match percentDecodeBytes s with
  | .error e => .error e
  | .ok bytes =>
      match fromUtf8 bytes with
      | some path => .ok path
      | none => .error (.invalid ["percent-decoded path is not valid UTF-8: ", .utf8Error bytes])

/-! ### The canonical spelling -/

/-- One digit of `{:X}`. -/
def hexDigit (n : Nat) : Char := "0123456789ABCDEF".toList.getD n '0'

/-- One byte of the percent branch of `DataUri::format`: unreserved bytes pass
through, the others are escaped. -/
def percentEncodeByte (b : UInt8) : Text :=
  let c := Char.ofUInt8 b
  if c.isAlphanum || c == '-' || c == '.' || c == '_' || c == '~' then [c]
  else ['%', hexDigit (b.toNat / 16), hexDigit (b.toNat % 16)]

/-- The percent branch of `DataUri::format`. -/
def percentEncode (payload : Bytes) : Text := payload.flatMap percentEncodeByte

/-- A spelling of one byte: itself, or an escape with its two hex digits. -/
def Spells (b : UInt8) : Bytes → Prop
  | [c] => c = b ∧ b ≠ 37
  | [p, hi, lo] => p = 37 ∧
      ((hexNibble hi).bind fun h => (hexNibble lo).map fun l => h <<< 4 ||| l) = some b
  | _ => False

instance (b : UInt8) : (spelling : Bytes) → Decidable (Spells b spelling)
  | [_] => inferInstanceAs (Decidable (_ ∧ _))
  | [_, _, _] => inferInstanceAs (Decidable (_ ∧ _))
  | [] => isFalse id
  | [_, _] => isFalse id
  | _ :: _ :: _ :: _ :: _ => isFalse id

/-- An unescaped byte is copied. -/
theorem percentDecodeFrom_cons {b : UInt8} (h : b ≠ 37) (i : Nat) (rest : Bytes) :
    percentDecodeFrom i (b :: rest) = (percentDecodeFrom (i + 1) rest).map (b :: ·) := by
  rw [percentDecodeFrom.eq_def]
  exact if_neg h

/-- An escape is decoded as a whole. -/
theorem percentDecodeFrom_escape {hi lo h l : UInt8} (hhi : hexNibble hi = some h)
    (hlo : hexNibble lo = some l) (i : Nat) (rest : Bytes) :
    percentDecodeFrom i (37 :: hi :: lo :: rest) =
      (percentDecodeFrom (i + 3) rest).map ((h <<< 4 ||| l) :: ·) := by
  rw [percentDecodeFrom.eq_def]
  simp only [if_pos, hhi, hlo]

/-- A spelled byte is decoded and the scan goes on behind it. -/
theorem percentDecodeFrom_append {b : UInt8} {spelling : Bytes} (h : Spells b spelling) (i : Nat)
    (rest : Bytes) : percentDecodeFrom i (spelling ++ rest) =
      (percentDecodeFrom (i + spelling.length) rest).map (b :: ·) := by
  unfold Spells at h
  split at h
  · obtain ⟨rfl, hb⟩ := h
    exact percentDecodeFrom_cons hb i rest
  · obtain ⟨rfl, h⟩ := h
    obtain ⟨nib, hhi, h⟩ := Option.bind_eq_some_iff.mp h
    obtain ⟨low, hlo, rfl⟩ := Option.map_eq_some_iff.mp h
    exact percentDecodeFrom_escape hhi hlo i rest
  · exact h.elim

/-- Every byte is spelled by what `format` emits for it. -/
theorem spells_percentEncodeByte (b : UInt8) : Spells b (utf8 (percentEncodeByte b)) := by
  have hall : ∀ n < 256, Spells (.ofNat n) (utf8 (percentEncodeByte (.ofNat n))) := by
    decide +kernel
  have hb := hall b.toNat b.toNat_lt
  rwa [UInt8.ofNat_toNat] at hb

/-- Decoding inverts the spelling that `format` emits. -/
theorem percentDecodeFrom_percentEncode (payload : Bytes) (i : Nat) :
    percentDecodeFrom i (utf8 (percentEncode payload)) = .ok payload := by
  induction payload generalizing i with
  | nil => rfl
  | cons b payload ih =>
      rw [percentEncode, List.flatMap_cons, utf8_append,
        percentDecodeFrom_append (spells_percentEncodeByte b)]
      change Except.map _ (percentDecodeFrom _ (utf8 (percentEncode payload))) = _
      rw [ih]
      rfl

theorem percentDecodeBytes_percentEncode (payload : Bytes) :
    percentDecodeBytes (percentEncode payload) = .ok payload :=
  percentDecodeFrom_percentEncode payload 0

/-- A spelling is no shorter than what it spells. -/
theorem length_le_percentEncode (payload : Bytes) :
    payload.length ≤ (percentEncode payload).length := by
  induction payload with
  | nil => exact Nat.le_refl _
  | cons b payload ih =>
      have hb : 1 ≤ (percentEncodeByte b).length := by
        unfold percentEncodeByte
        dsimp only
        split <;> simp
      rw [percentEncode] at ih ⊢
      rw [List.flatMap_cons, List.length_append, List.length_cons]
      omega

end Uri

end OxideSource
