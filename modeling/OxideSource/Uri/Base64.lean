import OxideSource.Uri.Split

/-!
# Base64

The standard alphabet with padding, as `data:` payloads use it. The encoder takes
three bytes at a time, the decoder four characters with a running count of padding.
The accumulators stay below `2 ^ 24`, so their shifts are shifts of naturals.
-/

namespace OxideSource

namespace Uri

/-- `ALPHA`. -/
def alpha : Text := "ABCDEFGHIJKLMNOPQRSTUVWXYZabcdefghijklmnopqrstuvwxyz0123456789+/".toList

/-- `ALPHA[((t >> shift) & 0x3f) as usize] as char`. -/
def sextet (t shift : Nat) : Char := alpha.getD (t >>> shift &&& 0x3f) 'A'

/-- `encode_base64_into`, as the text it appends. -/
def encodeBase64 : Bytes → Text
  | c0 :: c1 :: c2 :: rest =>
      let t := c0.toNat <<< 16 ||| c1.toNat <<< 8 ||| c2.toNat
      sextet t 18 :: sextet t 12 :: sextet t 6 :: sextet t 0 :: encodeBase64 rest
  | [] => []
  | [b0] =>
      let t := b0.toNat <<< 16
      [sextet t 18, sextet t 12, '=', '=']
  | [b0, b1] =>
      let t := b0.toNat <<< 16 ||| b1.toNat <<< 8
      [sextet t 18, sextet t 12, sextet t 6, '=']

/-- `b64_value`. -/
def b64Value (b : UInt8) : Option UInt8 :=
  if 65 ≤ b ∧ b ≤ 90 then some (b - 65)
  else if 97 ≤ b ∧ b ≤ 122 then some (b - 97 + 26)
  else if 48 ≤ b ∧ b ≤ 57 then some (b - 48 + 52)
  else if b = 43 then some 62
  else if b = 47 then some 63
  else none

/-- The inner loop of `decode_base64` over the rest of a group, with the padding seen
so far: the final padding count and the values stored in `chunk`. -/
def scanGroup : Bytes → Nat → Except Error (Nat × List UInt8)
  | [], pad => .ok (pad, [])
  | b :: bs, pad =>
      if b = 61 then (scanGroup bs (pad + 1)).map (Prod.map id (0 :: ·))
      else if pad > 0 then
        .error (.invalid ["data:// base64 padding character before end of payload"])
      else
        match b64Value b with
        | none => .error (.invalid ["data:// base64: invalid character ", .byte b])
        | some v => (scanGroup bs pad).map (Prod.map id (v :: ·))

/-- What a scanned group writes to `out`. -/
def groupBytes (pad : Nat) (chunk : List UInt8) : Bytes :=
  let triple := (chunk.getD 0 0).toNat <<< 18 ||| (chunk.getD 1 0).toNat <<< 12 |||
    (chunk.getD 2 0).toNat <<< 6 ||| (chunk.getD 3 0).toNat
  UInt8.ofNat (triple >>> 16 &&& 0xff) ::
    ((if pad < 2 then [UInt8.ofNat (triple >>> 8 &&& 0xff)] else []) ++
      if pad < 1 then [UInt8.ofNat (triple &&& 0xff)] else [])

/-- The outer loop of `decode_base64`. -/
def decodeGroups : Bytes → Except Error Bytes
  | b0 :: b1 :: b2 :: b3 :: rest =>
      match scanGroup [b0, b1, b2, b3] 0 with
      | .error e => .error e
      | .ok (pad, chunk) =>
          if pad > 2 then
            .error (.invalid ["data:// base64: more than two padding characters in a group"])
          else if pad > 0 ∧ rest ≠ [] then
            .error (.invalid ["data:// base64: padding before final group"])
          else (decodeGroups rest).map (groupBytes pad chunk ++ ·)
  -- The length is a multiple of four, so nothing but the end remains.
  | _ => .ok []

/-- The whitespace that `decode_base64` skips. -/
def isSkipped (b : UInt8) : Bool := b == 32 || b == 9 || b == 10 || b == 13

/-- `decode_base64`. -/
def decodeBase64 (s : Text) : Except Error Bytes :=
  let clean := (utf8 s).filter fun b => !isSkipped b
  if clean.length % 4 ≠ 0 then
    .error (.invalid ["data:// base64 payload length ", .num clean.length,
      " is not a multiple of 4"])
  else decodeGroups clean

/-! ### Bits -/

/-- A value shifted left of a smaller one is joined by addition. -/
theorem shiftLeft_or_eq {a b k : Nat} (h : b < 2 ^ k) : a <<< k ||| b = a * 2 ^ k + b := by
  rw [← Nat.shiftLeft_add_eq_or_of_lt h, Nat.shiftLeft_eq]

/-- Three bytes joined by shifts, as a number. -/
theorem join_bytes {a b c : Nat} (hb : b < 256) (hc : c < 256) :
    a <<< 16 ||| b <<< 8 ||| c = a * 2 ^ 16 + (b * 2 ^ 8 + c) := by
  rw [Nat.or_assoc, shiftLeft_or_eq (a := b) (k := 8) hc, shiftLeft_or_eq (by omega)]

/-- Four sextets joined by shifts, as a number. -/
theorem join_sextets {p q r s : Nat} (hq : q < 64) (hr : r < 64) (hs : s < 64) :
    p <<< 18 ||| q <<< 12 ||| r <<< 6 ||| s =
      p * 2 ^ 18 + (q * 2 ^ 12 + (r * 2 ^ 6 + s)) := by
  rw [Nat.or_assoc, Nat.or_assoc, shiftLeft_or_eq (a := r) (k := 6) hs,
    shiftLeft_or_eq (a := q) (k := 12) (by omega), shiftLeft_or_eq (by omega)]

theorem shiftRight_and_sextet (t k : Nat) : t >>> k &&& 0x3f = t / 2 ^ k % 64 := by
  rw [Nat.shiftRight_eq_div_pow]
  exact Nat.and_two_pow_sub_one_eq_mod _ 6

theorem and_byte (t : Nat) : t &&& 0xff = t % 256 := Nat.and_two_pow_sub_one_eq_mod t 8

/-! ### Decoding what was encoded -/

/-- The byte of the alphabet character with the given index. -/
def alphaByte (n : Nat) : UInt8 := .ofNat (alpha.getD n 'A').toNat

/-- Every alphabet character is one byte that decodes to its index. -/
theorem alpha_spec {n : Nat} (h : n < 64) :
    String.utf8EncodeChar (alpha.getD n 'A') = [alphaByte n] ∧
      b64Value (alphaByte n) = some (.ofNat n) ∧ alphaByte n ≠ 61 ∧
      isSkipped (alphaByte n) = false := by
  have hall : ∀ n < 64, String.utf8EncodeChar (alpha.getD n 'A') = [alphaByte n] ∧
      b64Value (alphaByte n) = some (.ofNat n) ∧ alphaByte n ≠ 61 ∧
      isSkipped (alphaByte n) = false := by decide +kernel
  exact hall n h

/-- An encoded sextet is the byte of its index. -/
theorem utf8_sextet (t k : Nat) :
    String.utf8EncodeChar (sextet t k) = [alphaByte (t / 2 ^ k % 64)] := by
  rw [sextet, shiftRight_and_sextet]
  exact (alpha_spec (Nat.mod_lt _ (by decide))).1

/-- A value of the alphabet is stored as it is. -/
theorem scanGroup_alpha {n : Nat} (h : n < 64) (bs : Bytes) :
    scanGroup (alphaByte n :: bs) 0 = (scanGroup bs 0).map (Prod.map id (.ofNat n :: ·)) := by
  obtain ⟨_, hvalue, hpad, _⟩ := alpha_spec h
  simp only [scanGroup, if_neg hpad, hvalue, gt_iff_lt, Nat.lt_irrefl, ite_false]

/-- A decoded group, by the index of its four characters. -/
theorem groupBytes_alpha {p q r s : Nat} (hp : p < 64) (hq : q < 64) (hr : r < 64) (hs : s < 64)
    (pad : Nat) :
    groupBytes pad [.ofNat p, .ofNat q, .ofNat r, .ofNat s] =
      UInt8.ofNat (p * 4 + q / 16) ::
        ((if pad < 2 then [UInt8.ofNat (q % 16 * 16 + r / 4)] else []) ++
          if pad < 1 then [UInt8.ofNat (r % 4 * 64 + s)] else []) := by
  have hnat {n : Nat} (h : n < 64) : (UInt8.ofNat n).toNat = n := by
    rw [UInt8.toNat_ofNat']
    exact Nat.mod_eq_of_lt (by omega)
  simp only [groupBytes, List.getD_cons_zero, List.getD_cons_succ, hnat hp, hnat hq, hnat hr,
    hnat hs, join_sextets hq hr hs, and_byte, Nat.shiftRight_eq_div_pow]
  have h16 : (p * 2 ^ 18 + (q * 2 ^ 12 + (r * 2 ^ 6 + s))) / 2 ^ 16 % 256 = p * 4 + q / 16 := by
    omega
  have h8 : (p * 2 ^ 18 + (q * 2 ^ 12 + (r * 2 ^ 6 + s))) / 2 ^ 8 % 256 =
      q % 16 * 16 + r / 4 := by omega
  have h0 : (p * 2 ^ 18 + (q * 2 ^ 12 + (r * 2 ^ 6 + s))) % 256 = r % 4 * 64 + s := by omega
  rw [h16, h8, h0]

/-- A group without padding is decoded and the loop goes on. -/
theorem decodeGroups_alpha {p q r s : Nat} (hp : p < 64) (hq : q < 64) (hr : r < 64)
    (hs : s < 64) (rest : Bytes) :
    decodeGroups (alphaByte p :: alphaByte q :: alphaByte r :: alphaByte s :: rest) =
      (decodeGroups rest).map ([.ofNat (p * 4 + q / 16), .ofNat (q % 16 * 16 + r / 4),
        .ofNat (r % 4 * 64 + s)] ++ ·) := by
  have hscan : scanGroup [alphaByte p, alphaByte q, alphaByte r, alphaByte s] 0 =
      .ok (0, [.ofNat p, .ofNat q, .ofNat r, .ofNat s]) := by
    rw [scanGroup_alpha hp, scanGroup_alpha hq, scanGroup_alpha hr, scanGroup_alpha hs]
    rfl
  have hbytes := groupBytes_alpha hp hq hr hs 0
  rw [decodeGroups]
  simp only [hscan, hbytes]
  rfl

/-- A final group with one padding character holds two bytes. -/
theorem decodeGroups_pad_one {p q r : Nat} (hp : p < 64) (hq : q < 64) (hr : r < 64) :
    decodeGroups [alphaByte p, alphaByte q, alphaByte r, 61] =
      .ok [.ofNat (p * 4 + q / 16), .ofNat (q % 16 * 16 + r / 4)] := by
  have hscan : scanGroup [alphaByte p, alphaByte q, alphaByte r, 61] 0 =
      .ok (1, [.ofNat p, .ofNat q, .ofNat r, .ofNat 0]) := by
    rw [scanGroup_alpha hp, scanGroup_alpha hq, scanGroup_alpha hr]
    rfl
  have hbytes := groupBytes_alpha hp hq hr (s := 0) (by decide) 1
  rw [decodeGroups]
  simp only [hscan, hbytes]
  rfl

/-- A final group with two padding characters holds one byte. -/
theorem decodeGroups_pad_two {p q : Nat} (hp : p < 64) (hq : q < 64) :
    decodeGroups [alphaByte p, alphaByte q, 61, 61] = .ok [.ofNat (p * 4 + q / 16)] := by
  have hscan : scanGroup [alphaByte p, alphaByte q, 61, 61] 0 =
      .ok (2, [.ofNat p, .ofNat q, .ofNat 0, .ofNat 0]) := by
    rw [scanGroup_alpha hp, scanGroup_alpha hq]
    rfl
  have hbytes := groupBytes_alpha hp hq (r := 0) (s := 0) (by decide) (by decide) 2
  rw [decodeGroups]
  simp only [hscan, hbytes]
  rfl

/-- Three bytes are encoded as four sextets. -/
theorem utf8_encodeBase64_cons (c0 c1 c2 : UInt8) (rest : Bytes) :
    utf8 (encodeBase64 (c0 :: c1 :: c2 :: rest)) =
      alphaByte (c0.toNat / 4) :: alphaByte (c0.toNat % 4 * 16 + c1.toNat / 16) ::
        alphaByte (c1.toNat % 16 * 4 + c2.toNat / 64) :: alphaByte (c2.toNat % 64) ::
          utf8 (encodeBase64 rest) := by
  have h0 := c0.toNat_lt
  have h1 := c1.toNat_lt
  have h2 := c2.toNat_lt
  simp only [encodeBase64, utf8_cons, utf8_sextet, List.singleton_append]
  generalize ht : c0.toNat <<< 16 ||| c1.toNat <<< 8 ||| c2.toNat = t
  rw [join_bytes h1 h2] at ht
  have e0 : t / 2 ^ 18 % 64 = c0.toNat / 4 := by omega
  have e1 : t / 2 ^ 12 % 64 = c0.toNat % 4 * 16 + c1.toNat / 16 := by omega
  have e2 : t / 2 ^ 6 % 64 = c1.toNat % 16 * 4 + c2.toNat / 64 := by omega
  have e3 : t / 2 ^ 0 % 64 = c2.toNat % 64 := by omega
  rw [e0, e1, e2, e3]

/-- Two bytes are encoded as three sextets and a padding character. -/
theorem utf8_encodeBase64_pair (b0 b1 : UInt8) :
    utf8 (encodeBase64 [b0, b1]) =
      [alphaByte (b0.toNat / 4), alphaByte (b0.toNat % 4 * 16 + b1.toNat / 16),
        alphaByte (b1.toNat % 16 * 4), 61] := by
  have h0 := b0.toNat_lt
  have h1 := b1.toNat_lt
  have hjoin := join_bytes (a := b0.toNat) h1 (c := 0) (by decide)
  rw [Nat.or_zero] at hjoin
  simp only [encodeBase64, utf8_cons, utf8_sextet, List.singleton_append]
  generalize b0.toNat <<< 16 ||| b1.toNat <<< 8 = t at hjoin
  have e0 : t / 2 ^ 18 % 64 = b0.toNat / 4 := by omega
  have e1 : t / 2 ^ 12 % 64 = b0.toNat % 4 * 16 + b1.toNat / 16 := by omega
  have e2 : t / 2 ^ 6 % 64 = b1.toNat % 16 * 4 := by omega
  rw [e0, e1, e2]
  rfl

/-- One byte is encoded as two sextets and two padding characters. -/
theorem utf8_encodeBase64_single (b0 : UInt8) :
    utf8 (encodeBase64 [b0]) =
      [alphaByte (b0.toNat / 4), alphaByte (b0.toNat % 4 * 16), 61, 61] := by
  have h0 := b0.toNat_lt
  have e0 : b0.toNat * 2 ^ 16 / 2 ^ 18 % 64 = b0.toNat / 4 := by omega
  have e1 : b0.toNat * 2 ^ 16 / 2 ^ 12 % 64 = b0.toNat % 4 * 16 := by omega
  simp only [encodeBase64, utf8_cons, utf8_sextet, List.singleton_append, Nat.shiftLeft_eq, e0, e1]
  rfl

/-- The encoder emits whole groups without whitespace, and the loop decodes them. -/
theorem decodeGroups_encodeBase64 (payload : Bytes) :
    decodeGroups (utf8 (encodeBase64 payload)) = .ok payload ∧
      (utf8 (encodeBase64 payload)).length % 4 = 0 ∧
      ∀ b ∈ utf8 (encodeBase64 payload), isSkipped b = false := by
  have hskip {n : Nat} (h : n < 64) : isSkipped (alphaByte n) = false := (alpha_spec h).2.2.2
  have hpad : isSkipped 61 = false := rfl
  induction payload using encodeBase64.induct with
  | case1 c0 c1 c2 rest ih =>
      obtain ⟨hdec, hlen, hall⟩ := ih
      have h0 := c0.toNat_lt
      have h1 := c1.toNat_lt
      have h2 := c2.toNat_lt
      have hp : c0.toNat / 4 < 64 := by omega
      have hq : c0.toNat % 4 * 16 + c1.toNat / 16 < 64 := by omega
      have hr : c1.toNat % 16 * 4 + c2.toNat / 64 < 64 := by omega
      have hs : c2.toNat % 64 < 64 := by omega
      rw [utf8_encodeBase64_cons]
      refine ⟨?_, ?_, ?_⟩
      · have e0 : c0.toNat / 4 * 4 + (c0.toNat % 4 * 16 + c1.toNat / 16) / 16 = c0.toNat := by omega
        have e1 : (c0.toNat % 4 * 16 + c1.toNat / 16) % 16 * 16 +
            (c1.toNat % 16 * 4 + c2.toNat / 64) / 4 = c1.toNat := by omega
        have e2 : (c1.toNat % 16 * 4 + c2.toNat / 64) % 4 * 64 + c2.toNat % 64 = c2.toNat := by
          omega
        rw [decodeGroups_alpha hp hq hr hs, hdec, e0, e1, e2]
        simp [Except.map]
      · simp only [List.length_cons]
        omega
      · simpa [hskip hp, hskip hq, hskip hr, hskip hs] using hall
  | case2 => exact ⟨rfl, rfl, nofun⟩
  | case3 b0 =>
      have h0 := b0.toNat_lt
      have hp : b0.toNat / 4 < 64 := by omega
      have hq : b0.toNat % 4 * 16 < 64 := by omega
      rw [utf8_encodeBase64_single]
      refine ⟨?_, by simp, ?_⟩
      · have e0 : b0.toNat / 4 * 4 + b0.toNat % 4 * 16 / 16 = b0.toNat := by omega
        rw [decodeGroups_pad_two hp hq, e0, UInt8.ofNat_toNat]
      · simp [hskip hp, hskip hq, hpad]
  | case4 b0 b1 =>
      have h0 := b0.toNat_lt
      have h1 := b1.toNat_lt
      have hp : b0.toNat / 4 < 64 := by omega
      have hq : b0.toNat % 4 * 16 + b1.toNat / 16 < 64 := by omega
      have hr : b1.toNat % 16 * 4 < 64 := by omega
      rw [utf8_encodeBase64_pair]
      refine ⟨?_, by simp, ?_⟩
      · have e0 : b0.toNat / 4 * 4 + (b0.toNat % 4 * 16 + b1.toNat / 16) / 16 = b0.toNat := by
          omega
        have e1 : (b0.toNat % 4 * 16 + b1.toNat / 16) % 16 * 16 + b1.toNat % 16 * 4 / 4 =
            b1.toNat := by omega
        rw [decodeGroups_pad_one hp hq hr, e0, e1, UInt8.ofNat_toNat, UInt8.ofNat_toNat]
      · simp [hskip hp, hskip hq, hskip hr, hpad]

/-- Decoding inverts encoding. -/
theorem decodeBase64_encodeBase64 (payload : Bytes) :
    decodeBase64 (encodeBase64 payload) = .ok payload := by
  obtain ⟨hdec, hlen, hall⟩ := decodeGroups_encodeBase64 payload
  have hclean : (utf8 (encodeBase64 payload)).filter (fun b => !isSkipped b) =
      utf8 (encodeBase64 payload) := by
    rw [List.filter_eq_self]
    intro b hb
    rw [hall b hb]
    rfl
  simp only [decodeBase64, hclean, hlen, hdec, ne_eq, not_true_eq_false, ite_false]

/-- An encoding is no shorter than what it encodes. -/
theorem length_le_encodeBase64 (payload : Bytes) :
    payload.length ≤ (encodeBase64 payload).length := by
  induction payload using encodeBase64.induct with
  | case1 c0 c1 c2 rest ih =>
      simp only [encodeBase64, List.length_cons]
      omega
  | case2 => exact Nat.le_refl _
  | case3 b0 => simp [encodeBase64]
  | case4 b0 b1 => simp [encodeBase64]

end Uri

end OxideSource
