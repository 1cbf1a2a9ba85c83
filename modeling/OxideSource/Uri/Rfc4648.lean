import OxideSource.Core.Bits
import OxideSource.Uri.Base64
import OxideSource.Uri.Utf8

/-!
# RFC 4648, section 4

What base64 text means: groups of four characters stand for 6-bit values, whose bits
one behind the other are the bits of the decoded bytes. The decoder accepts exactly
such text, whitespace apart, and inverts the encoder.
-/

namespace OxideSource

namespace Uri

/-- The character of a 6-bit value. -/
def letter (v : Fin 64) : Char := alpha.getD v 'A'

/-- The groups of four characters for a sequence of values. Only the last group may end
in one or two `=`. -/
inductive Groups : List (Fin 64) → Text → Prop
  | nil : Groups [] []
  | padTwo (p q : Fin 64) : Groups [p, q] [letter p, letter q, '=', '=']
  | padOne (p q r : Fin 64) : Groups [p, q, r] [letter p, letter q, letter r, '=']
  | cons (p q r s : Fin 64) {vs : List (Fin 64)} {t : Text} (rest : Groups vs t) :
      Groups (p :: q :: r :: s :: vs) (letter p :: letter q :: letter r :: letter s :: t)

/-- Space, tab, CR or LF. -/
def isWhitespace (c : Char) : Bool := c == ' ' || c == '\t' || c == '\r' || c == '\n'

/-- The whitespace-free form of a text. -/
def stripWhitespace (s : Text) : Text := s.filter fun c => !isWhitespace c

/-- The bits of 6-bit values. -/
def sextetBits (vs : List (Fin 64)) : List Bool := bits 6 (vs.map Fin.val)

/-- The bits of a byte string. -/
def byteBits (d : Bytes) : List Bool := bits 8 (d.map UInt8.toNat)

/-- The bytes that a sequence of values fills. -/
def valueBytes : List (Fin 64) → Bytes
  | p :: q :: r :: s :: vs =>
      .ofNat (p * 4 + q / 16) :: .ofNat (q % 16 * 16 + r / 4) :: .ofNat (r % 4 * 64 + s) ::
        valueBytes vs
  | [p, q, r] => [.ofNat (p * 4 + q / 16), .ofNat (q % 16 * 16 + r / 4)]
  | [p, q] => [.ofNat (p * 4 + q / 16)]
  | _ => []

/-! ### Whitespace -/

/-- A whitespace character is one skipped byte; no byte of another character is skipped. -/
theorem isSkipped_of_mem {c : Char} {b : UInt8} (hb : b ∈ String.utf8EncodeChar c) :
    isSkipped b = isWhitespace c := by
  by_cases hc : c.toNat < 128
  · have hall : ∀ n < 128, isSkipped (.ofNat n) = isWhitespace (Char.ofNat n) := by
      decide +kernel
    have hskip := hall c.toNat hc
    rw [Char.ofNat_toNat] at hskip
    rw [utf8EncodeChar_of_ascii hc, List.mem_singleton] at hb
    rwa [hb]
  · have hle := le_of_mem_utf8EncodeChar (Nat.not_lt.mp hc) hb
    have hbyte (x : UInt8) (hx : x.toNat < 128) : (b == x) = false := by
      rw [beq_eq_false_iff_ne]
      rintro rfl
      omega
    have hchar (d : Char) (hd : d.toNat < 128) : (c == d) = false := by
      rw [beq_eq_false_iff_ne]
      rintro rfl
      exact hc hd
    rw [isSkipped, hbyte 32 (by decide), hbyte 9 (by decide), hbyte 10 (by decide),
      hbyte 13 (by decide), isWhitespace, hchar ' ' (by decide), hchar '\t' (by decide),
      hchar '\r' (by decide), hchar '\n' (by decide)]

/-- Skipping whitespace bytes strips the whitespace characters. -/
theorem filter_utf8 (s : Text) :
    (utf8 s).filter (fun b => !isSkipped b) = utf8 (stripWhitespace s) := by
  induction s with
  | nil => rfl
  | cons c s ih =>
      rw [utf8_cons, List.filter_append, ih]
      cases hc : isWhitespace c with
      | true =>
          have hnone : (String.utf8EncodeChar c).filter (fun b => !isSkipped b) = [] := by
            rw [List.filter_eq_nil_iff]
            intro b hb
            simp [isSkipped_of_mem hb, hc]
          have hdrop : stripWhitespace (c :: s) = stripWhitespace s := by
            simp [stripWhitespace, hc]
          rw [hnone, hdrop, List.nil_append]
      | false =>
          have hall : (String.utf8EncodeChar c).filter (fun b => !isSkipped b) =
              String.utf8EncodeChar c := by
            rw [List.filter_eq_self]
            intro b hb
            simp [isSkipped_of_mem hb, hc]
          have hkeep : stripWhitespace (c :: s) = c :: stripWhitespace s := by
            simp [stripWhitespace, hc]
          rw [hall, hkeep, utf8_cons]

/-! ### Decoding groups -/

theorem utf8_letter (v : Fin 64) (t : Text) : utf8 (letter v :: t) = alphaByte v :: utf8 t := by
  rw [utf8_cons, letter, (alpha_spec v.isLt).1]
  rfl

theorem length_utf8_letters (vs : List (Fin 64)) : (utf8 (vs.map letter)).length = vs.length := by
  induction vs with
  | nil => rfl
  | cons v vs ih => rw [List.map_cons, utf8_letter, List.length_cons, ih, List.length_cons]

/-- The loop decodes groups to the bytes of their values. -/
theorem decodeGroups_of_groups {vs : List (Fin 64)} {t : Text} (h : Groups vs t) :
    decodeGroups (utf8 t) = .ok (valueBytes vs) := by
  induction h with
  | nil => rfl
  | padTwo p q =>
      rw [utf8_letter, utf8_letter]
      exact decodeGroups_pad_two p.isLt q.isLt
  | padOne p q r =>
      rw [utf8_letter, utf8_letter, utf8_letter]
      exact decodeGroups_pad_one p.isLt q.isLt r.isLt
  | cons p q r s rest ih =>
      rw [utf8_letter, utf8_letter, utf8_letter, utf8_letter,
        decodeGroups_alpha p.isLt q.isLt r.isLt s.isLt, ih]
      rfl

/-- A value belongs to a character of the alphabet. -/
theorem exists_of_b64Value {b v : UInt8} (h : b64Value b = some v) :
    ∃ n : Fin 64, b = alphaByte n := by
  have hall : ∀ n < 256, ∀ w ∈ b64Value (.ofNat n),
      w.toNat < 64 ∧ UInt8.ofNat n = alphaByte w.toNat := by
    decide +kernel
  have hb := hall b.toNat b.toNat_lt
  rw [UInt8.ofNat_toNat] at hb
  obtain ⟨hlt, halpha⟩ := hb v h
  exact ⟨⟨v.toNat, hlt⟩, halpha⟩

theorem utf8_padding (n : Nat) : utf8 (List.replicate n '=') = List.replicate n 61 := by
  induction n with
  | zero => rfl
  | succ n ih =>
      rw [List.replicate_succ, utf8_cons, ih]
      rfl

/-- Behind a padding character there is only padding. -/
theorem scanGroup_padded {bs : Bytes} {pad n : Nat} {chunk : List UInt8} (hpad : 0 < pad)
    (h : scanGroup bs pad = .ok (n, chunk)) : pad + bs.length = n ∧ ∀ b ∈ bs, b = 61 := by
  induction bs generalizing pad chunk with
  | nil =>
      obtain ⟨rfl, rfl⟩ := Prod.mk.inj (Except.ok.inj h)
      simp
  | cons b bs ih =>
      rw [scanGroup] at h
      split at h
      · rename_i hb
        obtain ⟨⟨n', chunk'⟩, hscan, heq⟩ := exceptMap_eq_ok.mp h
        obtain ⟨rfl, rfl⟩ := Prod.mk.inj heq
        obtain ⟨hlen, hall⟩ := ih (Nat.succ_pos pad) hscan
        refine ⟨?_, List.forall_mem_cons.mpr ⟨hb, hall⟩⟩
        rw [List.length_cons, ← Nat.add_assoc, Nat.add_right_comm]
        exact hlen
      · cases h

/-- A scanned group is alphabet characters and then padding. -/
theorem scanGroup_eq_ok {bs : Bytes} {n : Nat} {chunk : List UInt8}
    (h : scanGroup bs 0 = .ok (n, chunk)) :
    ∃ vs : List (Fin 64), bs = utf8 (vs.map letter ++ List.replicate n '=') := by
  induction bs generalizing chunk with
  | nil =>
      obtain ⟨rfl, rfl⟩ := Prod.mk.inj (Except.ok.inj h)
      exact ⟨[], rfl⟩
  | cons b bs ih =>
      have hscan := h
      rw [scanGroup] at h
      split at h
      · rename_i hb
        obtain ⟨⟨n', chunk'⟩, hrest, heq⟩ := exceptMap_eq_ok.mp h
        obtain ⟨rfl, rfl⟩ := Prod.mk.inj heq
        obtain ⟨hlen, hall⟩ := scanGroup_padded Nat.one_pos hrest
        refine ⟨[], ?_⟩
        have hpad : b :: bs = List.replicate n' 61 := by
          rw [List.eq_replicate_iff, List.length_cons, Nat.add_comm]
          exact ⟨hlen, List.forall_mem_cons.mpr ⟨hb, hall⟩⟩
        rw [hpad, List.map_nil, List.nil_append]
        exact (utf8_padding n').symm
      · rw [if_neg (Nat.lt_irrefl 0)] at h
        split at h
        · cases h
        rename_i v hv
        obtain ⟨⟨n', chunk'⟩, hrest, heq⟩ := exceptMap_eq_ok.mp h
        obtain ⟨rfl, rfl⟩ := Prod.mk.inj heq
        obtain ⟨vs, rfl⟩ := ih hrest
        obtain ⟨m, rfl⟩ := exists_of_b64Value hv
        exact ⟨m :: vs, (utf8_letter m _).symm⟩

/-- Four scanned characters in front of groups are groups, if padding ends the text. -/
theorem groups_of_scanned {vs ws : List (Fin 64)} {n : Nat} {t : Text} (hlen : vs.length + n = 4)
    (hn : n ≤ 2) (hlast : 0 < n → t = []) (rest : Groups ws t) :
    ∃ us, Groups us (vs.map letter ++ List.replicate n '=' ++ t) := by
  obtain rfl | rfl | rfl : n = 0 ∨ n = 1 ∨ n = 2 := by omega
  · obtain ⟨p, q, r, s, rfl⟩ := List.length_eq_four.mp hlen
    exact ⟨_, .cons p q r s rest⟩
  · obtain rfl := hlast Nat.one_pos
    obtain ⟨p, q, r, rfl⟩ := List.length_eq_three.mp (Nat.add_right_cancel hlen)
    exact ⟨_, .padOne p q r⟩
  · obtain rfl := hlast Nat.two_pos
    obtain ⟨p, q, rfl⟩ := List.length_eq_two.mp (Nat.add_right_cancel hlen)
    exact ⟨_, .padTwo p q⟩

/-- What the loop decodes is groups. -/
theorem groups_of_decodeGroups {bs d : Bytes} (hlen : bs.length % 4 = 0)
    (h : decodeGroups bs = .ok d) : ∃ vs t, Groups vs t ∧ bs = utf8 t := by
  fun_induction decodeGroups bs generalizing d with
  | case1 b0 b1 b2 b3 rest e hscan => cases h
  | case2 b0 b1 b2 b3 rest pad chunk hscan hpad => cases h
  | case3 b0 b1 b2 b3 rest pad chunk hscan hpad hlast => cases h
  | case4 b0 b1 b2 b3 rest pad chunk hscan hpad hlast ih =>
      obtain ⟨d', hrest, _⟩ := exceptMap_eq_ok.mp h
      rw [List.length_cons, List.length_cons, List.length_cons, List.length_cons] at hlen
      obtain ⟨ws, t, hgroups, rfl⟩ := ih (by omega) hrest
      obtain ⟨vs, hvs⟩ := scanGroup_eq_ok hscan
      have hcount : 4 = vs.length + pad := by
        have hcount := congrArg List.length hvs
        rwa [utf8_append, List.length_append, utf8_padding, List.length_replicate,
          length_utf8_letters] at hcount
      have hfinal (hpos : 0 < pad) : t = [] := by
        by_contra hne
        refine hlast ⟨hpos, fun hnil => hne ?_⟩
        exact utf8_injective hnil
      obtain ⟨us, hus⟩ := groups_of_scanned hcount.symm (Nat.not_lt.mp hpad) hfinal hgroups
      refine ⟨us, _, hus, ?_⟩
      rw [utf8_append, ← hvs]
      rfl
  | case5 bs hshort =>
      have hnil : bs = [] := by
        rcases bs with _ | ⟨b0, _ | ⟨b1, _ | ⟨b2, _ | ⟨b3, rest⟩⟩⟩⟩
        · rfl
        · cases hlen
        · cases hlen
        · cases hlen
        · exact (hshort b0 b1 b2 b3 rest rfl).elim
      exact ⟨[], [], .nil, hnil⟩

/-- Groups are whole: their length is a multiple of four. -/
theorem Groups.length_mod {vs : List (Fin 64)} {t : Text} (h : Groups vs t) :
    (utf8 t).length % 4 = 0 := by
  induction h with
  | nil => rfl
  | padTwo p q =>
      have hpad : utf8 ['=', '='] = [61, 61] := rfl
      rw [utf8_letter, utf8_letter, hpad]
      simp only [List.length_cons, List.length_nil]
  | padOne p q r =>
      have hpad : utf8 ['='] = [61] := rfl
      rw [utf8_letter, utf8_letter, utf8_letter, hpad]
      simp only [List.length_cons, List.length_nil]
  | cons p q r s rest ih =>
      rw [utf8_letter, utf8_letter, utf8_letter, utf8_letter]
      simp only [List.length_cons]
      omega

/-- Decoding a text is decoding the groups of its whitespace-free form. -/
theorem decodeBase64_eq_ok {s : Text} {d : Bytes} :
    decodeBase64 s = .ok d ↔ ∃ vs, Groups vs (stripWhitespace s) ∧ d = valueBytes vs := by
  unfold decodeBase64
  dsimp only
  rw [filter_utf8]
  constructor
  · intro h
    split at h
    · cases h
    rename_i hlen
    obtain ⟨vs, t, hgroups, ht⟩ := groups_of_decodeGroups (not_not.mp hlen) h
    obtain rfl := utf8_injective ht
    refine ⟨vs, hgroups, ?_⟩
    rw [decodeGroups_of_groups hgroups] at h
    exact (Except.ok.inj h).symm
  · rintro ⟨vs, hgroups, rfl⟩
    rw [if_neg (not_not.mpr hgroups.length_mod), decodeGroups_of_groups hgroups]

/-! ### Bits -/

section Bits

variable (p q r s : Fin 64)

theorem bitsOf_two_four : bitsOf 6 q = bitsOf 2 (q / 16) ++ bitsOf 4 (q % 16) := by
  have hlow : q.val % 16 < 2 ^ 4 := Nat.mod_lt _ (by decide)
  rw [← bitsOf_add hlow 2]
  congr 1
  omega

theorem bitsOf_four_two : bitsOf 6 r = bitsOf 4 (r / 4) ++ bitsOf 2 (r % 4) := by
  have hlow : r.val % 4 < 2 ^ 2 := Nat.mod_lt _ (by decide)
  rw [← bitsOf_add hlow 4]
  congr 1
  omega

/-- The first byte takes a value and the top of the next. -/
theorem bitsOf_six_two : bitsOf 8 (p * 4 + q / 16) = bitsOf 6 p ++ bitsOf 2 (q / 16) :=
  bitsOf_add (k := 2) (by omega) 6

/-- The second byte takes the middle of two values. -/
theorem bitsOf_four_four :
    bitsOf 8 (q % 16 * 16 + r / 4) = bitsOf 4 (q % 16) ++ bitsOf 4 (r / 4) :=
  bitsOf_add (k := 4) (by omega) 4

/-- The third byte takes the rest of a value and the last one. -/
theorem bitsOf_two_six : bitsOf 8 (r % 4 * 64 + s) = bitsOf 2 (r % 4) ++ bitsOf 6 s :=
  bitsOf_add (k := 6) (by omega) 2

theorem byteBits_ofNat_cons {n : Nat} (h : n < 256) (d : Bytes) :
    byteBits (.ofNat n :: d) = bitsOf 8 n ++ byteBits d := by
  rw [byteBits, List.map_cons, bits_cons, UInt8.toNat_ofNat', Nat.mod_eq_of_lt h]
  rfl

/-- Three bytes hold four values. -/
theorem byteBits_three (d : Bytes) :
    byteBits (.ofNat (p * 4 + q / 16) :: .ofNat (q % 16 * 16 + r / 4) ::
        .ofNat (r % 4 * 64 + s) :: d) =
      sextetBits [p, q, r, s] ++ byteBits d := by
  rw [byteBits_ofNat_cons (by omega), byteBits_ofNat_cons (by omega),
    byteBits_ofNat_cons (by omega), bitsOf_six_two, bitsOf_four_four, bitsOf_two_six]
  simp only [sextetBits, List.map_cons, List.map_nil, bits_cons, bits_nil, bitsOf_two_four q,
    bitsOf_four_two r, List.append_assoc, List.append_nil]

/-- Two bytes hold three values but for two bits. -/
theorem byteBits_two :
    byteBits [.ofNat (p * 4 + q / 16), .ofNat (q % 16 * 16 + r / 4)] ++ bitsOf 2 (r % 4) =
      sextetBits [p, q, r] := by
  rw [byteBits_ofNat_cons (by omega), byteBits_ofNat_cons (by omega), bitsOf_six_two,
    bitsOf_four_four]
  simp only [sextetBits, byteBits, List.map_cons, List.map_nil, bits_cons, bits_nil,
    bitsOf_two_four q, bitsOf_four_two r, List.append_assoc, List.append_nil]

/-- One byte holds two values but for four bits. -/
theorem byteBits_one :
    byteBits [.ofNat (p * 4 + q / 16)] ++ bitsOf 4 (q % 16) = sextetBits [p, q] := by
  rw [byteBits_ofNat_cons (by omega), bitsOf_six_two]
  simp only [sextetBits, byteBits, List.map_cons, List.map_nil, bits_cons, bits_nil,
    bitsOf_two_four q, List.append_assoc, List.append_nil]

end Bits

theorem dvd_length_byteBits (d : Bytes) : 8 ∣ (byteBits d).length := by
  induction d with
  | nil => exact Nat.dvd_zero 8
  | cons b d ih =>
      rw [byteBits, List.map_cons, bits_cons, List.length_append, length_bitsOf]
      exact Nat.dvd_add (Nat.dvd_refl 8) ih

/-- The bits of groups of values are whole bytes and the loose bits of the last group. -/
theorem sextetBits_cons (p q r s : Fin 64) (vs : List (Fin 64)) :
    sextetBits (p :: q :: r :: s :: vs) = sextetBits [p, q, r, s] ++ sextetBits vs := by
  simp only [sextetBits, List.map_cons, List.map_nil, bits_cons, bits_nil, List.append_assoc,
    List.append_nil]

theorem dvd_length_sextetBits (p q r s : Fin 64) : 8 ∣ (sextetBits [p, q, r, s]).length := by
  simp [sextetBits]

/-- The decoded bytes are the values' bits, truncated to whole bytes. -/
theorem byteBits_valueBytes {vs : List (Fin 64)} {t : Text} (h : Groups vs t) :
    byteBits (valueBytes vs) = wholeBytes (sextetBits vs) := by
  induction h with
  | nil => rfl
  | padTwo p q =>
      rw [← byteBits_one, wholeBytes_append (dvd_length_byteBits _)]
      simp [wholeBytes, valueBytes]
  | padOne p q r =>
      rw [← byteBits_two, wholeBytes_append (dvd_length_byteBits _)]
      simp [wholeBytes, valueBytes]
  | cons p q r s rest ih =>
      rw [sextetBits_cons, wholeBytes_append (dvd_length_sextetBits p q r s), ← ih]
      exact byteBits_three p q r s _

/-! ### Encoding again -/

theorem letter_injective : Function.Injective letter := by
  intro v w h
  have hbyte : alphaByte v = alphaByte w := by
    have hutf8 := congrArg (fun c => utf8 [c]) h
    simp only [utf8_letter] at hutf8
    exact (List.cons.inj hutf8).1
  have hvalue : UInt8.ofNat v.val = .ofNat w.val := by
    apply Option.some.inj
    rw [← (alpha_spec v.isLt).2.1, ← (alpha_spec w.isLt).2.1, hbyte]
  apply Fin.ext
  rw [← UInt8.toNat_ofNat_of_lt' (show v.val < 2 ^ 8 by omega), hvalue,
    UInt8.toNat_ofNat_of_lt' (show w.val < 2 ^ 8 by omega)]

section Encoding

variable (p q r s : Fin 64)

/-- Three bytes are encoded as the four values they hold. -/
theorem encodeBase64_three (d : Bytes) :
    encodeBase64 (.ofNat (p * 4 + q / 16) :: .ofNat (q % 16 * 16 + r / 4) ::
        .ofNat (r % 4 * 64 + s) :: d) =
      letter p :: letter q :: letter r :: letter s :: encodeBase64 d := by
  apply utf8_injective
  have h0 : p.val * 4 + q / 16 < 2 ^ 8 := by omega
  have h1 : q.val % 16 * 16 + r / 4 < 2 ^ 8 := by omega
  have h2 : r.val % 4 * 64 + s < 2 ^ 8 := by omega
  rw [utf8_encodeBase64_cons, UInt8.toNat_ofNat_of_lt' h0, UInt8.toNat_ofNat_of_lt' h1,
    UInt8.toNat_ofNat_of_lt' h2, utf8_letter, utf8_letter, utf8_letter, utf8_letter]
  have e0 : (p.val * 4 + q / 16) / 4 = p := by omega
  have e1 : (p.val * 4 + q / 16) % 4 * 16 + (q % 16 * 16 + r / 4) / 16 = q := by omega
  have e2 : (q.val % 16 * 16 + r / 4) % 16 * 4 + (r % 4 * 64 + s) / 64 = r := by omega
  have e3 : (r.val % 4 * 64 + s) % 64 = s := by omega
  rw [e0, e1, e2, e3]

/-- Two bytes are encoded with the last value's low bits cleared. -/
theorem encodeBase64_two :
    encodeBase64 [.ofNat (p * 4 + q / 16), .ofNat (q % 16 * 16 + r / 4)] =
      [letter p, letter q, letter ⟨r / 4 * 4, by omega⟩, '='] := by
  apply utf8_injective
  have h0 : p.val * 4 + q / 16 < 2 ^ 8 := by omega
  have h1 : q.val % 16 * 16 + r / 4 < 2 ^ 8 := by omega
  rw [utf8_encodeBase64_pair, UInt8.toNat_ofNat_of_lt' h0, UInt8.toNat_ofNat_of_lt' h1,
    utf8_letter, utf8_letter, utf8_letter]
  have e0 : (p.val * 4 + q / 16) / 4 = p := by omega
  have e1 : (p.val * 4 + q / 16) % 4 * 16 + (q % 16 * 16 + r / 4) / 16 = q := by omega
  have e2 : (q.val % 16 * 16 + r / 4) % 16 * 4 = r / 4 * 4 := by omega
  rw [e0, e1, e2]
  rfl

/-- One byte is encoded with the last value's low bits cleared. -/
theorem encodeBase64_one :
    encodeBase64 [.ofNat (p * 4 + q / 16)] =
      [letter p, letter ⟨q / 16 * 16, by omega⟩, '=', '='] := by
  apply utf8_injective
  have h0 : p.val * 4 + q / 16 < 2 ^ 8 := by omega
  rw [utf8_encodeBase64_single, UInt8.toNat_ofNat_of_lt' h0, utf8_letter, utf8_letter]
  have e0 : (p.val * 4 + q / 16) / 4 = p := by omega
  have e1 : (p.val * 4 + q / 16) % 4 * 16 = q / 16 * 16 := by omega
  rw [e0, e1]
  rfl

end Encoding

/-- Encoding the decoded bytes gives the groups back when no discarded bit is set. -/
theorem encodeBase64_valueBytes {vs : List (Fin 64)} {t : Text} (h : Groups vs t) :
    encodeBase64 (valueBytes vs) = t ↔ ∀ b ∈ looseBits (sextetBits vs), b = false := by
  induction h with
  | nil => simp [valueBytes, encodeBase64, sextetBits, looseBits]
  | padTwo p q =>
      have hloose : looseBits (sextetBits [p, q]) = bitsOf 4 (q % 16) := by
        rw [← byteBits_one, looseBits_append (dvd_length_byteBits _)]
        simp [looseBits]
      have hlow : q.val % 16 < 2 ^ 4 := Nat.mod_lt _ (by decide)
      rw [hloose, bitsOf_eq_false hlow, valueBytes, encodeBase64_one]
      simp only [List.cons.injEq, letter_injective.eq_iff, Fin.ext_iff, true_and, and_true]
      omega
  | padOne p q r =>
      have hloose : looseBits (sextetBits [p, q, r]) = bitsOf 2 (r % 4) := by
        rw [← byteBits_two, looseBits_append (dvd_length_byteBits _)]
        simp [looseBits]
      have hlow : r.val % 4 < 2 ^ 2 := Nat.mod_lt _ (by decide)
      rw [hloose, bitsOf_eq_false hlow, valueBytes, encodeBase64_two]
      simp only [List.cons.injEq, letter_injective.eq_iff, Fin.ext_iff, true_and, and_true]
      omega
  | cons p q r s rest ih =>
      rw [sextetBits_cons, looseBits_append (dvd_length_sextetBits p q r s), ← ih, valueBytes,
        encodeBase64_three]
      simp

/-- Byte strings are determined by their bits. -/
theorem byteBits_injective : Function.Injective byteBits := by
  intro d e h
  have hlt (x : Bytes) : ∀ n ∈ x.map UInt8.toNat, n < 2 ^ 8 := by
    intro n hn
    obtain ⟨b, _, rfl⟩ := List.mem_map.mp hn
    exact b.toNat_lt
  have hmap := eq_of_bits (by decide) (hlt d) (hlt e) h
  exact List.map_injective_iff.mpr (fun _ _ => UInt8.toNat_inj.mp) hmap

/-- `decode_base64` is RFC 4648, section 4, with whitespace skipped: it accepts the texts
whose whitespace-free form is groups, and yields the bits of their values truncated to
whole bytes. It inverts the encoder, and the encoder gives the whitespace-free form of a
decoded text back exactly when the truncated bits are zero. -/
theorem decodeBase64_rfc4648 :
    (∀ s, ((∃ d, decodeBase64 s = .ok d) ↔ ∃ vs, Groups vs (stripWhitespace s)) ∧
      ∀ d, decodeBase64 s = .ok d ↔ ∃ vs, Groups vs (stripWhitespace s) ∧
        byteBits d = wholeBytes (sextetBits vs)) ∧
    (∀ d, decodeBase64 (encodeBase64 d) = .ok d) ∧
    ∀ s d vs, decodeBase64 s = .ok d → Groups vs (stripWhitespace s) →
      (encodeBase64 d = stripWhitespace s ↔ ∀ b ∈ looseBits (sextetBits vs), b = false) := by
  have hvalue {vs : List (Fin 64)} {t : Text} {d : Bytes} (h : Groups vs t) :
      d = valueBytes vs ↔ byteBits d = wholeBytes (sextetBits vs) := by
    rw [← byteBits_valueBytes h, byteBits_injective.eq_iff]
  refine ⟨fun s => ⟨?_, fun d => ?_⟩, decodeBase64_encodeBase64, ?_⟩
  · simp only [decodeBase64_eq_ok]
    constructor
    · rintro ⟨d, vs, hgroups, _⟩
      exact ⟨vs, hgroups⟩
    · rintro ⟨vs, hgroups⟩
      exact ⟨_, vs, hgroups, rfl⟩
  · rw [decodeBase64_eq_ok]
    constructor
    · rintro ⟨vs, hgroups, hd⟩
      exact ⟨vs, hgroups, (hvalue hgroups).mp hd⟩
    · rintro ⟨vs, hgroups, hd⟩
      exact ⟨vs, hgroups, (hvalue hgroups).mpr hd⟩
  · intro s d vs hd hgroups
    have hok : decodeBase64 s = .ok (valueBytes vs) := decodeBase64_eq_ok.mpr ⟨vs, hgroups, rfl⟩
    obtain rfl : d = valueBytes vs := Except.ok.inj (hd.symm.trans hok)
    exact encodeBase64_valueBytes hgroups

-- A discarded bit is set in the last group.
example : decodeBase64 "TW\nF=".toList = .ok (utf8 "Ma".toList) ∧
    encodeBase64 (utf8 "Ma".toList) = "TWE=".toList := by
  decide

end Uri

end OxideSource
