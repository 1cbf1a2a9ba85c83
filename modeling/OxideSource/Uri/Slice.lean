import OxideSource.Uri.Split

/-!
# `slice:` URIs

A window in text: two canonical decimals and an inner URI. The parser splits at the
first `!` and, before it, at the first `+`, so an inner URI is kept whatever it holds.
-/

namespace OxideSource

/-- `SliceUri`. -/
structure SliceUri where
  offset : UInt64
  length : UInt64
  inner : Text
  deriving DecidableEq, Repr

namespace SliceUri

open Uri

/-- `{}` on an unsigned integer. -/
def decimal (n : Nat) : Text := Nat.toDigits 10 n

/-- `SliceUri::new`. -/
def new (offset length : UInt64) (inner : Text) : Except Error SliceUri :=
  if inner = [] then .error (.invalid ["slice: URI inner reference cannot be empty"])
  else if '!' ∈ inner then
    .error (.invalid ["slice: URI inner reference ", .debug inner, " contains a '!'; a literal '!' ",
      "inside the inner URI cannot round-trip because the grammar splits on the first '!' after the ",
      "length token"])
  else .ok ⟨offset, length, inner⟩

/-- `SliceUri::format`. -/
def format (x : SliceUri) : Text :=
  "slice:".toList ++ (decimal x.offset.toNat ++ '+' :: decimal x.length.toNat) ++ '!' :: x.inner

/-- `parse_canonical_u64`. -/
def parseCanonicalU64 (s : Text) (what : String) : Except Error UInt64 :=
  if s = [] then .error (.invalid ["slice: ", what, " is empty"])
  else if !s.all Char.isDigit then
    .error (.invalid ["slice: ", what, " ", .debug s, " is not a non-negative decimal u64"])
  else if s.length > 1 ∧ s.head? = some '0' then
    .error (.invalid ["slice: ", what, " ", .debug s,
      " has leading zeros; the canonical form has none"])
  else
    let n := Nat.ofDigitChars 10 s 0
    if n < u64Size then .ok (.ofNat n)
    else .error (.invalid ["slice: ", what, " ", .debug s,
      " does not fit in a u64: number too large to fit in target type"])

/-- `parse_header`. -/
def parseHeader (rest : Text) : Except Error SliceUri :=
  match splitOnce '!' rest with
  | none => .error (.invalid ["slice: URI missing '!' separator before inner URI"])
  | some (range, inner) =>
      match splitOnce '+' range with
      | none => .error (.invalid ["slice: URI range missing '+' between offset and length"])
      | some (off, len) =>
          match parseCanonicalU64 off "offset" with
          | .error e => .error e
          | .ok offset =>
              match parseCanonicalU64 len "length" with
              | .error e => .error e
              | .ok length =>
                  if inner = [] then
                    .error (.invalid ["slice: URI inner reference is empty after '!'"])
                  else .ok ⟨offset, length, inner⟩

/-- `slice::parse`. -/
def parse (uri : Text) : Except Error SliceUri :=
  let (scheme, rest) := split uri
  if !schemeIs scheme "slice".toList then
    .error (.invalid ["slice driver invoked on non-slice URI: ", .text uri])
  else parseHeader rest

/-! ### Canonical decimals -/

/-- Decimals are spelled with digits only. -/
theorem isDigit_of_mem_decimal {n : Nat} {c : Char} (h : c ∈ decimal n) : c.isDigit = true :=
  Nat.isDigit_of_mem_toDigits (by decide) (by decide) h

theorem not_mem_decimal {n : Nat} {c : Char} (h : c.isDigit = false) : c ∉ decimal n := by
  intro hmem
  rw [isDigit_of_mem_decimal hmem] at h
  cases h

/-- Only zero is spelled with a leading zero. -/
theorem decimal_head {n : Nat} (h : n ≠ 0) : (decimal n).head? ≠ some '0' := by
  induction n using Nat.strong_induction_on with
  | _ n ih =>
      by_cases hn : n < 10
      · rw [decimal, Nat.toDigits_of_lt_base hn]
        simpa using h
      · have hne : decimal (n / 10) ≠ [] := Nat.toDigits_ne_nil
        have hrec : decimal n = decimal (n / 10) ++ [(n % 10).digitChar] :=
          Nat.toDigits_of_base_le (by decide) (Nat.not_lt.mp hn)
        rw [hrec, List.head?_append_of_ne_nil _ hne]
        exact ih (n / 10) (by omega) (by omega)

/-- Printing a number and parsing it is the identity. -/
theorem parseCanonicalU64_decimal (n : UInt64) (what : String) :
    parseCanonicalU64 (decimal n.toNat) what = .ok n := by
  have hne : decimal n.toNat ≠ [] := Nat.toDigits_ne_nil
  have hall : (decimal n.toNat).all Char.isDigit = true := by
    rw [List.all_eq_true]
    intro c hc
    exact isDigit_of_mem_decimal hc
  have hzero : ¬ ((decimal n.toNat).length > 1 ∧ (decimal n.toNat).head? = some '0') := by
    rintro ⟨hlen, hhead⟩
    by_cases h0 : n.toNat = 0
    · rw [h0] at hlen
      exact absurd hlen (by decide)
    · exact decimal_head h0 hhead
  have hvalue : Nat.ofDigitChars 10 (decimal n.toNat) 0 = n.toNat := Nat.ofDigitChars_ten_toDigits
  have hfit : n.toNat < u64Size := n.toNat_lt
  unfold parseCanonicalU64
  rw [if_neg hne, hall, if_neg hzero]
  simp only [Bool.not_true, Bool.false_eq_true, ite_false, hvalue, hfit, ite_true,
    UInt64.ofNat_toNat]

/-- A digit is the spelling of its value. -/
theorem digitChar_of_isDigit {c : Char} (h : c.isDigit = true) :
    Nat.digitChar (c.toNat - 48) = c ∧ c.toNat - 48 < 10 := by
  obtain ⟨hlow, hhigh⟩ : 48 ≤ c.toNat ∧ c.toNat ≤ 57 := by
    simpa [Char.isDigit, UInt32.le_iff_toNat_le] using h
  have hlt : c.toNat - 48 < 10 := by omega
  refine ⟨Char.toNat_inj.mp ?_, hlt⟩
  rw [Nat.toNat_digitChar_of_lt_ten hlt]
  omega

/-- Reading digits behind a number that is not zero appends them to its spelling. -/
theorem decimal_append {digits : Text} (hdigits : digits.all Char.isDigit = true) {n : Nat}
    (hn : 0 < n) : decimal n ++ digits = decimal (Nat.ofDigitChars 10 digits n) := by
  induction digits generalizing n with
  | nil => rw [List.append_nil, Nat.ofDigitChars_nil]
  | cons c digits ih =>
      rw [List.all_cons, Bool.and_eq_true] at hdigits
      obtain ⟨hc, hlt⟩ := digitChar_of_isDigit hdigits.1
      have hstep : decimal n ++ [c] = decimal (10 * n + (c.toNat - 48)) := by
        have happ := Nat.toDigits_append_toDigits (b := 10) (by decide) hn hlt
        rwa [Nat.toDigits_of_lt_base hlt, hc] at happ
      calc decimal n ++ c :: digits
          = (decimal n ++ [c]) ++ digits := by rw [List.append_assoc, List.singleton_append]
        _ = decimal (10 * n + (c.toNat - 48)) ++ digits := by rw [hstep]
        _ = decimal (Nat.ofDigitChars 10 digits (10 * n + (c.toNat - 48))) :=
            ih hdigits.2 (by omega)
        _ = decimal (Nat.ofDigitChars 10 (c :: digits) n) := by rw [Nat.ofDigitChars_cons]; rfl

/-- Digits without a leading zero are the spelling of the number they are read as. -/
theorem decimal_ofDigitChars {s : Text} (hne : s ≠ []) (hdigits : s.all Char.isDigit = true)
    (hzero : ¬ (s.length > 1 ∧ s.head? = some '0')) :
    decimal (Nat.ofDigitChars 10 s 0) = s := by
  obtain ⟨c, digits, rfl⟩ := List.exists_cons_of_ne_nil hne
  rw [List.all_cons, Bool.and_eq_true] at hdigits
  obtain ⟨hc, hlt⟩ := digitChar_of_isDigit hdigits.1
  have hhead : decimal (c.toNat - 48) = [c] := by
    rw [decimal, Nat.toDigits_of_lt_base hlt, hc]
  have hvalue : Nat.ofDigitChars 10 (c :: digits) 0 =
      Nat.ofDigitChars 10 digits (c.toNat - 48) := by
    rw [Nat.ofDigitChars_cons, Nat.mul_zero, Nat.zero_add]
    rfl
  rw [hvalue]
  by_cases hnil : digits = []
  · rw [hnil, Nat.ofDigitChars_nil, hhead]
  · have hpos : 0 < c.toNat - 48 := by
      by_contra hle
      have hc0 : c = '0' := by
        rw [← hc, Nat.eq_zero_of_not_pos hle]
        rfl
      have hlen : (c :: digits).length > 1 := by
        rw [List.length_cons]
        exact Nat.succ_lt_succ (List.length_pos_of_ne_nil hnil)
      exact hzero ⟨hlen, by rw [hc0]; rfl⟩
    rw [← decimal_append hdigits.2 hpos, hhead, List.singleton_append]

/-- The accepted numbers are the canonical spellings of the values below `2 ^ 64`. -/
theorem parseCanonicalU64_iff {s : Text} {what : String} {n : UInt64} :
    parseCanonicalU64 s what = .ok n ↔ s = decimal n.toNat := by
  constructor
  · intro h
    unfold parseCanonicalU64 at h
    split at h
    · cases h
    rename_i hne
    split at h
    · cases h
    rename_i hdigits
    split at h
    · cases h
    rename_i hzero
    dsimp only at h
    split at h
    · rename_i hfit
      cases h
      rw [Bool.not_eq_true, Bool.not_eq_false'] at hdigits
      rw [UInt64.toNat_ofNat_of_lt' hfit, decimal_ofDigitChars hne hdigits hzero]
    · cases h
  · rintro rfl
    exact parseCanonicalU64_decimal n what

/-! ### The grammar -/

/-- The accepted payloads are two decimals and an inner reference that is not empty. -/
theorem parseHeader_iff {rest : Text} {x : SliceUri} : parseHeader rest = .ok x ↔
    rest = (decimal x.offset.toNat ++ '+' :: decimal x.length.toNat) ++ '!' :: x.inner ∧
      x.inner ≠ [] := by
  constructor
  · intro h
    unfold parseHeader at h
    split at h
    · cases h
    rename_i range inner hbang
    obtain ⟨rfl, _⟩ := splitOnce_eq_some.mp hbang
    split at h
    · cases h
    rename_i off len hplus
    obtain ⟨rfl, _⟩ := splitOnce_eq_some.mp hplus
    split at h
    · cases h
    rename_i offset hoffset
    split at h
    · cases h
    rename_i length hlength
    split at h
    · cases h
    rename_i hinner
    cases h
    rw [parseCanonicalU64_iff.mp hoffset, parseCanonicalU64_iff.mp hlength]
    exact ⟨rfl, hinner⟩
  · rintro ⟨rfl, hinner⟩
    have hbang : '!' ∉ decimal x.offset.toNat ++ '+' :: decimal x.length.toNat := by
      simp [not_mem_decimal]
    have hplus : '+' ∉ decimal x.offset.toNat := not_mem_decimal rfl
    simp only [parseHeader, splitOnce_append _ hbang, splitOnce_append _ hplus,
      parseCanonicalU64_decimal, if_neg hinner]

/-- A payload begins with a digit. -/
theorem startsWithSlashes_decimal (n : Nat) (rest : Text) :
    startsWithSlashes (decimal n ++ rest) = false := by
  have hslash : '/' ∉ decimal n := not_mem_decimal (by decide)
  have hne : decimal n ≠ [] := Nat.toDigits_ne_nil
  obtain ⟨c, digits, hd⟩ := List.exists_cons_of_ne_nil hne
  rw [hd] at hslash ⊢
  have hc : '/' ≠ c := List.ne_of_not_mem_cons hslash
  simp [startsWithSlashes, List.isPrefixOf, hc]

theorem parse_eq_ok {uri : Text} {x : SliceUri} : parse uri = .ok x ↔
    schemeIs (split uri).1 "slice".toList = true ∧ parseHeader (split uri).2 = .ok x := by
  cases h : schemeIs (split uri).1 "slice".toList with
  | false =>
      simp only [parse, h, Bool.not_false, ite_true, reduceCtorEq, Bool.false_eq_true, false_and]
  | true => simp only [parse, h, Bool.not_true, Bool.false_eq_true, ite_false, true_and]

/-- The texts that are accepted: the scheme in any case, the slashes of the
authority-style spelling or none, and the payload. -/
theorem parse_iff_spelled {uri : Text} {x : SliceUri} : parse uri = .ok x ↔
    ∃ scheme slashes, Spelled "slice".toList scheme slashes ∧
      uri = scheme ++ ':' :: (slashes ++
        ((decimal x.offset.toNat ++ '+' :: decimal x.length.toNat) ++ '!' :: x.inner)) ∧
      x.inner ≠ [] := by
  have hslash : startsWithSlashes
      ((decimal x.offset.toNat ++ '+' :: decimal x.length.toNat) ++ '!' :: x.inner) = false := by
    rw [List.append_assoc]
    exact startsWithSlashes_decimal _ _
  rw [parse_eq_ok, parseHeader_iff, ← and_assoc,
    split_iff (by decide) (by decide) (by decide) hslash]
  constructor
  · rintro ⟨⟨scheme, slashes, hspelled, huri⟩, hinner⟩
    exact ⟨scheme, slashes, hspelled, huri, hinner⟩
  · rintro ⟨scheme, slashes, hspelled, huri, hinner⟩
    exact ⟨⟨scheme, slashes, hspelled, huri⟩, hinner⟩

/-! ### Round trip -/

theorem format_eq (x : SliceUri) : x.format = "slice".toList ++
    ':' :: ((decimal x.offset.toNat ++ '+' :: decimal x.length.toNat) ++ '!' :: x.inner) :=
  List.append_assoc "slice:".toList _ _

/-- `parse (format x) = x` whenever the inner reference is not empty. -/
theorem parse_format {x : SliceUri} (h : x.inner ≠ []) : parse x.format = .ok x :=
  parse_iff_spelled.mpr ⟨_, _, .canonical _, x.format_eq, h⟩

/-- The parser accepts its grammar and nothing else, whatever the inner reference holds,
and inverts the formatter. A URI is reproduced exactly when it is in canonical form. -/
theorem slice_grammar :
    (∀ uri offset length inner, parse uri = .ok ⟨offset, length, inner⟩ ↔
      ∃ scheme slashes, Spelled "slice".toList scheme slashes ∧
        uri = scheme ++ ':' :: (slashes ++
          ((decimal offset.toNat ++ '+' :: decimal length.toNat) ++ '!' :: inner)) ∧
        inner ≠ []) ∧
    (∀ x : SliceUri, x.inner ≠ [] → parse x.format = .ok x) ∧
    ∀ uri x scheme slashes, parse uri = .ok x → Spelled "slice".toList scheme slashes →
      uri = scheme ++ ':' :: (slashes ++
        ((decimal x.offset.toNat ++ '+' :: decimal x.length.toNat) ++ '!' :: x.inner)) →
      (x.format = uri ↔ scheme.map Char.toLower = scheme ∧ slashes = []) := by
  refine ⟨fun _ _ _ _ => parse_iff_spelled, fun _ => parse_format, ?_⟩
  intro uri x scheme slashes _ hspelled huri
  rw [huri, x.format_eq]
  exact hspelled.canonical_iff (by decide) _

theorem new_eq_ok {offset length : UInt64} {inner : Text} {x : SliceUri} :
    new offset length inner = .ok x ↔ x = ⟨offset, length, inner⟩ ∧ inner ≠ [] ∧ '!' ∉ inner := by
  unfold new
  by_cases hempty : inner = []
  · simp [hempty]
  · by_cases hbang : '!' ∈ inner
    · simp [hempty, hbang]
    · simp [hempty, hbang, eq_comm]

/-- The constructor accepts the values that survive formatting and parsing, less those
whose inner reference holds a `!`. A parsed value is rebuilt under the same condition. -/
theorem new_iff_no_bang :
    (∀ offset length inner, (∃ x, new offset length inner = .ok x) ↔
      '!' ∉ inner ∧ parse (format ⟨offset, length, inner⟩) = .ok ⟨offset, length, inner⟩) ∧
    ∀ uri x, parse uri = .ok x →
      (new x.offset x.length x.inner = .ok x ↔ '!' ∉ x.inner) := by
  have hinner {uri : Text} {x : SliceUri} (h : parse uri = .ok x) : x.inner ≠ [] := by
    obtain ⟨_, _, _, _, hne⟩ := parse_iff_spelled.mp h
    exact hne
  constructor
  · intro offset length inner
    constructor
    · rintro ⟨x, h⟩
      obtain ⟨rfl, hne, hbang⟩ := new_eq_ok.mp h
      exact ⟨hbang, parse_format hne⟩
    · rintro ⟨hbang, h⟩
      exact ⟨_, new_eq_ok.mpr ⟨rfl, hinner h, hbang⟩⟩
  · intro uri x h
    constructor
    · intro hnew
      exact (new_eq_ok.mp hnew).2.2
    · intro hbang
      exact new_eq_ok.mpr ⟨rfl, hinner h, hbang⟩

/-- A nested window is parsed and survives the round trip, but it is not constructed. -/
theorem nested_not_constructed :
    parse "slice:10+20!slice:5+3!mem://x".toList = .ok ⟨10, 20, "slice:5+3!mem://x".toList⟩ ∧
      parse (format ⟨10, 20, "slice:5+3!mem://x".toList⟩) =
        .ok ⟨10, 20, "slice:5+3!mem://x".toList⟩ ∧
      ¬ ∃ x, new 10 20 "slice:5+3!mem://x".toList = .ok x := by
  have hround : parse (format ⟨10, 20, "slice:5+3!mem://x".toList⟩) =
      .ok ⟨10, 20, "slice:5+3!mem://x".toList⟩ := parse_format (by decide)
  have htext : format ⟨10, 20, "slice:5+3!mem://x".toList⟩ =
      "slice:10+20!slice:5+3!mem://x".toList := by decide
  refine ⟨htext ▸ hround, hround, ?_⟩
  rintro ⟨x, h⟩
  exact (new_eq_ok.mp h).2.2 (by decide)

/-- The inner reference is no longer than the formatted URI. -/
theorem length_inner_le (x : SliceUri) : x.inner.length ≤ x.format.length :=
  ((List.suffix_cons '!' x.inner).trans (List.suffix_append _ _)).length_le

/-- The inner reference is shorter than the URI. -/
theorem length_inner_lt {uri : Text} {x : SliceUri} (h : parse uri = .ok x) :
    x.inner.length < uri.length := by
  obtain ⟨hscheme, hheader⟩ := parse_eq_ok.mp h
  obtain ⟨hrest, _⟩ := parseHeader_iff.mp hheader
  have hlt := length_split_lt (schemeIs_unique hscheme (by decide))
  rw [hrest] at hlt
  simp only [List.length_append, List.length_cons] at hlt
  omega

end SliceUri

end OxideSource
