import OxideSource.Uri.Base64
import OxideSource.Uri.Percent

/-!
# `data:` URIs

The typed form of an inline literal, its constructor, and the two directions between
it and text. Formatting an accepted value and parsing it back is the identity.
-/

namespace OxideSource

/-- `DataUri`: the payload is stored decoded. -/
structure DataUri where
  mediatype : Text
  base64 : Bool
  data : Bytes
  deriving DecidableEq, Repr

namespace DataUri

open Uri

/-- `strip_base64_suffix`. -/
def stripBase64Suffix (header : Text) : Option Text :=
  let bytes := utf8 header
  let marker := utf8 ";base64".toList
  if bytes.length < marker.length then none
  else if bytesEqIgnoreAsciiCase (bytes.drop (bytes.length - marker.length)) marker then
    -- Seven bytes of ASCII are seven characters.
    some (header.take (header.length - marker.length))
  else none

/-- `ends_with_base64_marker`. -/
def endsWithBase64Marker (mediatype : Text) : Bool := (stripBase64Suffix mediatype).isSome

/-- `DataUri::new`. -/
def new (mediatype : Text) (base64 : Bool) (data : Bytes) : Except Error DataUri :=
  if ',' ∈ mediatype then
    .error (.invalid ["data: mediatype ", .debug mediatype, " contains a ','; the grammar splits ",
      "header from payload at the first comma, so the value cannot round-trip"])
  else if !base64 && endsWithBase64Marker mediatype then
    .error (.invalid ["data: mediatype ", .debug mediatype, " ends with the \";base64\" marker ",
      "while the payload is percent-encoded; the formatted URI would re-parse as base64 and ",
      "the value cannot round-trip"])
  else if startsWithSlashes mediatype then
    .error (.invalid ["data: mediatype ", .debug mediatype, " starts with \"//\"; it cannot ",
      "round-trip because the formatted URI's leading '//' reads as an authority-style spelling ",
      "and is stripped on re-parse"])
  else .ok ⟨mediatype, base64, data⟩

/-- `DataUri::format`. -/
def format (x : DataUri) : Text :=
  "data:".toList ++ x.mediatype ++
    if x.base64 then ";base64,".toList ++ encodeBase64 x.data
    else ",".toList ++ percentEncode x.data

/-- `data::parse`. -/
def parse (uri : Text) : Except Error DataUri :=
  let (scheme, rest) := split uri
  if !schemeIs scheme "data".toList then
    .error (.invalid ["data driver invoked on non-data URI: ", .text uri])
  else
    match splitOnce ',' rest with
    | none => .error (.invalid ["data: URI missing comma separator"])
    | some (header, payload) =>
        let (mediatype, base64) :=
          match stripBase64Suffix header with
          | some stripped => (stripped, true)
          | none => (header, false)
        if startsWithSlashes mediatype then
          .error (.invalid ["data: mediatype ", .debug mediatype, " starts with \"//\" after the ",
            "scheme split; it is ambiguous with an authority-style spelling and cannot round-trip"])
        else
          match if base64 then decodeBase64 payload else percentDecodeBytes payload with
          | .error e => .error e
          | .ok data => .ok ⟨mediatype, base64, data⟩

/-! ### Round trip -/

/-- The constructor accepts a value exactly when its mediatype survives the grammar,
and returns it unchanged. -/
theorem new_eq_ok {m : Text} {b : Bool} {d : Bytes} {x : DataUri} :
    new m b d = .ok x ↔ x = ⟨m, b, d⟩ ∧ ',' ∉ m ∧
      (b = false → stripBase64Suffix m = none) ∧ startsWithSlashes m = false := by
  unfold new endsWithBase64Marker
  constructor
  · intro h
    split at h
    · cases h
    split at h
    · cases h
    split at h
    · cases h
    cases h
    simp_all
  · rintro ⟨rfl, hcomma, hmarker, hslash⟩
    rw [if_neg hcomma, if_neg, if_neg]
    · rw [hslash]
      exact Bool.false_ne_true
    · cases b with
      | true => exact Bool.false_ne_true
      | false => simp [hmarker rfl]

/-- A marker that was appended is stripped. -/
theorem stripBase64Suffix_append (m : Text) :
    stripBase64Suffix (m ++ ";base64".toList) = some m := by
  have hlen : (utf8 ";base64".toList).length = 7 := by decide
  have htail : (utf8 m ++ utf8 ";base64".toList).drop
      ((utf8 m ++ utf8 ";base64".toList).length - 7) = utf8 ";base64".toList := by
    rw [List.length_append, hlen, Nat.add_sub_cancel, List.drop_left]
  have hself : bytesEqIgnoreAsciiCase (utf8 ";base64".toList) (utf8 ";base64".toList) = true := by
    decide
  unfold stripBase64Suffix
  simp only [utf8_append, hlen, htail, hself, ite_true]
  rw [if_neg (by rw [List.length_append, hlen]; omega)]
  simp

/-- `parse (format x) = x` for every value that the constructor accepts. -/
theorem parse_format {m : Text} {b : Bool} {d : Bytes} {x : DataUri} (h : new m b d = .ok x) :
    parse x.format = .ok x := by
  obtain ⟨rfl, hcomma, hmarker, hslash⟩ := new_eq_ok.mp h
  cases b with
  | false =>
      have hsplit : split (format ⟨m, false, d⟩) =
          ("data".toList, m ++ ',' :: percentEncode d) := by
        have hrest := stripSlashes_of_not
          (startsWithSlashes_append (percentEncode d) hslash (c := ',') (by decide))
        rw [← hrest]
        exact split_of_scheme "data".toList (by decide) _
      have hscheme : schemeIs "data".toList "data".toList = true := eqIgnoreAsciiCase_self _
      simp only [parse, hsplit, hscheme, Bool.not_true, Bool.false_eq_true, ite_false,
        splitOnce_append _ hcomma, hmarker rfl, hslash, percentDecodeBytes_percentEncode]
  | true =>
      have hsplit : split (format ⟨m, true, d⟩) =
          ("data".toList, (m ++ ";base64".toList) ++ ',' :: encodeBase64 d) := by
        have hrest := stripSlashes_of_not
          (startsWithSlashes_append ("base64".toList ++ ',' :: encodeBase64 d) hslash (c := ';')
            (by decide))
        have happ : (m ++ ";base64".toList) ++ ',' :: encodeBase64 d =
            m ++ ';' :: ("base64".toList ++ ',' :: encodeBase64 d) := by simp
        rw [happ, ← hrest]
        exact split_of_scheme "data".toList (by decide) _
      have hscheme : schemeIs "data".toList "data".toList = true := eqIgnoreAsciiCase_self _
      have hheader : ',' ∉ m ++ ";base64".toList := by
        rw [List.mem_append, not_or]
        exact ⟨hcomma, by decide⟩
      simp only [parse, hsplit, hscheme, Bool.not_true, Bool.false_eq_true, ite_false, ite_true,
        splitOnce_append _ hheader, stripBase64Suffix_append, hslash, decodeBase64_encodeBase64]

/-- Stripping the marker leaves a prefix of the header. -/
theorem stripBase64Suffix_prefix {header stripped : Text}
    (h : stripBase64Suffix header = some stripped) : stripped <+: header := by
  unfold stripBase64Suffix at h
  dsimp only at h
  split at h
  · cases h
  split at h
  · cases h
    exact List.take_prefix _ _
  · cases h

/-- Every parsed value meets what the constructor asks. -/
theorem new_of_parse {uri : Text} {x : DataUri} (h : parse uri = .ok x) :
    new x.mediatype x.base64 x.data = .ok x := by
  rw [new_eq_ok]
  unfold parse at h
  dsimp only at h
  split at h
  · cases h
  split at h
  · cases h
  rename_i header payload hcomma
  obtain ⟨_, hheader⟩ := splitOnce_eq_some.mp hcomma
  cases hmarker : stripBase64Suffix header with
  | none =>
      rw [hmarker] at h
      dsimp only at h
      split at h
      · cases h
      rename_i hslash
      split at h
      · cases h
      cases h
      exact ⟨rfl, hheader, fun _ => hmarker, (Bool.not_eq_true _).mp hslash⟩
  | some stripped =>
      rw [hmarker] at h
      dsimp only at h
      split at h
      · cases h
      rename_i hslash
      split at h
      · cases h
      cases h
      have hle := stripBase64Suffix_prefix hmarker
      exact ⟨rfl, fun hmem => hheader (hle.subset hmem), fun hb => (nomatch hb),
        (Bool.not_eq_true _).mp hslash⟩

/-- The constructor accepts exactly the values that survive formatting and parsing, and
every parsed value is one of them. -/
theorem new_iff_round_trip :
    (∀ m b d, (∃ x, new m b d = .ok x) ↔ parse (format ⟨m, b, d⟩) = .ok ⟨m, b, d⟩) ∧
      ∀ uri x, parse uri = .ok x →
        new x.mediatype x.base64 x.data = .ok x ∧ parse x.format = .ok x := by
  constructor
  · intro m b d
    constructor
    · rintro ⟨x, h⟩
      obtain ⟨rfl, _⟩ := new_eq_ok.mp h
      exact parse_format h
    · intro h
      exact ⟨_, new_of_parse h⟩
  · intro uri x h
    have hnew := new_of_parse h
    exact ⟨hnew, parse_format hnew⟩

/-- The payload is no longer than the URI. -/
theorem length_data_le (x : DataUri) : x.data.length ≤ x.format.length := by
  have hsuffix (a b c : Text) : c.length ≤ (a ++ (b ++ c)).length :=
    ((List.suffix_append b c).trans (List.suffix_append a _)).length_le
  unfold format
  split
  · exact (length_le_encodeBase64 x.data).trans (hsuffix _ _ _)
  · exact (length_le_percentEncode x.data).trans (hsuffix _ _ _)

end DataUri

end OxideSource
