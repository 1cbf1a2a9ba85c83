import OxideSource.Core.Io

/-!
# Splitting a scheme off a URI

Text is a list of scalar values and its encoding a list of bytes. A separator is
always a single ASCII character, so finding it and slicing around it is the same on
characters as on bytes.
-/

namespace OxideSource

/-! ### Text -/

/-- `str::as_bytes`. -/
def utf8 (s : Text) : Bytes := s.flatMap String.utf8EncodeChar

/-- `String::from_utf8`. -/
def fromUtf8 (bs : Bytes) : Option Text :=
  (String.fromUTF8? ⟨bs.toArray⟩).map String.toList

/-- `str::find` of a separator, with the text before it and the text behind it. -/
def splitOnce (sep : Char) : Text → Option (Text × Text)
  | [] => none
  | c :: cs => if c = sep then some ([], cs) else (splitOnce sep cs).map (Prod.map (c :: ·) id)

/-- `str::eq_ignore_ascii_case`. -/
def eqIgnoreAsciiCase (a b : Text) : Bool := a.map Char.toLower == b.map Char.toLower

/-- `u8::to_ascii_lowercase`. -/
def toAsciiLowercase (b : UInt8) : UInt8 := if 65 ≤ b ∧ b ≤ 90 then b + 32 else b

/-- `eq_ignore_ascii_case` on byte slices. -/
def bytesEqIgnoreAsciiCase (a b : Bytes) : Bool :=
  a.map toAsciiLowercase == b.map toAsciiLowercase

@[simp] theorem utf8_cons (c : Char) (s : Text) :
    utf8 (c :: s) = String.utf8EncodeChar c ++ utf8 s := rfl

@[simp] theorem utf8_append (s t : Text) : utf8 (s ++ t) = utf8 s ++ utf8 t := List.flatMap_append

/-- Every character takes at least one byte. -/
theorem length_le_utf8 (s : Text) : s.length ≤ (utf8 s).length := by
  induction s with
  | nil => exact Nat.le_refl _
  | cons c s ih =>
      have hc : 0 < (String.utf8EncodeChar c).length := by
        rw [String.length_utf8EncodeChar]
        exact c.utf8Size_pos
      rw [utf8_cons, List.length_append, List.length_cons]
      omega

/-- The first separator is found behind text that has none. -/
theorem splitOnce_append {sep : Char} {a : Text} (b : Text) (h : sep ∉ a) :
    splitOnce sep (a ++ sep :: b) = some (a, b) := by
  induction a with
  | nil => simp [splitOnce]
  | cons c a ih =>
      obtain ⟨hc, ha⟩ := not_or.mp (List.mem_cons.not.mp h)
      simp [splitOnce, Ne.symm hc, ih ha]

/-- A separator is found exactly at its first occurrence. -/
theorem splitOnce_eq_some {sep : Char} {s a b : Text} :
    splitOnce sep s = some (a, b) ↔ s = a ++ sep :: b ∧ sep ∉ a := by
  constructor
  · intro h
    induction s generalizing a with
    | nil => cases h
    | cons c s ih =>
        rw [splitOnce] at h
        split at h
        · rename_i hc
          cases h
          exact ⟨by rw [hc]; rfl, List.not_mem_nil⟩
        · rename_i hc
          obtain ⟨⟨a', b'⟩, hs, he⟩ := Option.map_eq_some_iff.mp h
          cases he
          obtain ⟨rfl, ha⟩ := ih hs
          exact ⟨rfl, List.mem_cons.not.mpr (not_or.mpr ⟨Ne.symm hc, ha⟩)⟩
  · rintro ⟨rfl, h⟩
    exact splitOnce_append b h

/-- Equality up to ASCII case is equality of the lower-cased texts. -/
theorem eqIgnoreAsciiCase_iff {a b : Text} :
    eqIgnoreAsciiCase a b = true ↔ a.map Char.toLower = b.map Char.toLower := beq_iff_eq

@[simp] theorem eqIgnoreAsciiCase_self (a : Text) : eqIgnoreAsciiCase a a = true :=
  eqIgnoreAsciiCase_iff.mpr rfl

namespace Uri

/-- `strip_prefix("//")`, or the text itself. -/
def stripSlashes : Text → Text
  | '/' :: '/' :: rest => rest
  | rest => rest

/-- `str::starts_with("//")`. -/
def startsWithSlashes (s : Text) : Bool := "//".toList.isPrefixOf s

/-- `uri::split`. -/
def split (uri : Text) : Text × Text :=
  match splitOnce ':' uri with
  | some (scheme, rest) =>
      -- A single letter looks like a Windows drive.
      if scheme.length = 1 ∧ scheme.head?.any Char.isAlpha then ("file".toList, uri)
      else if !(scheme.head?.any Char.isAlpha &&
          scheme.all fun c => c.isAlphanum || c == '+' || c == '-' || c == '.') then
        ("file".toList, uri)
      else (scheme, stripSlashes rest)
  | none => ("file".toList, uri)

/-- `uri::scheme_is`. -/
def schemeIs (scheme want : Text) : Bool := eqIgnoreAsciiCase scheme want

/-- `uri::has_file_scheme`. -/
def hasFileScheme (uri : Text) : Bool :=
  let bytes := utf8 uri
  if bytes.length < 5 then false
  else bytesEqIgnoreAsciiCase (bytes.take 4) (utf8 "file".toList) && bytes[4]? == some 58

/-- A scheme that `split` takes as one. -/
def ValidScheme (scheme : Text) : Prop :=
  ¬ (scheme.length = 1 ∧ scheme.head?.any Char.isAlpha) ∧ scheme.head?.any Char.isAlpha ∧
    scheme.all fun c => c.isAlphanum || c == '+' || c == '-' || c == '.'

instance (scheme : Text) : Decidable (ValidScheme scheme) := inferInstanceAs (Decidable (_ ∧ _))

/-- A valid scheme holds no colon. -/
theorem ValidScheme.colon_not_mem {scheme : Text} (h : ValidScheme scheme) : ':' ∉ scheme := by
  intro hmem
  have hc := List.all_eq_true.mp h.2.2 ':' hmem
  exact absurd hc (by decide)

/-- An explicit scheme is split off with one authority-style `//`. -/
theorem split_of_scheme (scheme : Text) (h : ValidScheme scheme) (rest : Text) :
    split (scheme ++ ':' :: rest) = (scheme, stripSlashes rest) := by
  have hfind := splitOnce_append rest h.colon_not_mem
  have hvalid := Bool.and_eq_true_iff.mpr h.2
  simp only [split, hfind, if_neg h.1, hvalid, Bool.not_true, Bool.false_eq_true, ite_false]

/-- Without a valid scheme a URI is a bare path, taken whole. -/
theorem split_cases (uri : Text) :
    split uri = ("file".toList, uri) ∨
      ∃ scheme rest, ValidScheme scheme ∧ uri = scheme ++ ':' :: rest ∧
        split uri = (scheme, stripSlashes rest) := by
  unfold split
  split
  · rename_i scheme rest hfind
    obtain ⟨huri, _⟩ := splitOnce_eq_some.mp hfind
    split
    · exact .inl rfl
    · rename_i hdrive
      split
      · exact .inl rfl
      · rename_i hvalid
        rw [Bool.not_eq_true', Bool.not_eq_false, Bool.and_eq_true] at hvalid
        exact .inr ⟨scheme, rest, ⟨hdrive, hvalid⟩, huri, rfl⟩
  · exact .inl rfl

theorem length_stripSlashes_le (s : Text) : (stripSlashes s).length ≤ s.length := by
  unfold stripSlashes
  split
  · simp only [List.length_cons]
    omega
  · exact Nat.le_refl _

/-- What follows a scheme other than `file` is shorter than the URI. -/
theorem length_split_lt {uri : Text} (h : schemeIs (split uri).1 "file".toList = false) :
    (split uri).2.length < uri.length := by
  rcases split_cases uri with hfile | ⟨scheme, rest, _, huri, hsplit⟩
  · rw [hfile] at h
    change schemeIs "file".toList "file".toList = false at h
    exact absurd h (by decide)
  · have hle := length_stripSlashes_le rest
    rw [hsplit, huri, List.length_append, List.length_cons]
    dsimp only
    omega

/-- A scheme is equal to one name at most. -/
theorem schemeIs_unique {scheme a b : Text} (ha : schemeIs scheme a = true)
    (hab : schemeIs a b = false) : schemeIs scheme b = false := by
  have ha' := eqIgnoreAsciiCase_iff.mp ha
  by_contra hb
  have hb' := eqIgnoreAsciiCase_iff.mp ((Bool.not_eq_false _).mp hb)
  have hab' : schemeIs a b = true := eqIgnoreAsciiCase_iff.mpr (ha'.symm.trans hb')
  rw [hab] at hab'
  cases hab'

/-- Text without leading slashes is left alone. -/
theorem stripSlashes_of_not {s : Text} (h : startsWithSlashes s = false) : stripSlashes s = s := by
  unfold stripSlashes
  split
  · rename_i rest
    exact absurd h (by simp [startsWithSlashes])
  · rfl

/-- Text that goes on with something else than a slash gains no leading slashes. -/
theorem startsWithSlashes_append {s : Text} {c : Char} (t : Text)
    (h : startsWithSlashes s = false) (hc : c ≠ '/') : startsWithSlashes (s ++ c :: t) = false := by
  match s with
  | [] => simp [startsWithSlashes, List.isPrefixOf, Ne.symm hc]
  | [a] => simp [startsWithSlashes, List.isPrefixOf, Ne.symm hc]
  | a :: b :: s => simpa [startsWithSlashes, List.isPrefixOf] using h

/-! ### Spellings -/

/-- The text before a payload: a scheme name in any case, a colon, and possibly an
authority-style `//`. -/
structure Spelled (want scheme slashes : Text) : Prop where
  scheme : eqIgnoreAsciiCase scheme want = true
  slashes : slashes = [] ∨ slashes = "//".toList

/-- The canonical spelling. -/
theorem Spelled.canonical (want : Text) : Spelled want want [] :=
  ⟨eqIgnoreAsciiCase_self want, .inl rfl⟩

/-- Only capitals are changed by lower-casing. -/
theorem toLower_eq_self {c : Char} (h : c.isUpper = false) : c.toLower = c := by
  refine dif_neg ?_
  intro hc
  have hupper : c.isUpper = true := decide_eq_true hc
  rw [h] at hupper
  cases hupper

/-- Lower-casing makes no letter out of something else. -/
theorem isAlpha_of_toLower {c : Char} (h : c.toLower.isAlpha = true) : c.isAlpha = true := by
  cases hc : c.isUpper with
  | true =>
      change (c.isUpper || c.isLower) = true
      rw [hc, Bool.true_or]
  | false => rwa [toLower_eq_self hc] at h

/-- A scheme is valid if it is valid in lower case. -/
theorem ValidScheme.of_lower {scheme : Text} (h : ValidScheme (scheme.map Char.toLower)) :
    ValidScheme scheme := by
  obtain ⟨hdrive, hhead, hall⟩ := h
  rw [List.length_map] at hdrive
  refine ⟨fun hs => hdrive ⟨hs.1, hhead⟩, ?_, ?_⟩
  · cases scheme with
    | nil => cases hhead
    | cons c cs => exact isAlpha_of_toLower hhead
  · rw [List.all_map] at hall
    apply List.all_eq_true.mpr
    intro c hmem
    have hlower := List.all_eq_true.mp hall c hmem
    cases hc : c.isUpper with
    | true =>
        have hletter : c.isAlphanum = true := by
          change (c.isUpper || c.isLower || c.isDigit) = true
          rw [hc, Bool.true_or, Bool.true_or]
        simp only [hletter, Bool.true_or]
    | false => rwa [Function.comp_apply, toLower_eq_self hc] at hlower

/-- The stripped slashes are the two leading ones, or none. -/
theorem append_stripSlashes (s : Text) :
    ∃ slashes, (slashes = [] ∨ slashes = "//".toList) ∧ s = slashes ++ stripSlashes s := by
  unfold stripSlashes
  split
  · exact ⟨"//".toList, .inr rfl, rfl⟩
  · exact ⟨[], .inl rfl, rfl⟩

/-- A scheme name is split off exactly from its spellings. The name is given in lower
case, and the payload does not go on with slashes that would be stripped as well. -/
theorem split_iff {want rest : Text} (hvalid : ValidScheme want)
    (hlower : want.map Char.toLower = want) (hfile : schemeIs "file".toList want = false)
    (hrest : startsWithSlashes rest = false) (uri : Text) :
    (schemeIs (split uri).1 want = true ∧ (split uri).2 = rest) ↔
      ∃ scheme slashes, Spelled want scheme slashes ∧ uri = scheme ++ ':' :: (slashes ++ rest) := by
  constructor
  · rintro ⟨hscheme, rfl⟩
    rcases split_cases uri with hbare | ⟨scheme, rest, _, huri, hsplit⟩
    · rw [hbare, hfile] at hscheme
      cases hscheme
    · rw [hsplit] at hscheme ⊢
      obtain ⟨slashes, hslashes, happ⟩ := append_stripSlashes rest
      exact ⟨scheme, slashes, ⟨hscheme, hslashes⟩, by rw [huri, ← happ]⟩
  · rintro ⟨scheme, slashes, ⟨hscheme, hslashes⟩, rfl⟩
    have hcase := eqIgnoreAsciiCase_iff.mp hscheme
    rw [hlower] at hcase
    have hstrip : stripSlashes (slashes ++ rest) = rest := by
      rcases hslashes with rfl | rfl
      · exact stripSlashes_of_not hrest
      · rfl
    rw [split_of_scheme scheme (.of_lower (by rwa [hcase])), hstrip]
    exact ⟨hscheme, rfl⟩

/-- A spelling has as many letters as the name. -/
theorem Spelled.length_scheme {want scheme slashes : Text} (h : Spelled want scheme slashes) :
    scheme.length = want.length := by
  have hcase := congrArg List.length (eqIgnoreAsciiCase_iff.mp h.scheme)
  rwa [List.length_map, List.length_map] at hcase

/-- Of the spellings of a name only one is in lower case. -/
theorem Spelled.scheme_eq_iff {want scheme slashes : Text} (h : Spelled want scheme slashes)
    (hwant : want.map Char.toLower = want) : scheme.map Char.toLower = scheme ↔ scheme = want := by
  have hcase := eqIgnoreAsciiCase_iff.mp h.scheme
  rw [hwant] at hcase
  rw [hcase, eq_comm]

/-- A spelling is the canonical text exactly when it is in lower case and has no slashes. -/
theorem Spelled.canonical_iff {want scheme slashes : Text} (h : Spelled want scheme slashes)
    (hwant : want.map Char.toLower = want) (rest : Text) :
    want ++ ':' :: rest = scheme ++ ':' :: (slashes ++ rest) ↔
      scheme.map Char.toLower = scheme ∧ slashes = [] := by
  rw [h.scheme_eq_iff hwant]
  constructor
  · intro heq
    obtain ⟨hscheme, hrest⟩ := List.append_inj heq h.length_scheme.symm
    have hslashes := List.self_eq_append_left.mp (List.cons_injective hrest)
    exact ⟨hscheme.symm, hslashes⟩
  · rintro ⟨rfl, rfl⟩
    rfl

/-- The scheme of a spelled URI is the text before its first colon. -/
theorem Spelled.scheme_unique {want scheme slashes : Text} (h : Spelled want scheme slashes)
    (hvalid : ValidScheme want) (hwant : want.map Char.toLower = want) {rest scheme' rest' : Text}
    (hcolon : ':' ∉ scheme')
    (heq : scheme ++ ':' :: (slashes ++ rest) = scheme' ++ ':' :: rest') :
    scheme = scheme' ∧ slashes ++ rest = rest' := by
  have hcase := eqIgnoreAsciiCase_iff.mp h.scheme
  rw [hwant] at hcase
  have hscheme : ValidScheme scheme := .of_lower (by rwa [hcase])
  have hfind := splitOnce_append (slashes ++ rest) hscheme.colon_not_mem
  rw [heq, splitOnce_append rest' hcolon] at hfind
  cases hfind
  exact ⟨rfl, rfl⟩

end Uri

end OxideSource
