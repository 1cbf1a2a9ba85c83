import OxideSource.Uri.Open
import OxideSource.Uri.Spelling

/-!
# The path a URI names

Whether a path is percent-decoded is decided by a byte test, after the scheme was split
off as text. The test agrees with the splitter, so the path is what follows an explicit
`file` scheme, decoded, or the whole text.
-/

namespace OxideSource

namespace Uri

/-- The URI carries an explicit scheme: it is not a bare path and not a drive letter. -/
def Explicit (uri scheme rest : Text) : Prop := ValidScheme scheme ∧ uri = scheme ++ ':' :: rest

/-- An explicit scheme is split off, with one authority-style `//`. -/
theorem Explicit.split_eq {uri scheme rest : Text} (h : Explicit uri scheme rest) :
    split uri = (scheme, stripSlashes rest) := by
  rw [h.2]
  exact split_of_scheme scheme h.1 rest

/-- Without one the whole text is a path. -/
theorem split_of_bare {uri : Text} (h : ∀ scheme rest, ¬ Explicit uri scheme rest) :
    split uri = ("file".toList, uri) := by
  obtain hbare | ⟨scheme, rest, hvalid, huri, _⟩ := split_cases uri
  · exact hbare
  · exact (h scheme rest ⟨hvalid, huri⟩).elim

theorem ascii_file : ∀ c ∈ "file".toList, c.toNat < 128 := by simp

/-- The byte test sees an explicit `file` scheme and nothing else. -/
theorem hasFileScheme_iff {uri : Text} :
    hasFileScheme uri = true ↔
      ∃ scheme rest, Explicit uri scheme rest ∧ schemeIs scheme "file".toList = true := by
  unfold hasFileScheme
  dsimp only
  constructor
  · intro h
    split at h
    · cases h
    rename_i hlen
    obtain ⟨hword, hcolon⟩ := Bool.and_eq_true_iff.mp h
    have hsplit : utf8 uri = (utf8 uri).take 4 ++ (utf8 uri).drop 4 :=
      (List.take_append_drop 4 _).symm
    obtain ⟨scheme, t, rfl, ht, hscheme⟩ := eqIgnoreAsciiCase_of_bytes ascii_file hsplit hword
    have hdrop : (utf8 (scheme ++ t)).drop 4 = 58 :: (utf8 (scheme ++ t)).drop 5 := by
      obtain ⟨hlt, hget⟩ := List.getElem?_eq_some_iff.mp (beq_iff_eq.mp hcolon)
      rw [List.drop_eq_getElem_cons hlt, hget]
    rw [hdrop] at ht
    obtain ⟨rest, rfl, _⟩ := utf8_eq_cons (b := 58) (by decide) ht
    refine ⟨scheme, rest, ⟨.of_lower ?_, rfl⟩, hscheme⟩
    rw [eqIgnoreAsciiCase_iff.mp hscheme]
    decide
  · rintro ⟨scheme, rest, ⟨_, rfl⟩, hscheme⟩
    obtain ⟨hbytes, hlen⟩ := bytes_of_eqIgnoreAsciiCase ascii_file hscheme
    change _ = 4 at hlen
    have hcolon : utf8 (':' :: rest) = 58 :: utf8 rest := rfl
    rw [utf8_append, hcolon, ← hlen, List.take_left, List.getElem?_append_right (Nat.le_refl _),
      Nat.sub_self, if_neg, hbytes]
    · rfl
    · rw [List.length_append, List.length_cons]
      omega

/-- The path that a URI names: what follows an explicit `file` scheme spells it, and a
URI without a scheme is a path itself. -/
inductive Names (uri : Text) : Text → Prop
  | explicit {scheme rest p : Text} (hsplit : Explicit uri scheme rest)
      (hfile : schemeIs scheme "file".toList = true)
      (hp : Spelling (utf8 p) (utf8 (stripSlashes rest))) : Names uri p
  | bare (h : ∀ scheme rest, ¬ Explicit uri scheme rest) : Names uri uri

section

variable {uri : Text}

theorem Explicit.hasFileScheme {scheme rest : Text} (hsplit : Explicit uri scheme rest)
    (hfile : schemeIs scheme "file".toList = true) : Uri.hasFileScheme uri = true :=
  hasFileScheme_iff.mpr ⟨scheme, rest, hsplit, hfile⟩

theorem not_hasFileScheme (h : ∀ scheme rest, ¬ Explicit uri scheme rest) :
    hasFileScheme uri = false := by
  rw [← Bool.not_eq_true, hasFileScheme_iff]
  rintro ⟨scheme, rest, hsplit, _⟩
  exact h scheme rest hsplit

/-- A named path is one of the `file` scheme. -/
theorem Names.scheme {p : Text} (h : Names uri p) :
    schemeIs (split uri).1 "file".toList = true := by
  cases h with
  | explicit hsplit hfile _ => rwa [hsplit.split_eq]
  | bare hbare =>
      rw [split_of_bare hbare]
      exact eqIgnoreAsciiCase_self _

/-- A path that cannot be decoded is not opened. -/
theorem Explicit.openFile_error {scheme rest : Text} {e : Error}
    (hsplit : Explicit uri scheme rest) (hfile : schemeIs scheme "file".toList = true)
    (he : percentDecodePath (stripSlashes rest) = .error e) {F : Type} (w : World F) :
    openFile w uri = .of (.error e) := by
  simp only [openFile, hsplit.split_eq, hfile, Bool.not_true, Bool.false_eq_true, ite_false,
    hsplit.hasFileScheme hfile, ite_true, he]
  rfl

/-- A URI of the `file` scheme names a path unless its path cannot be decoded. -/
theorem names_or_error (h : schemeIs (split uri).1 "file".toList = true) :
    (∃ p, Names uri p) ∨ ∃ scheme rest e, Explicit uri scheme rest ∧
      schemeIs scheme "file".toList = true ∧ percentDecodePath (stripSlashes rest) = .error e := by
  by_cases hbare : ∀ scheme rest, ¬ Explicit uri scheme rest
  · exact .inl ⟨uri, .bare hbare⟩
  simp only [not_forall, not_not] at hbare
  obtain ⟨scheme, rest, hsplit⟩ := hbare
  rw [hsplit.split_eq] at h
  cases hpath : percentDecodePath (stripSlashes rest) with
  | error e => exact .inr ⟨scheme, rest, e, hsplit, h, hpath⟩
  | ok p => exact .inl ⟨p, .explicit hsplit h (percentDecodePath_eq_ok.mp hpath)⟩

/-- `open_file` hands the named path to the file system. -/
theorem Names.openFile {p : Text} (h : Names uri p) {F : Type} (w : World F) :
    openFile w uri = w.open (utf8 p) >>= fun f => pure (.file f) := by
  unfold OxideSource.openFile
  cases h with
  | explicit hsplit hfile hp =>
      simp only [hsplit.split_eq, hfile, Bool.not_true, Bool.false_eq_true, ite_false,
        hsplit.hasFileScheme hfile, ite_true, percentDecodePath_eq_ok.mpr hp, Opening.of_ok_bind]
  | bare hbare =>
      have hfile : schemeIs "file".toList "file".toList = true := eqIgnoreAsciiCase_self _
      simp only [split_of_bare hbare, hfile, Bool.not_true, Bool.false_eq_true, ite_false,
        not_hasFileScheme hbare, Opening.of_ok_bind]

end

end Uri

end OxideSource
