import OxideSource.Scope.Registry
import OxideSource.Uri.Named

/-!
# Spellings that make no difference

A scheme may be written in any letter case, with or without `//` behind it, and so may the
schemes of the URIs inside a composite. The splitter is applied anew at every level, by
every driver and by the scope. However a URI is spelled, all of them open the same files,
and succeed alike or fail with errors of one kind.
-/

namespace OxideSource

open Uri

/-! ### Outcomes up to the texts they quote -/

/-- Errors of one kind. What the system reported is the same; a text may quote the URI. -/
inductive Error.Alike : Error → Error → Prop where
  | invalidData (m m' : Message) : Alike (.invalidData m) (.invalidData m')
  | unsupported (m m' : Message) : Alike (.unsupported m) (.unsupported m')
  | io (e : IoError) : Alike (.io e) (.io e)

/-- The same value, or errors of one kind. -/
inductive SameResult {α : Type} : Except Error α → Except Error α → Prop where
  | ok (a : α) : SameResult (.ok a) (.ok a)
  | error {e e' : Error} (h : e.Alike e') : SameResult (.error e) (.error e')

/-- The same files opened, to the same result. -/
structure Opening.Alike {α : Type} (m m' : Opening α) : Prop where
  opened : m.opened = m'.opened
  result : SameResult m.result m'.result

/-- An error is of one kind with itself. -/
theorem Error.Alike.refl (e : Error) : e.Alike e := by
  cases e with
  | invalidData m => exact .invalidData m m
  | unsupported m => exact .unsupported m m
  | io e => exact .io e

/-- A result is the same as itself. -/
theorem SameResult.refl {α : Type} (r : Except Error α) : SameResult r r := by
  cases r with
  | error e => exact .error (.refl e)
  | ok a => exact .ok a

namespace Opening.Alike

variable {α β : Type}

/-- An opening is alike with itself. -/
theorem refl (m : Opening α) : m.Alike m := ⟨rfl, .refl _⟩

/-- Results that need no file. -/
theorem of {r r' : Except Error α} (h : SameResult r r') : (Opening.of r).Alike (.of r') := ⟨rfl, h⟩

/-- Openings in sequence, where the second goes by the value of the first. -/
theorem bind {m m' : Opening α} {f f' : α → Opening β} (h : m.Alike m')
    (hf : ∀ a, (f a).Alike (f' a)) : (m >>= f).Alike (m' >>= f') := by
  obtain ⟨opened, r⟩ := m
  obtain ⟨opened', r'⟩ := m'
  obtain ⟨hopened, hresult⟩ := h
  dsimp only at hopened hresult
  subst hopened
  cases hresult with
  | ok a =>
      rw [bind_of_ok rfl, bind_of_ok rfl]
      exact ⟨congrArg (opened ++ ·) (hf a).opened, (hf a).result⟩
  | error he =>
      rw [bind_of_error rfl, bind_of_error rfl]
      exact ⟨rfl, .error he⟩

end Opening.Alike

/-! ### Respelled URIs -/

/-- `v` is `u` with other spellings of schemes, at any depth. -/
inductive Respelled : Text → Text → Prop where
  | refl (u : Text) : Respelled u u
  | scheme {u v s t rest rest' : Text} (hu : Explicit u s rest) (hv : Explicit v t rest')
      (hcase : s.map Char.toLower = t.map Char.toLower)
      (hrest : stripSlashes rest = stripSlashes rest') : Respelled u v
  | slice {u v : Text} {x y : SliceUri} (hx : SliceUri.parse u = .ok x)
      (hy : SliceUri.parse v = .ok y) (hoffset : x.offset = y.offset)
      (hlength : x.length = y.length) (hinner : Respelled x.inner y.inner) : Respelled u v
  | concat {u v : Text} {x y : ConcatUri} (hx : ConcatUri.parse u = .ok x)
      (hy : ConcatUri.parse v = .ok y) (hsegs : List.Forall₂ Respelled x.segments y.segments) :
      Respelled u v

/-- The splitter tells no difference. -/
structure SameParts (u v : Text) : Prop where
  scheme : (split u).1.map Char.toLower = (split v).1.map Char.toLower
  rest : (split u).2 = (split v).2
  decodes : hasFileScheme u = hasFileScheme v

/-- A test of the scheme goes by its lower case. -/
theorem schemeIs_congr {s t : Text} (h : s.map Char.toLower = t.map Char.toLower) (want : Text) :
    schemeIs s want = schemeIs t want := by
  rw [Bool.eq_iff_iff, schemeIs, schemeIs, eqIgnoreAsciiCase_iff, eqIgnoreAsciiCase_iff, h]

/-- The byte test goes by the scheme alone. -/
theorem Uri.Explicit.hasFileScheme_eq {uri scheme rest : Text} (h : Explicit uri scheme rest) :
    OxideSource.Uri.hasFileScheme uri = schemeIs scheme "file".toList := by
  rw [Bool.eq_iff_iff, hasFileScheme_iff]
  constructor
  · rintro ⟨scheme', rest', h', hfile⟩
    obtain rfl : scheme = scheme' := congrArg Prod.fst (h.split_eq.symm.trans h'.split_eq)
    exact hfile
  · intro hfile
    exact ⟨scheme, rest, h, hfile⟩

/-- A URI has the parts of itself. -/
theorem SameParts.refl (u : Text) : SameParts u u := ⟨rfl, rfl, rfl⟩

/-- Two explicit schemes equal up to letter case, before rests equal up to `//`. -/
theorem SameParts.of_explicit {u v s t rest rest' : Text} (hu : Explicit u s rest)
    (hv : Explicit v t rest') (hcase : s.map Char.toLower = t.map Char.toLower)
    (hrest : stripSlashes rest = stripSlashes rest') : SameParts u v where
  scheme := by rw [hu.split_eq, hv.split_eq, hcase]
  rest := by rw [hu.split_eq, hv.split_eq, hrest]
  decodes := by rw [hu.hasFileScheme_eq, hv.hasFileScheme_eq, schemeIs_congr hcase]

section

variable {u v : Text}

/-- Two URIs of one scheme spell it alike. -/
theorem map_toLower_eq {want : Text} (hu : schemeIs (split u).1 want = true)
    (hv : schemeIs (split v).1 want = true) :
    (split u).1.map Char.toLower = (split v).1.map Char.toLower :=
  (eqIgnoreAsciiCase_iff.mp hu).trans (eqIgnoreAsciiCase_iff.mp hv).symm

/-- What parses as a slice has its scheme. -/
theorem SliceUri.scheme_of_parse {x : SliceUri} (h : SliceUri.parse u = .ok x) :
    schemeIs (split u).1 "slice".toList = true :=
  (SliceUri.parse_eq_ok.mp h).1

/-- What parses as a concatenation has its scheme. -/
theorem ConcatUri.scheme_of_parse {x : ConcatUri} (h : ConcatUri.parse u = .ok x) :
    schemeIs (split u).1 "concat".toList = true :=
  (ConcatUri.parse_iff.mp h).1

/-- Spellings keep the scheme of the whole URI up to letter case. -/
theorem Respelled.scheme_eq (h : Respelled u v) :
    (split u).1.map Char.toLower = (split v).1.map Char.toLower := by
  cases h with
  | refl => rfl
  | scheme hu hv hcase hrest => exact (SameParts.of_explicit hu hv hcase hrest).scheme
  | slice hx hy =>
      exact map_toLower_eq (SliceUri.scheme_of_parse hx) (SliceUri.scheme_of_parse hy)
  | concat hx hy =>
      exact map_toLower_eq (ConcatUri.scheme_of_parse hx) (ConcatUri.scheme_of_parse hy)

/-- A difference that the splitter sees lies inside a composite. -/
theorem Respelled.parts_or (h : Respelled u v) : SameParts u v ∨
    (schemeIs (split u).1 "slice".toList = true ∧ ∃ x y, SliceUri.parse u = .ok x ∧
      SliceUri.parse v = .ok y ∧ x.offset = y.offset ∧ x.length = y.length ∧
      Respelled x.inner y.inner) ∨
    (schemeIs (split u).1 "concat".toList = true ∧ ∃ x y, ConcatUri.parse u = .ok x ∧
      ConcatUri.parse v = .ok y ∧ List.Forall₂ Respelled x.segments y.segments) := by
  cases h with
  | refl => exact .inl (.refl u)
  | scheme hu hv hcase hrest => exact .inl (.of_explicit hu hv hcase hrest)
  | slice hx hy hoffset hlength hinner =>
      exact .inr (.inl ⟨SliceUri.scheme_of_parse hx, _, _, hx, hy, hoffset, hlength, hinner⟩)
  | concat hx hy hsegs =>
      exact .inr (.inr ⟨ConcatUri.scheme_of_parse hx, _, _, hx, hy, hsegs⟩)

/-- What checks its scheme and then looks at the parts alone goes by them. -/
theorem Respelled.of_check {β : Type} {f : Text → β} {R : β → β → Prop}
    (h : Respelled u v) (want : Text) (hslice : schemeIs "slice".toList want = false)
    (hconcat : schemeIs "concat".toList want = false) (hsame : SameParts u v → R (f u) (f v))
    (hother : schemeIs (split u).1 want = false → schemeIs (split v).1 want = false →
      R (f u) (f v)) : R (f u) (f v) := by
  have hthere : schemeIs (split u).1 want = schemeIs (split v).1 want :=
    schemeIs_congr h.scheme_eq want
  rcases h.parts_or with hparts | ⟨hs, _⟩ | ⟨hs, _⟩
  · exact hsame hparts
  · have hu := schemeIs_unique hs hslice
    exact hother hu (hthere ▸ hu)
  · have hu := schemeIs_unique hs hconcat
    exact hother hu (hthere ▸ hu)

/-! ### The drivers -/

/-- The path that a scope looks at. -/
theorem Respelled.requested_alike (h : Respelled u v) :
    SameResult (FileScope.requested u) (FileScope.requested v) := by
  apply h.of_check "file".toList (by decide) (by decide)
  · intro hsame
    unfold FileScope.requested
    simp only [schemeIs_congr hsame.scheme, hsame.rest, hsame.decodes]
    split
    · exact .error (.invalidData _ _)
    · exact .refl _
  · intro hu hv
    simp only [FileScope.requested, hu, hv, Bool.not_false, ite_true]
    exact .error (.invalidData _ _)

/-- A scope admits both spellings to one path or refuses both. -/
theorem Respelled.resolve_alike (h : Respelled u v) (scope : FileScope) (fs : Canonicalization) :
    SameResult (scope.resolve fs u) (scope.resolve fs v) := by
  have hrequested := h.requested_alike
  unfold FileScope.resolve
  generalize FileScope.requested u = r at hrequested
  generalize FileScope.requested v = r' at hrequested
  cases hrequested with
  | ok path => exact .refl _
  | error he => exact .error he

/-- Both spellings of a `data` URI hold the same bytes. -/
theorem Respelled.parseData_alike (h : Respelled u v) :
    SameResult (DataUri.parse u) (DataUri.parse v) := by
  apply h.of_check "data".toList (by decide) (by decide)
  · intro hsame
    unfold DataUri.parse
    simp only [schemeIs_congr hsame.scheme, hsame.rest]
    split
    · exact .error (.invalidData _ _)
    · exact .refl _
  · intro hu hv
    simp only [DataUri.parse, hu, hv, Bool.not_false, ite_true]
    exact .error (.invalidData _ _)

section

variable {F : Type} {w : World F} {dispatch : Text → Opening (Reader F)}

/-- The file driver opens one file for both spellings. -/
theorem Respelled.openFile_alike (h : Respelled u v) : (openFile w u).Alike (openFile w v) := by
  apply h.of_check "file".toList (by decide) (by decide)
  · intro hsame
    unfold openFile
    simp only [schemeIs_congr hsame.scheme, hsame.rest, hsame.decodes]
    split
    · exact .of (.error (.invalidData _ _))
    · exact .refl _
  · intro hu hv
    simp only [openFile, hu, hv, Bool.not_false, ite_true]
    exact .of (.error (.invalidData _ _))

/-- The memory driver finds one buffer for both spellings. -/
theorem Respelled.openMem_alike (h : Respelled u v) : (openMem w u).Alike (openMem w v) := by
  apply h.of_check "mem".toList (by decide) (by decide)
  · intro hsame
    unfold openMem
    simp only [schemeIs_congr hsame.scheme, hsame.rest]
    split
    · exact .of (.error (.invalidData _ _))
    · exact .refl _
  · intro hu hv
    simp only [openMem, hu, hv, Bool.not_false, ite_true]
    exact .of (.error (.invalidData _ _))

/-- The data driver reads the same bytes from both spellings. -/
theorem Respelled.openData_alike (h : Respelled u v) :
    (openData u : Opening (Reader F)).Alike (openData v) :=
  (Opening.Alike.of h.parseData_alike).bind fun _ => .refl _

variable [Target] [ReadSeek F]

omit [Target] [ReadSeek F] in
/-- Segments are opened alike one by one, and stop at the same one. -/
theorem openSegments_alike {segs segs' : List Text} (hsegs : List.Forall₂ Respelled segs segs')
    (hd : ∀ seg ∈ segs, ∀ seg', Respelled seg seg' → (dispatch seg).Alike (dispatch seg')) :
    (openSegments dispatch segs).Alike (openSegments dispatch segs') := by
  induction hsegs with
  | nil => exact .refl _
  | @cons seg seg' segs segs' hseg _ ih =>
      obtain ⟨hfirst, hrest⟩ := List.forall_mem_cons.mp hd
      have hopen : (openSegment dispatch seg).Alike (openSegment dispatch seg') := by
        unfold openSegment
        rw [schemeIs_congr hseg.scheme_eq]
        split
        · exact .of (.error (.invalidData _ _))
        · exact hfirst seg' hseg
      exact hopen.bind fun part => (ih hrest).bind fun parts => .refl _

/-- A driver for slices opens the same window of what the inner URI gives. -/
theorem Respelled.openSlice_alike (h : Respelled u v)
    (hd : ∀ ref, Part u ref → ∀ ref', Respelled ref ref' → (dispatch ref).Alike (dispatch ref')) :
    (openSlice dispatch u).Alike (openSlice dispatch v) := by
  have hother (hu : schemeIs (split u).1 "slice".toList = false)
      (hv : schemeIs (split v).1 "slice".toList = false) :
      (openSlice dispatch u).Alike (openSlice dispatch v) := by
    simp only [openSlice, SliceUri.parse, hu, hv, Bool.not_false, ite_true]
    exact (Opening.Alike.of (.error (.invalidData _ _))).bind fun _ => .refl _
  rcases h.parts_or with hsame | ⟨_, x, y, hx, hy, hoffset, hlength, hinner⟩ | ⟨hs, _⟩
  · have hparse : SameResult (SliceUri.parse u) (SliceUri.parse v) := by
      unfold SliceUri.parse
      simp only [schemeIs_congr hsame.scheme, hsame.rest]
      split
      · exact .error (.invalidData _ _)
      · exact .refl _
    exact (Opening.Alike.of hparse).bind fun _ => .refl _
  · simp only [openSlice, hx, hy, Opening.of_ok_bind, SliceUri.open, hoffset, hlength]
    exact (hd _ (.inner hx) _ hinner).bind fun inner => .refl _
  · have hu := schemeIs_unique hs (b := "slice".toList) (by decide)
    exact hother hu ((schemeIs_congr h.scheme_eq _).symm.trans hu)

/-- A driver for concatenations joins the same parts. -/
theorem Respelled.openConcat_alike (h : Respelled u v)
    (hd : ∀ ref, Part u ref → ∀ ref', Respelled ref ref' → (dispatch ref).Alike (dispatch ref')) :
    (openConcat dispatch u).Alike (openConcat dispatch v) := by
  have hother (hu : schemeIs (split u).1 "concat".toList = false)
      (hv : schemeIs (split v).1 "concat".toList = false) :
      (openConcat dispatch u).Alike (openConcat dispatch v) := by
    simp only [openConcat, ConcatUri.parse, hu, hv, Bool.not_false, ite_true]
    exact (Opening.Alike.of (.error (.invalidData _ _))).bind fun _ => .refl _
  rcases h.parts_or with hsame | ⟨hs, _⟩ | ⟨_, x, y, hx, hy, hsegs⟩
  · have hparse : SameResult (ConcatUri.parse u) (ConcatUri.parse v) := by
      unfold ConcatUri.parse
      simp only [schemeIs_congr hsame.scheme, hsame.rest]
      split
      · exact .error (.invalidData _ _)
      · exact .refl _
    exact (Opening.Alike.of hparse).bind fun _ => .refl _
  · have hu := schemeIs_unique hs (b := "concat".toList) (by decide)
    exact hother hu ((schemeIs_congr h.scheme_eq _).symm.trans hu)
  · simp only [openConcat, hx, hy, Opening.of_ok_bind, ConcatUri.open]
    refine (openSegments_alike hsegs fun seg hseg => ?_).bind fun parts => .refl _
    exact hd seg (.segment hx hseg)

/-- Every level of nesting is dispatched alike, by induction on the length. -/
theorem Respelled.openBytes_alike (h : Respelled u v) :
    (openBytes w u).Alike (openBytes w v) := by
  induction hn : u.length using Nat.strong_induction_on generalizing u v with
  | _ n ih =>
      have hd : ∀ ref, Part u ref → ∀ ref', Respelled ref ref' →
          (openBytes w ref).Alike (openBytes w ref') := fun ref href ref' hrespelled =>
        ih ref.length (hn ▸ href.length_lt) hrespelled rfl
      have hscheme := schemeIs_congr h.scheme_eq
      rw [openBytes_eq u, openBytes_eq v, openScheme, openScheme]
      simp only [hscheme]
      split
      · exact h.openFile_alike
      split
      · exact h.openMem_alike
      split
      · exact h.openData_alike
      split
      · exact h.openSlice_alike hd
      split
      · exact h.openConcat_alike hd
      · exact .of (.error (.unsupported _ _))

/-! ### The openers of a registry -/

variable {fs : FileSystem}

/-- Whatever a registry holds of this crate and whatever the slot holds, both spellings have
the same outcome. -/
theorem Respelled.call_alike (h : Respelled u v) (active : Option FileScope) (opener : Opener) :
    (opener.call w fs active u).Alike (opener.call w fs active v) := by
  have hd : ∀ ref, Part u ref → ∀ ref', Respelled ref ref' →
      (openBytes w ref).Alike (openBytes w ref') := fun _ _ _ href => href.openBytes_alike
  cases opener with
  | openFile => exact h.openFile_alike
  | openFileScoped =>
      cases active with
      | none => exact .refl _
      | some scope => exact (Opening.Alike.of (h.resolve_alike scope fs)).bind fun _ => .refl _
  | openMem => exact h.openMem_alike
  | openData => exact h.openData_alike
  | openConcat => exact h.openConcat_alike hd
  | openSlice => exact h.openSlice_alike hd

end

end

/-- However the schemes of a URI and of the URIs inside it are spelled, `open_bytes`, every
scope and every opener that the crate registers, under any scope in the slot, open the same
files and come to the same result. -/
theorem respelled_alike {F : Type} [Target] [ReadSeek F] {u v : Text} (h : Respelled u v)
    (w : World F) (fs : FileSystem) :
    (openBytes w u).Alike (openBytes w v) ∧
      (∀ scope : FileScope, SameResult (scope.resolve fs u) (scope.resolve fs v)) ∧
      ∀ (active : Option FileScope) (opener : Opener),
        (opener.call w fs active u).Alike (opener.call w fs active v) :=
  ⟨h.openBytes_alike, fun scope => h.resolve_alike scope fs, h.call_alike⟩

/-- A slice of the file of `oneByte`. -/
def sliced : Text := "slice:0+1!file:///p".toList

/-- The same slice in another spelling. -/
def shouted : Text := "SLICE://0+1!FILE:/p".toList

/-- Two schemes in another letter case, one with and one without `//`. -/
theorem respelled_sliced : Respelled sliced shouted := by
  have hx : SliceUri.parse sliced = .ok ⟨0, 1, "file:///p".toList⟩ := by decide +kernel
  have hy : SliceUri.parse shouted = .ok ⟨0, 1, "FILE:/p".toList⟩ := by decide +kernel
  have hsplit : Explicit "file:///p".toList "file".toList "///p".toList := ⟨by decide, rfl⟩
  have hsplit' : Explicit "FILE:/p".toList "FILE".toList "/p".toList := ⟨by decide, rfl⟩
  exact .slice hx hy rfl rfl (.scheme hsplit hsplit' (by decide) (by decide))

/-- Both spellings through every opener. -/
theorem respelled_alike_slice : letI := target64
    (openBytes oneByte sliced).Alike (openBytes oneByte shouted) ∧
      ∀ (active : Option FileScope) (opener : Opener),
        (opener.call oneByte FileScope.oneFile active sliced).Alike
          (opener.call oneByte FileScope.oneFile active shouted) := by
  let := target64
  obtain ⟨hopen, _, hcall⟩ := respelled_alike respelled_sliced oneByte FileScope.oneFile
  exact ⟨hopen, hcall⟩

end OxideSource
