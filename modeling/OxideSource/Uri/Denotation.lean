import OxideSource.Core.Delivery
import OxideSource.Readers.Bounded
import OxideSource.Uri.Sizes

/-!
# What a URI means

A URI denotes bytes, given the content of the files and of the registered buffers: a leaf
denotes what it names, a slice a window and a concatenation the join of what their parts
denote. Opening is sound and complete for this meaning: a URI opens exactly when it denotes
something, and what it opens to is a cursor over that.
-/

namespace OxideSource

open Uri

/-- What the leaves of a URI may name. -/
structure Resources where
  file : Bytes → Option Bytes
  mem : Text → Option Bytes

/-- The bytes that a URI denotes. -/
inductive Denotes (R : Resources) : Text → Bytes → Prop where
  | file {uri p : Text} {D : Bytes} (hname : Names uri p) (hD : R.file (utf8 p) = some D) :
      Denotes R uri D
  | mem {uri : Text} {D : Bytes} (hscheme : schemeIs (split uri).1 "mem".toList = true)
      (hne : (split uri).2 ≠ []) (hslash : '/' ∉ (split uri).2) (hD : R.mem (split uri).2 = some D) :
      Denotes R uri D
  | data {uri : Text} {x : DataUri} (hx : DataUri.parse uri = .ok x) : Denotes R uri x.data
  | slice {uri : Text} {x : SliceUri} {D : Bytes} (hx : SliceUri.parse uri = .ok x)
      (hinner : Denotes R x.inner D) (hfit : x.offset.toNat + x.length.toNat ≤ D.length) :
      Denotes R uri (window D x.offset.toNat x.length.toNat)
  | concat {uri : Text} {x : ConcatUri} {Ds : List Bytes} (hx : ConcatUri.parse uri = .ok x)
      (hflat : ∀ seg ∈ x.segments, schemeIs (split seg).1 "concat".toList = false)
      (hparts : List.Forall₂ (Denotes R) x.segments Ds) (hfit : Ds.flatten.length < u64Size) :
      Denotes R uri Ds.flatten

/-! ### One meaning for each scheme -/

section

variable {R : Resources} {uri : Text} {D : Bytes}

/-- What parses as a literal has its scheme. -/
theorem DataUri.scheme_of_parse {x : DataUri} (h : DataUri.parse uri = .ok x) :
    schemeIs (split uri).1 "data".toList = true := by
  by_contra hscheme
  unfold DataUri.parse at h
  simp only [Bool.not_eq_true] at hscheme
  simp only [hscheme, Bool.not_false, ite_true, reduceCtorEq] at h

/-- The scheme that a meaning goes by. -/
theorem Denotes.scheme (h : Denotes R uri D) :
    (schemeIs (split uri).1 "file".toList = true ∧ ∃ p, Names uri p ∧ R.file (utf8 p) = some D) ∨
    (schemeIs (split uri).1 "mem".toList = true ∧ (split uri).2 ≠ [] ∧ '/' ∉ (split uri).2 ∧
      R.mem (split uri).2 = some D) ∨
    (schemeIs (split uri).1 "data".toList = true ∧ ∃ x, DataUri.parse uri = .ok x ∧ x.data = D) ∨
    (schemeIs (split uri).1 "slice".toList = true ∧ ∃ x E, SliceUri.parse uri = .ok x ∧
      Denotes R x.inner E ∧ x.offset.toNat + x.length.toNat ≤ E.length ∧
      window E x.offset.toNat x.length.toNat = D) ∨
    (schemeIs (split uri).1 "concat".toList = true ∧ ∃ x Ds, ConcatUri.parse uri = .ok x ∧
      (∀ seg ∈ x.segments, schemeIs (split seg).1 "concat".toList = false) ∧
      List.Forall₂ (Denotes R) x.segments Ds ∧ Ds.flatten.length < u64Size ∧ Ds.flatten = D) := by
  cases h with
  | file hname hD => exact .inl ⟨hname.scheme, _, hname, hD⟩
  | mem hscheme hne hslash hD => exact .inr (.inl ⟨hscheme, hne, hslash, hD⟩)
  | data hx => exact .inr (.inr (.inl ⟨DataUri.scheme_of_parse hx, _, hx, rfl⟩))
  | slice hx hinner hfit =>
      exact .inr (.inr (.inr (.inl ⟨(SliceUri.parse_eq_ok.mp hx).1, _, _, hx, hinner, hfit, rfl⟩)))
  | concat hx hflat hparts hfit =>
      exact .inr (.inr (.inr (.inr
        ⟨(ConcatUri.parse_iff.mp hx).1, _, _, hx, hflat, hparts, hfit, rfl⟩)))

/-- No scheme is two names. -/
theorem scheme_clash {scheme a b : Text} {P : Prop} (ha : schemeIs scheme a = true)
    (hb : schemeIs scheme b = true) (hab : schemeIs a b = false) : P := by
  rw [schemeIs_unique ha hab] at hb
  cases hb

/-- A `file` URI denotes the content of the file that it names. -/
theorem denotes_file_iff (h : schemeIs (split uri).1 "file".toList = true) :
    Denotes R uri D ↔ ∃ p, Names uri p ∧ R.file (utf8 p) = some D := by
  constructor
  · intro hD
    rcases hD.scheme with ⟨_, hfile⟩ | ⟨hs, _⟩ | ⟨hs, _⟩ | ⟨hs, _⟩ | ⟨hs, _⟩
    · exact hfile
    all_goals exact scheme_clash h hs (by decide)
  · rintro ⟨p, hname, hD⟩
    exact .file hname hD

/-- A `mem` URI denotes the buffer that is registered under its id. -/
theorem denotes_mem_iff (h : schemeIs (split uri).1 "mem".toList = true) :
    Denotes R uri D ↔
      (split uri).2 ≠ [] ∧ '/' ∉ (split uri).2 ∧ R.mem (split uri).2 = some D := by
  constructor
  · intro hD
    rcases hD.scheme with ⟨hs, _⟩ | ⟨_, hmem⟩ | ⟨hs, _⟩ | ⟨hs, _⟩ | ⟨hs, _⟩
    · exact scheme_clash h hs (by decide)
    · exact hmem
    all_goals exact scheme_clash h hs (by decide)
  · rintro ⟨hne, hslash, hD⟩
    exact .mem h hne hslash hD

/-- A `data` URI denotes its payload. -/
theorem denotes_data_iff (h : schemeIs (split uri).1 "data".toList = true) :
    Denotes R uri D ↔ ∃ x, DataUri.parse uri = .ok x ∧ x.data = D := by
  constructor
  · intro hD
    rcases hD.scheme with ⟨hs, _⟩ | ⟨hs, _⟩ | ⟨_, hdata⟩ | ⟨hs, _⟩ | ⟨hs, _⟩
    · exact scheme_clash h hs (by decide)
    · exact scheme_clash h hs (by decide)
    · exact hdata
    all_goals exact scheme_clash h hs (by decide)
  · rintro ⟨x, hx, rfl⟩
    exact .data hx

/-- A `slice` URI denotes a window of what its inner URI denotes. -/
theorem denotes_slice_iff (h : schemeIs (split uri).1 "slice".toList = true) :
    Denotes R uri D ↔ ∃ x E, SliceUri.parse uri = .ok x ∧ Denotes R x.inner E ∧
      x.offset.toNat + x.length.toNat ≤ E.length ∧
      window E x.offset.toNat x.length.toNat = D := by
  constructor
  · intro hD
    rcases hD.scheme with ⟨hs, _⟩ | ⟨hs, _⟩ | ⟨hs, _⟩ | ⟨_, hslice⟩ | ⟨hs, _⟩
    · exact scheme_clash h hs (by decide)
    · exact scheme_clash h hs (by decide)
    · exact scheme_clash h hs (by decide)
    · exact hslice
    · exact scheme_clash h hs (by decide)
  · rintro ⟨x, E, hx, hinner, hfit, rfl⟩
    exact .slice hx hinner hfit

/-- A `concat` URI denotes the join of what its segments denote. -/
theorem denotes_concat_iff (h : schemeIs (split uri).1 "concat".toList = true) :
    Denotes R uri D ↔ ∃ x Ds, ConcatUri.parse uri = .ok x ∧
      (∀ seg ∈ x.segments, schemeIs (split seg).1 "concat".toList = false) ∧
      List.Forall₂ (Denotes R) x.segments Ds ∧ Ds.flatten.length < u64Size ∧
      Ds.flatten = D := by
  constructor
  · intro hD
    rcases hD.scheme with ⟨hs, _⟩ | ⟨hs, _⟩ | ⟨hs, _⟩ | ⟨hs, _⟩ | ⟨_, hconcat⟩
    · exact scheme_clash h hs (by decide)
    · exact scheme_clash h hs (by decide)
    · exact scheme_clash h hs (by decide)
    · exact scheme_clash h hs (by decide)
    · exact hconcat
  · rintro ⟨x, Ds, hx, hflat, hparts, hfit, rfl⟩
    exact .concat hx hflat hparts hfit

/-- Where every path can be opened, the named one is. -/
theorem Uri.Names.opened {p : Text} (h : Names uri p) :
    (OxideSource.openFile (F := Unit) ⟨fun _ => .ok (), fun _ => none⟩ uri).opened = [utf8 p] := by
  rw [h.openFile]
  rfl

/-- A URI names one path. -/
theorem Uri.Names.unique {p p' : Text} (h : Names uri p) (h' : Names uri p') : p = p' :=
  utf8_injective (List.cons.inj (h.opened.symm.trans h'.opened)).1

/-- A URI denotes one byte string. -/
theorem Denotes.unique {E : Bytes} (hD : Denotes R uri D) (hE : Denotes R uri E) : D = E := by
  induction hn : uri.length using Nat.strong_induction_on generalizing uri D E with
  | _ n ih =>
      rcases hD.scheme with ⟨hs, p, hname, hfile⟩ | ⟨hs, _, _, hmem⟩ | ⟨hs, x, hx, rfl⟩ |
        ⟨hs, x, A, hx, hA, _, rfl⟩ | ⟨hs, x, As, hx, _, hAs, _, rfl⟩
      · obtain ⟨p', hname', hfile'⟩ := (denotes_file_iff hs).mp hE
        rw [hname.unique hname', hfile'] at hfile
        exact (Option.some.inj hfile).symm
      · obtain ⟨_, _, hmem'⟩ := (denotes_mem_iff hs).mp hE
        exact Option.some.inj (hmem.symm.trans hmem')
      · obtain ⟨x', hx', rfl⟩ := (denotes_data_iff hs).mp hE
        obtain rfl := Except.ok.inj (hx.symm.trans hx')
        rfl
      · obtain ⟨x', B, hx', hB, _, rfl⟩ := (denotes_slice_iff hs).mp hE
        obtain rfl := Except.ok.inj (hx.symm.trans hx')
        rw [ih _ (hn ▸ SliceUri.length_inner_lt hx) hA hB rfl]
      · obtain ⟨x', Bs, hx', _, hBs, _, rfl⟩ := (denotes_concat_iff hs).mp hE
        obtain rfl := Except.ok.inj (hx.symm.trans hx')
        congr 1
        have hseg : Relator.RightUnique fun seg D => seg ∈ x.segments ∧ Denotes R seg D :=
          fun seg A B hA hB => ih _ (hn ▸ ConcatUri.length_segment_lt hx hA.1) hA.2 hB.2 rfl
        exact List.right_unique_forall₂' hseg
          ((List.forall₂_and_left _ _).mpr ⟨fun _ hmem => hmem, hAs⟩)
          ((List.forall₂_and_left _ _).mpr ⟨fun _ hmem => hmem, hBs⟩)

end

/-! ### Opening -/

/-- The path is named by the URI or by one that is nested in it. -/
def Mentions (uri : Text) (path : Bytes) : Prop :=
  ∃ ref p, Relation.ReflTransGen Part uri ref ∧ Names ref p ∧ utf8 p = path

/-- A URI mentions the path that it names. -/
theorem Uri.Names.mentions {uri p : Text} (h : Names uri p) : Mentions uri (utf8 p) :=
  ⟨uri, p, .refl, h, rfl⟩

/-- A URI mentions what its parts mention. -/
theorem Part.mentions {uri ref : Text} {path : Bytes} (hpart : Part uri ref)
    (h : Mentions ref path) : Mentions uri path := by
  obtain ⟨ref', p, hreach, hname, hp⟩ := h
  exact ⟨ref', p, .head hpart hreach, hname, hp⟩

/-- The world holds the resources that a URI needs: a file that it mentions opens when it is
there, at its front, and is a bounded source over its content; the table lists the
registered buffers. -/
structure World.Holds {F : Type} [Target] [ReadSeek F] (w : World F) (R : Resources)
    (allow : IoError → Prop) (uri : Text) : Prop where
  file : ∀ {path : Bytes} {D : Bytes}, Mentions uri path → R.file path = some D →
    D.length < u64Size ∧ ∃ f, w.openFile path = .ok f ∧ Bounded D allow f 0
  missing : ∀ {path : Bytes}, Mentions uri path → R.file path = none →
    ∃ e, w.openFile path = .error e
  mem : w.mem = R.mem
  buffer : ∀ {id : Text} {D : Bytes}, R.mem id = some D → D.length ≤ isizeMax

/-- A world that holds what a URI needs holds what a URI with no more files needs. -/
theorem World.Holds.mono {F : Type} [Target] [ReadSeek F] {w : World F} {R : Resources}
    {allow : IoError → Prop} {u v : Text} (hw : w.Holds R allow u)
    (h : ∀ path, Mentions v path → Mentions u path) : w.Holds R allow v :=
  ⟨fun hpath => hw.file (h _ hpath), fun hpath => hw.missing (h _ hpath), hw.mem, hw.buffer⟩

/-- An opening goes as the URI means: it gives a cursor over what the URI denotes, or it
fails and the URI denotes nothing. -/
inductive Meant {F : Type} [Target] [ReadSeek F] (R : Resources) (allow : IoError → Prop)
    (uri : Text) (m : Opening (Reader F)) : Prop where
  | opens {D : Bytes} {r : Reader F} (hD : Denotes R uri D) (hlen : D.length < u64Size)
      (hr : m.result = .ok r) (hbounded : Bounded D allow r 0)
      (hcursor : schemeIs (split uri).1 "file".toList = false → Behaves D allow r 0)
  | fails {e : Error} (hD : ∀ D, ¬ Denotes R uri D) (he : m.result = .error e)

section

variable {F : Type} [Target] [ReadSeek F] {w : World F} {R : Resources} {allow : IoError → Prop}
  {dispatch : Text → Opening (Reader F)} {uri : Text}

/-- What behaves as a cursor gives a meaning to its URI. -/
theorem Meant.of_behaves {m : Opening (Reader F)} {D : Bytes} {r : Reader F}
    (hD : Denotes R uri D) (hlen : D.length < u64Size) (hr : m.result = .ok r)
    (h : Behaves D allow r 0) : Meant R allow uri m :=
  .opens hD hlen hr h.bounded fun _ => h

/-- A file opens as its path means. -/
theorem meant_file (hw : w.Holds R allow uri) (h : schemeIs (split uri).1 "file".toList = true) :
    Meant R allow uri (openFile w uri) := by
  have hnot : ¬ schemeIs (split uri).1 "file".toList = false := by rw [h]; nofun
  rcases names_or_error h with ⟨p, hname⟩ | ⟨scheme, rest, e, hsplit, hfile, he⟩
  · rw [hname.openFile]
    cases hR : R.file (utf8 p) with
    | none =>
        obtain ⟨e, he⟩ := hw.missing hname.mentions hR
        have hopen : (w.open (utf8 p)).result = .error (.io e) :=
          World.open_eq_error.mpr ⟨e, he, rfl⟩
        refine .fails (e := .io e) (fun D hD => ?_) (by rw [Opening.bind_of_error hopen])
        obtain ⟨p', hname', hR'⟩ := (denotes_file_iff h).mp hD
        rw [hname.unique hname', hR'] at hR
        cases hR
    | some D =>
        obtain ⟨hlen, f, hf, hbounded⟩ := hw.file hname.mentions hR
        have hopen := World.open_eq_ok.mpr hf
        refine .opens (r := .file f) (.file hname hR) hlen (by rw [Opening.bind_of_ok hopen]; rfl) ?_
          fun hfile => absurd hfile hnot
        refine hbounded.relay ?_
        rintro g (n | seek)
        · rfl
        · rfl
  · rw [hsplit.openFile_error hfile he]
    refine .fails (fun D hD => ?_) rfl
    obtain ⟨p, hname, _⟩ := (denotes_file_iff h).mp hD
    have hopened := hname.opened
    rw [hsplit.openFile_error hfile he] at hopened
    cases hopened

/-- A buffer opens as its id means. -/
theorem meant_mem (hw : w.Holds R allow uri) (h : schemeIs (split uri).1 "mem".toList = true) :
    Meant R allow uri (openMem w uri) := by
  unfold openMem Opening.of
  simp only [h, Bool.not_true, Bool.false_eq_true, ite_false, hw.mem]
  by_cases hne : (split uri).2 = []
  · simp only [hne, ite_true]
    exact .fails (fun D hD => ((denotes_mem_iff h).mp hD).1 hne) rfl
  by_cases hslash : '/' ∈ (split uri).2
  · simp only [hne, ite_false, hslash, ite_true]
    exact .fails (fun D hD => ((denotes_mem_iff h).mp hD).2.1 hslash) rfl
  simp only [hne, ite_false, hslash]
  cases hR : R.mem (split uri).2 with
  | none =>
      refine .fails (fun D hD => ?_) rfl
      rw [((denotes_mem_iff h).mp hD).2.2] at hR
      cases hR
  | some D =>
      have hlen := (hw.buffer hR).trans isizeMax_le_usizeMax
      exact .of_behaves (.mem h hne hslash hR) (hlen.trans_lt usizeMax_lt) rfl
        ((MemReader.behaves allow (.new D) hlen).relay Reader.relay_mem)

/-- A literal opens as it reads. -/
theorem meant_data (hfit : (utf8 uri).length ≤ isizeMax)
    (h : schemeIs (split uri).1 "data".toList = true) :
    Meant R allow uri (openData uri : Opening (Reader F)) := by
  unfold openData
  cases hx : DataUri.parse uri with
  | error e =>
      refine .fails (fun D hD => ?_) rfl
      obtain ⟨x, hx', _⟩ := (denotes_data_iff h).mp hD
      rw [hx] at hx'
      cases hx'
  | ok x =>
      have hlen := (x.length_le_of_parse hx).trans (hfit.trans isizeMax_le_usizeMax)
      exact .of_behaves (.data hx) (hlen.trans_lt usizeMax_lt) rfl
        ((Cursor.behaves allow (.new x.data)).relay Reader.relay_cursor)

/-- A slice opens as it means if its inner URI does. -/
theorem meant_slice (hT : Target.usizeBits = 64) (h : schemeIs (split uri).1 "slice".toList = true)
    (hparts : ∀ ref, Part uri ref → Meant R allow ref (dispatch ref)) :
    Meant R allow uri (openSlice dispatch uri) := by
  unfold openSlice
  cases hx : SliceUri.parse uri with
  | error e =>
      refine .fails (fun D hD => ?_) rfl
      obtain ⟨x, _, hx', _⟩ := (denotes_slice_iff h).mp hD
      rw [hx] at hx'
      cases hx'
  | ok x =>
      rw [Opening.of_ok_bind, SliceUri.open]
      cases hparts x.inner (.inner hx) with
      | fails hD he =>
          refine .fails (fun D hD' => ?_) (by rw [Opening.bind_of_error he])
          obtain ⟨x', E, hx', hE, _⟩ := (denotes_slice_iff h).mp hD'
          obtain rfl := Except.ok.inj (hx.symm.trans hx')
          exact hD E hE
      | @opens D inner hD hlen hinner hbounded _ =>
          rw [Opening.bind_of_ok hinner]
          rcases SubSource.new_bounded hbounded (Nat.zero_le _) hlen x.offset x.length with
            ⟨hfit, r, hnew, hr⟩ | ⟨hover, e, hnew⟩
          · have hsub := SubSource.behaves_bounded (s := ⟨r, x.offset.toNat, x.length.toNat, 0⟩) hr
              hlen hfit (le_usizeMax_of_bits hT x.length.toNat_lt)
            refine .of_behaves (.slice hx hD hfit) ?_ (by rw [hnew]; rfl)
              (hsub.relay Reader.relay_sub)
            rw [length_window_of_le hfit]
            omega
          · refine .fails (fun D' hD' => ?_) (by rw [hnew]; rfl)
            obtain ⟨x', E, hx', hE, hfit, _⟩ := (denotes_slice_iff h).mp hD'
            obtain rfl := Except.ok.inj (hx.symm.trans hx')
            rw [hD.unique hE] at hover
            omega

/-- What a list of segments denotes one by one, none of them a concatenation. -/
def SegmentsDenote (R : Resources) (segs : List Text) (Ds : List Bytes) : Prop :=
  (∀ seg ∈ segs, schemeIs (split seg).1 "concat".toList = false) ∧
    List.Forall₂ (Denotes R) segs Ds

/-- Segments that open as they mean open together exactly when each denotes bytes. -/
theorem segments_meant {segs : List Text}
    (hsegs : ∀ seg ∈ segs, Meant R allow seg (dispatch seg)) :
    (∃ Ds parts, SegmentsDenote R segs Ds ∧ (openSegments dispatch segs).result = .ok parts ∧
      ConcatSource.Placed allow parts Ds ∧ ∀ D ∈ Ds, D.length < u64Size) ∨
    (∀ Ds, ¬ SegmentsDenote R segs Ds) ∧ ∃ e, (openSegments dispatch segs).result = .error e := by
  induction segs with
  | nil => exact .inl ⟨[], [], ⟨nofun, .nil⟩, rfl, .nil, nofun⟩
  | cons seg segs ih =>
      obtain ⟨hseg, hrest⟩ := List.forall_mem_cons.mp hsegs
      rw [openSegments]
      by_cases hconcat : schemeIs (split seg).1 "concat".toList = true
      · refine .inr ⟨fun Ds hDs => ?_, ?_⟩
        · rw [(List.forall_mem_cons.mp hDs.1).1] at hconcat
          cases hconcat
        · rw [openSegment, if_pos hconcat]
          exact ⟨_, rfl⟩
      rw [openSegment, if_neg hconcat]
      cases hseg with
      | fails hD he =>
          refine .inr ⟨fun Ds hDs => ?_, _, by rw [Opening.bind_of_error he]⟩
          obtain ⟨_, hforall⟩ := hDs
          cases hforall with
          | cons hhead _ => exact hD _ hhead
      | @opens D part hD hlen hpart hbounded _ =>
          rw [Opening.bind_of_ok hpart]
          rcases ih hrest with ⟨Ds, parts, ⟨hflat, hDs⟩, hparts, hplaced, hlens⟩ | ⟨hnone, e, he⟩
          · refine .inl ⟨D :: Ds, part :: parts, ⟨?_, .cons hD hDs⟩, ?_, .cons ⟨0, hbounded⟩ hplaced,
              List.forall_mem_cons.mpr ⟨hlen, hlens⟩⟩
            · exact List.forall_mem_cons.mpr ⟨(Bool.not_eq_true _).mp hconcat, hflat⟩
            · rw [Opening.bind_of_ok hparts]
              rfl
          · refine .inr ⟨fun Ds hDs => ?_, e, by rw [Opening.bind_of_error he]⟩
            obtain ⟨hflat, hforall⟩ := hDs
            cases hforall with
            | cons _ htail => exact hnone _ ⟨(List.forall_mem_cons.mp hflat).2, htail⟩

omit [Target] in
/-- Segments denote one list of byte strings. -/
theorem SegmentsDenote.unique {segs : List Text} {Ds Es : List Bytes}
    (hDs : SegmentsDenote R segs Ds) (hEs : SegmentsDenote R segs Es) : Ds = Es :=
  List.right_unique_forall₂' (R := Denotes R) (fun _ _ _ => Denotes.unique) hDs.2 hEs.2

/-- A concatenation opens as it means if its segments do. -/
theorem meant_concat (hT : Target.usizeBits = 64)
    (h : schemeIs (split uri).1 "concat".toList = true)
    (hparts : ∀ ref, Part uri ref → Meant R allow ref (dispatch ref)) :
    Meant R allow uri (openConcat dispatch uri) := by
  unfold openConcat
  cases hx : ConcatUri.parse uri with
  | error e =>
      refine .fails (fun D hD => ?_) rfl
      obtain ⟨x, _, hx', _⟩ := (denotes_concat_iff h).mp hD
      rw [hx] at hx'
      cases hx'
  | ok x =>
      rw [Opening.of_ok_bind, ConcatUri.open]
      rcases segments_meant fun seg hseg => hparts seg (.segment hx hseg) with
        ⟨Ds, parts, hDs, hopen, hplaced, hlens⟩ | ⟨hnone, e, he⟩
      · rw [Opening.bind_of_ok hopen]
        rcases ConcatSource.new_bounded hplaced hlens with
          ⟨hfit, parts', starts, hnew, hparts', htable⟩ | ⟨hover, e, hnew⟩
        · have hjoin := ConcatSource.behaves_bounded (s := ⟨parts', starts, 0⟩) htable hparts'
            (le_usizeMax_of_bits hT hfit)
          exact .of_behaves (.concat hx hDs.1 hDs.2 hfit) hfit (by rw [hnew]; rfl)
            (hjoin.relay Reader.relay_concat)
        · refine .fails (fun D hD => ?_) (by rw [hnew]; rfl)
          obtain ⟨x', Es, hx', hflat, hEs, hfit, _⟩ := (denotes_concat_iff h).mp hD
          obtain rfl := Except.ok.inj (hx.symm.trans hx')
          rw [hDs.unique ⟨hflat, hEs⟩] at hover
          omega
      · refine .fails (fun D hD => ?_) (by rw [Opening.bind_of_error he])
        obtain ⟨x', Es, hx', hflat, hEs, _⟩ := (denotes_concat_iff h).mp hD
        obtain rfl := Except.ok.inj (hx.symm.trans hx')
        exact hnone Es ⟨hflat, hEs⟩

/-- Every URI that fits in a string is opened as it means, by induction on its length. -/
theorem openBytes_meant (hw : w.Holds R allow uri) (hT : Target.usizeBits = 64)
    (hfit : (utf8 uri).length ≤ isizeMax) : Meant R allow uri (openBytes w uri) := by
  induction hn : uri.length using Nat.strong_induction_on generalizing uri with
  | _ n ih =>
      have hparts : ∀ ref, Part uri ref → Meant R allow ref (openBytes w ref) := fun ref href =>
        ih ref.length (hn ▸ href.length_lt) (hw.mono fun _ => href.mentions)
          (href.length_utf8_le.trans hfit) rfl
      by_cases hfile : schemeIs (split uri).1 "file".toList = true
      · rw [openBytes_file hfile]
        exact meant_file hw hfile
      by_cases hmem : schemeIs (split uri).1 "mem".toList = true
      · rw [openBytes_mem hmem]
        exact meant_mem hw hmem
      by_cases hdata : schemeIs (split uri).1 "data".toList = true
      · rw [openBytes_data hdata]
        exact meant_data hfit hdata
      by_cases hslice : schemeIs (split uri).1 "slice".toList = true
      · rw [openBytes_slice hslice]
        exact meant_slice hT hslice hparts
      by_cases hconcat : schemeIs (split uri).1 "concat".toList = true
      · rw [openBytes_concat hconcat]
        exact meant_concat hT hconcat hparts
      rw [openBytes_eq]
      unfold openScheme
      simp only [hfile, hmem, hdata, hslice, hconcat]
      refine .fails (fun D hD => ?_) rfl
      rcases hD.scheme with ⟨hs, _⟩ | ⟨hs, _⟩ | ⟨hs, _⟩ | ⟨hs, _⟩ | ⟨hs, _⟩
      · exact hfile hs
      · exact hmem hs
      · exact hdata hs
      · exact hslice hs
      · exact hconcat hs

/-- What opens is a source over what its URI denotes. -/
theorem openBytes_reads (hw : w.Holds R allow uri) (hT : Target.usizeBits = 64)
    (hfit : (utf8 uri).length ≤ isizeMax) {r : Reader F} (hr : (openBytes w uri).result = .ok r) :
    ∃ D, Denotes R uri D ∧ D.length < u64Size ∧ Bounded D allow r 0 ∧
      (schemeIs (split uri).1 "file".toList = false → Behaves D allow r 0) := by
  cases openBytes_meant hw hT hfit with
  | fails _ he =>
      rw [he] at hr
      cases hr
  | @opens D r' hD hlen hr' hbounded hcursor =>
      obtain rfl := Except.ok.inj (hr'.symm.trans hr)
      exact ⟨D, hD, hlen, hbounded, hcursor⟩

/-- What denotes something opens, to a cursor over it unless it is a file. -/
theorem Denotes.opens {D : Bytes} (hD : Denotes R uri D) (hw : w.Holds R allow uri)
    (hT : Target.usizeBits = 64) (hfit : (utf8 uri).length ≤ isizeMax) :
    ∃ r, (openBytes w uri).result = .ok r ∧ D.length < u64Size ∧
      (schemeIs (split uri).1 "file".toList = false → Behaves D allow r 0) := by
  cases openBytes_meant hw hT hfit with
  | fails hnone _ => exact absurd hD (hnone D)
  | opens hE hlen hr _ hcursor =>
      obtain rfl := hE.unique hD
      exact ⟨_, hr, hlen, hcursor⟩

/-- A URI opens exactly when it denotes something, and every sequence of calls on what it
opens to is one on a cursor over the denoted bytes, but that a file may refuse to go past
its end. -/
theorem open_denotes (hw : w.Holds R allow uri) (hT : Target.usizeBits = 64)
    (hfit : (utf8 uri).length ≤ isizeMax) :
    ((∃ r, (openBytes w uri).result = .ok r) ↔ ∃ D, Denotes R uri D) ∧
      ∀ r D, (openBytes w uri).result = .ok r → Denotes R uri D → ∀ ops,
        (∃ q, Trace (BoundedStep D allow) 0 (performAll r ops).1 q) ∧
          (schemeIs (split uri).1 "file".toList = false →
            ∃ q, CursorTrace D allow 0 (performAll r ops).1 q) := by
  cases openBytes_meant hw hT hfit with
  | fails hD he =>
      refine ⟨⟨fun ⟨r, hr⟩ => ?_, fun ⟨D, hD'⟩ => absurd hD' (hD D)⟩, fun r D hr => ?_⟩
      · rw [he] at hr
        cases hr
      · rw [he] at hr
        cases hr
  | @opens D r hD hlen hr hbounded hcursor =>
      refine ⟨⟨fun _ => ⟨D, hD⟩, fun _ => ⟨r, hr⟩⟩, fun r' E hr' hE ops => ?_⟩
      obtain rfl := Except.ok.inj (hr.symm.trans hr')
      obtain rfl := hD.unique hE
      obtain ⟨q, htrace, _⟩ := hbounded.trace ops
      refine ⟨⟨q, htrace⟩, fun hfile => ?_⟩
      obtain ⟨q, htrace, _⟩ := (hcursor hfile).trace ops
      exact ⟨q, htrace⟩

/-- Where reads do not fail, every URI of another scheme than `file` answers any calls of a
caller that loops over short reads as `io::Cursor` over the denoted bytes does. -/
theorem open_lockstep (hw : w.Holds R (fun _ => False) uri) (hT : Target.usizeBits = 64)
    (hfit : (utf8 uri).length ≤ isizeMax)
    (hfile : schemeIs (split uri).1 "file".toList = false) {r : Reader F}
    (hr : (openBytes w uri).result = .ok r) :
    ∃ D, Denotes R uri D ∧ ∀ calls, askAll r calls = askAll (Cursor.new D) calls := by
  obtain ⟨D, hD, _, _, hcursor⟩ := openBytes_reads hw hT hfit hr
  exact ⟨D, hD, Exact.askAll_eq (hcursor hfile) (Cursor.behaves _ (.new D))⟩

end

/-! ### Files as cursors -/

/-- A file system whose files are cursors. -/
def Resources.world (R : Resources) : World Cursor where
  openFile path :=
    match R.file path with
    | some D => .ok (.new D)
    | none => .error ⟨.notFound, []⟩
  mem := R.mem

/-- It holds the resources for every URI, where they fit. -/
theorem Resources.holds [Target] {R : Resources} (allow : IoError → Prop) (uri : Text)
    (hfile : ∀ path D, R.file path = some D → D.length < u64Size)
    (hmem : ∀ id D, R.mem id = some D → D.length ≤ isizeMax) : R.world.Holds R allow uri where
  file := by
    intro path D _ hD
    refine ⟨hfile path D hD, .new D, by simp only [world, hD], ?_⟩
    exact (Cursor.behaves allow (.new D)).bounded
  missing := by
    intro path _ hD
    exact ⟨⟨.notFound, []⟩, by simp only [world, hD]⟩
  mem := rfl
  buffer := hmem _ _

/-- One file and one registered buffer. -/
def pair : Resources where
  file path := if path = utf8 "/a".toList then some [1, 2, 3] else none
  mem id := if id = "b".toList then some [4, 5] else none

/-- The file system of the file and the buffer holds them. -/
theorem pair_holds (uri : Text) : letI := target64
    pair.world.Holds pair (fun _ => False) uri := by
  let := target64
  refine Resources.holds _ uri (fun path D hD => ?_) (fun id D hD => ?_)
  · obtain ⟨_, hD⟩ := Option.ite_none_right_eq_some.mp hD
    obtain rfl := Option.some.inj hD
    decide
  · obtain ⟨_, hD⟩ := Option.ite_none_right_eq_some.mp hD
    obtain rfl := Option.some.inj hD
    decide

/-- A window across the end of the file. -/
def across : Text := "slice:1+3!concat:file:///a|mem:b".toList

/-- The file and then the buffer. -/
def joined : Text := "concat:file:///a|mem:b".toList

/-- The URI of the file denotes its content. -/
theorem denotes_file : Denotes pair "file:///a".toList [1, 2, 3] := by
  have hsplit : Explicit "file:///a".toList "file".toList "///a".toList := ⟨by decide, rfl⟩
  have hname : Names "file:///a".toList "/a".toList :=
    .explicit hsplit rfl (percentDecodePath_eq_ok.mp (by decide +kernel))
  exact .file hname rfl

/-- The URI of the buffer denotes its content. -/
theorem denotes_buffer : Denotes pair "mem:b".toList [4, 5] :=
  .mem (by decide) (by decide) (by decide) rfl

/-- The concatenation denotes both contents in order. -/
theorem denotes_joined : Denotes pair joined [1, 2, 3, 4, 5] := by
  have hparse : ConcatUri.parse joined = .ok ⟨["file:///a".toList, "mem:b".toList]⟩ := by
    decide +kernel
  exact .concat hparse (by decide +kernel) (.cons denotes_file (.cons denotes_buffer .nil))
    (by decide)

/-- The window denotes the end of the one and the start of the other. -/
theorem denotes_across : Denotes pair across [2, 3, 4] := by
  have hparse : SliceUri.parse across = .ok ⟨1, 3, joined⟩ := by decide +kernel
  exact .slice hparse denotes_joined (by decide)

/-- Its text fits in a string. -/
theorem length_across : letI := target64
    (utf8 across).length ≤ isizeMax := by
  decide +kernel

/-- The window opens, and every sequence of calls is one on a cursor over three bytes. -/
theorem open_denotes_across : letI := target64
    ∃ r, (openBytes pair.world across).result = .ok r ∧
      ∀ ops, ∃ q, CursorTrace [2, 3, 4] (fun _ => False) 0 (performAll r ops).1 q := by
  let := target64
  obtain ⟨hopens, htraces⟩ := open_denotes (pair_holds across) rfl length_across
  obtain ⟨r, hr⟩ := hopens.mpr ⟨_, denotes_across⟩
  exact ⟨r, hr, fun ops => (htraces r _ hr denotes_across ops).2 (by decide +kernel)⟩

/-- The window answers a caller that loops as a cursor over three bytes does. -/
theorem open_lockstep_across : letI := target64
    ∃ r D, (openBytes pair.world across).result = .ok r ∧ Denotes pair across D ∧
      askAll r [.readUpto 2, .seek (.fromCurrent (-9)), .streamPosition, .readUpto 9] =
        [.bytes [2, 3], .refused .invalidInput, .position 2, .bytes [4]] := by
  let := target64
  cases openBytes_meant (pair_holds across) rfl length_across with
  | fails hD _ => exact absurd denotes_across (hD _)
  | @opens _ r _ _ hr _ _ =>
      obtain ⟨D, hD, halike⟩ := open_lockstep (pair_holds across) rfl length_across
        (by decide +kernel) hr
      obtain rfl := hD.unique denotes_across
      exact ⟨r, _, hr, hD, (halike _).trans (by decide +kernel)⟩

end OxideSource
