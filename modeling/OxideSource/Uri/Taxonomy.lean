import OxideSource.Uri.Named
import OxideSource.Uri.Nesting

/-!
# Why an opening fails

An opening stops at its first failing step: a text that the grammar rejects, a call on a
file or on an inner reader, a window or a length that does not fit. The relations follow
the order of execution and keep the error of the failing call, apart from what the
drivers report.
-/

namespace OxideSource

open Uri

/-- Where an opening calls out. -/
inductive Site where
  /-- At a leaf, to open it. -/
  | opening
  /-- In `ConcatSource::new`, to probe its parts and to rewind the first. -/
  | joining
  /-- In `SubSource::new`, to probe its inner reader and to place its cursor. -/
  | windowing
  deriving DecidableEq

/-- Why an opening fails. -/
inductive Failure where
  | io (site : Site) (e : IoError)
  | grammar
  /-- A window reaches past the inner length. -/
  | outside
  | overflow
  | unsupported
  deriving DecidableEq

/-- The errors that the drivers report for a failure. A call of a window is reported as
malformed input. -/
inductive Failure.Reported : Failure → Error → Prop
  | opening (e : IoError) : Reported (.io .opening e) (.io e)
  | joining (e : IoError) : Reported (.io .joining e) (.io e)
  | windowing (e : IoError) (msg : Message) : Reported (.io .windowing e) (.invalidData msg)
  | grammar (msg : Message) : Reported .grammar (.invalidData msg)
  | outside (msg : Message) : Reported .outside (.invalidData msg)
  | overflow (msg : Message) : Reported .overflow (.invalidData msg)
  | unsupported (msg : Message) : Reported .unsupported (.unsupported msg)

/-! ### The grammars -/

/-- A grammar rejects as malformed input. -/
def Rejecting {α : Type} (r : Except Error α) : Prop :=
  ∀ x, r = .error x → ∃ msg, x = .invalidData msg

namespace Rejecting

variable {α β : Type}

/-- A refusal as invalid data. -/
theorem error (msg : Message) : Rejecting (.error (.invalid msg) : Except Error α) := by
  intro x h
  cases h
  exact ⟨msg, rfl⟩

/-- A value refuses nothing. -/
theorem ok (a : α) : Rejecting (.ok a : Except Error α) := by
  intro x h
  cases h

/-- What is done to the value refuses nothing more. -/
theorem map {r : Except Error α} (h : Rejecting r) (f : α → β) : Rejecting (r.map f) := by
  cases r with
  | error e =>
      intro x hx
      cases hx
      exact h e rfl
  | ok a => exact ok (f a)

/-- What an earlier step rejected stays rejected. -/
theorem of_eq {r : Except Error α} (h : Rejecting r) {e : Error} (he : r = .error e) :
    Rejecting (.error e : Except Error β) := by
  intro x hx
  cases hx
  exact h e he

end Rejecting

/-- A bad escape is invalid data. -/
theorem rejecting_percentDecodeFrom (i : Nat) (s : Bytes) : Rejecting (percentDecodeFrom i s) := by
  fun_induction percentDecodeFrom i s with
  | case1 i => exact .ok _
  | case2 i hi lo rest hhi => exact .error _
  | case3 i hi lo rest h hhi hlo => exact .error _
  | case4 i hi lo rest h hhi l hlo ih => exact ih.map _
  | case5 i rest hshort => exact .error _
  | case6 i b rest hb ih => exact ih.map _

/-- So is a path that is not UTF-8. -/
theorem rejecting_percentDecodePath (s : Text) : Rejecting (percentDecodePath s) := by
  unfold percentDecodePath
  split
  · exact (rejecting_percentDecodeFrom 0 (utf8 s)).of_eq ‹_›
  · split
    · exact .ok _
    · exact .error _

/-- A bad digit or padding is invalid data. -/
theorem rejecting_scanGroup (bs : Bytes) (pad : Nat) : Rejecting (scanGroup bs pad) := by
  induction bs generalizing pad with
  | nil => exact .ok _
  | cons b bs ih =>
      rw [scanGroup]
      split
      · exact (ih _).map _
      split
      · exact .error _
      split
      · exact .error _
      · exact (ih _).map _

/-- A bad group is invalid data wherever it stands. -/
theorem rejecting_decodeGroups : ∀ bs : Bytes, Rejecting (decodeGroups bs)
  | b0 :: b1 :: b2 :: b3 :: rest => by
      have hrest := rejecting_decodeGroups rest
      rw [decodeGroups]
      cases hscan : scanGroup [b0, b1, b2, b3] 0 with
      | error e => exact (rejecting_scanGroup _ _).of_eq hscan
      | ok scanned =>
          obtain ⟨pad, chunk⟩ := scanned
          dsimp only
          split
          · exact .error _
          split
          · exact .error _
          · exact hrest.map _
  | [] | [_] | [_, _] | [_, _, _] => .ok _

/-- Base64 refuses as invalid data. -/
theorem rejecting_decodeBase64 (s : Text) : Rejecting (decodeBase64 s) := by
  unfold decodeBase64
  dsimp only
  split
  · exact .error _
  · exact rejecting_decodeGroups _

/-- A `data` URI is refused as invalid data. -/
theorem DataUri.rejecting_parse (uri : Text) : Rejecting (DataUri.parse uri) := by
  unfold DataUri.parse
  dsimp only
  split
  · exact .error _
  split
  · exact .error _
  rename_i header payload _
  have hpayload (base64 : Bool) :
      Rejecting (if base64 then decodeBase64 payload else percentDecodeBytes payload) := by
    cases base64 with
    | true => exact rejecting_decodeBase64 payload
    | false => exact rejecting_percentDecodeFrom 0 (utf8 payload)
  cases stripBase64Suffix header with
  | some stripped =>
      dsimp only
      split
      · exact .error _
      split
      · exact (hpayload true).of_eq ‹_›
      · exact .ok _
  | none =>
      dsimp only
      split
      · exact .error _
      split
      · exact (hpayload false).of_eq ‹_›
      · exact .ok _

/-- A number that is not canonical is invalid data. -/
theorem SliceUri.rejecting_parseCanonicalU64 (s : Text) (what : String) :
    Rejecting (parseCanonicalU64 s what) := by
  unfold parseCanonicalU64
  dsimp only
  split
  · exact .error _
  split
  · exact .error _
  split
  · exact .error _
  split
  · exact .ok _
  · exact .error _

/-- A `slice` URI is refused as invalid data. -/
theorem SliceUri.rejecting_parse (uri : Text) : Rejecting (SliceUri.parse uri) := by
  unfold SliceUri.parse parseHeader
  dsimp only
  split
  · exact .error _
  split
  · exact .error _
  split
  · exact .error _
  split
  · exact (rejecting_parseCanonicalU64 _ _).of_eq ‹_›
  split
  · exact (rejecting_parseCanonicalU64 _ _).of_eq ‹_›
  split
  · exact .error _
  · exact .ok _

/-- A `concat` URI is refused as invalid data. -/
theorem ConcatUri.rejecting_parse (uri : Text) : Rejecting (ConcatUri.parse uri) := by
  unfold ConcatUri.parse splitSegments
  dsimp only
  split
  · exact .error _
  split
  · exact .error _
  split
  · rename_i e he
    split at he
    · cases he
      exact .error _
    · cases he
  split
  · exact .error _
  · exact .ok _

/-! ### Composites -/

section Composites

variable {ρ : Type} [ReadSeek ρ]

/-- The first failing step of `SubSource::new`. -/
inductive WindowFails (r : ρ) (base len : UInt64) : Failure → Prop
  | overflow (h : u64Size ≤ base.toNat + len.toNat) : WindowFails r base len .overflow
  | probe {e : IoError} {r' : ρ} (hfit : base.toNat + len.toNat < u64Size)
      (h : streamLen r = (.error e, r')) : WindowFails r base len (.io .windowing e)
  | outside {n : Nat} {r' : ρ} (hfit : base.toNat + len.toNat < u64Size)
      (h : streamLen r = (.ok n, r')) (hout : n < base.toNat + len.toNat) :
      WindowFails r base len .outside
  | place {n : Nat} {r' r'' : ρ} {e : IoError} (hfit : base.toNat + len.toNat < u64Size)
      (h : streamLen r = (.ok n, r')) (hin : base.toNat + len.toNat ≤ n)
      (hseek : ReadSeek.seek r' (.fromStart base) = (.error e, r'')) :
      WindowFails r base len (.io .windowing e)

/-- The first failing step of the probing loop of `ConcatSource::new`, from the length
`acc` of the parts before. -/
inductive ProbeFails : List ρ → Nat → Failure → Prop
  | seek {part part' : ρ} {rest : List ρ} {acc : Nat} {e : IoError}
      (h : ReadSeek.seek part (.fromEnd 0) = (.error e, part')) :
      ProbeFails (part :: rest) acc (.io .joining e)
  | overflow {part part' : ρ} {rest : List ρ} {acc len : Nat}
      (h : ReadSeek.seek part (.fromEnd 0) = (.ok len, part')) (hover : u64Size ≤ acc + len) :
      ProbeFails (part :: rest) acc .overflow
  | later {part part' : ρ} {rest : List ρ} {acc len : Nat} {f : Failure}
      (h : ReadSeek.seek part (.fromEnd 0) = (.ok len, part')) (hfit : acc + len < u64Size)
      (hrest : ProbeFails rest (acc + len) f) : ProbeFails (part :: rest) acc f

/-- The first failing step of `ConcatSource::new`. -/
inductive JoinFails (parts : List ρ) : Failure → Prop
  | probe {f : Failure} (h : ProbeFails parts 0 f) : JoinFails parts f
  | rewind {first first' : ρ} {rest : List ρ} {starts : List Nat} {e : IoError}
      (h : ConcatSource.probe parts 0 = .ok (first :: rest, starts))
      (hseek : ReadSeek.seek first (.fromStart 0) = (.error e, first')) :
      JoinFails parts (.io .joining e)

/-- A window that fails reports its failure. -/
theorem WindowFails.result {r : ρ} {base len : UInt64} {f : Failure}
    (h : WindowFails r base len f) :
    ∃ x, SubSource.new r base len = .error x ∧ f.Reported x := by
  unfold SubSource.new
  cases h with
  | overflow h =>
      have hadd : checkedAdd base.toNat len.toNat = none := checkedAdd_eq_none.mpr h
      rw [hadd]
      exact ⟨_, rfl, .overflow _⟩
  | probe hfit h =>
      rw [checkedAdd_eq_some.mpr ⟨rfl, hfit⟩, h]
      exact ⟨_, rfl, .windowing _ _⟩
  | outside hfit h hout =>
      rw [checkedAdd_eq_some.mpr ⟨rfl, hfit⟩, h]
      exact ⟨_, if_pos hout, .outside _⟩
  | place hfit h hin hseek =>
      simp only [checkedAdd_eq_some.mpr ⟨rfl, hfit⟩, h, Nat.not_lt.mpr hin, ite_false, hseek]
      exact ⟨_, rfl, .windowing _ _⟩

/-- Every error of a window has a failure. -/
theorem exists_windowFails {r : ρ} {base len : UInt64} {x : Error}
    (h : SubSource.new r base len = .error x) : ∃ f, WindowFails r base len f := by
  unfold SubSource.new at h
  split at h
  · exact ⟨_, .overflow (checkedAdd_eq_none.mp ‹_›)⟩
  rename_i stop hadd
  obtain ⟨rfl, hfit⟩ := checkedAdd_eq_some.mp hadd
  split at h
  · exact ⟨_, .probe hfit ‹_›⟩
  rename_i n r' hlen
  split at h
  · exact ⟨_, .outside hfit hlen ‹_›⟩
  rename_i hin
  split at h
  · exact ⟨_, .place hfit hlen (Nat.not_lt.mp hin) ‹_›⟩
  · cases h

/-- A probe that fails reports its failure. -/
theorem ProbeFails.result {parts : List ρ} {acc : Nat} {f : Failure} (h : ProbeFails parts acc f) :
    ∃ x, ConcatSource.probe parts acc = .error x ∧ f.Reported x := by
  induction h with
  | seek h =>
      rw [ConcatSource.probe, h]
      exact ⟨_, rfl, .joining _⟩
  | @overflow part part' rest acc len h hover =>
      have hadd : checkedAdd acc len = none := checkedAdd_eq_none.mpr hover
      rw [ConcatSource.probe, h]
      simp only [hadd]
      exact ⟨_, rfl, .overflow _⟩
  | later h hfit hrest ih =>
      obtain ⟨x, hx, hreported⟩ := ih
      rw [ConcatSource.probe, h]
      simp only [checkedAdd_eq_some.mpr ⟨rfl, hfit⟩, hx]
      exact ⟨x, rfl, hreported⟩

/-- Every error of the probes has a failure. -/
theorem exists_probeFails {parts : List ρ} {acc : Nat} {x : Error}
    (h : ConcatSource.probe parts acc = .error x) : ∃ f, ProbeFails parts acc f := by
  induction parts generalizing acc x with
  | nil => cases h
  | cons part rest ih =>
      rw [ConcatSource.probe] at h
      split at h
      · exact ⟨_, .seek ‹_›⟩
      rename_i len part' hend
      split at h
      · exact ⟨_, .overflow hend (checkedAdd_eq_none.mp ‹_›)⟩
      rename_i acc' hadd
      obtain ⟨rfl, hfit⟩ := checkedAdd_eq_some.mp hadd
      split at h
      · rename_i e hrest
        obtain ⟨f, hf⟩ := ih hrest
        exact ⟨f, .later hend hfit hf⟩
      · cases h

/-- A join that fails reports its failure. -/
theorem JoinFails.result {parts : List ρ} {f : Failure} (h : JoinFails parts f) :
    ∃ x, ConcatSource.new parts = .error x ∧ f.Reported x := by
  unfold ConcatSource.new
  cases h with
  | probe h =>
      obtain ⟨x, hx, hreported⟩ := h.result
      rw [hx]
      exact ⟨x, rfl, hreported⟩
  | rewind h hseek =>
      simp only [h, hseek]
      exact ⟨_, rfl, .joining _⟩

/-- Every error of a join has a failure. -/
theorem exists_joinFails {parts : List ρ} {x : Error} (h : ConcatSource.new parts = .error x) :
    ∃ f, JoinFails parts f := by
  unfold ConcatSource.new at h
  split at h
  · rename_i e hprobe
    obtain ⟨f, hf⟩ := exists_probeFails hprobe
    exact ⟨f, .probe hf⟩
  rename_i parts' starts hprobe
  split at h
  · cases h
  · split at h
    · exact ⟨_, .rewind hprobe ‹_›⟩
    · cases h

end Composites

section Openings

variable {F : Type} [Target] [ReadSeek F] (w : World F)

/-- The first failing step of `open_bytes`, in order of execution: whatever comes before
has succeeded. -/
inductive Fails : Text → Failure → Prop
  /-- The path of a `file` URI cannot be decoded. -/
  | path {uri scheme rest : Text} {x : Error} (hsplit : Explicit uri scheme rest)
      (hfile : schemeIs scheme "file".toList = true)
      (h : percentDecodePath (stripSlashes rest) = .error x) : Fails uri .grammar
  | file {uri p : Text} {e : IoError} (hnames : Names uri p)
      (h : w.openFile (utf8 p) = .error e) : Fails uri (.io .opening e)
  | memId {uri : Text} (hscheme : schemeIs (split uri).1 "mem".toList = true)
      (h : (split uri).2 = [] ∨ '/' ∈ (split uri).2) : Fails uri .grammar
  | mem {uri : Text} (hscheme : schemeIs (split uri).1 "mem".toList = true)
      (hid : (split uri).2 ≠ []) (hslash : '/' ∉ (split uri).2)
      (h : w.mem (split uri).2 = none) :
      Fails uri (.io .opening
        ⟨.notFound, ["mem:// id '", .text (split uri).2, "' is not registered"]⟩)
  | data {uri : Text} {x : Error} (hscheme : schemeIs (split uri).1 "data".toList = true)
      (h : DataUri.parse uri = .error x) : Fails uri .grammar
  | scheme {uri : Text} (h : ∀ known ∈ ["file", "mem", "data", "slice", "concat"],
      schemeIs (split uri).1 known.toList = false) : Fails uri .unsupported
  | slice {uri : Text} {x : Error} (hscheme : schemeIs (split uri).1 "slice".toList = true)
      (h : SliceUri.parse uri = .error x) : Fails uri .grammar
  | inner {uri : Text} {x : SliceUri} {f : Failure} (hparse : SliceUri.parse uri = .ok x)
      (h : Fails x.inner f) : Fails uri f
  | window {uri : Text} {x : SliceUri} {r : Reader F} {f : Failure}
      (hparse : SliceUri.parse uri = .ok x) (hopen : (openBytes w x.inner).result = .ok r)
      (h : WindowFails r x.offset x.length f) : Fails uri f
  | concat {uri : Text} {x : Error} (hscheme : schemeIs (split uri).1 "concat".toList = true)
      (h : ConcatUri.parse uri = .error x) : Fails uri .grammar
  /-- A segment is itself a `concat` URI, which the grammar of segments excludes. -/
  | nested {uri seg : Text} {x : ConcatUri} {before after : List Text} {parts : List (Reader F)}
      (hparse : ConcatUri.parse uri = .ok x) (hsegs : x.segments = before ++ seg :: after)
      (hopen : (openSegments (openBytes w) before).result = .ok parts)
      (h : schemeIs (split seg).1 "concat".toList = true) : Fails uri .grammar
  | segment {uri seg : Text} {x : ConcatUri} {before after : List Text} {parts : List (Reader F)}
      {f : Failure} (hparse : ConcatUri.parse uri = .ok x)
      (hsegs : x.segments = before ++ seg :: after)
      (hopen : (openSegments (openBytes w) before).result = .ok parts)
      (hscheme : schemeIs (split seg).1 "concat".toList = false) (h : Fails seg f) : Fails uri f
  | join {uri : Text} {x : ConcatUri} {parts : List (Reader F)} {f : Failure}
      (hparse : ConcatUri.parse uri = .ok x)
      (hopen : (openSegments (openBytes w) x.segments).result = .ok parts)
      (h : JoinFails parts f) : Fails uri f

end Openings

section

variable {F : Type} [Target] [ReadSeek F] {w : World F}

/-! ### The segments of a concatenation -/

omit [Target] [ReadSeek F] in
/-- The loop over the segments stops at the first that cannot be opened. -/
theorem openSegments_eq_error {d : Text → Opening (Reader F)} {segs : List Text} {e : Error} :
    (openSegments d segs).result = .error e ↔ ∃ before seg after parts,
      segs = before ++ seg :: after ∧ (openSegments d before).result = .ok parts ∧
        (openSegment d seg).result = .error e := by
  induction segs with
  | nil =>
      constructor
      · intro h
        cases h
      · rintro ⟨before, seg, after, _, h, _⟩
        exact absurd h (by simp)
  | cons seg segs ih =>
      have hpure (parts : List (Reader F)) :
          (pure parts : Opening (List (Reader F))).result = .ok parts := rfl
      rw [openSegments, Opening.bind_eq_error]
      constructor
      · rintro (h | ⟨part, hpart, h⟩)
        · exact ⟨[], seg, segs, [], rfl, rfl, h⟩
        · obtain h | ⟨parts, _, h⟩ := Opening.bind_eq_error.mp h
          · obtain ⟨before, seg', after, parts, rfl, hbefore, hseg⟩ := ih.mp h
            refine ⟨seg :: before, seg', after, part :: parts, rfl, ?_, hseg⟩
            rw [openSegments, Opening.bind_eq_ok]
            exact ⟨part, hpart, Opening.bind_eq_ok.mpr ⟨parts, hbefore, rfl⟩⟩
          · rw [hpure] at h
            cases h
      · rintro ⟨before, seg', after, parts, hsegs, hbefore, hseg⟩
        cases before with
        | nil =>
            obtain ⟨rfl, _⟩ := List.cons.inj hsegs
            exact .inl hseg
        | cons first before =>
            obtain ⟨rfl, rfl⟩ := List.cons.inj hsegs
            rw [openSegments, Opening.bind_eq_ok] at hbefore
            obtain ⟨part, hpart, hbefore⟩ := hbefore
            obtain ⟨parts', hparts, _⟩ := Opening.bind_eq_ok.mp hbefore
            refine .inr ⟨part, hpart, Opening.bind_eq_error.mpr (.inl ?_)⟩
            exact ih.mpr ⟨before, seg', after, parts', rfl, hparts, hseg⟩

omit [Target] [ReadSeek F] in
/-- A segment that is a `concat` URI is rejected. -/
theorem openSegment_nested {d : Text → Opening (Reader F)} {seg : Text}
    (h : schemeIs (split seg).1 "concat".toList = true) :
    ∃ msg, (openSegment d seg).result = .error (.invalidData msg) := by
  rw [openSegment, if_pos h]
  exact ⟨_, rfl⟩

/-! ### What is reported -/

/-- A slice fails at its grammar, at its inner URI or at its window. -/
theorem openSlice_eq_error {d : Text → Opening (Reader F)} {uri : Text} {e : Error} :
    (openSlice d uri).result = .error e ↔ SliceUri.parse uri = .error e ∨
      ∃ x, SliceUri.parse uri = .ok x ∧ ((d x.inner).result = .error e ∨
        ∃ r, (d x.inner).result = .ok r ∧ SubSource.new r x.offset x.length = .error e) := by
  have hpure (s : SubSource (Reader F)) :
      (pure (.sub s) : Opening (Reader F)).result ≠ .error e := by
    intro h
    cases h
  unfold openSlice SliceUri.open
  simp only [Opening.bind_eq_error, hpure, and_false, exists_false, or_false]
  rfl

/-- A concatenation fails at its grammar, at a segment or when the parts are joined. -/
theorem openConcat_eq_error {d : Text → Opening (Reader F)} {uri : Text} {e : Error} :
    (openConcat d uri).result = .error e ↔ ConcatUri.parse uri = .error e ∨
      ∃ x, ConcatUri.parse uri = .ok x ∧ ((openSegments d x.segments).result = .error e ∨
        ∃ parts, (openSegments d x.segments).result = .ok parts ∧
          ConcatSource.new parts = .error e) := by
  have hpure (s : ConcatSource (Reader F)) :
      (pure (.concat s) : Opening (Reader F)).result ≠ .error e := by
    intro h
    cases h
  unfold openConcat ConcatUri.open
  simp only [Opening.bind_eq_error, hpure, and_false, exists_false, or_false]
  rfl

/-- An opening whose steps fail so reports the failure. -/
theorem Fails.result {uri : Text} {f : Failure} (h : Fails w uri f) :
    ∃ x, (openBytes w uri).result = .error x ∧ f.Reported x := by
  induction h with
  | @path uri scheme rest x hsplit hfile h =>
      have hscheme : schemeIs (split uri).1 "file".toList = true := by rwa [hsplit.split_eq]
      obtain ⟨msg, rfl⟩ := rejecting_percentDecodePath _ _ h
      rw [openBytes_file hscheme, hsplit.openFile_error hfile h]
      exact ⟨_, rfl, .grammar msg⟩
  | file hnames h =>
      rw [openBytes_file hnames.scheme, hnames.openFile]
      refine ⟨_, Opening.bind_eq_error.mpr (.inl ?_), .opening _⟩
      exact World.open_eq_error.mpr ⟨_, h, rfl⟩
  | @memId uri hscheme h =>
      rw [openBytes_mem hscheme]
      simp only [openMem, hscheme, Bool.not_true, Bool.false_eq_true, ite_false, Opening.of]
      by_cases hid : (split uri).2 = []
      · exact ⟨_, if_pos hid, .grammar _⟩
      · rw [if_neg hid, if_pos (h.resolve_left hid)]
        exact ⟨_, rfl, .grammar _⟩
  | mem hscheme hid hslash h =>
      rw [openBytes_mem hscheme]
      simp only [openMem, hscheme, Bool.not_true, Bool.false_eq_true, ite_false, Opening.of, hid,
        hslash, h]
      exact ⟨_, rfl, .opening _⟩
  | data hscheme h =>
      obtain ⟨msg, rfl⟩ := DataUri.rejecting_parse _ _ h
      rw [openBytes_data hscheme, openData, h]
      exact ⟨_, rfl, .grammar msg⟩
  | @scheme uri h =>
      rw [openBytes_eq]
      simp only [openScheme, h "file" (by simp), h "mem" (by simp), h "data" (by simp),
        h "slice" (by simp), h "concat" (by simp), Bool.false_eq_true, ite_false]
      exact ⟨_, rfl, .unsupported _⟩
  | slice hscheme h =>
      obtain ⟨msg, rfl⟩ := SliceUri.rejecting_parse _ _ h
      rw [openBytes_slice hscheme]
      exact ⟨_, openSlice_eq_error.mpr (.inl h), .grammar msg⟩
  | inner hparse _ ih =>
      obtain ⟨x, hx, hreported⟩ := ih
      rw [openBytes_slice (SliceUri.parse_eq_ok.mp hparse).1]
      exact ⟨x, openSlice_eq_error.mpr (.inr ⟨_, hparse, .inl hx⟩), hreported⟩
  | window hparse hopen h =>
      obtain ⟨x, hx, hreported⟩ := h.result
      rw [openBytes_slice (SliceUri.parse_eq_ok.mp hparse).1]
      exact ⟨x, openSlice_eq_error.mpr (.inr ⟨_, hparse, .inr ⟨_, hopen, hx⟩⟩), hreported⟩
  | concat hscheme h =>
      obtain ⟨msg, rfl⟩ := ConcatUri.rejecting_parse _ _ h
      rw [openBytes_concat hscheme]
      exact ⟨_, openConcat_eq_error.mpr (.inl h), .grammar msg⟩
  | nested hparse hsegs hopen h =>
      obtain ⟨msg, hseg⟩ := openSegment_nested (d := openBytes w) h
      rw [openBytes_concat (ConcatUri.parse_iff.mp hparse).1]
      refine ⟨_, openConcat_eq_error.mpr (.inr ⟨_, hparse, .inl ?_⟩), .grammar msg⟩
      exact openSegments_eq_error.mpr ⟨_, _, _, _, hsegs, hopen, hseg⟩
  | segment hparse hsegs hopen hscheme _ ih =>
      obtain ⟨x, hx, hreported⟩ := ih
      rw [openBytes_concat (ConcatUri.parse_iff.mp hparse).1]
      refine ⟨x, openConcat_eq_error.mpr (.inr ⟨_, hparse, .inl ?_⟩), hreported⟩
      refine openSegments_eq_error.mpr ⟨_, _, _, _, hsegs, hopen, ?_⟩
      simp only [openSegment, hscheme, Bool.false_eq_true, ite_false, hx]
  | join hparse hopen h =>
      obtain ⟨x, hx, hreported⟩ := h.result
      rw [openBytes_concat (ConcatUri.parse_iff.mp hparse).1]
      exact ⟨x, openConcat_eq_error.mpr (.inr ⟨_, hparse, .inr ⟨_, hopen, hx⟩⟩), hreported⟩

/-! ### Where an error comes from -/

/-- Every error of the file driver has a failure. -/
theorem exists_fails_file {uri : Text} {x : Error}
    (hscheme : schemeIs (split uri).1 "file".toList = true)
    (h : (openFile w uri).result = .error x) : ∃ f, Fails w uri f := by
  obtain ⟨p, hnames⟩ | ⟨scheme, rest, e, hsplit, hfile, hpath⟩ := names_or_error hscheme
  · rw [hnames.openFile] at h
    obtain h | ⟨f, _, h⟩ := Opening.bind_eq_error.mp h
    · obtain ⟨e, he, _⟩ := World.open_eq_error.mp h
      exact ⟨_, .file hnames he⟩
    · cases h
  · exact ⟨_, .path hsplit hfile hpath⟩

/-- Every error of the memory driver has a failure. -/
theorem exists_fails_mem {uri : Text} {x : Error}
    (hscheme : schemeIs (split uri).1 "mem".toList = true)
    (h : (openMem w uri).result = .error x) : ∃ f, Fails w uri f := by
  by_cases hid : (split uri).2 = [] ∨ '/' ∈ (split uri).2
  · exact ⟨_, .memId hscheme hid⟩
  obtain ⟨hempty, hslash⟩ := not_or.mp hid
  cases hbuf : w.mem (split uri).2 with
  | none => exact ⟨_, .mem hscheme hempty hslash hbuf⟩
  | some buf =>
      simp only [openMem, hscheme, Bool.not_true, Bool.false_eq_true, ite_false, Opening.of, hempty,
        hslash, hbuf] at h
      cases h

/-- Every error of the data driver has a failure. -/
theorem exists_fails_data {uri : Text} {x : Error}
    (hscheme : schemeIs (split uri).1 "data".toList = true)
    (h : (openData uri : Opening (Reader F)).result = .error x) : ∃ f, Fails w uri f := by
  obtain h | ⟨parsed, _, h⟩ := Opening.bind_eq_error.mp h
  · exact ⟨_, .data hscheme h⟩
  · cases h

/-- An error of a slice comes from its grammar, its inner URI or its window. -/
theorem exists_fails_slice {uri : Text} {x : Error}
    (hscheme : schemeIs (split uri).1 "slice".toList = true)
    (ih : ∀ t : Text, t.length < uri.length →
      ∀ y, (openBytes w t).result = .error y → ∃ f, Fails w t f)
    (h : (openSlice (openBytes w) uri).result = .error x) : ∃ f, Fails w uri f := by
  obtain h | ⟨y, hparse, h | ⟨r, hopen, h⟩⟩ := openSlice_eq_error.mp h
  · exact ⟨_, .slice hscheme h⟩
  · obtain ⟨f, hf⟩ := ih y.inner (SliceUri.length_inner_lt hparse) _ h
    exact ⟨f, .inner hparse hf⟩
  · obtain ⟨f, hf⟩ := exists_windowFails h
    exact ⟨f, .window hparse hopen hf⟩

/-- An error of a concatenation comes from its grammar, a segment or the joining. -/
theorem exists_fails_concat {uri : Text} {x : Error}
    (hscheme : schemeIs (split uri).1 "concat".toList = true)
    (ih : ∀ t : Text, t.length < uri.length →
      ∀ y, (openBytes w t).result = .error y → ∃ f, Fails w t f)
    (h : (openConcat (openBytes w) uri).result = .error x) : ∃ f, Fails w uri f := by
  obtain h | ⟨y, hparse, h | ⟨parts, hopen, h⟩⟩ := openConcat_eq_error.mp h
  · exact ⟨_, .concat hscheme h⟩
  · obtain ⟨before, seg, after, parts, hsegs, hopen, hseg⟩ := openSegments_eq_error.mp h
    cases hnested : schemeIs (split seg).1 "concat".toList with
    | true => exact ⟨_, .nested hparse hsegs hopen hnested⟩
    | false =>
        simp only [openSegment, hnested, Bool.false_eq_true, ite_false] at hseg
        have hmem : seg ∈ y.segments := by simp [hsegs]
        obtain ⟨f, hf⟩ := ih seg (ConcatUri.length_segment_lt hparse hmem) _ hseg
        exact ⟨f, .segment hparse hsegs hopen hnested hf⟩
  · obtain ⟨f, hf⟩ := exists_joinFails h
    exact ⟨f, .join hparse hopen hf⟩

/-- Every error has a first failing step. -/
theorem exists_fails {uri : Text} {x : Error} (h : (openBytes w uri).result = .error x) :
    ∃ f, Fails w uri f := by
  induction hn : uri.length using Nat.strong_induction_on generalizing uri x with
  | _ n ih =>
      have hnested (t : Text) (ht : t.length < uri.length) (y : Error)
          (hy : (openBytes w t).result = .error y) : ∃ f, Fails w t f :=
        ih t.length (hn ▸ ht) hy rfl
      by_cases hfile : schemeIs (split uri).1 "file".toList = true
      · rw [openBytes_file hfile] at h
        exact exists_fails_file hfile h
      by_cases hmem : schemeIs (split uri).1 "mem".toList = true
      · rw [openBytes_mem hmem] at h
        exact exists_fails_mem hmem h
      by_cases hdata : schemeIs (split uri).1 "data".toList = true
      · rw [openBytes_data hdata] at h
        exact exists_fails_data hdata h
      by_cases hslice : schemeIs (split uri).1 "slice".toList = true
      · rw [openBytes_slice hslice] at h
        exact exists_fails_slice hslice hnested h
      by_cases hconcat : schemeIs (split uri).1 "concat".toList = true
      · rw [openBytes_concat hconcat] at h
        exact exists_fails_concat hconcat hnested h
      refine ⟨_, .scheme ?_⟩
      simp only [List.forall_mem_cons, List.not_mem_nil, false_imp_iff, implies_true, and_true]
      simp only [Bool.not_eq_true] at hfile hmem hdata hslice hconcat
      exact ⟨hfile, hmem, hdata, hslice, hconcat⟩

/-- The taxonomy at a URI: a failing call on a file or an inner reader is reported as `Io`
with its kind, and malformed input only for a grammar, a window or a length. -/
def TaxonomyKept (w : World F) (uri : Text) : Prop :=
  (∀ site e, Fails w uri (.io site e) →
    ∃ msg, (openBytes w uri).result = .error (.io ⟨e.kind, msg⟩)) ∧
  ∀ msg, (openBytes w uri).result = .error (.invalidData msg) →
    Fails w uri .grammar ∨ Fails w uri .outside ∨ Fails w uri .overflow

/-- The taxonomy is kept at the URIs whose first failing step is not a call that a slice
makes on its inner reader. -/
theorem taxonomy_iff (w : World F) (uri : Text) :
    TaxonomyKept w uri ↔ ∀ e, ¬ Fails w uri (.io .windowing e) := by
  constructor
  · rintro ⟨hio, _⟩ e hfails
    obtain ⟨msg, hresult⟩ := hio .windowing e hfails
    obtain ⟨x, hx, hreported⟩ := hfails.result
    obtain rfl := Except.error.inj (hresult.symm.trans hx)
    cases hreported
  · intro hnone
    constructor
    · intro site e hfails
      obtain ⟨x, hx, hreported⟩ := hfails.result
      cases hreported with
      | opening e => exact ⟨e.msg, hx⟩
      | joining e => exact ⟨e.msg, hx⟩
      | windowing e msg => exact (hnone e hfails).elim
    · intro msg hresult
      obtain ⟨f, hfails⟩ := exists_fails hresult
      obtain ⟨x, hx, hreported⟩ := hfails.result
      obtain rfl := Except.error.inj (hresult.symm.trans hx)
      cases hreported with
      | windowing e msg => exact (hnone e hfails).elim
      | grammar msg => exact .inl hfails
      | outside msg => exact .inr (.inl hfails)
      | overflow msg => exact .inr (.inr hfails)

end

/-! ### A pipe -/

/-- An open file that cannot seek. -/
structure Pipe where
  deriving DecidableEq

/-- `ESPIPE`. -/
def illegalSeek : IoError := ⟨.notSeekable, ["Illegal seek (os error 29)"]⟩

instance : ReadSeek Pipe := ⟨fun p _ => (.ok [], p), fun p _ => (.error illegalSeek, p)⟩

/-- The standard input is a pipe. -/
def piped : World Pipe where
  openFile p := if p = utf8 "/dev/stdin".toList then .ok ⟨⟩ else .error ⟨.notFound, []⟩
  mem _ := none

/-- A slice of the pipe reports the failing seek as malformed input, a concatenation
reports it as it is. -/
theorem taxonomy_lost : letI := target64
    ¬ TaxonomyKept piped "slice:0+1!/dev/stdin".toList ∧
      (openBytes piped "slice:0+1!/dev/stdin".toList).result =
        .error (.invalid ["SubSource: cannot probe inner length: ", "Illegal seek (os error 29)"]) ∧
      (openBytes piped "concat:/dev/stdin".toList).result = .error (.io illegalSeek) := by
  let := target64
  have hopen : (openBytes piped "/dev/stdin".toList).result = .ok (.file ⟨⟩) := by
    rw [openBytes_file (by decide +kernel)]
    rfl
  have hslice : SliceUri.parse "slice:0+1!/dev/stdin".toList = .ok ⟨0, 1, "/dev/stdin".toList⟩ := by
    decide +kernel
  have hconcat : ConcatUri.parse "concat:/dev/stdin".toList = .ok ⟨["/dev/stdin".toList]⟩ := by
    decide +kernel
  have hresult : (openBytes piped "slice:0+1!/dev/stdin".toList).result =
      .error (.invalid ["SubSource: cannot probe inner length: ", "Illegal seek (os error 29)"]) := by
    rw [openBytes_slice (SliceUri.parse_eq_ok.mp hslice).1, openSlice_eq_error]
    exact .inr ⟨_, hslice, .inr ⟨_, hopen, rfl⟩⟩
  have hsegment : (openSegments (openBytes piped) ["/dev/stdin".toList]).result =
      .ok [.file ⟨⟩] := by
    rw [openSegments, Opening.bind_eq_ok]
    exact ⟨_, hopen, rfl⟩
  have hprobe : streamLen (Reader.file Pipe.mk) = (.error illegalSeek, .file ⟨⟩) := rfl
  refine ⟨?_, hresult, ?_⟩
  · rintro ⟨hio, _⟩
    obtain ⟨msg, hkind⟩ := hio .windowing illegalSeek
      (.window hslice hopen (.probe (by decide) hprobe))
    rw [hresult] at hkind
    cases hkind
  · rw [openBytes_concat (ConcatUri.parse_iff.mp hconcat).1, openConcat_eq_error]
    exact .inr ⟨_, hconcat, .inr ⟨_, hsegment, rfl⟩⟩

end OxideSource
