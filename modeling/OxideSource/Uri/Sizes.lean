import Mathlib.Algebra.GroupWithZero.Nat
import Mathlib.Algebra.Order.BigOperators.Group.List
import Mathlib.Algebra.Order.Group.Nat
import Mathlib.Data.List.Flatten
import OxideSource.Readers.Footprint
import OxideSource.Uri.Named
import OxideSource.Uri.Nesting

/-!
# What opening a URI can cost

The text of a URI bounds everything that is built from it: each leaf that is opened needs a
segment of its own, each window a `!` of its own, and decoded data is no longer than the
text that spells it.
-/

namespace OxideSource

open Uri

/-! ### Text inside text -/

namespace Uri

/-- The splitter cuts a scheme off and leaves a suffix. -/
theorem suffix_split (uri : Text) : (split uri).2 <:+ uri := by
  rcases split_cases uri with hfile | ⟨scheme, rest, _, huri, hsplit⟩
  · rw [hfile]
  · obtain ⟨slashes, _, hrest⟩ := append_stripSlashes rest
    refine ⟨scheme ++ ':' :: slashes, ?_⟩
    rw [hsplit, huri]
    simp [← hrest]

/-- Fewer characters need no more bytes. -/
theorem length_utf8_mono {s t : Text} (h : s.Sublist t) : (utf8 s).length ≤ (utf8 t).length :=
  (h.flatMap _).length_le

/-- A segment is part of the joined text. -/
theorem sublist_join (sep : Char) {segs : List Text} {seg : Text} (h : seg ∈ segs) :
    seg.Sublist ([sep].intercalate segs) := by
  induction segs with
  | nil => cases h
  | cons first segs ih =>
      cases segs with
      | nil =>
          obtain rfl := List.mem_singleton.mp h
          simp
      | cons second segs =>
          rw [List.intercalate_cons_of_ne_nil (List.cons_ne_nil _ _), List.append_assoc]
          rcases List.mem_cons.mp h with rfl | h
          · exact List.sublist_append_left _ _
          · exact (ih h).trans (List.suffix_append_of_suffix (List.suffix_append _ _)).sublist

/-- The segments need no more bytes than the joined text. -/
theorem length_utf8_join (sep : Char) (segs : List Text) :
    (segs.map fun seg => (utf8 seg).length).sum ≤ (utf8 ([sep].intercalate segs)).length := by
  induction segs with
  | nil => exact Nat.le_refl _
  | cons first segs ih =>
      cases segs with
      | nil => simp
      | cons second segs =>
          rw [List.intercalate_cons_of_ne_nil (List.cons_ne_nil _ _)]
          simp only [utf8_append, List.length_append, List.map_cons, List.sum_cons] at ih ⊢
          omega

/-- Joining adds one separator between two segments. -/
theorem count_join (sep : Char) {segs : List Text} (hne : segs ≠ []) :
    (segs.map fun seg => 1 + seg.count sep).sum = 1 + ([sep].intercalate segs).count sep := by
  induction segs with
  | nil => exact absurd rfl hne
  | cons first segs ih =>
      cases segs with
      | nil => simp
      | cons second segs =>
          rw [List.intercalate_cons_of_ne_nil (List.cons_ne_nil _ _), List.map_cons, List.sum_cons,
            ih (List.cons_ne_nil _ _)]
          simp only [List.count_append, List.count_singleton_self]
          omega

/-- A group of four digits decodes to at most three bytes. -/
theorem length_groupBytes_le (pad : Nat) (chunk : List UInt8) :
    (groupBytes pad chunk).length ≤ 3 := by
  unfold groupBytes
  split <;> split <;> simp

/-- Decoding groups makes nothing longer. -/
theorem length_decodeGroups_le : ∀ {bs d : Bytes}, decodeGroups bs = .ok d → d.length ≤ bs.length
  | b0 :: b1 :: b2 :: b3 :: rest, d, h => by
      rw [decodeGroups] at h
      split at h
      · cases h
      · rename_i pad chunk _
        split at h
        · cases h
        · split at h
          · cases h
          · obtain ⟨d', hrest, rfl⟩ := exceptMap_eq_ok.mp h
            have hle := length_decodeGroups_le hrest
            have hgroup := length_groupBytes_le pad chunk
            simp only [List.length_append, List.length_cons]
            omega
  | [], d, h => by
      obtain rfl := Except.ok.inj h
      exact Nat.le_refl _
  | [_], d, h => by
      obtain rfl := Except.ok.inj h
      exact Nat.zero_le _
  | [_, _], d, h => by
      obtain rfl := Except.ok.inj h
      exact Nat.zero_le _
  | [_, _, _], d, h => by
      obtain rfl := Except.ok.inj h
      exact Nat.zero_le _

/-- Decoding base64 never lengthens. -/
theorem length_decodeBase64_le {s : Text} {d : Bytes} (h : decodeBase64 s = .ok d) :
    d.length ≤ (utf8 s).length := by
  unfold decodeBase64 at h
  dsimp only at h
  split at h
  · cases h
  · exact (length_decodeGroups_le h).trans (List.length_filter_le _ _)

/-- A spelling is no shorter than the bytes it spells. -/
theorem Spelling.length_le {d s : Bytes} (h : Spelling d s) : d.length ≤ s.length := by
  induction h with
  | nil => exact Nat.le_refl _
  | plain _ _ ih => exact Nat.succ_le_succ ih
  | escape _ _ _ ih =>
      simp only [List.length_cons]
      omega

end Uri

/-- Data is no longer than the URI that carries it. -/
theorem DataUri.length_le_of_parse {uri : Text} {x : DataUri} (h : DataUri.parse uri = .ok x) :
    x.data.length ≤ (utf8 uri).length := by
  unfold DataUri.parse at h
  dsimp only at h
  split at h
  · cases h
  split at h
  · cases h
  rename_i header payload hcomma
  have hpayload : (utf8 payload).length ≤ (utf8 uri).length := by
    obtain ⟨hrest, _⟩ := splitOnce_eq_some.mp hcomma
    have hsuffix : payload <:+ (split uri).2 := by
      rw [hrest, List.append_cons]
      exact List.suffix_append _ _
    exact length_utf8_mono (hsuffix.trans (suffix_split uri)).sublist
  refine le_trans ?_ hpayload
  split at h <;> dsimp only at h
  · split at h
    · cases h
    split at h
    · cases h
    rename_i data hdata
    obtain rfl := Except.ok.inj h
    exact length_decodeBase64_le hdata
  · split at h
    · cases h
    split at h
    · cases h
    rename_i data hdata
    obtain rfl := Except.ok.inj h
    exact (percentDecodeBytes_eq_ok.mp hdata).length_le

/-- The inner URI of a slice, with the `!` before it, ends the slice. -/
theorem SliceUri.suffix_inner {uri : Text} {x : SliceUri} (h : SliceUri.parse uri = .ok x) :
    '!' :: x.inner <:+ uri := by
  obtain ⟨hrest, _⟩ := SliceUri.parseHeader_iff.mp (SliceUri.parse_eq_ok.mp h).2
  refine .trans ?_ (suffix_split uri)
  rw [hrest]
  exact List.suffix_append _ _

/-- The joined segments end the concatenation. -/
theorem ConcatUri.suffix_join {uri : Text} {x : ConcatUri} (h : ConcatUri.parse uri = .ok x) :
    ['|'].intercalate x.segments <:+ uri := by
  rw [← (ConcatUri.parse_iff.mp h).2.1]
  exact suffix_split uri

/-- Parts are no longer than the URI they stand in, also in bytes. -/
theorem Part.length_utf8_le {uri ref : Text} (h : Part uri ref) :
    (utf8 ref).length ≤ (utf8 uri).length := by
  cases h with
  | inner hx =>
      exact length_utf8_mono ((List.suffix_cons '!' _).trans (SliceUri.suffix_inner hx)).sublist
  | segment hx hseg =>
      exact length_utf8_mono ((sublist_join '|' hseg).trans (ConcatUri.suffix_join hx).sublist)

/-! ### What a URI opens -/

/-- The limits that the text of a URI sets. -/
structure Footprint.Within (uri : Text) (f : Footprint) : Prop where
  leaves : f.leaves ≤ 1 + uri.count '|'
  height : f.height ≤ 2 * uri.count '!' + 1
  decoded : f.decoded ≤ (utf8 uri).length

section

variable {F : Type} {w : World F} {dispatch : Text → Opening (Reader F)} {uri : Text}

/-- A URI opens few files, whether or not it can be opened, and a small reader. A
concatenation is one wrapper higher than what can stand in one. -/
structure Modest (uri : Text) (m : Opening (Reader F)) : Prop where
  opened : m.opened.length ≤ 1 + uri.count '|'
  reader : ∀ r, m.result = .ok r → r.footprint.Within uri
  flat : schemeIs (split uri).1 "concat".toList = false →
    ∀ r, m.result = .ok r → r.footprint.height ≤ 2 * uri.count '!'

/-- A leaf is modest when it opens at most one file and decodes no more than its text. -/
theorem Modest.of_leaf {m : Opening (Reader F)}
    (hopened : m.opened.length ≤ 1)
    (hleaf : ∀ r, m.result = .ok r →
      r.footprint.leaves = 1 ∧ r.footprint.height = 0 ∧ r.footprint.decoded ≤ (utf8 uri).length) :
    Modest uri m := by
  refine ⟨by omega, fun r hr => ?_, fun _ r hr => ?_⟩
  · obtain ⟨hleaves, hheight, hdecoded⟩ := hleaf r hr
    exact ⟨by omega, by omega, hdecoded⟩
  · obtain ⟨_, hheight, _⟩ := hleaf r hr
    omega

/-- One path is at most one file. -/
theorem World.opened_open_le (w : World F) (path : Bytes) : (w.open path).opened.length ≤ 1 := by
  unfold World.open
  split <;> simp

/-- The file driver opens one file. -/
theorem modest_file (h : schemeIs (split uri).1 "file".toList = true) :
    Modest uri (openFile w uri) := by
  rcases names_or_error h with ⟨p, hname⟩ | ⟨scheme, rest, e, hsplit, hfile, he⟩
  · rw [hname.openFile]
    cases hopen : (w.open (utf8 p)).result with
    | error e =>
        rw [Opening.bind_of_error hopen]
        exact .of_leaf (w.opened_open_le _) nofun
    | ok f =>
        rw [Opening.bind_of_ok hopen]
        refine .of_leaf ((List.append_nil _).symm ▸ w.opened_open_le _) ?_
        rintro r hr
        obtain rfl := Except.ok.inj hr
        exact ⟨rfl, rfl, Nat.zero_le _⟩
  · rw [hsplit.openFile_error hfile he]
    exact .of_leaf (Nat.zero_le _) nofun

/-- The memory driver opens no file and decodes nothing. -/
theorem modest_mem (uri : Text) : Modest uri (openMem w uri) := by
  refine .of_leaf (Nat.zero_le _) ?_
  intro r hr
  unfold openMem Opening.of at hr
  dsimp only at hr
  split at hr
  · cases hr
  split at hr
  · cases hr
  split at hr
  · cases hr
  split at hr
  · cases hr
  · obtain rfl := Except.ok.inj hr
    exact ⟨rfl, rfl, Nat.zero_le _⟩

/-- The data driver decodes no more than the URI has. -/
theorem modest_data (uri : Text) : Modest uri (openData uri : Opening (Reader F)) := by
  unfold openData
  cases hparse : DataUri.parse uri with
  | error e => exact .of_leaf (Nat.zero_le _) nofun
  | ok x =>
      refine .of_leaf (Nat.zero_le _) ?_
      rintro r hr
      obtain rfl := Except.ok.inj hr
      exact ⟨rfl, rfl, x.length_le_of_parse hparse⟩

variable [Target] [ReadSeek F]

/-- A slice opens when its text parses, its inner URI opens and the window can be placed. -/
theorem openSlice_eq_ok {r : Reader F} : (openSlice dispatch uri).result = .ok r ↔
    ∃ x inner s, SliceUri.parse uri = .ok x ∧ (dispatch x.inner).result = .ok inner ∧
      SubSource.new inner x.offset x.length = .ok s ∧ .sub s = r := by
  constructor
  · intro h
    obtain ⟨x, hx, h⟩ := Opening.bind_eq_ok.mp h
    obtain ⟨inner, hinner, h⟩ := Opening.bind_eq_ok.mp h
    obtain ⟨s, hs, h⟩ := Opening.bind_eq_ok.mp h
    exact ⟨x, inner, s, hx, hinner, hs, Except.ok.inj h⟩
  · rintro ⟨x, inner, s, hx, hinner, hs, rfl⟩
    apply Opening.bind_eq_ok.mpr ⟨x, hx, _⟩
    apply Opening.bind_eq_ok.mpr ⟨inner, hinner, _⟩
    exact Opening.bind_eq_ok.mpr ⟨s, hs, rfl⟩

omit [Target] [ReadSeek F] in
/-- A segment opens when it is not a concatenation and opens on its own. -/
theorem openSegment_eq_ok {seg : Text} {part : Reader F} :
    (openSegment dispatch seg).result = .ok part ↔
      schemeIs (split seg).1 "concat".toList = false ∧ (dispatch seg).result = .ok part := by
  unfold openSegment
  generalize "concat".toList = want
  by_cases hconcat : schemeIs (split seg).1 want = true
  · simp [hconcat, Opening.of]
  · simp [hconcat]

omit [Target] [ReadSeek F] in
/-- The segments open when each does and none is a concatenation. -/
theorem openSegments_eq_ok {segs : List Text} {parts : List (Reader F)} :
    (openSegments dispatch segs).result = .ok parts ↔
      List.Forall₂ (fun seg part => schemeIs (split seg).1 "concat".toList = false ∧
        (dispatch seg).result = .ok part) segs parts := by
  induction segs generalizing parts with
  | nil =>
      constructor
      · intro h
        obtain rfl := Except.ok.inj h
        exact .nil
      · rintro ⟨⟩
        rfl
  | cons seg segs ih =>
      constructor
      · intro h
        obtain ⟨part, hpart, h⟩ := Opening.bind_eq_ok.mp h
        obtain ⟨rest, hrest, h⟩ := Opening.bind_eq_ok.mp h
        obtain rfl := Except.ok.inj h
        exact .cons (openSegment_eq_ok.mp hpart) (ih.mp hrest)
      · rintro ⟨⟩
        rename_i part rest hpart hrest
        apply Opening.bind_eq_ok.mpr ⟨part, openSegment_eq_ok.mpr hpart, _⟩
        exact Opening.bind_eq_ok.mpr ⟨rest, ih.mpr hrest, rfl⟩

/-- A concatenation opens when its text parses, its segments open and can be joined. -/
theorem openConcat_eq_ok {r : Reader F} : (openConcat dispatch uri).result = .ok r ↔
    ∃ x parts s, ConcatUri.parse uri = .ok x ∧
      (openSegments dispatch x.segments).result = .ok parts ∧
      ConcatSource.new parts = .ok s ∧ .concat s = r := by
  constructor
  · intro h
    obtain ⟨x, hx, h⟩ := Opening.bind_eq_ok.mp h
    obtain ⟨parts, hparts, h⟩ := Opening.bind_eq_ok.mp h
    obtain ⟨s, hs, h⟩ := Opening.bind_eq_ok.mp h
    exact ⟨x, parts, s, hx, hparts, hs, Except.ok.inj h⟩
  · rintro ⟨x, parts, s, hx, hparts, hs, rfl⟩
    apply Opening.bind_eq_ok.mpr ⟨x, hx, _⟩
    apply Opening.bind_eq_ok.mpr ⟨parts, hparts, _⟩
    exact Opening.bind_eq_ok.mpr ⟨s, hs, rfl⟩

omit [Target] [ReadSeek F] in
/-- A sequence opens what its first part opens and at most `k` more. -/
theorem Opening.length_opened_bind_le {α β : Type} {m : Opening α} {f : α → Opening β} {k : Nat}
    (h : ∀ a, m.result = .ok a → (f a).opened.length ≤ k) :
    (m >>= f).opened.length ≤ m.opened.length + k := by
  cases hm : m.result with
  | error e =>
      rw [bind_of_error hm]
      exact Nat.le_add_right _ _
  | ok a =>
      rw [bind_of_ok hm, List.length_append]
      exact Nat.add_le_add_left (h a hm) _

omit [Target] [ReadSeek F] in
/-- The loop opens no more files than its segments do. -/
theorem length_opened_segments (segs : List Text) :
    (openSegments dispatch segs).opened.length ≤
      (segs.map fun seg => (dispatch seg).opened.length).sum := by
  induction segs with
  | nil => exact Nat.le_refl _
  | cons seg segs ih =>
      have hseg : (openSegment dispatch seg).opened.length ≤ (dispatch seg).opened.length := by
        unfold openSegment
        split
        · exact Nat.zero_le _
        · exact Nat.le_refl _
      have hrest : (openSegments dispatch (seg :: segs)).opened.length ≤
          (openSegment dispatch seg).opened.length + (openSegments dispatch segs).opened.length :=
        Opening.length_opened_bind_le fun _ _ => Opening.length_opened_bind_le (k := 0) fun _ _ =>
          Nat.le_refl _
      rw [List.map_cons, List.sum_cons]
      omega

/-- A slice adds two levels for its `!`, and nothing else. -/
theorem modest_slice (hparts : ∀ ref, Part uri ref → Modest ref (dispatch ref)) :
    Modest uri (openSlice dispatch uri) := by
  have hinner : ∀ x, SliceUri.parse uri = .ok x → Modest x.inner (dispatch x.inner) ∧
      x.inner.count '|' ≤ uri.count '|' ∧ x.inner.count '!' < uri.count '!' ∧
      (utf8 x.inner).length ≤ (utf8 uri).length := by
    intro x hx
    have hsuffix := SliceUri.suffix_inner hx
    have hbar := (List.suffix_cons '!' x.inner).trans hsuffix
    have hbang := hsuffix.sublist.count_le '!'
    rw [List.count_cons_self] at hbang
    exact ⟨hparts _ (.inner hx), hbar.sublist.count_le '|', hbang,
      length_utf8_mono hbar.sublist⟩
  have hfoot : ∀ r, (openSlice dispatch uri).result = .ok r →
      r.footprint.Within uri ∧ r.footprint.height ≤ 2 * uri.count '!' := by
    intro r hr
    obtain ⟨x, inner, s, hx, hopen, hnew, rfl⟩ := openSlice_eq_ok.mp hr
    obtain ⟨hmodest, hbar, hbang, hbytes⟩ := hinner x hx
    obtain ⟨hleaves, hheight, hdecoded⟩ := hmodest.reader inner hopen
    rw [Reader.footprint_sub, (SubSource.new_sought hnew).keeps Reader.footprint_seek]
    refine ⟨⟨?_, ?_, ?_⟩, ?_⟩ <;> dsimp only [Footprint.sub] <;> omega
  refine ⟨?_, fun r hr => (hfoot r hr).1, fun _ r hr => (hfoot r hr).2⟩
  unfold openSlice
  cases hx : SliceUri.parse uri with
  | error e => exact Nat.zero_le _
  | ok x =>
      obtain ⟨hmodest, hbar, _⟩ := hinner x hx
      have hle := hmodest.opened
      have hopen : (x.open dispatch).opened.length ≤ (dispatch x.inner).opened.length + 0 :=
        Opening.length_opened_bind_le fun _ _ => Opening.length_opened_bind_le (k := 0) fun _ _ =>
          Nat.le_refl _
      rw [Opening.of_ok_bind]
      omega

omit [Target] [ReadSeek F] in
/-- The footprint of a concatenation is at most that of its segments and one level. -/
theorem Footprint.concat_le {segs : List Text} {fs : List Footprint} {k : Nat}
    (h : List.Forall₂ (fun seg f => Footprint.Within seg f ∧ f.height ≤ k) segs fs) :
    (concat fs).leaves ≤ (segs.map fun seg => 1 + seg.count '|').sum ∧
      (concat fs).height ≤ k + 1 ∧
      (concat fs).decoded ≤ (segs.map fun seg => (utf8 seg).length).sum := by
  induction h with
  | nil => exact ⟨Nat.le_refl _, Nat.le_add_left _ _, Nat.le_refl _⟩
  | cons hhead _ ih =>
      obtain ⟨⟨hleaves, _, hdecoded⟩, hheight⟩ := hhead
      obtain ⟨ihleaves, ihheight, ihdecoded⟩ := ih
      simp only [concat, List.map_cons, List.sum_cons]
      omega

/-- A concatenation is paid for by its segments, which the `|` between them separate. -/
theorem modest_concat (h : schemeIs (split uri).1 "concat".toList = true)
    (hparts : ∀ ref, Part uri ref → Modest ref (dispatch ref)) :
    Modest uri (openConcat dispatch uri) := by
  refine ⟨?_, ?_, fun hflat => absurd (h.symm.trans hflat) nofun⟩
  · unfold openConcat
    cases hx : ConcatUri.parse uri with
    | error e => exact Nat.zero_le _
    | ok x =>
        have hopen : (x.open dispatch).opened.length ≤
            (openSegments dispatch x.segments).opened.length + 0 :=
          Opening.length_opened_bind_le fun _ _ => Opening.length_opened_bind_le (k := 0) fun _ _ =>
            Nat.le_refl _
        have hsum : (x.segments.map fun seg => (dispatch seg).opened.length).sum ≤
            (x.segments.map fun seg => 1 + seg.count '|').sum :=
          List.sum_le_sum fun seg hseg => (hparts seg (.segment hx hseg)).opened
        have hcount := count_join '|' (ConcatUri.parse_iff.mp hx).2.2.nonempty
        have hbar := (ConcatUri.suffix_join hx).sublist.count_le '|'
        have hsegs : (openSegments dispatch x.segments).opened.length ≤
            (x.segments.map fun seg => (dispatch seg).opened.length).sum :=
          length_opened_segments x.segments
        rw [Opening.of_ok_bind]
        omega
  · intro r hr
    obtain ⟨x, parts, s, hx, hopen, hnew, rfl⟩ := openConcat_eq_ok.mp hr
    have hjoin := ConcatUri.suffix_join hx
    have hfeet : List.Forall₂ (fun seg f => Footprint.Within seg f ∧
        f.height ≤ 2 * uri.count '!') x.segments (parts.map Reader.footprint) := by
      rw [List.forall₂_map_right_iff]
      refine ((List.forall₂_and_left _ _).mpr ⟨fun _ hseg => hseg,
        openSegments_eq_ok.mp hopen⟩).imp ?_
      rintro seg part ⟨hseg, hflat, hpart⟩
      have hmodest := hparts seg (.segment hx hseg)
      have hbang := ((sublist_join '|' hseg).trans hjoin.sublist).count_le '!'
      have hheight := hmodest.flat hflat part hpart
      exact ⟨hmodest.reader part hpart, by omega⟩
    obtain ⟨hleaves, hheight, hdecoded⟩ := Footprint.concat_le hfeet
    have hcount := count_join '|' (ConcatUri.parse_iff.mp hx).2.2.nonempty
    have hbar := hjoin.sublist.count_le '|'
    have hbytes := (length_utf8_join '|' x.segments).trans (length_utf8_mono hjoin.sublist)
    rw [Reader.footprint_concat, Sought.map_eq Reader.footprint_seek
      (ConcatSource.new_sought hnew)]
    exact ⟨by omega, hheight, by omega⟩

/-- The text of a URI bounds what opening it costs: one file and one leaf for each `|` and
one more, two levels of wrappers for each `!` and one more, and no more decoded bytes than
the URI has. Calls on the reader change none of it. -/
theorem open_modest (w : World F) (uri : Text) :
    (openBytes w uri).opened.length ≤ 1 + uri.count '|' ∧
      ∀ r, (openBytes w uri).result = .ok r → ∀ ops,
        (performAll r ops).2.footprint.Within uri := by
  have hmodest : Modest uri (openBytes w uri) := by
    induction hn : uri.length using Nat.strong_induction_on generalizing uri with
    | _ n ih =>
        have hparts : ∀ ref, Part uri ref → Modest ref (openBytes w ref) := fun ref href =>
          ih ref.length (hn ▸ href.length_lt) ref rfl
        rw [openBytes_eq, openScheme]
        dsimp only
        split
        · exact modest_file ‹_›
        split
        · exact modest_mem uri
        split
        · exact modest_data uri
        split
        · exact modest_slice hparts
        split
        · exact modest_concat ‹_› hparts
        · refine .of_leaf (Nat.zero_le _) ?_
          intro r hr
          cases hr
  refine ⟨hmodest.opened, fun r hr ops => ?_⟩
  rw [Reader.footprint_performAll]
  exact hmodest.reader r hr

end

end OxideSource
