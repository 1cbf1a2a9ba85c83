import OxideSource.Uri.Denotation

/-!
# Which URIs may replace each other

A caller can tell two URIs apart exactly when they denote different bytes. So a window of a
window may be written as one window, and a window of a concatenation needs only the
segments that it lies in.
-/

namespace OxideSource

open Uri

/-! ### Meanings of formatted URIs -/

section

variable {R : Resources} {u : Text} {D : Bytes}

/-- A formatted slice denotes a window of what its inner URI denotes. -/
theorem denotes_slice_format {a n : UInt64} (hu : u ≠ []) :
    Denotes R (SliceUri.format ⟨a, n, u⟩) D ↔
      ∃ E, Denotes R u E ∧ a.toNat + n.toNat ≤ E.length ∧ window E a.toNat n.toNat = D := by
  have hparse : SliceUri.parse (SliceUri.format ⟨a, n, u⟩) = .ok ⟨a, n, u⟩ :=
    SliceUri.parse_format hu
  rw [denotes_slice_iff (SliceUri.parse_eq_ok.mp hparse).1]
  constructor
  · rintro ⟨x, E, hx, hE, hfit, hD⟩
    obtain rfl := Except.ok.inj (hparse.symm.trans hx)
    exact ⟨E, hE, hfit, hD⟩
  · rintro ⟨E, hE, hfit, hD⟩
    exact ⟨_, E, hparse, hE, hfit, hD⟩

/-- A formatted concatenation denotes the join of what its segments denote. -/
theorem denotes_concat_format {segs : List Text} (hsegs : ConcatUri.WellFormed segs) :
    Denotes R (ConcatUri.format ⟨segs⟩) D ↔
      ∃ Ds, SegmentsDenote R segs Ds ∧ Ds.flatten.length < u64Size ∧ Ds.flatten = D := by
  rw [denotes_concat_iff (ConcatUri.parse_iff.mp hsegs.parse_format).1]
  constructor
  · rintro ⟨x, Ds, hx, hflat, hparts, hfit, hD⟩
    obtain rfl := Except.ok.inj (hsegs.parse_format.symm.trans hx)
    exact ⟨Ds, ⟨hflat, hparts⟩, hfit, hD⟩
  · rintro ⟨Ds, hDs, hfit, hD⟩
    exact ⟨_, Ds, hsegs.parse_format, hDs.1, hDs.2, hfit, hD⟩

/-- A formatted slice is not empty. -/
theorem SliceUri.format_ne_nil (x : SliceUri) : x.format ≠ [] := by
  rw [x.format_eq]
  simp

/-- A slice does not read like a file. -/
theorem schemeIs_file_slice {a n : UInt64} (hu : u ≠ []) :
    schemeIs (split (SliceUri.format ⟨a, n, u⟩)).1 "file".toList = false :=
  schemeIs_unique (SliceUri.parse_eq_ok.mp (SliceUri.parse_format hu)).1 (by decide)

/-- A slice mentions the files of its inner URI. -/
theorem mentions_slice_format {a n : UInt64} (hu : u ≠ []) {path : Bytes} :
    Mentions (SliceUri.format ⟨a, n, u⟩) path ↔ Mentions u path := by
  have hparse : SliceUri.parse (SliceUri.format ⟨a, n, u⟩) = .ok ⟨a, n, u⟩ :=
    SliceUri.parse_format hu
  constructor
  · rintro ⟨ref, p, hreach, hname, hp⟩
    rcases hreach.cases_head with rfl | ⟨part, hpart, hrest⟩
    · exact scheme_clash hname.scheme (SliceUri.parse_eq_ok.mp hparse).1 (by decide)
    · cases hpart with
      | inner hx =>
          obtain rfl := Except.ok.inj (hparse.symm.trans hx)
          exact ⟨ref, p, hrest, hname, hp⟩
      | segment hx _ =>
          exact scheme_clash (ConcatUri.parse_iff.mp hx).1 (SliceUri.parse_eq_ok.mp hparse).1
            (by decide)
  · exact Part.mentions (.inner hparse)

/-- A concatenation mentions the files of its segments. -/
theorem mentions_concat_format {segs : List Text} (hsegs : ConcatUri.WellFormed segs)
    {path : Bytes} :
    Mentions (ConcatUri.format ⟨segs⟩) path ↔ ∃ seg ∈ segs, Mentions seg path := by
  have hscheme := (ConcatUri.parse_iff.mp hsegs.parse_format).1
  constructor
  · rintro ⟨ref, p, hreach, hname, hp⟩
    rcases hreach.cases_head with rfl | ⟨part, hpart, hrest⟩
    · exact scheme_clash hname.scheme hscheme (by decide)
    · cases hpart with
      | inner hx => exact scheme_clash (SliceUri.parse_eq_ok.mp hx).1 hscheme (by decide)
      | segment hx hseg =>
          obtain rfl := Except.ok.inj (hsegs.parse_format.symm.trans hx)
          exact ⟨_, hseg, ref, p, hrest, hname, hp⟩
  · rintro ⟨seg, hseg, h⟩
    exact Part.mentions (.segment hsegs.parse_format hseg) h

/-! ### Consecutive windows -/

/-- Windows of the given lengths, one after the other. -/
def windowsFrom (u : Text) (a : Nat) : List Nat → List Text
  | [] => []
  | n :: ns => SliceUri.format ⟨.ofNat a, .ofNat n, u⟩ :: windowsFrom u (a + n) ns

/-- Each of them is a window of the URI. -/
theorem mem_windowsFrom {seg : Text} {a : Nat} {ns : List Nat} (h : seg ∈ windowsFrom u a ns) :
    ∃ b n, seg = SliceUri.format ⟨b, n, u⟩ := by
  induction ns generalizing a with
  | nil => cases h
  | cons n ns ih =>
      rcases List.mem_cons.mp h with rfl | h
      · exact ⟨_, _, rfl⟩
      · exact ih h

/-- Windows of a URI without `|` are segments. -/
theorem wellFormed_windowsFrom {a : Nat} {ns : List Nat} (hns : ns ≠ []) (hbar : '|' ∉ u) :
    ConcatUri.WellFormed (windowsFrom u a ns) := by
  refine ⟨?_, ?_, ?_⟩
  · cases ns with
    | nil => exact absurd rfl hns
    | cons n ns => exact List.cons_ne_nil _ _
  · intro seg hseg
    obtain ⟨b, n, rfl⟩ := mem_windowsFrom hseg
    refine ⟨SliceUri.format_ne_nil _, ?_⟩
    have hdigits (k : Nat) : '|' ∉ SliceUri.decimal k := SliceUri.not_mem_decimal rfl
    rw [SliceUri.format_eq]
    simp [hdigits, hbar]
  · cases ns with
    | nil => exact absurd rfl hns
    | cons n ns =>
        rw [windowsFrom, List.headD_cons, SliceUri.format_eq]
        rfl

/-- Consecutive windows denote what one window over all of them does. -/
theorem denotes_windowsFrom {E : Bytes} {a : Nat} {ns : List Nat} (hu : u ≠ [])
    (hE : Denotes R u E) (hlen : E.length < u64Size) (hfit : a + ns.sum ≤ E.length) :
    ∃ Ds, SegmentsDenote R (windowsFrom u a ns) Ds ∧ Ds.flatten = window E a ns.sum := by
  induction ns generalizing a with
  | nil => exact ⟨[], ⟨nofun, .nil⟩, by simp [window]⟩
  | cons n ns ih =>
      rw [List.sum_cons] at hfit ⊢
      obtain ⟨Ds, ⟨hflat, hDs⟩, hjoin⟩ := ih (a := a + n) (by omega)
      have ha : (UInt64.ofNat a).toNat = a := toNat_ofNat_of_lt (by omega)
      have hn : (UInt64.ofNat n).toNat = n := toNat_ofNat_of_lt (by omega)
      have hfirst : Denotes R (SliceUri.format ⟨.ofNat a, .ofNat n, u⟩) (window E a n) :=
        (denotes_slice_format hu).mpr ⟨E, hE, by omega, by rw [ha, hn]⟩
      have hscheme : schemeIs (split (SliceUri.format ⟨.ofNat a, .ofNat n, u⟩)).1
          "concat".toList = false :=
        schemeIs_unique (SliceUri.parse_eq_ok.mp (SliceUri.parse_format hu)).1 (by decide)
      refine ⟨window E a n :: Ds, ⟨List.forall_mem_cons.mpr ⟨hscheme, hflat⟩, .cons hfirst hDs⟩, ?_⟩
      rw [List.flatten_cons, hjoin, window_append_window]

end

/-! ### What callers can tell -/

section

variable {F G : Type} [Target] [ReadSeek F] [ReadSeek G] {w : World F} {w' : World G}
  {R R' : Resources} {u v : Text} {D E : Bytes} {r : Reader F} {r' : Reader G}

/-- The reader of a URI is an exact cursor over what the URI denotes. -/
theorem open_exact (hw : w.Holds R (fun _ => False) u) (hT : Target.usizeBits = 64)
    (hfit : (utf8 u).length ≤ isizeMax) (hfile : schemeIs (split u).1 "file".toList = false)
    (hr : (openBytes w u).result = .ok r) : ∃ D, Denotes R u D ∧ Exact D r 0 := by
  obtain ⟨D, hD, _, _, hcursor⟩ := openBytes_reads hw hT hfit hr
  exact ⟨D, hD, hcursor hfile⟩

/-- The readers of two URIs, each opened in a world of its own, answer every sequence of
calls alike exactly when the URIs denote the same bytes there. -/
theorem open_fully_abstract (hT : Target.usizeBits = 64) (hw : w.Holds R (fun _ => False) u)
    (hw' : w'.Holds R' (fun _ => False) v) (hu : (utf8 u).length ≤ isizeMax)
    (hv : (utf8 v).length ≤ isizeMax) (hfile : schemeIs (split u).1 "file".toList = false)
    (hfile' : schemeIs (split v).1 "file".toList = false) (hr : (openBytes w u).result = .ok r)
    (hr' : (openBytes w' v).result = .ok r') :
    (∀ calls, askAll r calls = askAll r' calls) ↔ ∃ D, Denotes R u D ∧ Denotes R' v D := by
  obtain ⟨D, hD, hexact⟩ := open_exact hw hT hu hfile hr
  obtain ⟨E, hE, hexact'⟩ := open_exact hw' hT hv hfile' hr'
  constructor
  · intro halike
    obtain rfl := hexact.bytes_eq hexact' halike
    exact ⟨D, hD, hE⟩
  · rintro ⟨D', hD', hE'⟩
    obtain rfl := hD.unique hD'
    obtain rfl := hE.unique hE'
    exact hexact.askAll_eq hexact'

omit [Target] in
/-- `across` and a literal. -/
theorem open_fully_abstract_literal : letI := target64
    ∃ r r', (openBytes pair.world across).result = .ok r ∧
      (openBytes pair.world "data:,%02%03%04".toList).result = .ok r' ∧
      ∀ calls, askAll r calls = askAll r' calls := by
  let := target64
  have hfit : (utf8 "data:,%02%03%04".toList).length ≤ isizeMax := by decide +kernel
  have hparse : DataUri.parse "data:,%02%03%04".toList = .ok ⟨[], false, [2, 3, 4]⟩ := by
    decide +kernel
  have hliteral : Denotes pair "data:,%02%03%04".toList [2, 3, 4] := .data hparse
  obtain ⟨r, hr, _⟩ := denotes_across.opens (pair_holds _) rfl length_across
  obtain ⟨r', hr', _⟩ := hliteral.opens (pair_holds _) rfl hfit
  refine ⟨r, r', hr, hr', ?_⟩
  exact (open_fully_abstract rfl (pair_holds _) (pair_holds _) length_across hfit
    (by decide +kernel) (by decide +kernel) hr hr').mpr ⟨_, denotes_across, hliteral⟩

/-! ### Replacing one URI by another -/

/-- Where a URI denotes what another one does and mentions no other files, it opens when that
one does, and reads alike. -/
theorem opens_alike (hw : w.Holds R (fun _ => False) u) (hT : Target.usizeBits = 64)
    (hu : (utf8 u).length ≤ isizeMax) (hv : (utf8 v).length ≤ isizeMax)
    (hfile : schemeIs (split u).1 "file".toList = false)
    (hfile' : schemeIs (split v).1 "file".toList = false) (hr : (openBytes w u).result = .ok r)
    (hfiles : ∀ path, Mentions v path → Mentions u path)
    (hsame : ∀ D, Denotes R u D → Denotes R v D) :
    ∃ r', (openBytes w v).result = .ok r' ∧ ∀ calls, askAll r calls = askAll r' calls := by
  obtain ⟨D, hD, hexact⟩ := open_exact hw hT hu hfile hr
  obtain ⟨r', hr', _, hcursor⟩ := (hsame D hD).opens (hw.mono hfiles) hT hv
  exact ⟨r', hr', hexact.askAll_eq (hcursor hfile')⟩

/-- A window of a window reads like one window at the sum of the offsets, which does not
overflow. -/
theorem nested_slices_fuse {a n b m : UInt64}
    (hw : w.Holds R (fun _ => False) (SliceUri.format ⟨b, m, SliceUri.format ⟨a, n, u⟩⟩))
    (hT : Target.usizeBits = 64) (hu : u ≠ [])
    (hfit : (utf8 (SliceUri.format ⟨b, m, SliceUri.format ⟨a, n, u⟩⟩)).length ≤ isizeMax)
    (hfit' : (utf8 (SliceUri.format ⟨a + b, m, u⟩)).length ≤ isizeMax)
    (hr : (openBytes w (SliceUri.format ⟨b, m, SliceUri.format ⟨a, n, u⟩⟩)).result = .ok r) :
    a.toNat + b.toNat < u64Size ∧
      ∃ r', (openBytes w (SliceUri.format ⟨a + b, m, u⟩)).result = .ok r' ∧
        ∀ calls, askAll r calls = askAll r' calls := by
  obtain ⟨D, hD, _, _, _⟩ := openBytes_reads hw hT hfit hr
  obtain ⟨W, hW, hbm, rfl⟩ := (denotes_slice_format (SliceUri.format_ne_nil _)).mp hD
  obtain ⟨E, hE, han, rfl⟩ := (denotes_slice_format hu).mp hW
  rw [length_window_of_le han] at hbm
  have hfiles (path : Bytes) : Mentions u path →
      Mentions (SliceUri.format ⟨b, m, SliceUri.format ⟨a, n, u⟩⟩) path := fun h =>
    (mentions_slice_format (SliceUri.format_ne_nil _)).mpr ((mentions_slice_format hu).mpr h)
  have hpart : Part (SliceUri.format ⟨a, n, u⟩) u := .inner (x := ⟨a, n, u⟩)
    (SliceUri.parse_format hu)
  have hpart' : Part (SliceUri.format ⟨b, m, SliceUri.format ⟨a, n, u⟩⟩)
      (SliceUri.format ⟨a, n, u⟩) := .inner (x := ⟨b, m, SliceUri.format ⟨a, n, u⟩⟩)
    (SliceUri.parse_format (SliceUri.format_ne_nil _))
  have hinner := hpart.length_utf8_le.trans hpart'.length_utf8_le
  obtain ⟨_, _, hlen, _⟩ := hE.opens (hw.mono hfiles) hT (hinner.trans hfit)
  have hlt : a.toNat + b.toNat < u64Size := by omega
  have hsum : (a + b).toNat = a.toNat + b.toNat := by
    rw [UInt64.toNat_add, Nat.mod_eq_of_lt hlt]
  refine ⟨hlt, opens_alike hw hT hfit hfit' (schemeIs_file_slice (SliceUri.format_ne_nil _))
    (schemeIs_file_slice hu) hr (fun path h => hfiles path ((mentions_slice_format hu).mp h)) ?_⟩
  intro D hD'
  obtain rfl := hD.unique hD'
  rw [window_window E hbm, ← hsum]
  exact (denotes_slice_format hu).mpr ⟨E, hE, by omega, rfl⟩

omit [Target] in
/-- The second byte of a window, as a window of its own. -/
theorem nested_slices_fuse_joined : letI := target64
    ∃ r r', (openBytes pair.world
        (SliceUri.format ⟨1, 1, SliceUri.format ⟨1, 3, joined⟩⟩)).result = .ok r ∧
      (1 : UInt64).toNat + (1 : UInt64).toNat < u64Size ∧
      (openBytes pair.world (SliceUri.format ⟨1 + 1, 1, joined⟩)).result = .ok r' ∧
      ∀ calls, askAll r calls = askAll r' calls := by
  let := target64
  have hjoined : joined ≠ [] := by decide
  have hfit : (utf8 (SliceUri.format ⟨1, 1, SliceUri.format ⟨1, 3, joined⟩⟩)).length ≤
      isizeMax := by
    decide +kernel
  have hwindow : Denotes pair (SliceUri.format ⟨1, 3, joined⟩) [2, 3, 4] :=
    (denotes_slice_format hjoined).mpr ⟨_, denotes_joined, by decide, rfl⟩
  have hbyte : Denotes pair (SliceUri.format ⟨1, 1, SliceUri.format ⟨1, 3, joined⟩⟩) [3] :=
    (denotes_slice_format (SliceUri.format_ne_nil _)).mpr ⟨_, hwindow, by decide, rfl⟩
  obtain ⟨r, hr, _⟩ := hbyte.opens (pair_holds _) rfl hfit
  obtain ⟨hlt, r', hr', halike⟩ := nested_slices_fuse (pair_holds _) rfl hjoined hfit
    (by decide +kernel) hr
  exact ⟨r, r', hr, hlt, hr', halike⟩

/-- Any window that opens can be read in consecutive pieces: their concatenation opens too,
and reads like it. -/
theorem windows_rejoin {a : Nat} {ns : List Nat}
    (hw : w.Holds R (fun _ => False) (SliceUri.format ⟨.ofNat a, .ofNat ns.sum, u⟩))
    (hT : Target.usizeBits = 64) (hu : u ≠ []) (hbar : '|' ∉ u) (hns : ns ≠ [])
    (hlt : a + ns.sum < u64Size)
    (hfit : (utf8 (SliceUri.format ⟨.ofNat a, .ofNat ns.sum, u⟩)).length ≤ isizeMax)
    (hfit' : (utf8 (ConcatUri.format ⟨windowsFrom u a ns⟩)).length ≤ isizeMax)
    (hr : (openBytes w (SliceUri.format ⟨.ofNat a, .ofNat ns.sum, u⟩)).result = .ok r) :
    ∃ r', (openBytes w (ConcatUri.format ⟨windowsFrom u a ns⟩)).result = .ok r' ∧
      ∀ calls, askAll r calls = askAll r' calls := by
  have hall : ConcatUri.WellFormed (windowsFrom u a ns) := wellFormed_windowsFrom hns hbar
  have hfile : schemeIs (split (ConcatUri.format ⟨windowsFrom u a ns⟩)).1 "file".toList = false :=
    schemeIs_unique (ConcatUri.parse_iff.mp hall.parse_format).1 (by decide)
  refine opens_alike hw hT hfit hfit' (schemeIs_file_slice hu) hfile hr (fun path h => ?_) ?_
  · obtain ⟨seg, hseg, hpath⟩ := (mentions_concat_format hall).mp h
    obtain ⟨b, n, rfl⟩ := mem_windowsFrom hseg
    exact (mentions_slice_format hu).mpr ((mentions_slice_format hu).mp hpath)
  intro D hD
  obtain ⟨E, hE, hle, rfl⟩ := (denotes_slice_format hu).mp hD
  have hpart : Part (SliceUri.format ⟨.ofNat a, .ofNat ns.sum, u⟩) u :=
    .inner (x := ⟨.ofNat a, .ofNat ns.sum, u⟩) (SliceUri.parse_format hu)
  obtain ⟨_, _, hlen, _⟩ := hE.opens (hw.mono fun _ => hpart.mentions) hT
    (hpart.length_utf8_le.trans hfit)
  rw [toNat_ofNat_of_lt (by omega), toNat_ofNat_of_lt (by omega)] at hle ⊢
  obtain ⟨Ds, hDs, hjoin⟩ := denotes_windowsFrom hu hE hlen hle
  refine (denotes_concat_format hall).mpr ⟨Ds, hDs, ?_, hjoin⟩
  rw [hjoin, length_window_of_le hle]
  omega

omit [Target] in
/-- A file in two pieces. -/
theorem windows_rejoin_file : letI := target64
    ∃ r r', (openBytes pair.world (SliceUri.format
        ⟨.ofNat 0, .ofNat [1, 2].sum, "file:///a".toList⟩)).result = .ok r ∧
      (openBytes pair.world (ConcatUri.format
        ⟨windowsFrom "file:///a".toList 0 [1, 2]⟩)).result = .ok r' ∧
      ∀ calls, askAll r calls = askAll r' calls := by
  let := target64
  have hu : "file:///a".toList ≠ [] := by decide
  have hfit : (utf8 (SliceUri.format
      ⟨.ofNat 0, .ofNat [1, 2].sum, "file:///a".toList⟩)).length ≤ isizeMax := by
    decide +kernel
  have hslice := (denotes_slice_format (a := .ofNat 0) (n := .ofNat [1, 2].sum) hu).mpr
    ⟨_, denotes_file, by decide, rfl⟩
  obtain ⟨r, hr, _⟩ := hslice.opens (pair_holds _) rfl hfit
  obtain ⟨r', hr', halike⟩ := windows_rejoin (pair_holds _) rfl hu (by decide) (by decide)
    (by decide) hfit (by decide +kernel) hr
  exact ⟨r, r', hr, hr', halike⟩

end

end OxideSource
