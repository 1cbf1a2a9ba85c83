import OxideSource.Uri.Open

/-!
# Compositions and their meaning

A composition is a tree of windows and concatenations over inline literals. It is
written as one flat URI in which three grammars are nested, and it denotes a byte
string that no grammar takes part in. Opening the text succeeds exactly when the
tree has a meaning, and the reader serves that meaning.
-/

namespace OxideSource

open Uri

/-- A literal that the constructor accepts. -/
abbrev Literal : Type := { x : DataUri // DataUri.new x.mediatype x.base64 x.data = .ok x }

/-- A tree of windows and concatenations over literals. -/
inductive Composition where
  | leaf (x : Literal)
  | slice (offset length : UInt64) (inner : Composition)
  | concat (parts : List Composition)

namespace Composition

mutual

/-- The URI of a composition, by the formatters of its nodes. -/
def format : Composition → Text
  | .leaf x => x.val.format
  | .slice offset length t => SliceUri.format ⟨offset, length, format t⟩
  | .concat ts => ConcatUri.format ⟨formats ts⟩

/-- The URI of each composition of a list. -/
def formats : List Composition → List Text
  | [] => []
  | t :: ts => format t :: formats ts

end

mutual

/-- The bytes a composition denotes, when every window lies inside its inner meaning. -/
def meaning : Composition → Option Bytes
  | .leaf x => some x.val.data
  | .slice offset length t =>
      match meaning t with
      | none => none
      | some m =>
          if offset.toNat + length.toNat ≤ m.length then some (window m offset.toNat length.toNat)
          else none
  | .concat ts => (meanings ts).map List.flatten

/-- The bytes that each composition of a list denotes. -/
def meanings : List Composition → Option (List Bytes)
  | [] => some []
  | t :: ts =>
      match meaning t, meanings ts with
      | some m, some ms => some (m :: ms)
      | _, _ => none

end

/-- The root is a concatenation. -/
def isConcat : Composition → Bool
  | .concat _ => true
  | _ => false

mutual

/-- A concatenation has parts, none of them a concatenation or written with a `|`. -/
def Admissible : Composition → Prop
  | .leaf _ => True
  | .slice _ _ t => Admissible t
  | .concat ts => ts ≠ [] ∧ AllAdmissible ts

/-- Every composition of a list is an admissible part. -/
def AllAdmissible : List Composition → Prop
  | [] => True
  | t :: ts => (Admissible t ∧ t.isConcat = false ∧ '|' ∉ format t) ∧ AllAdmissible ts

end

/-! ### The text -/

/-- The scheme that a composition is written with. -/
def scheme : Composition → Text
  | .leaf _ => "data".toList
  | .slice _ _ _ => "slice".toList
  | .concat _ => "concat".toList

/-- Every URI of a composition begins with its scheme and a colon. -/
theorem format_eq (t : Composition) : ∃ rest, t.format = t.scheme ++ ':' :: rest := by
  cases t with
  | leaf x => exact ⟨_, List.append_assoc "data:".toList _ _⟩
  | slice offset length t => exact ⟨_, List.append_assoc "slice:".toList _ _⟩
  | concat ts => exact ⟨_, rfl⟩

theorem format_ne_nil (t : Composition) : t.format ≠ [] := by
  obtain ⟨rest, h⟩ := t.format_eq
  rw [h]
  simp

/-- A URI of a composition does not begin with slashes. -/
theorem startsWithSlashes_format (t : Composition) : startsWithSlashes t.format = false := by
  obtain ⟨rest, h⟩ := t.format_eq
  rw [h]
  cases t <;> rfl

/-- The dispatcher sees the scheme of the root. -/
theorem split_format (t : Composition) : (split t.format).1 = t.scheme := by
  obtain ⟨rest, h⟩ := t.format_eq
  have hvalid : ValidScheme t.scheme := by
    cases t with
    | leaf x => exact (by decide : ValidScheme "data".toList)
    | slice offset length t => exact (by decide : ValidScheme "slice".toList)
    | concat ts => exact (by decide : ValidScheme "concat".toList)
  rw [h, split_of_scheme _ hvalid]

/-- The parts of an admissible concatenation are accepted as its segments. -/
theorem new_formats {ts : List Composition} (hne : ts ≠ []) (h : AllAdmissible ts) :
    ConcatUri.new (formats ts) = .ok ⟨formats ts⟩ := by
  have hbar : ∀ seg ∈ formats ts, seg ≠ [] ∧ '|' ∉ seg := by
    clear hne
    induction ts with
    | nil => exact nofun
    | cons t ts ih =>
        rw [formats, List.forall_mem_cons]
        exact ⟨⟨t.format_ne_nil, h.1.2.2⟩, ih h.2⟩
  obtain ⟨t, ts, rfl⟩ := List.exists_cons_of_ne_nil hne
  exact ConcatUri.new_eq_ok.mpr ⟨rfl, List.cons_ne_nil _ _, hbar, t.startsWithSlashes_format⟩

/-! ### A meaning is no longer than its text -/

mutual

theorem length_meaning_le : ∀ {t : Composition} {m : Bytes}, meaning t = some m →
    m.length ≤ (format t).length
  | .leaf x, m, h => by
      obtain rfl := Option.some.inj h
      exact x.val.length_data_le
  | .slice offset length t, m, h => by
      rw [meaning] at h
      split at h
      · cases h
      · rename_i inner hinner
        split at h
        · cases h
          have hwin : (window inner offset.toNat length.toNat).length ≤ inner.length := by
            rw [length_window]
            omega
          calc (window inner offset.toNat length.toNat).length
            _ ≤ inner.length := hwin
            _ ≤ (format t).length := length_meaning_le hinner
            _ ≤ (SliceUri.format ⟨offset, length, format t⟩).length :=
                SliceUri.length_inner_le ⟨offset, length, format t⟩
            _ = (format (.slice offset length t)).length := by rw [format]
        · cases h
  | .concat ts, m, h => by
      rw [meaning] at h
      obtain ⟨ms, hms, rfl⟩ := Option.map_eq_some_iff.mp h
      calc ms.flatten.length
        _ ≤ (['|'].intercalate (formats ts)).length := length_meanings_le hms
        _ ≤ (ConcatUri.format ⟨formats ts⟩).length := ConcatUri.length_join_le ⟨formats ts⟩
        _ = (format (.concat ts)).length := by rw [format]

theorem length_meanings_le : ∀ {ts : List Composition} {ms : List Bytes},
    meanings ts = some ms → ms.flatten.length ≤ (['|'].intercalate (formats ts)).length
  | [], ms, h => by
      obtain rfl := Option.some.inj h
      exact Nat.le_refl _
  | t :: ts, ms, h => by
      rw [meanings] at h
      split at h
      · rename_i m ms' hm hms
        cases h
        have hhead := length_meaning_le hm
        have htail := length_meanings_le hms
        cases ts with
        | nil =>
            obtain rfl := Option.some.inj hms
            simpa [formats] using hhead
        | cons s ts =>
            have hne : formats (s :: ts) ≠ [] := List.cons_ne_nil _ _
            rw [formats, List.intercalate_cons_of_ne_nil hne]
            simp only [List.flatten_cons, List.length_append]
            omega
      · cases h

end

/-! ### Opening -/

section

variable [Target] {F : Type} [ReadSeek F]

/-- An opening yields a cursor over the given bytes, or fails when there are none. -/
def Opens (o : Opening (Reader F)) : Option Bytes → Prop
  | some m => ∃ r, o.result = .ok r ∧ Exact m r 0
  | none => ∃ e, o.result = .error e

/-- A window opens over the inner meaning when it lies inside. -/
theorem opens_slice {dispatch : Text → Opening (Reader F)} {t : Composition}
    (offset length : UInt64) (ht : Opens (dispatch (format t)) (meaning t))
    (hfit : (format t).length ≤ usizeMax) :
    Opens (SliceUri.open dispatch ⟨offset, length, format t⟩)
      (meaning (.slice offset length t)) := by
  have hmax := usizeMax_lt
  rw [meaning]
  cases hm : meaning t with
  | none =>
      rw [hm] at ht
      obtain ⟨e, he⟩ := ht
      exact ⟨e, by rw [SliceUri.open, Opening.bind_of_error he]⟩
  | some m =>
      rw [hm] at ht
      obtain ⟨r, hr, hexact⟩ := ht
      have hlen := (length_meaning_le hm).trans hfit
      have hopen : (SliceUri.open dispatch ⟨offset, length, format t⟩).result =
          (SubSource.new r offset length).map .sub := by
        rw [SliceUri.open, Opening.bind_of_ok hr]
        cases SubSource.new r offset length <;> rfl
      rcases SubSource.new_spec hexact (Nat.two_pow_pos 64) (by omega) offset length with
        ⟨hwin, inner, hnew, hinner⟩ | ⟨hwin, e, hnew⟩
      · have hsub := SubSource.behaves (s := ⟨inner, offset.toNat, length.toNat, 0⟩) hinner.serves
          (by omega) hwin (by dsimp only; omega)
        simp only [if_pos hwin]
        refine ⟨_, hopen.trans (by rw [hnew]; rfl), ?_⟩
        exact (hsub.mono fun _ => Faults.any_transient).relay Reader.relay_sub
      · simp only [if_neg (Nat.not_le.mpr hwin)]
        exact ⟨e, hopen.trans (by rw [hnew]; rfl)⟩

/-- The segments of a list open to cursors over their meanings. -/
def OpensAll (o : Opening (List (Reader F))) : Option (List Bytes) → Prop
  | some ms => ∃ rs, o.result = .ok rs ∧ ConcatSource.Moving (fun _ => False) rs ms
  | none => ∃ e, o.result = .error e

/-- A concatenation opens over the joined meanings of its parts. -/
theorem opens_concat {dispatch : Text → Opening (Reader F)} {ts : List Composition}
    (hts : OpensAll (openSegments dispatch (formats ts)) (meanings ts))
    (hfit : (['|'].intercalate (formats ts)).length ≤ usizeMax) :
    Opens (ConcatUri.open dispatch ⟨formats ts⟩) (meaning (.concat ts)) := by
  have hmax := usizeMax_lt
  rw [meaning]
  cases hms : meanings ts with
  | none =>
      rw [hms] at hts
      obtain ⟨e, he⟩ := hts
      exact ⟨e, by rw [ConcatUri.open, Opening.bind_of_error he]⟩
  | some ms =>
      rw [hms] at hts
      obtain ⟨rs, hrs, hmoving⟩ := hts
      have hlen := (length_meanings_le hms).trans hfit
      have hopen : (ConcatUri.open dispatch ⟨formats ts⟩).result =
          (ConcatSource.new rs).map .concat := by
        rw [ConcatUri.open, Opening.bind_of_ok hrs]
        cases ConcatSource.new rs <;> rfl
      have hparts : ∀ D ∈ ms, D.length < u64Size := by
        intro D hD
        have hle := (List.sublist_flatten_of_mem hD).length_le
        omega
      rcases ConcatSource.new_spec hmoving hparts with
        ⟨_, parts, starts, hnew, hparts, htable⟩ | ⟨hover, _⟩
      · have hjoin := ConcatSource.behaves (s := ⟨parts, starts, 0⟩) htable hparts.serving hlen
        refine ⟨_, hopen.trans (by rw [hnew]; rfl), ?_⟩
        exact (hjoin.mono fun _ => Faults.any_transient).relay Reader.relay_concat
      · omega

variable (w : World F)

mutual

/-- The URI of an admissible composition opens to its meaning. -/
theorem opens_format : ∀ t : Composition, Admissible t → (format t).length ≤ usizeMax →
    Opens (openBytes w (format t)) (meaning t)
  | .leaf x, _, _ => by
      have hscheme : schemeIs (split (format (.leaf x))).1 "data".toList = true := by
        rw [split_format]
        exact eqIgnoreAsciiCase_self _
      have hparse : DataUri.parse (format (.leaf x)) = .ok x.val := DataUri.parse_format x.property
      have hopen : (openBytes w (format (.leaf x))).result = .ok (.cursor (.new x.val.data)) := by
        rw [openBytes_data hscheme, openData, hparse]
        rfl
      exact ⟨_, hopen, (Cursor.behaves _ (.new x.val.data)).relay Reader.relay_cursor⟩
  | .slice offset length t, h, hfit => by
      have hscheme :
          schemeIs (split (format (.slice offset length t))).1 "slice".toList = true := by
        rw [split_format]
        exact eqIgnoreAsciiCase_self _
      have hparse : SliceUri.parse (format (.slice offset length t)) =
          .ok ⟨offset, length, format t⟩ := SliceUri.parse_format t.format_ne_nil
      have hinner := (SliceUri.length_inner_le ⟨offset, length, format t⟩).trans hfit
      rw [openBytes_slice hscheme, openSlice, hparse, Opening.of_ok_bind]
      exact opens_slice offset length (opens_format t h hinner) hinner
  | .concat ts, h, hfit => by
      have hscheme : schemeIs (split (format (.concat ts))).1 "concat".toList = true := by
        rw [split_format]
        exact eqIgnoreAsciiCase_self _
      have hparse : ConcatUri.parse (format (.concat ts)) = .ok ⟨formats ts⟩ :=
        ConcatUri.parse_format (new_formats h.1 h.2)
      have hjoin := (ConcatUri.length_join_le ⟨formats ts⟩).trans hfit
      have hsegs : ∀ seg ∈ formats ts, seg.length ≤ usizeMax := fun seg hseg =>
        (ConcatUri.length_le_join hseg).trans hjoin
      rw [openBytes_concat hscheme, openConcat, hparse, Opening.of_ok_bind]
      exact opens_concat (opens_formats ts h.2 hsegs) hjoin

theorem opens_formats : ∀ ts : List Composition, AllAdmissible ts →
    (∀ seg ∈ formats ts, seg.length ≤ usizeMax) →
    OpensAll (openSegments (openBytes w) (formats ts)) (meanings ts)
  | [], _, _ => ⟨[], rfl, .nil⟩
  | t :: ts, h, hfit => by
      obtain ⟨⟨hadm, hconcat, _⟩, hrest⟩ := h
      obtain ⟨hhead, htail⟩ := List.forall_mem_cons.mp hfit
      have hseg : openSegment (openBytes w) (format t) = openBytes w (format t) := by
        rw [openSegment, split_format, if_neg]
        cases t with
        | leaf x => exact (by decide : ¬ schemeIs "data".toList "concat".toList = true)
        | slice offset length t =>
            exact (by decide : ¬ schemeIs "slice".toList "concat".toList = true)
        | concat ts => cases hconcat
      have ht := opens_format t hadm hhead
      have hts := opens_formats ts hrest htail
      rw [← hseg] at ht
      rw [formats, openSegments, meanings]
      cases hm : meaning t with
      | none =>
          rw [hm] at ht
          obtain ⟨e, he⟩ := ht
          exact ⟨e, by rw [Opening.bind_of_error he]⟩
      | some m =>
          rw [hm] at ht
          obtain ⟨r, hr, hexact⟩ := ht
          rw [Opening.bind_of_ok hr]
          cases hms : meanings ts with
          | none =>
              rw [hms] at hts
              obtain ⟨e, he⟩ := hts
              exact ⟨e, by rw [Opening.bind_of_error he]⟩
          | some ms =>
              rw [hms] at hts
              obtain ⟨rs, hrs, hmoving⟩ := hts
              exact ⟨r :: rs, by rw [Opening.bind_of_ok hrs]; rfl, .cons ⟨0, hexact⟩ hmoving⟩

end

end

end Composition

/-- An admissible composition whose URI fits in a `String`. -/
structure CompositionUri [Target] where
  tree : Composition
  admissible : tree.Admissible
  fits : (utf8 tree.format).length ≤ isizeMax

namespace CompositionUri

section

variable [Target] {F : Type} [ReadSeek F]

/-- Opening the URI of a composition succeeds exactly when every window of the tree
lies inside its inner meaning. What was opened is then a cursor over the meaning, and
reading it to the end yields the meaning, whatever the size of the buffer. -/
theorem open_format (w : World F) (c : CompositionUri) :
    ((∃ r, (openBytes w c.tree.format).result = .ok r) ↔ c.tree.meaning.isSome) ∧
      ∀ r, (openBytes w c.tree.format).result = .ok r → ∃ m, c.tree.meaning = some m ∧
        Exact m r 0 ∧ ∀ size, 0 < size → readToEnd size (m.length + 1) r = some (.ok m) := by
  have hfit : c.tree.format.length ≤ usizeMax :=
    (length_le_utf8 _).trans (c.fits.trans isizeMax_le_usizeMax)
  have hopens := Composition.opens_format w c.tree c.admissible hfit
  cases hm : c.tree.meaning with
  | none =>
      rw [hm] at hopens
      obtain ⟨e, he⟩ := hopens
      simp [he]
  | some m =>
      rw [hm] at hopens
      obtain ⟨r, hr, hexact⟩ := hopens
      refine ⟨⟨fun _ => rfl, fun _ => ⟨r, hr⟩⟩, ?_⟩
      intro r' hr'
      obtain rfl := Except.ok.inj (hr.symm.trans hr')
      refine ⟨m, rfl, hexact, ?_⟩
      intro size hsize
      exact hexact.readToEnd hsize (Nat.lt_succ_self _)

end

/-- A window across the seam of a base64 literal and a percent-encoded one. -/
def spliced : @CompositionUri target64 :=
  letI := target64
  { tree := .slice 1 2 (.concat [.leaf ⟨⟨[], true, [1, 2]⟩, by decide⟩,
      .leaf ⟨⟨"a/b".toList, false, [37]⟩, by decide⟩])
    admissible := by
      refine ⟨List.cons_ne_nil _ _, ⟨trivial, rfl, ?_⟩, ⟨trivial, rfl, ?_⟩, trivial⟩ <;> decide
    fits := by decide +kernel }

theorem open_format_spliced :
    letI := target64
    spliced.tree.format = "slice:1+2!concat:data:;base64,AQI=|data:a/b,%25".toList ∧
      ∃ r, (openBytes (F := Cursor) ⟨fun _ => .error ⟨.notFound, []⟩, fun _ => none⟩
        spliced.tree.format).result = .ok r ∧ readToEnd 1 3 r = some (.ok [2, 37]) := by
  let := target64
  obtain ⟨hopen, hread⟩ := open_format (F := Cursor)
    ⟨fun _ => .error ⟨.notFound, []⟩, fun _ => none⟩ spliced
  have hmeaning : spliced.tree.meaning = some [2, 37] := by decide
  obtain ⟨r, hr⟩ := hopen.mpr (by rw [hmeaning]; rfl)
  obtain ⟨m, hm, _, hall⟩ := hread r hr
  obtain rfl := Option.some.inj (hm.symm.trans hmeaning)
  exact ⟨by decide, r, hr, hall 1 (by decide)⟩

end CompositionUri

end OxideSource
