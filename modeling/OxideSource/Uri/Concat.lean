import OxideSource.Uri.Split

/-!
# `concat:` URIs

A list of segments joined by `|`. The split on `|` and the join are inverses because
segments neither hold `|` nor are empty, and the first one does not begin with the
slashes that the scheme splitter strips.
-/

namespace OxideSource

/-- `ConcatUri`. -/
structure ConcatUri where
  segments : List Text
  deriving DecidableEq, Repr

namespace ConcatUri

open Uri

/-- The loop of `ConcatUri::new` over the segments. -/
def checkSegments : List Text → Except Error Unit
  | [] => .ok ()
  | seg :: rest =>
      if seg = [] then .error (.invalid ["concat: URI segment cannot be empty"])
      else if '|' ∈ seg then
        .error (.invalid ["concat: URI segment ", .debug seg, " contains a '|'; a literal '|' ",
          "inside a segment cannot round-trip because the grammar splits on every '|'"])
      else checkSegments rest

/-- `ConcatUri::new`. -/
def new (segments : List Text) : Except Error ConcatUri :=
  match segments with
  | [] => .error (.invalid ["concat: URI requires at least one segment"])
  | first :: _ =>
      match checkSegments segments with
      | .error e => .error e
      | .ok () =>
          if startsWithSlashes first then
            .error (.invalid ["concat: first segment ", .debug first, " starts with \"//\"; it ",
              "cannot round-trip because the formatted URI's leading '//' reads as the ",
              "authority-style `concat://` spelling"])
          else .ok ⟨segments⟩

/-- `ConcatUri::format`. -/
def format (x : ConcatUri) : Text := "concat:".toList ++ ['|'].intercalate x.segments

/-- `segments`. -/
def splitSegments (rest : Text) : Except Error (List Text) :=
  let parts := rest.splitOn '|'
  if parts.any List.isEmpty then
    .error (.invalid ["concat: URI has an empty segment: ", .debug rest])
  else .ok parts

/-- `concat::parse`. -/
def parse (uri : Text) : Except Error ConcatUri :=
  let (scheme, rest) := split uri
  if !schemeIs scheme "concat".toList then
    .error (.invalid ["concat driver invoked on non-concat URI: ", .text uri])
  else if rest = [] then .error (.invalid ["concat: URI requires at least one segment"])
  else
    match splitSegments rest with
    | .error e => .error e
    | .ok segs =>
        let first := segs.headD []
        if startsWithSlashes first then
          .error (.invalid ["concat: first segment ", .debug first, " starts with \"//\" after the ",
            "scheme split; a first segment with leading '//' is ambiguous with the authority-style ",
            "`concat://` spelling and cannot round-trip"])
        else .ok ⟨segs⟩

/-! ### Round trip -/

theorem checkSegments_eq_ok {segs : List Text} :
    checkSegments segs = .ok () ↔ ∀ seg ∈ segs, seg ≠ [] ∧ '|' ∉ seg := by
  induction segs with
  | nil => simp [checkSegments]
  | cons seg segs ih =>
      rw [List.forall_mem_cons, ← ih, checkSegments]
      by_cases hempty : seg = []
      · simp [hempty]
      · by_cases hbar : '|' ∈ seg
        · simp [hempty, hbar]
        · simp [hempty, hbar]

/-- The constructor accepts the non-empty lists of non-empty segments without `|` whose
first does not begin with `//`. -/
theorem new_eq_ok {segs : List Text} {x : ConcatUri} :
    new segs = .ok x ↔ x = ⟨segs⟩ ∧ segs ≠ [] ∧ (∀ seg ∈ segs, seg ≠ [] ∧ '|' ∉ seg) ∧
      startsWithSlashes (segs.headD []) = false := by
  cases segs with
  | nil => simp [new]
  | cons first segs =>
      rw [← checkSegments_eq_ok]
      cases hcheck : checkSegments (first :: segs) with
      | error e => simp [new, hcheck]
      | ok u =>
          cases hslash : startsWithSlashes first with
          | true => simp [new, hcheck, hslash]
          | false => simp [new, hcheck, hslash, eq_comm]

/-- Joined segments begin as the first one does. -/
theorem startsWithSlashes_join {first : Text} (segs : List Text)
    (h : startsWithSlashes first = false) :
    startsWithSlashes (['|'].intercalate (first :: segs)) = false := by
  cases segs with
  | nil => simpa using h
  | cons seg segs =>
      have hne : seg :: segs ≠ [] := List.cons_ne_nil _ _
      rw [List.intercalate_cons_of_ne_nil hne, List.append_assoc]
      exact startsWithSlashes_append _ h (by decide)

/-- The segment lists that text can hold. -/
structure WellFormed (segs : List Text) : Prop where
  nonempty : segs ≠ []
  segments : ∀ seg ∈ segs, seg ≠ [] ∧ '|' ∉ seg
  first : startsWithSlashes (segs.headD []) = false

theorem new_iff_wellFormed {segs : List Text} {x : ConcatUri} :
    new segs = .ok x ↔ x = ⟨segs⟩ ∧ WellFormed segs := by
  rw [new_eq_ok]
  constructor
  · rintro ⟨hx, hne, hsegs, hfirst⟩
    exact ⟨hx, hne, hsegs, hfirst⟩
  · rintro ⟨hx, h⟩
    exact ⟨hx, h.nonempty, h.segments, h.first⟩

theorem WellFormed.startsWithSlashes_join {segs : List Text} (h : WellFormed segs) :
    startsWithSlashes (['|'].intercalate segs) = false := by
  obtain ⟨first, segs, rfl⟩ := List.exists_cons_of_ne_nil h.nonempty
  exact ConcatUri.startsWithSlashes_join segs h.first

/-- Splitting finds the segments that were joined. -/
theorem WellFormed.splitOn_join {segs : List Text} (h : WellFormed segs) :
    (['|'].intercalate segs).splitOn '|' = segs :=
  List.splitOn_intercalate '|' (fun seg hseg => (h.segments seg hseg).2) h.nonempty

theorem WellFormed.join_ne_nil {segs : List Text} (h : WellFormed segs) :
    ['|'].intercalate segs ≠ [] := by
  intro hnil
  have hsplit := h.splitOn_join
  rw [hnil] at hsplit
  obtain rfl : [[]] = segs := hsplit
  exact (h.segments [] (List.mem_singleton_self _)).1 rfl

/-- No part holds the separator it was split at. -/
theorem not_mem_of_mem_splitOn {sep : Char} {rest part : Text}
    (h : part ∈ rest.splitOn sep) : sep ∉ part := by
  induction rest generalizing part with
  | nil =>
      obtain rfl : part = [] := by simpa using h
      exact List.not_mem_nil
  | cons c rest ih =>
      rw [List.splitOn_cons_eq_if_modifyHead] at h
      split at h
      · rcases List.mem_cons.mp h with rfl | h
        · exact List.not_mem_nil
        · exact ih h
      · rename_i hc
        obtain ⟨first, parts, hparts⟩ := List.exists_cons_of_ne_nil (List.splitOn_ne_nil sep rest)
        rw [hparts, List.modifyHead_cons] at h
        rcases List.mem_cons.mp h with rfl | h
        · have hfirst := ih (hparts ▸ List.mem_cons_self)
          exact List.mem_cons.not.mpr (not_or.mpr ⟨fun he => hc (beq_iff_eq.mpr he.symm), hfirst⟩)
        · exact ih (hparts ▸ List.mem_cons_of_mem _ h)

theorem splitSegments_eq_ok {rest : Text} {segs : List Text} :
    splitSegments rest = .ok segs ↔ rest.splitOn '|' = segs ∧ ∀ seg ∈ segs, seg ≠ [] := by
  unfold splitSegments
  dsimp only
  cases hempty : (rest.splitOn '|').any List.isEmpty with
  | true =>
      simp only [ite_true, reduceCtorEq, false_iff]
      rintro ⟨rfl, hne⟩
      obtain ⟨seg, hseg, hnil⟩ := List.any_eq_true.mp hempty
      exact hne seg hseg (List.isEmpty_iff.mp hnil)
  | false =>
      simp only [Bool.false_eq_true, ite_false, Except.ok.injEq]
      constructor
      · rintro rfl
        refine ⟨rfl, fun seg hseg hnil => ?_⟩
        exact List.any_eq_false.mp hempty seg hseg (List.isEmpty_iff.mpr hnil)
      · exact And.left

/-- The parser accepts the joins of well-formed lists under its scheme. -/
theorem parse_iff {uri : Text} {x : ConcatUri} : parse uri = .ok x ↔
    schemeIs (split uri).1 "concat".toList = true ∧
      (split uri).2 = ['|'].intercalate x.segments ∧ WellFormed x.segments := by
  cases hscheme : schemeIs (split uri).1 "concat".toList with
  | false =>
      simp only [parse, hscheme, Bool.not_false, ite_true, reduceCtorEq, Bool.false_eq_true,
        false_and]
  | true =>
      simp only [parse, hscheme, Bool.not_true, Bool.false_eq_true, ite_false, true_and]
      constructor
      · intro h
        split at h
        · cases h
        split at h
        · cases h
        rename_i segs hsegs
        obtain ⟨rfl, hne⟩ := splitSegments_eq_ok.mp hsegs
        split at h
        · cases h
        rename_i hslash
        cases h
        refine ⟨(List.intercalate_splitOn '|').symm, List.splitOn_ne_nil _ _, ?_,
          (Bool.not_eq_true _).mp hslash⟩
        intro seg hseg
        exact ⟨hne seg hseg, not_mem_of_mem_splitOn hseg⟩
      · rintro ⟨hrest, h⟩
        have hsegs : splitSegments (['|'].intercalate x.segments) = .ok x.segments :=
          splitSegments_eq_ok.mpr ⟨h.splitOn_join, fun seg hseg => (h.segments seg hseg).1⟩
        simp only [hrest, if_neg h.join_ne_nil, hsegs, h.first, Bool.false_eq_true, ite_false]

/-- The texts that are accepted: the scheme in any case, the slashes of the
authority-style spelling or none, and the joined segments. -/
theorem parse_iff_spelled {uri : Text} {segs : List Text} : parse uri = .ok ⟨segs⟩ ↔
    ∃ scheme slashes, Spelled "concat".toList scheme slashes ∧
      uri = scheme ++ ':' :: (slashes ++ ['|'].intercalate segs) ∧ WellFormed segs := by
  rw [parse_iff]
  constructor
  · rintro ⟨hscheme, hrest, h⟩
    obtain ⟨scheme, slashes, hspelled, huri⟩ := (split_iff (by decide) (by decide) (by decide)
      h.startsWithSlashes_join uri).mp ⟨hscheme, hrest⟩
    exact ⟨scheme, slashes, hspelled, huri, h⟩
  · rintro ⟨scheme, slashes, hspelled, huri, h⟩
    obtain ⟨hscheme, hrest⟩ := (split_iff (by decide) (by decide) (by decide)
      h.startsWithSlashes_join uri).mpr ⟨scheme, slashes, hspelled, huri⟩
    exact ⟨hscheme, hrest, h⟩

/-- A well-formed value is parsed back from its text. -/
theorem WellFormed.parse_format {segs : List Text} (h : WellFormed segs) :
    parse (format ⟨segs⟩) = .ok ⟨segs⟩ :=
  parse_iff_spelled.mpr ⟨_, _, .canonical _, rfl, h⟩

/-- `parse (format x) = x` for every value that the constructor accepts. -/
theorem parse_format {segs : List Text} {x : ConcatUri} (h : new segs = .ok x) :
    parse x.format = .ok x := by
  obtain ⟨rfl, hsegs⟩ := new_iff_wellFormed.mp h
  exact hsegs.parse_format

/-- The parser accepts its grammar and nothing else, the constructor the lists that
survive formatting, and a URI in canonical form is reproduced. -/
theorem concat_grammar :
    (∀ uri segs, parse uri = .ok ⟨segs⟩ ↔
      ∃ scheme slashes, Spelled "concat".toList scheme slashes ∧
        uri = scheme ++ ':' :: (slashes ++ ['|'].intercalate segs) ∧ WellFormed segs) ∧
    (∀ segs, (∃ x, new segs = .ok x) ↔ parse (format ⟨segs⟩) = .ok ⟨segs⟩) ∧
    (∀ uri x, parse uri = .ok x → parse x.format = .ok x) ∧
    (∀ segs x, new segs = .ok x → parse x.format = .ok x) ∧
    ∀ uri x scheme rest, parse uri = .ok x → uri = scheme ++ ':' :: rest → ':' ∉ scheme →
      scheme.map Char.toLower = scheme → startsWithSlashes rest = false → x.format = uri := by
  refine ⟨fun _ _ => parse_iff_spelled, ?_, ?_, fun _ _ => parse_format, ?_⟩
  · intro segs
    constructor
    · rintro ⟨x, h⟩
      exact (new_iff_wellFormed.mp h).2.parse_format
    · intro h
      exact ⟨_, new_iff_wellFormed.mpr ⟨rfl, (parse_iff.mp h).2.2⟩⟩
  · intro uri x h
    exact (parse_iff.mp h).2.2.parse_format
  · intro uri x scheme rest h huri hcolon hlower hslash
    obtain ⟨scheme', slashes, hspelled, huri', hsegs⟩ := parse_iff_spelled.mp h
    obtain ⟨rfl, rfl⟩ :=
      hspelled.scheme_unique (by decide) (by decide) hcolon (huri'.symm.trans huri)
    have hempty : slashes = [] := by
      rcases hspelled.slashes with rfl | rfl
      · rfl
      · cases hslash
    rw [huri']
    exact (hspelled.canonical_iff (by decide) _).mpr ⟨hlower, hempty⟩

/-- The joined segments are no longer than the formatted URI. -/
theorem length_join_le (x : ConcatUri) :
    (['|'].intercalate x.segments).length ≤ x.format.length :=
  (List.suffix_append _ _).length_le

/-! ### What is parsed -/

/-- A segment is no longer than the join of all. -/
theorem length_le_join {segs : List Text} {seg : Text} (h : seg ∈ segs) :
    seg.length ≤ (['|'].intercalate segs).length := by
  induction segs with
  | nil => cases h
  | cons first segs ih =>
      cases segs with
      | nil =>
          obtain rfl := List.mem_singleton.mp h
          simp
      | cons second segs =>
          rw [List.intercalate_cons_of_ne_nil (List.cons_ne_nil _ _)]
          simp only [List.length_append]
          rcases List.mem_cons.mp h with rfl | h
          · omega
          · have hle := ih h
            omega

/-- Every segment is shorter than the URI. -/
theorem length_segment_lt {uri : Text} {x : ConcatUri} (h : parse uri = .ok x) {seg : Text}
    (hseg : seg ∈ x.segments) : seg.length < uri.length := by
  obtain ⟨hscheme, hjoin, _⟩ := parse_iff.mp h
  have hlt := length_split_lt (schemeIs_unique hscheme (by decide))
  rw [hjoin] at hlt
  exact (length_le_join hseg).trans_lt hlt

end ConcatUri

end OxideSource
