import Mathlib.Logic.Relation
import OxideSource.Uri.Open

/-!
# Files behind nested references

A composite URI opens what its parts open, and its parts are dispatched on their own.
Every file that is opened on the way is therefore opened by `open_file`, for a
reference that is reached from the URI through inner URIs and segments.
-/

namespace OxideSource

open Uri

section

variable {α β : Type} {path : Bytes}

/-- A sequence opens what its first part opens, and after a success of it what the rest
opens for its value. -/
theorem Opening.mem_opened_bind {m : Opening α} {f : α → Opening β} :
    path ∈ (m >>= f).opened ↔ path ∈ m.opened ∨ ∃ a, m.result = .ok a ∧ path ∈ (f a).opened := by
  cases h : m.result with
  | ok a => simp [bind_of_ok h]
  | error e => simp [bind_of_error h]

end

/-- `ref` is the inner URI or a segment of `uri`. -/
inductive Part (uri : Text) : Text → Prop where
  | inner {x : SliceUri} (h : SliceUri.parse uri = .ok x) : Part uri x.inner
  | segment {x : ConcatUri} (h : ConcatUri.parse uri = .ok x) {seg : Text}
      (hseg : seg ∈ x.segments) : Part uri seg

/-- The URI has the scheme `concat` or `slice`. -/
def Composite (uri : Text) : Prop :=
  schemeIs (split uri).1 "concat".toList = true ∨ schemeIs (split uri).1 "slice".toList = true

instance (uri : Text) : Decidable (Composite uri) := inferInstanceAs (Decidable (_ ∨ _))

/-- Only composite URIs have parts. -/
theorem Part.composite {uri ref : Text} (h : Part uri ref) : Composite uri := by
  cases h with
  | inner h => exact .inr (SliceUri.parse_eq_ok.mp h).1
  | segment h _ => exact .inl (ConcatUri.parse_iff.mp h).1

/-- Parts are shorter than the URI they stand in. -/
theorem Part.length_lt {uri ref : Text} (h : Part uri ref) : ref.length < uri.length := by
  cases h with
  | inner h => exact SliceUri.length_inner_lt h
  | segment h hseg => exact ConcatUri.length_segment_lt h hseg

section Drivers

variable {F : Type} {w : World F} {path : Bytes} {uri : Text}

/-- The `file` driver opens files for `file` references only. -/
theorem schemeIs_of_opened (h : path ∈ (openFile w uri).opened) :
    schemeIs (split uri).1 "file".toList = true := by
  simp only [openFile] at h
  split at h
  · exact absurd h List.not_mem_nil
  · rename_i hscheme
    rw [Bool.not_eq_true', Bool.not_eq_false] at hscheme
    exact hscheme

/-- The `mem` driver opens no file. -/
theorem opened_openMem (w : World F) (uri : Text) : (openMem w uri).opened = [] := rfl

/-- The `data` driver opens no file. -/
theorem not_mem_opened_openData : path ∉ (openData uri : Opening (Reader F)).opened := by
  intro h
  rcases Opening.mem_opened_bind.mp h with h | ⟨parsed, _, h⟩
  · exact List.not_mem_nil h
  · exact List.not_mem_nil h

variable [Target] [ReadSeek F] {dispatch : Text → Opening (Reader F)}

/-- A slice opens what its inner URI opens. -/
theorem opened_openSlice (h : path ∈ (openSlice dispatch uri).opened) :
    ∃ ref, Part uri ref ∧ path ∈ (dispatch ref).opened := by
  rcases Opening.mem_opened_bind.mp h with h | ⟨x, hx, h⟩
  · exact absurd h List.not_mem_nil
  · rcases Opening.mem_opened_bind.mp h with h | ⟨inner, _, h⟩
    · exact ⟨x.inner, .inner hx, h⟩
    · rcases Opening.mem_opened_bind.mp h with h | ⟨sub, _, h⟩
      · exact absurd h List.not_mem_nil
      · exact absurd h List.not_mem_nil

omit [Target] [ReadSeek F] in
/-- The loop over the segments opens what one of them opens. -/
theorem opened_openSegments {segs : List Text} (h : path ∈ (openSegments dispatch segs).opened) :
    ∃ seg ∈ segs, path ∈ (dispatch seg).opened := by
  induction segs with
  | nil => exact absurd h List.not_mem_nil
  | cons seg segs ih =>
      rcases Opening.mem_opened_bind.mp h with h | ⟨part, _, h⟩
      · unfold openSegment at h
        split at h
        · exact absurd h List.not_mem_nil
        · exact ⟨seg, List.mem_cons_self, h⟩
      · rcases Opening.mem_opened_bind.mp h with h | ⟨parts, _, h⟩
        · obtain ⟨seg', hmem, hopened⟩ := ih h
          exact ⟨seg', List.mem_cons_of_mem _ hmem, hopened⟩
        · exact absurd h List.not_mem_nil

/-- A concatenation opens what its segments open. -/
theorem opened_openConcat (h : path ∈ (openConcat dispatch uri).opened) :
    ∃ ref, Part uri ref ∧ path ∈ (dispatch ref).opened := by
  rcases Opening.mem_opened_bind.mp h with h | ⟨x, hx, h⟩
  · exact absurd h List.not_mem_nil
  · rcases Opening.mem_opened_bind.mp h with h | ⟨parts, _, h⟩
    · obtain ⟨seg, hseg, hopened⟩ := opened_openSegments h
      exact ⟨seg, .segment hx hseg, hopened⟩
    · rcases Opening.mem_opened_bind.mp h with h | ⟨joined, _, h⟩
      · exact absurd h List.not_mem_nil
      · exact absurd h List.not_mem_nil

/-- The dispatcher opens a file for the URI itself or for one of its parts. -/
theorem opened_openScheme (h : path ∈ (openScheme w dispatch uri).opened) :
    path ∈ (openFile w uri).opened ∨ ∃ ref, Part uri ref ∧ path ∈ (dispatch ref).opened := by
  simp only [openScheme] at h
  split at h
  · exact .inl h
  · split at h
    · rw [opened_openMem] at h
      exact absurd h List.not_mem_nil
    · split at h
      · exact absurd h not_mem_opened_openData
      · split at h
        · exact .inr (opened_openSlice h)
        · split at h
          · exact .inr (opened_openConcat h)
          · exact absurd h List.not_mem_nil

/-- Every file is opened for a reference reached through parts. -/
theorem opened_openBytes (h : path ∈ (openBytes w uri).opened) :
    ∃ ref, Relation.ReflTransGen Part uri ref ∧ path ∈ (openFile w ref).opened := by
  induction hn : uri.length using Nat.strong_induction_on generalizing uri with
  | _ n ih =>
      rw [openBytes_eq] at h
      rcases opened_openScheme h with hfile | ⟨part, hpart, hopened⟩
      · exact ⟨uri, .refl, hfile⟩
      · obtain ⟨ref, hreach, hfile⟩ := ih part.length (hn ▸ hpart.length_lt) hopened rfl
        exact ⟨ref, .head hpart hreach, hfile⟩

/-- For a composite URI the reference is a proper one. -/
theorem opened_openBytes_composite (hc : Composite uri) (h : path ∈ (openBytes w uri).opened) :
    ∃ ref, Relation.TransGen Part uri ref ∧ path ∈ (openFile w ref).opened := by
  obtain ⟨ref, hreach, hfile⟩ := opened_openBytes h
  rcases Relation.reflTransGen_iff_eq_or_transGen.mp hreach with rfl | hnested
  · have hscheme := schemeIs_of_opened hfile
    rcases hc with hconcat | hslice
    · rw [schemeIs_unique hscheme (b := "concat".toList) (by decide)] at hconcat
      cases hconcat
    · rw [schemeIs_unique hscheme (b := "slice".toList) (by decide)] at hslice
      cases hslice
  · exact ⟨ref, hnested, hfile⟩

end Drivers

end OxideSource
