import OxideSource.Buffered.Content

/-!
# A source that breaks

A concrete inner source over fixed bytes. From a position on its reads fail, and past a
limit its seeks do. It serves its bytes with these faults, so what holds over every
serving source can be run on it.
-/

namespace OxideSource.BufferedSource

/-- A source over fixed bytes whose reads may fail from a position on, and whose seeks may
fail past a limit. -/
structure Brittle where
  bytes : Bytes
  pos : Nat
  failsFrom : Option Nat
  seekLimit : Option Nat

namespace Brittle

/-- The error of the failing reads and seeks. -/
def lost : IoError := ⟨.other, ["connection lost"]⟩

/-- Deliver bytes up to the position from which reads fail. -/
def read (b : Brittle) (want : Nat) : IoResult Bytes × Brittle :=
  match b.failsFrom with
  | some k =>
      if k ≤ b.pos then (.error lost, b)
      else
        let bs := (b.bytes.drop b.pos).take (min want (k - b.pos))
        (.ok bs, { b with pos := b.pos + bs.length })
  | none =>
      let bs := (b.bytes.drop b.pos).take want
      (.ok bs, { b with pos := b.pos + bs.length })

/-- Seek as a cursor does, up to the limit. -/
def seek (b : Brittle) (f : SeekFrom) : IoResult Nat × Brittle :=
  match seekTarget b.bytes.length (some b.pos) f with
  | none => (.error ⟨.invalidInput, []⟩, b)
  | some q =>
      match b.seekLimit with
      | some m => if m < q then (.error lost, b) else (.ok q, { b with pos := q })
      | none => (.ok q, { b with pos := q })

instance : ReadSeek Brittle := ⟨read, seek⟩

/-- What a read delivers is what stands at its position. -/
theorem read_prefix {b : Brittle} {want m : Nat} (hm : m ≤ want) (hpos : want ≠ 0 → m ≠ 0) :
    let bs := (b.bytes.drop b.pos).take m
    bs <+: b.bytes.drop b.pos ∧ bs.length ≤ want ∧
      (bs = [] → want = 0 ∨ b.bytes.length ≤ b.pos) := by
  refine ⟨List.take_prefix _ _, ?_, ?_⟩
  · rw [List.length_take]
    omega
  · intro h
    rw [List.take_eq_nil_iff, List.drop_eq_nil_iff] at h
    omega

/-- The same source, at the given cursor if that is known. -/
def At (b s : Brittle) (c : Option Nat) : Prop :=
  (s.bytes = b.bytes ∧ s.failsFrom = b.failsFrom ∧ s.seekLimit = b.seekLimit) ∧
    ∀ p, c = some p → s.pos = p

/-- A brittle source serves its bytes, with the faults it may show. -/
theorem serves {F : Faults} (b : Brittle) (hreads : ∀ k, b.failsFrom = some k → F.reads lost)
    (hseeks : ∀ m q, b.seekLimit = some m → m < q → F.seeks q lost) :
    Serves F b.bytes b (some b.pos) := by
  refine ⟨b.At, ⟨?_, ?_⟩, ⟨rfl, rfl, rfl⟩, fun p hp => Option.some.inj hp⟩
  · rintro s p ⟨⟨hb, hf, hl⟩, hp⟩ n
    obtain rfl := hp p rfl
    change ∃ c, ReadOutcome F b.bytes s.pos n (s.read n).1 c ∧ b.At (s.read n).2 c
    rw [← hb]
    unfold Brittle.read
    cases hk : s.failsFrom with
    | none =>
        obtain ⟨hpre, hlen, hend⟩ := read_prefix (b := s) (Nat.le_refl n) id
        exact ⟨_, .ok hpre hlen hend, ⟨hb, hk.symm.trans hf, hl⟩, fun p hp => Option.some.inj hp⟩
    | some k =>
        by_cases hle : k ≤ s.pos
        · simp only [hle, ite_true]
          exact ⟨_, .fails (hreads k (hf.symm.trans hk)), ⟨hb, hf, hl⟩, nofun⟩
        · simp only [hle, ite_false]
          obtain ⟨hpre, hlen, hend⟩ := read_prefix (b := s) (m := min n (k - s.pos))
            (Nat.min_le_left n _) (by omega)
          exact ⟨_, .ok hpre hlen hend, ⟨hb, hk.symm.trans hf, hl⟩,
            fun p hp => Option.some.inj hp⟩
  · rintro s c f q ⟨⟨hb, hf, hl⟩, hp⟩ ht
    have ht' : seekTarget s.bytes.length (some s.pos) f = some q := by
      rw [hb]
      cases f with
      | fromStart n => exact ht
      | fromEnd d => exact ht
      | fromCurrent d =>
          cases c with
          | none => cases ht
          | some p =>
              rw [hp p rfl]
              exact ht
    change ∃ c, SeekOutcome F q (s.seek f).1 c ∧ b.At (s.seek f).2 c
    unfold Brittle.seek
    rw [ht']
    cases hm : s.seekLimit with
    | none => exact ⟨_, .ok, ⟨hb, hf, hm.symm.trans hl⟩, fun p hp => Option.some.inj hp⟩
    | some m =>
        by_cases hlt : m < q
        · simp only [hlt, ite_true]
          exact ⟨_, .fails (hseeks m q (hl.symm.trans hm) hlt), ⟨hb, hf, hl⟩, nofun⟩
        · simp only [hlt, ite_false]
          exact ⟨_, .ok, ⟨hb, hf, hm.symm.trans hl⟩, fun p hp => Option.some.inj hp⟩

/-- The faults of a source whose reads break. -/
def breaks : Faults := ⟨fun _ => False, fun e => e = lost, fun _ _ => False⟩

/-- Its faults follow the convention of `Read`. -/
theorem breaks_conventional : breaks.Conventional :=
  ⟨nofun, fun e he hkind => by subst he; cases hkind⟩

/-- A source whose reads break from position `k` on. -/
theorem breaking (D : Bytes) (k : Nat) : Serves breaks D (mk D 0 (some k) none) (some 0) := by
  apply serves (mk D 0 (some k) none)
  · intro _ _
    rfl
  · intro m q hm
    cases hm

end Brittle

end OxideSource.BufferedSource
