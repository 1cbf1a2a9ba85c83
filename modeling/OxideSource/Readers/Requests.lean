import OxideSource.Readers.Concat

/-!
# What composite readers ask for

A window and a concatenation pass on a read for the smaller of the caller's buffer and
what remains. The remainder is a `u64` that is narrowed to `usize` first. A recording
reader keeps the counts it is asked for, so that the requests are part of the result.
-/

namespace OxideSource

/-- A 32-bit target. -/
@[reducible] def target32 : Target := ⟨32, .inl rfl⟩

/-- A reader that keeps the counts of the reads it was asked for. -/
structure Recorder (ρ : Type) where
  inner : ρ
  asked : List Nat

variable {ρ : Type} [ReadSeek ρ]

namespace Recorder

instance : ReadSeek (Recorder ρ) where
  read r n := (ReadSeek.read r.inner n).map id fun inner => ⟨inner, r.asked ++ [n]⟩
  seek r f := (ReadSeek.seek r.inner f).map id fun inner => ⟨inner, r.asked⟩

/-- A reader that was not asked for anything yet. -/
def new (inner : ρ) : Recorder ρ := ⟨inner, []⟩

@[simp] theorem asked_read (r : Recorder ρ) (n : Nat) :
    (ReadSeek.read r n).2.asked = r.asked ++ [n] := rfl

@[simp] theorem asked_seek (r : Recorder ρ) (f : SeekFrom) :
    (ReadSeek.seek r f).2.asked = r.asked := rfl

/-- A new recorder that is repositioned has not been asked for anything. -/
theorem asked_of_seek {inner : ρ} {r : Recorder ρ} {f : SeekFrom} {res : IoResult Nat}
    (h : ReadSeek.seek (new inner) f = (res, r)) : r.asked = [] := by
  have hasked := asked_seek (new inner) f
  rwa [h] at hasked

/-- A new recorder that is repositioned and read has been asked once. -/
theorem asked_of_read {inner : ρ} {r₁ r₂ : Recorder ρ} {f : SeekFrom} {n : Nat}
    {q : IoResult Nat} {res : IoResult Bytes} (hseek : ReadSeek.seek (new inner) f = (q, r₁))
    (hread : ReadSeek.read r₁ n = (res, r₂)) : r₂.asked = [n] := by
  have hasked := asked_read r₁ n
  rwa [hread, asked_of_seek hseek] at hasked

omit [ReadSeek ρ] in
/-- A recorder found among new ones is new. -/
theorem exists_of_getElem?_map {parts : List ρ} {i : Nat} {r : Recorder ρ}
    (h : (parts.map new)[i]? = some r) : ∃ part, parts[i]? = some part ∧ new part = r := by
  rw [List.getElem?_map] at h
  exact Option.map_eq_some_iff.mp h

/-- Recording does not change what is served. -/
theorem serves {F : Faults} {D : Bytes} {r : Recorder ρ} {c : Option Nat}
    (h : Serves F D r.inner c) : Serves F D r c := by
  refine ⟨fun r c => Serves F D r.inner c, ⟨?_, ?_⟩, h⟩
  · intro r p hr n
    exact hr.read n
  · intro r c f q hr ht
    exact hr.seek ht

omit [ReadSeek ρ] in
theorem flatMap_asked_new (parts : List ρ) : (parts.map new).flatMap asked = [] := by
  simp [new]

omit [ReadSeek ρ] in
/-- Only the recorder that was replaced has been asked. -/
theorem flatMap_asked_set {parts : List ρ} {i : Nat} (hi : i < parts.length) (r : Recorder ρ) :
    ((parts.map new).set i r).flatMap asked = r.asked := by
  induction parts generalizing i with
  | nil => exact absurd hi (Nat.not_lt_zero i)
  | cons part parts ih =>
      cases i with
      | zero => rw [List.map_cons, List.set_cons_zero, List.flatMap_cons, flatMap_asked_new,
          List.append_nil]
      | succ i =>
          rw [List.map_cons, List.set_cons_succ, List.flatMap_cons,
            ih (Nat.lt_of_succ_lt_succ hi)]
          rfl

end Recorder

/-- A read ended at a failed repositioning, or it asked once: for at least one byte, and for
no more than remain. -/
def AsksWithin (remaining : Nat) (res : IoResult Bytes) (asked : List Nat) : Prop :=
  ((∃ e, res = .error e) ∧ asked = []) ∨ ∃ k, asked = [k] ∧ 1 ≤ k ∧ k ≤ remaining

theorem AsksWithin.ne_zero {remaining : Nat} {res : IoResult Bytes} {asked : List Nat}
    (h : AsksWithin remaining res asked) : asked ≠ [0] := by
  rintro rfl
  rcases h with ⟨_, h⟩ | ⟨k, hk, hpos, _⟩
  · cases h
  · cases hk
    exact absurd hpos (by decide)

/-- Below the end of a window, a read asks any inner reader within the window, and does not
return `Ok(0)` while the inner reader has bytes there. -/
def SubSource.ReadsOn [Target] (base len pos want : Nat) : Prop :=
  ∀ (ρ : Type) [ReadSeek ρ] (inner : ρ),
    let r := SubSource.read ⟨Recorder.new inner, base, len, pos⟩ want
    AsksWithin (len - pos) r.1 r.2.inner.asked ∧
      ∀ F D c, Serves F D inner c → base + pos < D.length → r.1 ≠ .ok []

/-- Below the end of a concatenation, a read asks the part that holds the position, within
its segment, and does not return `Ok(0)` while that part has bytes there. -/
def ConcatSource.ReadsOn [Target] (starts : List Nat) (count pos want : Nat) : Prop :=
  ∀ (ρ : Type) [ReadSeek ρ] (parts : List ρ), parts.length = count →
    let s : ConcatSource (Recorder ρ) := ⟨parts.map Recorder.new, starts, pos⟩
    let r := s.read want
    ∃ idx, s.segmentFor pos = some idx ∧
      AsksWithin (starts.getD (idx + 1) 0 - pos) r.1 (r.2.parts.flatMap Recorder.asked) ∧
      ∀ part F D c, parts[idx]? = some part → Serves F D part c →
        pos - starts.getD idx 0 < D.length → r.1 ≠ .ok []

/-! ### Narrowing -/

section

variable [Target] {n : Nat}

/-- Narrowing loses the whole remainder exactly for the multiples of the range. -/
theorem asUsize_eq_zero_iff : asUsize n = 0 ↔ 2 ^ Target.usizeBits ∣ n :=
  (Nat.dvd_iff_mod_eq_zero).symm

/-- What is asked for after narrowing is within the remainder, and not nothing unless the
remainder is lost. -/
theorem min_asUsize_bounds {want : Nat} (hwant : want ≠ 0) (h : ¬ 2 ^ Target.usizeBits ∣ n) :
    1 ≤ min want (asUsize n) ∧ min want (asUsize n) ≤ n := by
  have hle := asUsize_le n
  have hpos : asUsize n ≠ 0 := asUsize_eq_zero_iff.not.mpr h
  omega

/-- On a 64-bit target no remainder is lost. -/
theorem not_dvd_of_bits (hT : Target.usizeBits = 64) (hpos : 0 < n) (hn : n < u64Size) :
    ¬ 2 ^ Target.usizeBits ∣ n := by
  rw [hT]
  exact Nat.not_dvd_of_pos_of_lt hpos hn

end

/-! ### Requests below the end -/

section

variable [Target] {want : Nat}

/-- Below the end of a window a read asks once, for the smaller of the buffer and the narrowed
remainder, unless it could not reposition the inner reader. -/
theorem SubSource.read_asked (base : Nat) {len pos : Nat} (hpos : pos < len) (hwant : want ≠ 0)
    (inner : ρ) :
    let r := SubSource.read ⟨Recorder.new inner, base, len, pos⟩ want
    (∃ e, (ReadSeek.seek inner (.fromStart (.ofNat (addU64 base pos)))).1 = .error e ∧
      r.1 = .error e ∧ r.2.inner.asked = []) ∨
      r.2.inner.asked = [min want (asUsize (len - pos))] := by
  have hcase := read_cases ⟨Recorder.new inner, base, len, pos⟩ want
  dsimp only
  generalize SubSource.read (ρ := Recorder ρ) _ want = r at hcase ⊢
  cases hcase with
  | done hz => exact absurd hz (not_or.mpr ⟨hwant, Nat.not_le.mpr hpos⟩)
  | lost _ _ hseek =>
      exact .inl ⟨_, congrArg Prod.fst hseek, rfl, Recorder.asked_of_seek hseek⟩
  | failed _ _ hseek hread => exact .inr (Recorder.asked_of_read hseek hread)
  | served _ _ hseek hread => exact .inr (Recorder.asked_of_read hseek hread)

/-- A read that asks for a byte does not return `Ok(0)` while the inner reader has bytes at
the position. -/
theorem SubSource.read_ne_nil {F : Faults} {D : Bytes} {s : SubSource ρ} {c : Option Nat}
    (hs : Serves F D s.inner c) (hwin : s.base + s.len < u64Size) (hpos : s.pos < s.len)
    (hwant : want ≠ 0) (hask : 1 ≤ min want (asUsize (s.len - s.pos)))
    (hleft : s.base + s.pos < D.length) : (s.read want).1 ≠ .ok [] := by
  have hcase := s.read_cases want
  generalize s.read want = r at hcase ⊢
  cases hcase with
  | done hz => exact absurd hz (not_or.mpr ⟨hwant, Nat.not_le.mpr hpos⟩)
  | lost _ _ _ => exact nofun
  | failed _ _ _ _ => exact nofun
  | served _ _ hseek hread =>
      intro hempty
      have hoff : s.base + s.pos < u64Size := by omega
      rw [addU64_of_lt hoff] at hseek
      obtain ⟨_, _, hend, _⟩ := (hs.seekStart_ok hoff hseek).read_ok hread
      rcases hend (Except.ok.inj hempty) with h | h
      · exact absurd h (Nat.ne_of_gt hask)
      · exact absurd h (Nat.not_le.mpr hleft)

/-- A window asks within its remainder exactly where the narrowed remainder is not lost. -/
theorem SubSource.readsOn_iff {base len pos : Nat} (hwin : base + len < u64Size)
    (hpos : pos < len) (hwant : want ≠ 0) :
    ReadsOn base len pos want ↔ ¬ 2 ^ Target.usizeBits ∣ len - pos := by
  constructor
  · intro h hdvd
    have hask := (h Cursor (.new [])).1
    rcases read_asked base hpos hwant (Cursor.new []) with ⟨e, he, _⟩ | hasked
    · cases he
    · rw [asUsize_eq_zero_iff.mpr hdvd, Nat.min_zero] at hasked
      exact hask.ne_zero hasked
  · intro hndvd ρ _ inner
    have hbounds := min_asUsize_bounds hwant hndvd
    refine ⟨?_, fun F D c hserves hleft => ?_⟩
    · rcases read_asked base hpos hwant inner with ⟨e, _, herr, hasked⟩ | hasked
      · exact .inl ⟨⟨e, herr⟩, hasked⟩
      · exact .inr ⟨_, hasked, hbounds⟩
    · exact read_ne_nil (Recorder.serves hserves) hwin hpos hwant hbounds.1 hleft

/-- Below the end of a concatenation a read asks the part that holds the position once, for
the smaller of the buffer and the narrowed remainder of its segment, unless it could not
reposition that part. -/
theorem ConcatSource.read_asked {parts : List ρ} {starts : List Nat} {pos idx : Nat}
    (hseg : segmentFor ⟨parts.map Recorder.new, starts, pos⟩ pos = some idx) (hwant : want ≠ 0) :
    let r := ConcatSource.read ⟨parts.map Recorder.new, starts, pos⟩ want
    (∃ e part, parts[idx]? = some part ∧
      (ReadSeek.seek part (.fromStart (.ofNat (pos - starts.getD idx 0)))).1 = .error e ∧
      r.1 = .error e ∧ r.2.parts.flatMap Recorder.asked = []) ∨
      r.2.parts.flatMap Recorder.asked = [min want (asUsize (starts.getD (idx + 1) 0 - pos))] := by
  have hlt : idx < parts.length := by
    have hlt := lt_of_segmentFor hseg
    rwa [List.length_map] at hlt
  have hcase := read_cases (⟨parts.map Recorder.new, starts, pos⟩ : ConcatSource _) want
  dsimp only
  generalize ConcatSource.read (ρ := Recorder ρ) _ want = r at hcase ⊢
  cases hcase with
  | done hz =>
      rw [hseg] at hz
      exact absurd hz (not_or.mpr ⟨hwant, nofun⟩)
  | lost _ hseg' hpart hseek =>
      obtain rfl := Option.some.inj (hseg.symm.trans hseg')
      obtain ⟨part, hpart', rfl⟩ := Recorder.exists_of_getElem?_map hpart
      refine .inl ⟨_, part, hpart', congrArg Prod.fst hseek, rfl, ?_⟩
      rw [Recorder.flatMap_asked_set hlt]
      exact Recorder.asked_of_seek hseek
  | failed _ hseg' hpart hseek hread =>
      obtain rfl := Option.some.inj (hseg.symm.trans hseg')
      obtain ⟨part, _, rfl⟩ := Recorder.exists_of_getElem?_map hpart
      refine .inr ?_
      rw [Recorder.flatMap_asked_set hlt]
      exact Recorder.asked_of_read hseek hread
  | served _ hseg' hpart hseek hread =>
      obtain rfl := Option.some.inj (hseg.symm.trans hseg')
      obtain ⟨part, _, rfl⟩ := Recorder.exists_of_getElem?_map hpart
      refine .inr ?_
      rw [Recorder.flatMap_asked_set hlt]
      exact Recorder.asked_of_read hseek hread

/-- A read that asks for a byte does not return `Ok(0)` while the part has bytes at the
position. -/
theorem ConcatSource.read_ne_nil {F : Faults} {D : Bytes} {s : ConcatSource ρ} {part : ρ}
    {c : Option Nat} {idx : Nat} (hseg : s.segmentFor s.pos = some idx)
    (hpart : s.parts[idx]? = some part) (hs : Serves F D part c) (hpos : s.pos < u64Size)
    (hwant : want ≠ 0) (hask : 1 ≤ min want (asUsize (s.starts.getD (idx + 1) 0 - s.pos)))
    (hleft : s.pos - s.starts.getD idx 0 < D.length) : (s.read want).1 ≠ .ok [] := by
  have hcase := s.read_cases want
  generalize s.read want = r at hcase ⊢
  cases hcase with
  | done hz =>
      rw [hseg] at hz
      exact absurd hz (not_or.mpr ⟨hwant, nofun⟩)
  | lost _ _ _ _ => exact nofun
  | failed _ _ _ _ _ => exact nofun
  | served _ hseg' hpart' hseek hread =>
      intro hempty
      obtain rfl := Option.some.inj (hseg.symm.trans hseg')
      obtain rfl := Option.some.inj (hpart.symm.trans hpart')
      have hoff : s.pos - s.starts.getD idx 0 < u64Size := by omega
      obtain ⟨_, _, hend, _⟩ := (hs.seekStart_ok hoff hseek).read_ok hread
      rcases hend (Except.ok.inj hempty) with h | h
      · exact absurd h (Nat.ne_of_gt hask)
      · exact absurd h (Nat.not_le.mpr hleft)

/-- A concatenation asks within the segment exactly where the narrowed remainder of the
segment that holds the position is not lost. -/
theorem ConcatSource.readsOn_iff {Ds : List Bytes} {starts : List Nat} {pos : Nat}
    (hDs : Ds.flatten.length < u64Size) (htable : Table starts Ds)
    (hpos : pos < Ds.flatten.length) (hwant : want ≠ 0) :
    ReadsOn starts Ds.length pos want ↔
      ∀ idx, blockStart Ds idx ≤ pos → pos < blockStart Ds (idx + 1) →
        ¬ 2 ^ Target.usizeBits ∣ blockStart Ds (idx + 1) - pos := by
  obtain ⟨idx, _, hidx, _, _, hle, hlt⟩ := segmentFor_eq_some
    (s := ⟨Ds, starts, pos⟩) htable rfl hpos
  have h1 : starts.getD (idx + 1) 0 = blockStart Ds (idx + 1) := htable.2 _ hidx
  -- Recorders around any parts of the layout find the same segment.
  have hseg (ρ : Type) (parts : List ρ) (hcount : parts.length = Ds.length) :
      segmentFor ⟨parts.map Recorder.new, starts, pos⟩ pos = some idx := by
    obtain ⟨i, hi, _, _, _, hle', hlt'⟩ := segmentFor_eq_some
      (s := ⟨parts.map Recorder.new, starts, pos⟩) htable (by rwa [List.length_map]) hpos
    rwa [block_unique hle hlt hle' hlt']
  constructor
  · intro h i hle' hlt' hdvd
    obtain rfl := block_unique hle hlt hle' hlt'
    have hcount : (Ds.map fun _ => Cursor.new []).length = Ds.length := List.length_map _
    have hi := hseg _ _ hcount
    obtain ⟨i, hi', hask, _⟩ := h Cursor _ hcount
    obtain rfl := Option.some.inj (hi.symm.trans hi')
    rcases read_asked hi hwant with ⟨e, part, _, he, _⟩ | hasked
    · cases he
    · rw [h1, asUsize_eq_zero_iff.mpr hdvd, Nat.min_zero] at hasked
      exact hask.ne_zero hasked
  · intro hndvd ρ _ parts hcount
    have hi := hseg ρ parts hcount
    have hbounds := min_asUsize_bounds hwant (hndvd idx hle hlt)
    rw [← h1] at hbounds
    refine ⟨idx, hi, ?_, fun part F D c hpart hserves hleft => ?_⟩
    · rcases read_asked hi hwant with ⟨e, _, _, _, herr, hasked⟩ | hasked
      · exact .inl ⟨⟨e, herr⟩, hasked⟩
      · exact .inr ⟨_, hasked, hbounds⟩
    · have hpart' : (parts.map Recorder.new)[idx]? = some (Recorder.new part) := by
        rw [List.getElem?_map, hpart, Option.map_some]
      exact read_ne_nil hi hpart' (Recorder.serves hserves) (hpos.trans hDs) hwant hbounds.1 hleft

/-- On a 64-bit target a window always asks within its remainder. -/
theorem SubSource.readsOn_of_bits (hT : Target.usizeBits = 64) {base len pos : Nat}
    (hwin : base + len < u64Size) (hpos : pos < len) (hwant : want ≠ 0) :
    ReadsOn base len pos want :=
  (readsOn_iff hwin hpos hwant).mpr (not_dvd_of_bits hT (by omega) (by omega))

/-- On a 64-bit target a concatenation always asks within its segment. -/
theorem ConcatSource.readsOn_of_bits (hT : Target.usizeBits = 64) {Ds : List Bytes}
    {starts : List Nat} {pos : Nat} (hDs : Ds.flatten.length < u64Size)
    (htable : Table starts Ds) (hpos : pos < Ds.flatten.length) (hwant : want ≠ 0) :
    ReadsOn starts Ds.length pos want := by
  refine (readsOn_iff hDs htable hpos hwant).mpr fun idx _ hlt => ?_
  have hblock := blockStart_le Ds (idx + 1)
  exact not_dvd_of_bits hT (by omega) (by omega)

/-- Neither reader stops short of its end exactly where what remains of the window, or of
the segment, is no multiple of the range of `usize`. -/
theorem requests_iff :
    (∀ base len pos want : Nat, base + len < u64Size → pos < len → want ≠ 0 →
      (SubSource.ReadsOn base len pos want ↔ ¬ 2 ^ Target.usizeBits ∣ len - pos)) ∧
    ∀ (Ds : List Bytes) (starts : List Nat) (pos want : Nat), Ds.flatten.length < u64Size →
      ConcatSource.Table starts Ds → pos < Ds.flatten.length → want ≠ 0 →
      (ConcatSource.ReadsOn starts Ds.length pos want ↔
        ∀ idx, blockStart Ds idx ≤ pos → pos < blockStart Ds (idx + 1) →
          ¬ 2 ^ Target.usizeBits ∣ blockStart Ds (idx + 1) - pos) :=
  ⟨fun _ _ _ _ hwin hpos hwant => SubSource.readsOn_iff hwin hpos hwant,
    fun _ _ _ _ hDs htable hpos hwant => ConcatSource.readsOn_iff hDs htable hpos hwant⟩

end

/-- A window of three bytes and the second of two segments, on a 32-bit target. -/
theorem requests_iff_short : letI := target32
    SubSource.ReadsOn 1 3 0 8 ∧ ConcatSource.ReadsOn [0, 1, 3] 2 1 8 := by
  let := target32
  obtain ⟨hsub, hconcat⟩ := requests_iff
  have htable : ConcatSource.Table [0, 1, 3] [[7], [8, 9]] := by
    refine ⟨rfl, ?_⟩
    decide
  refine ⟨(hsub 1 3 0 8 (by decide) (by decide) (by decide)).mpr (by decide),
    (hconcat [[7], [8, 9]] [0, 1, 3] 1 8 (by decide) htable (by decide) (by decide)).mpr ?_⟩
  intro idx hle hlt
  obtain rfl : idx = 1 := block_unique hle hlt (by decide) (by decide)
  decide

/-- A read for nothing returns nothing. -/
theorem Cursor.read_zero (c : Cursor) : ReadSeek.read c 0 = (.ok [], c) := by
  change ((.ok (((c.bytes.drop _).take 0)), _) : IoResult Bytes × Cursor) = _
  rw [List.take_zero]
  rfl

/-- On a 32-bit target a read of one byte at the beginning of `2 ^ 32` bytes, through a window
or through a concatenation of one segment, asks for nothing and returns `Ok(0)`. -/
theorem requests_lost : letI := target32
    ∃ c : Cursor, c.bytes.length = 2 ^ 32 ∧
      (SubSource.read ⟨Recorder.new c, 0, 2 ^ 32, 0⟩ 1).1 = .ok [] ∧
      (SubSource.read ⟨Recorder.new c, 0, 2 ^ 32, 0⟩ 1).2.inner.asked = [0] ∧
      ¬ SubSource.ReadsOn 0 (2 ^ 32) 0 1 ∧
      (ConcatSource.read ⟨[Recorder.new c], [0, 2 ^ 32], 0⟩ 1).1 = .ok [] ∧
      (ConcatSource.read ⟨[Recorder.new c], [0, 2 ^ 32], 0⟩ 1).2.parts.flatMap Recorder.asked =
        [0] ∧
      ¬ ConcatSource.ReadsOn [0, 2 ^ 32] 1 0 1 := by
  let := target32
  have hwant : min 1 (asUsize (2 ^ 32 - 0)) = 0 := by decide
  have hread (c : Cursor) : ReadSeek.read (⟨c, []⟩ : Recorder Cursor) 0 = (.ok [], ⟨c, [0]⟩) :=
    congrArg (Prod.map id fun inner => (⟨inner, [0]⟩ : Recorder Cursor)) c.read_zero
  have hseek (c : Cursor) : ReadSeek.seek (Recorder.new c) (.fromStart (.ofNat 0)) =
      (.ok 0, ⟨{ c with pos := 0 }, []⟩) := rfl
  have hsub (c : Cursor) : SubSource.read ⟨Recorder.new c, 0, 2 ^ 32, 0⟩ 1 =
      (.ok [], ⟨⟨{ c with pos := 0 }, [0]⟩, 0, 2 ^ 32, 0⟩) := by
    have hoff : addU64 0 0 = 0 := rfl
    have hbelow : ¬ (1 = 0 ∨ 0 ≥ 2 ^ 32) := by decide
    simp only [SubSource.read, hbelow, ite_false, hoff, hseek, hwant, hread]
    rfl
  have hconcat (c : Cursor) : ConcatSource.read ⟨[Recorder.new c], [0, 2 ^ 32], 0⟩ 1 =
      (.ok [], ⟨[⟨{ c with pos := 0 }, [0]⟩], [0, 2 ^ 32], 0⟩) := by
    have hseg : ConcatSource.segmentFor ⟨[Recorder.new c], [0, 2 ^ 32], 0⟩ 0 = some 0 := rfl
    have hone : ¬ (1 = 0) := by decide
    have hstop : [0, 2 ^ 32].getD (0 + 1) 0 = 2 ^ 32 := rfl
    have hstart : 0 - [0, 2 ^ 32].getD 0 0 = 0 := rfl
    have hpart : [Recorder.new c][0]? = some (Recorder.new c) := rfl
    simp only [ConcatSource.read, hone, ite_false, hseg, hstop, hstart, hpart, hseek, hwant, hread]
    rfl
  refine ⟨.new (List.replicate (2 ^ 32) 0), List.length_replicate, ?_, ?_, ?_, ?_, ?_, ?_⟩
  · rw [hsub]
  · rw [hsub]
  · intro h
    have hask := (h Cursor (.new [])).1
    rw [hsub] at hask
    exact hask.ne_zero rfl
  · rw [hconcat]
  · rw [hconcat]
    rfl
  · intro h
    obtain ⟨_, _, hask, _⟩ := h Cursor [.new []] rfl
    rw [List.map_singleton, hconcat] at hask
    exact hask.ne_zero rfl

end OxideSource
