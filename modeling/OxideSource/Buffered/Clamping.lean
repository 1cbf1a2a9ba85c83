import OxideSource.Buffered.System

/-!
# The builder's clamps

`build` clamps the knobs before it touches the inner source. The clamps are machine
arithmetic: four times the block size is a product of `usize`, which wraps where the
compiler does not check it. The flag of the product is kept, and what the clamps
promise is stated for every ring that runs with their results.
-/

namespace OxideSource

/-- `usize::overflowing_mul`: the wrapped product, and whether it wrapped. -/
def overflowingMul [Target] (a b : Nat) : Nat × Bool := (asUsize (a * b), decide (usizeMax < a * b))

/-- Without the flag the product is exact. -/
theorem overflowingMul_of_le [Target] {a b : Nat} (h : a * b ≤ usizeMax) :
    overflowingMul a b = (a * b, false) := by
  rw [overflowingMul, asUsize_of_lt h, decide_eq_false (Nat.not_lt.mpr h)]

/-- The knobs after the clamps of `build`, with the overflow flag of its product. -/
structure Clamped where
  blockSize : Nat
  capacity : Nat
  lookbackNum : Nat
  lookbackDen : Nat
  overflowed : Bool
  deriving DecidableEq, Repr

/-- The clamps of `BufferedSourceBuilder::build`. -/
def BufferedSourceBuilder.clamp [Target] (b : BufferedSourceBuilder) : Clamped :=
  let blockSize := max b.blockSize (4 * 1024)
  let (four, overflowed) := overflowingMul 4 blockSize
  let capacity := max b.capacity four
  let (lookbackNum, lookbackDen) := sanitiseLookback b.lookbackNum b.lookbackDen
  { blockSize, capacity, lookbackNum, lookbackDen, overflowed }

namespace Clamped

/-- A ring that runs with the clamped knobs. -/
def Runs (c : Clamped) (st : RingState) : Prop :=
  st.capacity = c.capacity ∧ st.blockSize = c.blockSize ∧ st.lookbackNum = c.lookbackNum ∧
    st.lookbackDen = c.lookbackDen

/-- What the clamps are for: the bounds, and from them progress of either thread. -/
structure Safe [Target] (c : Clamped) : Prop where
  exact : c.overflowed = false
  block : 4096 ≤ c.blockSize
  room : 4 * c.blockSize ≤ c.capacity
  rear : ∀ st, c.Runs st → st.rear < st.capacity
  /-- Draining a full ring down to the lookback allowance frees a byte. -/
  frees : ∀ st, c.Runs st → st.buf.length = st.capacity →
    ∃ st', (checkedSub st.buf.length st.rear).bind st.drain = some st' ∧
      st'.buf.length < st.buf.length
  /-- A worker that is not asked for anything else reads into a ring that is not full. -/
  fills : ∀ st, c.Runs st → st.buf.length < st.capacity → st.stop = false →
    st.targetPos = none → st.eof = false →
    ∃ toRead, st.phase1 = (st, .reading toRead, false) ∧ 0 < toRead ∧
      st.buf.length + toRead ≤ st.capacity

end Clamped

section

variable [Target] {b : BufferedSourceBuilder}

/-- The product fits exactly below a quarter of the range of `usize`. -/
theorem four_blocks_le_iff (n : Nat) :
    4 * max n (4 * 1024) ≤ usizeMax ↔ n < 2 ^ (Target.usizeBits - 2) := by
  unfold usizeMax
  rcases Target.usizeBits_mem with h | h
  · rw [h]
    omega
  · rw [h]
    omega

/-- The flag of the clamps is that of the product. -/
theorem clamp_overflowed : b.clamp.overflowed = false ↔ 4 * b.block ≤ usizeMax := by
  change decide (usizeMax < 4 * b.block) = false ↔ _
  rw [decide_eq_false_iff_not, Nat.not_lt]

/-- Without overflow the clamps are those of the natural numbers. -/
theorem clamp_eq (h : 4 * b.block ≤ usizeMax) :
    b.clamp = {
      blockSize := b.block, capacity := b.ring,
      lookbackNum := (sanitiseLookback b.lookbackNum b.lookbackDen).1,
      lookbackDen := (sanitiseLookback b.lookbackNum b.lookbackDen).2, overflowed := false } := by
  have hmul := overflowingMul_of_le h
  unfold BufferedSourceBuilder.block at hmul
  simp only [BufferedSourceBuilder.clamp, BufferedSourceBuilder.ring, BufferedSourceBuilder.block,
    hmul]

/-- A ring with the lookback allowance below its capacity can be drained when it is full. -/
theorem drain_full {st : RingState} (hrear : st.rear < st.capacity)
    (hfull : st.buf.length = st.capacity) :
    ∃ st', (checkedSub st.buf.length st.rear).bind st.drain = some st' ∧
      st'.buf.length < st.buf.length := by
  refine ⟨st.discard (st.buf.length - st.rear), ?_, ?_⟩
  · rw [checkedSub_of_le (by omega), Option.bind_some, RingState.drain, if_pos (Nat.sub_le _ _)]
  · rw [RingState.length_discard]
    omega

omit [Target] in
/-- A worker with room and nothing else to do reads. -/
theorem phase1_reading {st : RingState} (hroom : st.buf.length < st.capacity)
    (hblock : 0 < st.blockSize) (hstop : st.stop = false) (htarget : st.targetPos = none)
    (heof : st.eof = false) :
    ∃ toRead, st.phase1 = (st, .reading toRead, false) ∧ 0 < toRead ∧
      st.buf.length + toRead ≤ st.capacity := by
  have hfree := checkedSub_of_le (Nat.le_of_lt hroom)
  have hpos : st.capacity - st.buf.length ≠ 0 := by omega
  refine ⟨min (st.capacity - st.buf.length) st.blockSize, ?_, by omega, by omega⟩
  simp only [RingState.phase1, hstop, htarget, heof, hfree, hpos, Bool.false_eq_true, ite_false]

/-- The clamps keep what they promise exactly for blocks of less than a quarter of the
range of `usize`. -/
theorem clamp_safe_iff (b : BufferedSourceBuilder) :
    b.clamp.Safe ↔ b.blockSize < 2 ^ (Target.usizeBits - 2) := by
  rw [← four_blocks_le_iff]
  constructor
  · intro h
    exact clamp_overflowed.mp h.exact
  · intro hfit
    have hclamp := clamp_eq hfit
    have hfrac := BufferedSource.sanitiseLookback_lt b.lookbackNum b.lookbackDen
    obtain ⟨hring, hblock⟩ := BufferedSource.ring_pos b
    have hrear (st : RingState) (hst : b.clamp.Runs st) : st.rear < st.capacity := by
      obtain ⟨hcap, _, hnum, hden⟩ := hst
      rw [hclamp] at hcap hnum hden
      apply BufferedSource.RingState.rear_lt
      · rwa [hcap]
      · rwa [hnum, hden]
    refine ⟨clamp_overflowed.mpr hfit, ?_, ?_, hrear, ?_, ?_⟩
    · rw [hclamp]
      exact Nat.le_max_right _ _
    · rw [hclamp]
      exact Nat.le_max_right _ _
    · intro st hst hfull
      exact drain_full (hrear st hst) hfull
    · intro st hst hroom hstop htarget heof
      refine phase1_reading hroom ?_ hstop htarget heof
      rw [hst.2.1, hclamp]
      exact hblock

/-- Where the product wraps, no capacity of type `usize` holds four blocks. -/
theorem clamp_room_lost (hcap : b.capacity ≤ usizeMax)
    (hwrap : 2 ^ (Target.usizeBits - 2) ≤ b.blockSize) :
    b.clamp.capacity < 4 * b.clamp.blockSize := by
  have hover : usizeMax < 4 * b.block :=
    Nat.not_le.mp fun hfit => absurd ((four_blocks_le_iff _).mp hfit) (Nat.not_lt.mpr hwrap)
  have hwrapped : asUsize (4 * b.block) ≤ usizeMax :=
    Nat.le_pred_of_lt (Nat.mod_lt _ (Nat.two_pow_pos _))
  change max b.capacity (asUsize (4 * b.block)) < 4 * b.block
  omega

/-- A source that was built runs with the clamped knobs, computed without overflow. -/
theorem build_clamped {ι : Type} [ReadSeek ι] {inner : ι} {s : BufferedSource ι}
    (h : b.build inner = some (.ok s)) : b.clamp.overflowed = false ∧ b.clamp.Runs s.st := by
  have hfit : 4 * b.block ≤ usizeMax := by
    unfold BufferedSourceBuilder.build at h
    split at h
    · cases h
    · omega
  obtain ⟨_, pos, stop, i₁, i₂, q, _, _, _, hst, _⟩ := BufferedSource.build_ok h
  refine ⟨clamp_overflowed.mpr hfit, ?_⟩
  rw [clamp_eq hfit, hst]
  exact ⟨rfl, rfl, rfl, rfl⟩

end

/-- Blocks of `2 ^ 62` bytes wrap to a ring without room for a byte. -/
theorem clamp_unsafe : letI := target64
    (BufferedSourceBuilder.clamp ⟨0, 2 ^ 62, 1000000, 1, 8⟩ = ⟨2 ^ 62, 0, 1, 8, true⟩) ∧
      ¬ (BufferedSourceBuilder.clamp ⟨0, 2 ^ 62, 1000000, 1, 8⟩).Safe := by
  let := target64
  have hclamp : BufferedSourceBuilder.clamp ⟨0, 2 ^ 62, 1000000, 1, 8⟩ =
      ⟨2 ^ 62, 0, 1, 8, true⟩ := by decide
  have hroom := clamp_room_lost (b := ⟨0, 2 ^ 62, 1000000, 1, 8⟩) (by decide) (by decide)
  exact ⟨hclamp, fun h => Nat.not_le.mpr hroom h.room⟩

end OxideSource
