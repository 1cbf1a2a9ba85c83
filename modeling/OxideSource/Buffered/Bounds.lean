import OxideSource.Buffered.Positions

/-!
# The bounds of the ring

What the subtractions, slices and drains of both threads rely on holds along every run, over
every inner source whose reads keep to the requested count. The reader is inside the ring as
long as the end of the ring stays a `u64`.
-/

namespace OxideSource.BufferedSource

section

variable [Target] {st st' : RingState} {seam want pos : Nat}

/-- The rings that the passes of one read find: the first pass finds the ring of the call,
and a pass that continues leaves its ring to the next. -/
inductive Passes (st : RingState) (seam want pos : Nat) : RingState → Prop where
  | first : Passes st seam want pos st
  | again {st₁ st₂ : RingState} {woke : Bool} (h : Passes st seam want pos st₁)
      (hpass : st₁.readPass seam want pos = (.again, st₂, woke)) : Passes st seam want pos st₂

/-- What a pass of the reader relies on. -/
structure PassOk (st : RingState) (seam want pos : Nat) : Prop where
  sound : (st.readPass seam want pos).1 ≠ .panics
  /-- The drain of a hit. -/
  hit : ∀ {rel}, rel = asUsize (pos - st.ringStart) → rel < st.buf.length →
    rel + min (st.buf.length - rel) want - st.rear ≤ st.buf.length
  /-- The drain of a miss on a full ring. -/
  miss : st.buf.length = st.capacity → st.rear ≤ st.buf.length

/-- A pass does not slice or drain past the ring. -/
theorem readPass_sound (hrear : st.rear < st.capacity) (seam want pos : Nat) :
    (st.readPass seam want pos).1 ≠ .panics := by
  have hcase := RingState.readPass_spec st hrear seam want pos
  generalize st.readPass seam want pos = r at hcase
  cases hcase <;> exact nofun

/-- Passes leave the allowance below the capacity. -/
theorem Passes.rear_lt (hpasses : Passes st seam want pos st') (hrear : st.rear < st.capacity) :
    st'.rear < st'.capacity := by
  induction hpasses with
  | first => exact hrear
  | @again st₁ st₂ woke _ hpass ih =>
      have hcase := RingState.readPass_spec st₁ ih seam want pos
      rw [hpass] at hcase
      cases hcase with
      | drains => exact ih

/-- Every pass is within its bounds, wherever the reader stands. -/
theorem Passes.ok (hpasses : Passes st seam want pos st') (hrear : st.rear < st.capacity) :
    PassOk st' seam want pos := by
  have hrear' := hpasses.rear_lt hrear
  refine ⟨readPass_sound hrear' seam want pos, ?_, ?_⟩
  · intro rel _ hlt
    omega
  · intro hfull
    omega

/-- A drained ring serves the next pass as the full one served the first. -/
theorem InRing.passes (h : InRing st pos) (hrear : st.rear < st.capacity)
    (hfit : st.buf.length ≤ usizeMax) (hpasses : Passes st seam want pos st') :
    InRing st' pos ∧ st'.rear < st'.capacity ∧ st'.buf.length ≤ usizeMax := by
  induction hpasses with
  | first => exact ⟨h, hrear, hfit⟩
  | @again st₁ st₂ woke _ hpass ih =>
      obtain ⟨hin, hrear₁, hfit₁⟩ := ih
      have hcase := RingState.readPass_spec st₁ hrear₁ seam want pos
      rw [hpass] at hcase
      cases hcase with
      | drains hle hmiss =>
          have hlen : (st₁.discard (st₁.buf.length - st₁.rear)).buf.length =
              st₁.buf.length - (st₁.buf.length - st₁.rear) := RingState.length_discard _
          have hpos := hin.hi.trans_lt hin.tail_lt
          obtain ⟨hdrained, _⟩ :=
            Within.drained (fun _ => hin.hi) hfit₁ hpos hle hmiss (Nat.sub_le _ st₁.rear)
          exact ⟨hdrained, hrear₁, by omega⟩

end

/-- The bounds that both threads rely on. -/
structure RingOk [Target] {ι : Type} (s : BufferedSource ι) : Prop where
  length : s.st.buf.length ≤ s.st.capacity
  /-- A pending seek has emptied the ring and placed it at its target. -/
  pending : ∀ {t}, s.st.targetPos = some t → s.st.buf = [] ∧ s.st.ringStart = t ∧ s.pos = t
  /-- What the worker is about to read, or has read, still fits. -/
  reads : ∀ {n}, s.worker = .reading n → s.st.targetPos = none →
    s.st.buf.length + n ≤ s.st.capacity
  deposits : ∀ {bs}, s.worker = .readDone (.ok bs) → s.st.targetPos = none →
    s.st.buf.length + bs.length ≤ s.st.capacity
  passes : ∀ {seam want st}, Passes s.st seam want s.pos st → PassOk st seam want s.pos
  sound : s.worker ≠ .panicked ∧ s.reader ≠ .panicked

/-- The reader is inside the ring, and no pass finds it behind the start. -/
structure ReaderInside [Target] {ι : Type} (s : BufferedSource ι) : Prop where
  lo : s.st.ringStart ≤ s.pos
  hi : s.pos ≤ s.st.ringStart + s.st.buf.length
  ahead : ∀ {seam want st}, Passes s.st seam want s.pos st → st.ringStart ≤ s.pos

section

variable [Target] {ι : Type} [ReadSeek ι] {b : BufferedSourceBuilder} {inner : ι}
  {s t : BufferedSource ι}

/-- The bounds do not depend on where the reader stands. -/
theorem Stationed.ringOk (h : Stationed s) : RingOk s := by
  have horderly := h.orderly
  have hworker := horderly.worker
  have hreader := horderly.reader
  refine ⟨horderly.length, ?_, ?_, ?_, ?_, ?_, ?_⟩
  · intro target htarget
    obtain ⟨hstart, hpos⟩ := h.placed.target target htarget
    exact ⟨horderly.pending (by rw [htarget]; exact nofun), hstart.symm, hpos⟩
  · intro n hw htarget
    rw [hw] at hworker
    exact hworker.2 htarget
  · intro bs hw htarget
    rw [hw] at hworker
    exact hworker.2 htarget
  · intro seam want st hpasses
    exact hpasses.ok horderly.rear
  · intro hw
    rw [hw] at hworker
    exact hworker
  · intro hr
    rw [hr] at hreader
    exact hreader

/-- A reader inside the ring is inside it in every pass. -/
theorem Contained.readerInside (h : Contained s) : ReaderInside s := by
  refine ⟨h.ring.lo, h.ring.hi, ?_⟩
  intro seam want st hpasses
  exact (h.ring.passes h.stationed.orderly.rear h.stationed.fits hpasses).1.lo

/-- The bounds hold in every state that the two threads reach, and the reader is inside the
ring in every state that they reach by steps whose deposits leave the end of the ring a
`u64`. -/
theorem ring_invariant (hinner : Measured inner) (haddr : Addressed inner)
    (hb : b.build inner = some (.ok s)) :
    (∀ t, (machine ι).Reach s t → RingOk t) ∧
      ∀ t, ((machine ι).guard depositFits).Reach s t → ReaderInside t :=
  ⟨fun _ hreach => (reach_stationed hinner haddr hb hreach).ringOk,
    fun _ hreach => (reach_contained hinner haddr hb hreach).readerInside⟩

end

/-- The ring is in bounds after a read and a seek back into it, and the reader inside it. -/
theorem ring_invariant_back : letI := target64
    ∃ t os, runFrom ((machine Cursor).guard depositFits) .default (Cursor.new [1, 2, 3])
        [.worker, .worker, .worker, .read 2 0, .seek (.fromStart 1)] = some (t, os) ∧
      t.pos = 1 ∧ t.st.buf = [1, 2, 3] ∧ RingOk t ∧ ReaderInside t := by
  let := target64
  have hrun : (runFrom ((machine Cursor).guard depositFits) .default (Cursor.new [1, 2, 3])
      [.worker, .worker, .worker, .read 2 0, .seek (.fromStart 1)]).map
      (fun r => (r.1.pos, r.1.st.buf)) = some (1, [1, 2, 3]) := by
    decide +kernel
  obtain ⟨⟨t, os⟩, hrun, hobs⟩ := Option.map_eq_some_iff.mp hrun
  obtain ⟨hpos, hbuf⟩ := Prod.mk.inj hobs
  obtain ⟨s, hb, hs⟩ := runFrom_eq_some hrun
  obtain ⟨hring, hreader⟩ := ring_invariant (Cursor.measured _)
    (Cursor.addressed (.new [1, 2, 3]) (by decide) (by decide)) hb
  exact ⟨t, os, hrun, hpos, hbuf, hring t ⟨_, _, Machine.run_of_guard hs⟩, hreader t ⟨_, _, hs⟩⟩

/-! ### A source without an end -/

/-- A source that has four more bytes at every position, and whose position wraps. -/
structure Boundless where
  pos : Nat

namespace Boundless

/-- A read of at most four bytes. -/
def read (b : Boundless) (want : Nat) : IoResult Bytes × Boundless :=
  (.ok (List.replicate (min want 4) 0), ⟨addU64 b.pos (min want 4)⟩)

/-- Seek as a cursor over `2 ^ 64 - 1` bytes does. -/
def seek (b : Boundless) (f : SeekFrom) : IoResult Nat × Boundless :=
  match seekTarget (u64Size - 1) (some b.pos) f with
  | some q => (.ok q, ⟨q⟩)
  | none => (.error ⟨.invalidInput, []⟩, b)

instance : ReadSeek Boundless := ⟨read, seek⟩

/-- It delivers no more than is asked for. -/
theorem measured (b : Boundless) : Measured b := by
  refine ⟨fun _ => True, trivial, fun b _ n => ⟨fun bs hread => ?_, trivial⟩, fun _ _ _ => trivial⟩
  obtain rfl := Except.ok.inj hread
  rw [List.length_replicate]
  exact Nat.min_le_left n 4

/-- Its positions are `u64`s. -/
theorem addressed (b : Boundless) (hpos : b.pos < u64Size) : Addressed b := by
  refine ⟨fun b => b.pos < u64Size, hpos, fun b _ n => ⟨trivial, Nat.mod_lt _ (by decide)⟩, ?_⟩
  intro b hpos f
  change (∀ q, (b.seek f).1 = .ok q → q < u64Size) ∧ (b.seek f).2.pos < u64Size
  unfold Boundless.seek
  cases ht : seekTarget (u64Size - 1) (some b.pos) f with
  | none => exact ⟨nofun, hpos⟩
  | some q =>
      have hlt := seekTarget_lt (by decide) hpos ht
      refine ⟨fun q' hq => ?_, hlt⟩
      obtain rfl := Except.ok.inj hq
      exact hlt

/-- Seek to two bytes before the last offset, and prefetch past it. -/
def overrun : List Action :=
  [.seek (.fromStart 18446744073709551614), .worker, .worker, .worker, .worker, .worker]

end Boundless

/-- A reader that reads past the last `u64` is behind the ring. -/
theorem ring_invariant_wraps : letI := target64
    Measured (Boundless.mk 0) ∧ Addressed (Boundless.mk 0) ∧
      ¬ ∀ s t, BufferedSourceBuilder.default.build (Boundless.mk 0) = some (.ok s) →
        (machine Boundless).Reach s t → RingOk t ∧ ReaderInside t := by
  let := target64
  refine ⟨Boundless.measured _, Boundless.addressed _ (by decide), fun hall => ?_⟩
  have hrun : (runFrom (machine Boundless) .default (Boundless.mk 0)
      (Boundless.overrun ++ [.read 4 0])).map (fun r => (r.1.st.ringStart, r.1.pos,
        (r.1.step (.read 1 0)).map (·.2))) = some (18446744073709551614, 2,
          some (some (.read 1 (.error RingState.behindError)))) := by
    decide +kernel
  obtain ⟨⟨t, os⟩, hrun, hobs⟩ := Option.map_eq_some_iff.mp hrun
  simp only [Prod.mk.injEq] at hobs
  obtain ⟨hstart, hpos, _⟩ := hobs
  obtain ⟨s, hb, hs⟩ := runFrom_eq_some hrun
  have hlo := (hall s t hb ⟨_, _, hs⟩).2.lo
  rw [hstart, hpos] at hlo
  omega

end OxideSource.BufferedSource
