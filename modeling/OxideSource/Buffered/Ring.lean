import OxideSource.Readers.Mem

/-!
# The prefetch ring

The state behind the mutex of `BufferedSource`, and the pieces of the two threads
that run while holding it. Each piece is a pure function of the ring: the two
sections of the worker, one pass of the reader's loop, and a seek. What a section
notifies is part of its result.
-/

namespace OxideSource

/-- `RingState`. -/
structure RingState where
  buf : Bytes
  ringStart : Nat
  capacity : Nat
  blockSize : Nat
  lookbackNum : Nat
  lookbackDen : Nat
  totalLen : Option Nat
  eof : Bool
  err : Option (ErrorKind × Message)
  workerDead : Bool
  targetPos : Option Nat
  stop : Bool

/-- Where the worker thread stands between its sections. -/
inductive WorkerPc where
  /-- About to take the lock at the top of phase 1. -/
  | phase1
  /-- Released the lock to seek the inner source. -/
  | seeking (target : Nat)
  /-- The inner seek failed; about to take the lock to record it. -/
  | seekFailed (e : IoError)
  /-- Blocked on `not_full`. -/
  | parked (notified : Bool)
  /-- Phase 2: about to read the inner source. -/
  | reading (toRead : Nat)
  /-- About to take the lock of phase 3. -/
  | readDone (res : IoResult Bytes)
  | exited
  | panicked
  deriving DecidableEq

/-- How one pass of the reader's loop ends. -/
inductive Pass where
  | returns (res : IoResult Bytes) (pos : Nat)
  | waits
  /-- `continue` with the lock held. -/
  | again
  | panics

namespace RingState

variable (st : RingState)

/-- `RingState::surface_err`. -/
def surfaceErr : Option IoError := st.err.map fun (kind, msg) => ⟨kind, msg⟩

/-- `RingState::rear`. -/
def rear [Target] : Nat :=
  asUsize ((checkedDiv (saturatingMul st.capacity st.lookbackNum) st.lookbackDen).getD 0)

/-- The settings that `build` fixes: the capacity, the block size and the lookback fraction. -/
def knobs : Nat × Nat × Nat × Nat :=
  (st.capacity, st.blockSize, st.lookbackNum, st.lookbackDen)

/-- Drop the `n` oldest bytes and advance `ring_start`. -/
def discard (n : Nat) : RingState :=
  { st with buf := st.buf.drop n, ringStart := addU64 st.ringStart n }

/-- `buf.drain(..n)` with its bounds check. -/
def drain (n : Nat) : Option RingState :=
  if n ≤ st.buf.length then some (st.discard n) else none

/-- `matches!(total_len, Some(end) if pos >= end)`. -/
def pastEnd (pos : Nat) : Bool :=
  match st.totalLen with
  | some stop => decide (pos ≥ stop)
  | none => false

/-- An empty ring at `target`, with the fields that both resets of the ring set. -/
def restart (target : Nat) : RingState :=
  { st with buf := [], ringStart := target, eof := st.pastEnd target }

/-- Record a fatal worker error. -/
def fail (e : IoError) : RingState :=
  { st with err := some (e.kind, e.msg), workerDead := true }

/-! ### The worker's sections -/

/-- One turn of the phase 1 loop of `worker_loop`, with whether `not_empty` is notified. -/
def phase1 : RingState × WorkerPc × Bool :=
  if st.stop then (st, .exited, false)
  else
    match st.targetPos with
    | some target =>
        ({ st.restart target with targetPos := none, err := none }, .seeking target, true)
    | none =>
        if st.eof then (st, .parked false, false)
        else
          match checkedSub st.capacity st.buf.length with
          | none => (st, .panicked, false)
          | some free =>
              if free = 0 then (st, .parked false, false)
              else (st, .reading (min free st.blockSize), false)

/-- Phase 3 of `worker_loop`: discard, deposit, mark the end, or record the failure. -/
def phase3 (res : IoResult Bytes) : RingState × WorkerPc × Bool :=
  if st.targetPos.isSome || st.stop then (st, .phase1, false)
  else
    match res with
    | .ok [] => ({ st with eof := true }, .phase1, true)
    | .ok bs =>
        -- `scratch[..n]` is out of range for a count beyond the block size
        if bs.length ≤ st.blockSize then ({ st with buf := st.buf ++ bs }, .phase1, true)
        else (st, .panicked, false)
    | .error e =>
        if e.kind = .interrupted then (st, .phase1, false) else (st.fail e, .exited, true)

/-! ### The reader's sections -/

/-- `&s[lo..hi]` with its bounds check. -/
def slice (s : Bytes) (lo hi : Nat) : Option Bytes :=
  if lo ≤ hi ∧ hi ≤ s.length then some (window s lo (hi - lo)) else none

/-- Copy `n` bytes at `rel` out of the two contiguous slices of the deque, which
meet at `seam`. -/
def hitCopy (seam : Nat) (buf : Bytes) (rel n : Nat) : Option Bytes :=
  let front := buf.take seam
  let back := buf.drop seam
  if rel < front.length then
    let fTake := min (front.length - rel) n
    match slice front rel (rel + fTake) with
    | none => none
    | some bs =>
        if fTake < n then (slice back 0 (n - fTake)).map (bs ++ ·) else some bs
  else
    let bOff := rel - front.length
    slice back bOff (bOff + n)

/-- The first error of the reader's loop. -/
def behindError : IoError := ⟨.invalidInput, ["BufferedSource: reader behind ring start"]⟩

/-- One pass of the loop of `BufferedSource::read`, with whether `not_full` is notified. -/
def readPass [Target] (seam want pos : Nat) : Pass × RingState × Bool :=
  if pos < st.ringStart then (.returns (.error behindError) pos, st, false)
  else
    let rel := asUsize (pos - st.ringStart)
    if rel < st.buf.length then
      let avail := st.buf.length - rel
      let n := min avail want
      match hitCopy seam st.buf rel n with
      | none => (.panics, st, false)
      | some bs =>
          let pos := addU64 pos n
          let dropN := rel + n
          let rear := st.rear
          if dropN > rear then
            match st.drain (dropN - rear) with
            | none => (.panics, st, false)
            | some st => (.returns (.ok bs) pos, st, true)
          else (.returns (.ok bs) pos, st, false)
    else
      match st.surfaceErr with
      | some e => (.returns (.error e) pos, st, false)
      | none =>
          if st.eof then (.returns (.ok []) pos, st, false)
          else if st.pastEnd pos then (.returns (.ok []) pos, st, false)
          else if st.buf.length = st.capacity then
            match (checkedSub st.buf.length st.rear).bind st.drain with
            | none => (.panics, st, false)
            | some st => (.again, st, true)
          else (.waits, st, false)

/-- The loop of `BufferedSource::read` up to its return or its wait. A pass that
continues has drained the ring, so the length of the ring bounds the passes. -/
def readLoop [Target] (seam want pos : Nat) : Nat → RingState → Pass × RingState × Bool
  | 0, st => (.again, st, false)
  | fuel + 1, st =>
      match st.readPass seam want pos with
      | (.again, st, woke) =>
          match readLoop seam want pos fuel st with
          | (pass, st, woke') => (pass, st, woke || woke')
      | r => r

/-- The reader's critical section. -/
def readSection [Target] (seam want pos : Nat) : Pass × RingState × Bool :=
  readLoop seam want pos (st.buf.length + 1) st

/-- `add_signed` in `buffered.rs`, which names the direction of the failure. -/
def addSigned (base : Nat) (delta : Int64) : IoResult Nat :=
  match checkedAddSigned base delta with
  | some q => .ok q
  | none =>
      .error ⟨.invalidInput, [if 0 ≤ delta.toInt then "seek overflow" else "seek before start"]⟩

/-- The position that a seek of `BufferedSource` asks for. -/
def resolve (pos : Nat) : SeekFrom → IoResult Nat
  | .fromStart n => .ok n.toNat
  | .fromCurrent d => addSigned pos d
  | .fromEnd d =>
      match st.totalLen with
      | none => .error ⟨.unsupported, ["stream length unknown"]⟩
      | some stop => addSigned stop d

/-- `impl Seek for BufferedSource`: the result, the position, the ring, and whether
both condition variables are notified. -/
def seekSection (pos : Nat) (f : SeekFrom) : IoResult Nat × Nat × RingState × Bool :=
  match st.resolve pos f with
  | .error e => (.error e, pos, st, false)
  | .ok newPos =>
      let ringEnd := addU64 st.ringStart st.buf.length
      if newPos ≥ st.ringStart ∧ newPos ≤ ringEnd then (.ok newPos, newPos, st, false)
      else
        (.ok newPos, newPos,
          { st.restart newPos with
            targetPos := some newPos, err := if st.workerDead then st.err else none }, true)

/-! ### What a section can do -/

variable {st}

@[simp] theorem length_discard (n : Nat) :
    (st.discard n).buf.length = st.buf.length - n := List.length_drop

/-- A range inside the slice is its window. -/
theorem slice_eq_some {s : Bytes} {lo n : Nat} (h : lo + n ≤ s.length) :
    slice s lo (lo + n) = some (window s lo n) := by
  rw [slice, if_pos ⟨Nat.le_add_right lo n, h⟩, Nat.add_sub_cancel_left]

/-- Within the ring the two slices together give the bytes asked for. -/
theorem hitCopy_eq {seam rel n : Nat} {buf : Bytes} (h : rel + n ≤ buf.length) :
    hitCopy seam buf rel n = some (window buf rel n) := by
  have hjoin : buf = buf.take seam ++ buf.drop seam := (List.take_append_drop seam buf).symm
  have hlen : buf.length = (buf.take seam).length + (buf.drop seam).length := by
    rw [← List.length_append, ← hjoin]
  unfold hitCopy
  generalize buf.take seam = front at hjoin hlen
  generalize buf.drop seam = back at hjoin hlen
  subst hjoin
  by_cases hrel : rel < front.length
  · simp only [hrel, ite_true]
    by_cases hshort : front.length - rel < n
    · have hmin : min (front.length - rel) n = front.length - rel := by omega
      have hfirst : slice front rel (rel + (front.length - rel)) = some (window front rel _) :=
        slice_eq_some (by omega)
      have hsecond : slice back 0 (0 + (n - (front.length - rel))) = some (window back 0 _) :=
        slice_eq_some (by omega)
      rw [Nat.zero_add] at hsecond
      simp only [hmin, hfirst, hshort, ite_true, hsecond, Option.map_some,
        window_append_across (Nat.le_of_lt hrel) (Nat.le_of_lt hshort)]
    · have hmin : min (front.length - rel) n = n := by omega
      have hfirst : slice front rel (rel + n) = some (window front rel n) :=
        slice_eq_some (by omega)
      simp only [hmin, hfirst, Nat.lt_irrefl, ite_false,
        window_append_left back (show rel + n ≤ front.length by omega)]
  · simp only [hrel, ite_false]
    rw [slice_eq_some (by omega), window_append_right back n (Nat.not_lt.mp hrel)]

end RingState

end OxideSource
