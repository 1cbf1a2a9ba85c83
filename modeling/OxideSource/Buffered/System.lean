import OxideSource.Buffered.Sections

/-!
# Reader and worker

`BufferedSource` as a machine of two threads. A step is one lock-protected section
of either thread, or one call of the worker on the inner source outside the lock.
The reader thread serves one caller at a time, so a read or a seek starts only when
the reader is idle. A panic under the lock poisons the mutex, after which nothing
runs.
-/

namespace OxideSource

/-- Where the reader thread stands. -/
inductive ReaderPc where
  /-- Between operations. -/
  | idle
  /-- Blocked on `not_empty` inside a read. -/
  | waiting (want : Nat) (notified : Bool)
  /-- In `drop`, with `stop` set and nobody notified yet. -/
  | dropping
  /-- In `drop`, waiting for the worker to exit. -/
  | joining
  | dropped
  | panicked
  deriving DecidableEq

/-- `notify` on `not_full`, where only the worker waits. -/
def WorkerPc.notify : WorkerPc → WorkerPc
  | .parked _ => .parked true
  | pc => pc

/-- `notify_all` on `not_empty`, where only the reader waits. -/
def ReaderPc.notify : ReaderPc → ReaderPc
  | .waiting want _ => .waiting want true
  | pc => pc

/-- A `BufferedSource` with its worker thread. The timeout is in nanoseconds. -/
structure BufferedSource (ι : Type) where
  st : RingState
  worker : WorkerPc
  inner : ι
  pos : Nat
  prefetchTimeout : Nat
  reader : ReaderPc

/-! ### Construction -/

/-- `BufferedSourceBuilder`. -/
structure BufferedSourceBuilder where
  capacity : Nat
  blockSize : Nat
  prefetchTimeout : Nat
  lookbackNum : Nat
  lookbackDen : Nat

/-- `BufferedSourceBuilder::default`. -/
def BufferedSourceBuilder.default : BufferedSourceBuilder where
  capacity := 1024 * 1024
  blockSize := 256 * 1024
  prefetchTimeout := 30 * 1000000000
  lookbackNum := 1
  lookbackDen := 8

/-- `sanitise_lookback`. -/
def sanitiseLookback (num den : Nat) : Nat × Nat :=
  if den = 0 then (0, 1)
  else if num ≥ den then (den - 1, den)
  else (num, den)

/-- The clamped block size of `build`. -/
def BufferedSourceBuilder.block (b : BufferedSourceBuilder) : Nat := max b.blockSize (4 * 1024)

/-- The clamped capacity of `build`. -/
def BufferedSourceBuilder.ring (b : BufferedSourceBuilder) : Nat := max b.capacity (4 * b.block)

/-- The lookback allowance of the settings: the sanitised fraction of the clamped capacity. -/
def BufferedSourceBuilder.allowance [Target] (b : BufferedSourceBuilder) : Nat :=
  let (lookbackNum, lookbackDen) := sanitiseLookback b.lookbackNum b.lookbackDen
  asUsize ((checkedDiv (saturatingMul b.ring lookbackNum) lookbackDen).getD 0)

/-- `BufferedSourceBuilder::build`. `none` when the settings overflow: four blocks do
not fit in `usize`, or the ring is larger than any allocation. -/
def BufferedSourceBuilder.build [Target] {ι : Type} [ReadSeek ι] (b : BufferedSourceBuilder)
    (inner : ι) : Option (IoResult (BufferedSource ι)) :=
  if 4 * b.block > usizeMax ∨ b.ring > isizeMax then none
  else
    let (lookbackNum, lookbackDen) := sanitiseLookback b.lookbackNum b.lookbackDen
    match streamPosition inner with
    | (.error e, _) => some (.error e)
    | (.ok pos, inner) =>
        match ReadSeek.seek inner (.fromEnd 0) with
        | (.error e, _) => some (.error e)
        | (.ok stop, inner) =>
            match ReadSeek.seek inner (.fromStart (.ofNat pos)) with
            | (.error e, _) => some (.error e)
            | (.ok _, inner) =>
                some (.ok {
                  st := {
                    buf := [], ringStart := pos, capacity := b.ring, blockSize := b.block,
                    lookbackNum, lookbackDen, totalLen := some stop,
                    eof := decide (stop = pos), err := none, workerDead := false,
                    targetPos := none, stop := false }
                  worker := .phase1, inner, pos
                  prefetchTimeout := max b.prefetchTimeout 1000000, reader := .idle })

namespace BufferedSource

/-- A sanitised lookback fraction is below one. -/
theorem sanitiseLookback_lt (num den : Nat) :
    (sanitiseLookback num den).1 < (sanitiseLookback num den).2 := by
  unfold sanitiseLookback
  split
  · exact Nat.zero_lt_one
  · split
    · exact Nat.sub_lt (Nat.pos_of_ne_zero ‹_›) Nat.zero_lt_one
    · exact Nat.not_le.mp ‹_›

/-- The lookback allowance of a sanitised fraction is below the capacity, also where
the product saturates. -/
theorem RingState.rear_lt [Target] {st : RingState} (hcap : 0 < st.capacity)
    (hfrac : st.lookbackNum < st.lookbackDen) : st.rear < st.capacity := by
  have hden : 0 < st.lookbackDen := by omega
  have hdiv : checkedDiv (saturatingMul st.capacity st.lookbackNum) st.lookbackDen =
      some (saturatingMul st.capacity st.lookbackNum / st.lookbackDen) :=
    if_neg (Nat.ne_of_gt hden)
  rw [RingState.rear, hdiv, Option.getD_some]
  refine (asUsize_le _).trans_lt ((Nat.div_lt_iff_lt_mul hden).mpr ?_)
  calc saturatingMul st.capacity st.lookbackNum
      ≤ st.capacity * st.lookbackNum := Nat.min_le_left _ _
    _ < st.capacity * st.lookbackDen := Nat.mul_lt_mul_of_pos_left hfrac hcap

/-- A successful `build` probed the position and the length, restored the position,
and starts both threads on an empty ring there. -/
theorem build_ok [Target] {ι : Type} [ReadSeek ι] {b : BufferedSourceBuilder} {inner : ι}
    {s : BufferedSource ι} (h : b.build inner = some (.ok s)) :
    b.ring ≤ isizeMax ∧ ∃ pos stop i₁ i₂ q,
      streamPosition inner = (.ok pos, i₁) ∧
      ReadSeek.seek i₁ (.fromEnd 0) = (.ok stop, i₂) ∧
      ReadSeek.seek i₂ (.fromStart (.ofNat pos)) = (.ok q, s.inner) ∧
      s.st = {
        buf := [], ringStart := pos, capacity := b.ring, blockSize := b.block,
        lookbackNum := (sanitiseLookback b.lookbackNum b.lookbackDen).1,
        lookbackDen := (sanitiseLookback b.lookbackNum b.lookbackDen).2,
        totalLen := some stop, eof := decide (stop = pos), err := none, workerDead := false,
        targetPos := none, stop := false } ∧
      s.worker = .phase1 ∧ s.pos = pos ∧ s.reader = .idle := by
  unfold BufferedSourceBuilder.build at h
  split at h
  · cases h
  · rename_i hfit
    refine ⟨by omega, ?_⟩
    simp only at h
    split at h
    · cases h
    · rename_i pos i₁ hpos
      split at h
      · cases h
      · rename_i stop i₂ hstop
        split at h
        · cases h
        · rename_i q i₃ hq
          obtain rfl := Except.ok.inj (Option.some.inj h)
          exact ⟨pos, stop, i₁, i₂, q, hpos, hstop, hq, rfl, rfl, rfl, rfl⟩

/-- No setting leaves the ring or the block empty. -/
theorem ring_pos (b : BufferedSourceBuilder) : 0 < b.ring ∧ 0 < b.block := by
  unfold BufferedSourceBuilder.ring BufferedSourceBuilder.block
  omega

variable {ι : Type} [ReadSeek ι]

/-! ### The worker thread -/

omit [ReadSeek ι] in
/-- The state after a section of the worker. -/
def afterWorker (s : BufferedSource ι) (r : RingState × WorkerPc × Bool) : BufferedSource ι :=
  { s with
    st := r.1, worker := r.2.1, reader := if r.2.2 then s.reader.notify else s.reader }

/-- The next step of `worker_loop`. -/
def workerStep (s : BufferedSource ι) : Option (BufferedSource ι) :=
  match s.worker with
  | .phase1 => some (s.afterWorker s.st.phase1)
  | .seeking target =>
      match ReadSeek.seek s.inner (.fromStart (.ofNat target)) with
      | (.ok _, inner) => some { s with worker := .phase1, inner }
      | (.error e, inner) => some { s with worker := .seekFailed e, inner }
  | .seekFailed e => some (s.afterWorker (s.st.fail e, .exited, true))
  | .parked true => some { s with worker := .phase1 }
  | .reading toRead =>
      match ReadSeek.read s.inner toRead with
      | (res, inner) => some { s with worker := .readDone res, inner }
  | .readDone res => some (s.afterWorker (s.st.phase3 res))
  | .parked false => none
  | .exited => none
  | .panicked => none

/-! ### The reader thread -/

/-- The error of a wait that ran out of time. -/
def timeoutError (timeout : Nat) : IoError :=
  ⟨.timedOut, ["BufferedSource: prefetch timeout (", .num (timeout / 1000000), " ms)"]⟩

omit [ReadSeek ι] in
/-- The state after the critical section of a read. -/
def afterRead (s : BufferedSource ι) (want : Nat) (r : Pass × RingState × Bool) :
    Option (BufferedSource ι × Option IoObs) :=
  let s := { s with st := r.2.1, worker := if r.2.2 then s.worker.notify else s.worker }
  match r.1 with
  | .returns res pos => some ({ s with pos, reader := .idle }, some (.read want res))
  | .waits => some ({ s with reader := .waiting want false }, none)
  | .panics => some ({ s with reader := .panicked }, none)
  | .again => none

omit [ReadSeek ι] in
/-- `impl Read for BufferedSource`, up to its return or its first wait. -/
def startRead [Target] (s : BufferedSource ι) (want seam : Nat) :
    Option (BufferedSource ι × Option IoObs) :=
  if want = 0 then some (s, some (.read want (.ok [])))
  else s.afterRead want (s.st.readSection seam want s.pos)

omit [ReadSeek ι] in
/-- The reader returns from `wait_timeout`. -/
def resumeRead [Target] (s : BufferedSource ι) (want : Nat) (timedOut : Bool) (seam : Nat) :
    Option (BufferedSource ι × Option IoObs) :=
  if timedOut ∧ s.st.err = none ∧ s.st.eof = false then
    some ({ s with reader := .idle },
      some (.read want (.error (timeoutError s.prefetchTimeout))))
  else s.afterRead want (s.st.readSection seam want s.pos)

omit [ReadSeek ι] in
/-- `impl Seek for BufferedSource`. -/
def doSeek (s : BufferedSource ι) (f : SeekFrom) : BufferedSource ι × Option IoObs :=
  match s.st.seekSection s.pos f with
  | (res, pos, st, woke) =>
      ({ s with st, pos, worker := if woke then s.worker.notify else s.worker },
        some (.seek f res))

/-! ### Interleavings -/

/-- The scheduler's choices. A condition variable may wake its waiter at any time. -/
inductive Action where
  | worker
  | spuriousWorker
  | read (want seam : Nat)
  | wakeReader (timedOut : Bool) (seam : Nat)
  | seek (from_ : SeekFrom)
  | drop
  | dropNotify
  | join

omit [ReadSeek ι] in
/-- A thread panicked while it held the lock. -/
def poisoned (s : BufferedSource ι) : Bool :=
  match s.worker, s.reader with
  | .panicked, _ => true
  | _, .panicked => true
  | _, _ => false

/-- One step of either thread. -/
def step [Target] (s : BufferedSource ι) (a : Action) :
    Option (BufferedSource ι × Option IoObs) :=
  if s.poisoned then none
  else
    match a, s.reader with
    | .worker, _ => s.workerStep.map (·, none)
    | .spuriousWorker, _ =>
        match s.worker with
        | .parked _ => some ({ s with worker := .phase1 }, none)
        | _ => none
    | .read want seam, .idle => s.startRead want seam
    | .wakeReader timedOut seam, .waiting want _ => s.resumeRead want timedOut seam
    | .seek f, .idle => some (s.doSeek f)
    | .drop, .idle => some ({ s with st := { s.st with stop := true }, reader := .dropping }, none)
    | .dropNotify, .dropping =>
        some ({ s with worker := s.worker.notify, reader := .joining }, none)
    | .join, .joining =>
        match s.worker with
        | .exited => some ({ s with reader := .dropped }, none)
        | _ => none
    | _, _ => none

/-- The ways a step of the worker goes. -/
inductive WorkerCase (s : BufferedSource ι) : BufferedSource ι → Prop where
  | phase1 (hw : s.worker = .phase1) : WorkerCase s (s.afterWorker s.st.phase1)
  | seeks {target q : Nat} {inner : ι} (hw : s.worker = .seeking target)
      (h : ReadSeek.seek s.inner (.fromStart (.ofNat target)) = (.ok q, inner)) :
      WorkerCase s { s with worker := .phase1, inner }
  | refused {target : Nat} {e : IoError} {inner : ι} (hw : s.worker = .seeking target)
      (h : ReadSeek.seek s.inner (.fromStart (.ofNat target)) = (.error e, inner)) :
      WorkerCase s { s with worker := .seekFailed e, inner }
  | records {e : IoError} (hw : s.worker = .seekFailed e) :
      WorkerCase s (s.afterWorker (s.st.fail e, .exited, true))
  | unparks (hw : s.worker = .parked true) : WorkerCase s { s with worker := .phase1 }
  | reads {n : Nat} {res : IoResult Bytes} {inner : ι} (hw : s.worker = .reading n)
      (h : ReadSeek.read s.inner n = (res, inner)) :
      WorkerCase s { s with worker := .readDone res, inner }
  | phase3 {res : IoResult Bytes} (hw : s.worker = .readDone res) :
      WorkerCase s (s.afterWorker (s.st.phase3 res))

/-- A step of the worker, case by case. -/
theorem workerStep_cases {s s' : BufferedSource ι} (hs : s.workerStep = some s') :
    WorkerCase s s' := by
  unfold workerStep at hs
  split at hs
  · cases hs
    exact .phase1 ‹_›
  · split at hs
    · cases hs
      exact .seeks ‹_› ‹_›
    · cases hs
      exact .refused ‹_› ‹_›
  · cases hs
    exact .records ‹_›
  · cases hs
    exact .unparks ‹_›
  · cases hs
    exact .reads ‹_› rfl
  · cases hs
    exact .phase3 ‹_›
  · cases hs
  · cases hs
  · cases hs

/-- An exited worker takes no step. -/
theorem WorkerCase.ne_exited {s s' : BufferedSource ι} (h : WorkerCase s s') :
    s.worker ≠ .exited := by
  cases h <;> (rw [‹s.worker = _›]; exact nofun)

/-- A step of the worker leaves the reader in place, or notifies it. -/
theorem workerStep_reader {s s' : BufferedSource ι} (h : WorkerCase s s') :
    s'.reader = s.reader ∨ s'.reader = s.reader.notify := by
  have hafter : ∀ r : RingState × WorkerPc × Bool,
      (s.afterWorker r).reader = s.reader ∨ (s.afterWorker r).reader = s.reader.notify := by
    rintro ⟨st, worker, woke⟩
    cases woke with
    | false => exact .inl rfl
    | true => exact .inr rfl
  cases h with
  | phase1 => exact hafter _
  | records => exact hafter _
  | phase3 => exact hafter _
  | _ => exact .inl rfl

/-- The ways a step of either thread goes. -/
inductive StepCase [Target] (s : BufferedSource ι) :
    Action → BufferedSource ι → Option IoObs → Prop where
  | worker {s' : BufferedSource ι} (h : WorkerCase s s') : StepCase s .worker s' none
  | wakeup {notified : Bool} (hworker : s.worker = .parked notified) :
      StepCase s .spuriousWorker { s with worker := .phase1 } none
  | readEmpty {want seam : Nat} (hidle : s.reader = .idle) (hwant : want = 0) :
      StepCase s (.read want seam) s (some (.read want (.ok [])))
  | read {want seam : Nat} {s' : BufferedSource ι} {o : Option IoObs} (hidle : s.reader = .idle)
      (hwant : want ≠ 0)
      (h : s.afterRead want (s.st.readSection seam want s.pos) = some (s', o)) :
      StepCase s (.read want seam) s' o
  | timeout {want seam : Nat} {notified : Bool} (hwait : s.reader = .waiting want notified)
      (herr : s.st.err = none) :
      StepCase s (.wakeReader true seam) { s with reader := .idle }
        (some (.read want (.error (timeoutError s.prefetchTimeout))))
  | resume {want seam : Nat} {notified timedOut : Bool} {s' : BufferedSource ι}
      {o : Option IoObs} (hwait : s.reader = .waiting want notified)
      (h : s.afterRead want (s.st.readSection seam want s.pos) = some (s', o)) :
      StepCase s (.wakeReader timedOut seam) s' o
  | seek {f : SeekFrom} {res : IoResult Nat} {pos : Nat} {st : RingState} {woke : Bool}
      (hidle : s.reader = .idle) (h : s.st.SeekCase s.pos f (res, pos, st, woke)) :
      StepCase s (.seek f)
        { s with st, pos, worker := if woke then s.worker.notify else s.worker }
        (some (.seek f res))
  | drop (hidle : s.reader = .idle) :
      StepCase s .drop { s with st := { s.st with stop := true }, reader := .dropping } none
  | dropNotify (hdrop : s.reader = .dropping) :
      StepCase s .dropNotify { s with worker := s.worker.notify, reader := .joining } none
  | join (hjoin : s.reader = .joining) (hworker : s.worker = .exited) :
      StepCase s .join { s with reader := .dropped } none

/-- A step of the system, case by case. -/
theorem step_cases [Target] {s s' : BufferedSource ι} {a : Action} {o : Option IoObs}
    (hs : s.step a = some (s', o)) : StepCase s a s' o := by
  unfold step at hs
  split at hs
  · cases hs
  · split at hs
    · obtain ⟨t, ht, heq⟩ := Option.map_eq_some_iff.mp hs
      cases heq
      exact .worker (workerStep_cases ht)
    · split at hs
      · cases hs
        exact .wakeup ‹_›
      · cases hs
    · unfold startRead at hs
      split at hs
      · cases hs
        exact .readEmpty ‹_› ‹_›
      · exact .read ‹_› ‹_› hs
    · unfold resumeRead at hs
      split at hs
      · rename_i hwait hcond
        cases hs
        obtain ⟨rfl, herr, _⟩ := hcond
        exact .timeout hwait herr
      · exact .resume ‹_› hs
    · cases hs
      exact .seek ‹_› (s.st.seekSection_spec s.pos _)
    · cases hs
      exact .drop ‹_›
    · cases hs
      exact .dropNotify ‹_›
    · split at hs
      · cases hs
        exact .join ‹_› ‹_›
      · cases hs
    · cases hs

omit [ReadSeek ι] in
/-- The critical section of a read leaves a ring that has at most lost old bytes, and
notifies the worker if it has. -/
theorem afterRead_trimmed {s s' : BufferedSource ι} {want : Nat} {r : Pass × RingState × Bool}
    {o : Option IoObs} (hr : s.st.Settled r) (hs : s.afterRead want r = some (s', o)) :
    ∃ woke, s.st.Trimmed s.st.buf.length s'.st woke ∧ s'.inner = s.inner ∧
      s'.worker = if woke then s.worker.notify else s.worker := by
  obtain ⟨pass, st', woke⟩ := r
  refine ⟨woke, ?_⟩
  cases pass <;> cases hs <;> exact ⟨hr.1, rfl, rfl⟩

/-- The threads of a `BufferedSource` as a machine. -/
def machine (ι : Type) [Target] [ReadSeek ι] : Machine (BufferedSource ι) Action IoObs := ⟨step⟩

/-- Build a source and run an interleaving of `m` from there. -/
def runFrom {ι : Type} [Target] [ReadSeek ι] (m : Machine (BufferedSource ι) Action IoObs)
    (b : BufferedSourceBuilder) (inner : ι) (as : List Action) :
    Option (BufferedSource ι × List IoObs) :=
  match b.build inner with
  | some (.ok s) => m.run s as
  | _ => none

/-- A run from the settings is a run from what they build. -/
theorem runFrom_eq_some {ι : Type} [Target] [ReadSeek ι]
    {m : Machine (BufferedSource ι) Action IoObs} {b : BufferedSourceBuilder} {inner : ι}
    {as : List Action} {r : BufferedSource ι × List IoObs} (h : runFrom m b inner as = some r) :
    ∃ s, b.build inner = some (.ok s) ∧ m.run s as = some r := by
  unfold runFrom at h
  split at h
  · exact ⟨_, ‹_›, h⟩
  · cases h

end BufferedSource

end OxideSource
