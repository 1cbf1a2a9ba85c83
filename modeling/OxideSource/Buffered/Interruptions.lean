import OxideSource.Buffered.System

/-!
# Interrupted inner calls

A source whose calls are interrupted by a schedule, and a simulation by the same source
without the schedule. An interrupted read costs the worker three steps that the source
without it does not take: up to the read, the read itself, and the section that drops its
result. The worker does not retry an interrupted seek, which has no such counterpart.
-/

namespace OxideSource

/-- A source whose next calls are interrupted where the schedule has a message, and reach
the source itself where it has none. -/
structure Interrupting (ι : Type) where
  inner : ι
  schedule : List (Option Message)

namespace Interrupting

variable {ι : Type}

/-- The interruption of the next call. -/
def due (i : Interrupting ι) : Option Message := i.schedule.head?.join

/-- A call of the source, or its interruption, which leaves the source where it is. -/
def call {α : Type} (i : Interrupting ι) (f : ι → IoResult α × ι) : IoResult α × Interrupting ι :=
  match i.due with
  | some msg => (.error ⟨.interrupted, msg⟩, ⟨i.inner, i.schedule.tail⟩)
  | none => ((f i.inner).1, ⟨(f i.inner).2, i.schedule.tail⟩)

instance [ReadSeek ι] : ReadSeek (Interrupting ι) where
  read i n := i.call (ReadSeek.read · n)
  seek i f := i.call (ReadSeek.seek · f)

variable {α : Type} {i j : Interrupting ι} {f : ι → IoResult α × ι} {res : IoResult α}

/-- A call that is not interrupted reaches the source. -/
theorem call_of_due (hdue : i.due = none) (h : i.call f = (res, j)) :
    f i.inner = (res, j.inner) := by
  unfold call at h
  rw [hdue] at h
  cases h
  rfl

/-- An interrupted call leaves the source where it is. -/
theorem call_of_interrupted {msg : Message} (hdue : i.due = some msg) (h : i.call f = (res, j)) :
    res = .error ⟨.interrupted, msg⟩ ∧ j.inner = i.inner := by
  unfold call at h
  rw [hdue] at h
  cases h
  exact ⟨rfl, rfl⟩

/-- A call that succeeds is the inner one. -/
theorem call_ok {a : α} (h : i.call f = (.ok a, j)) : f i.inner = (.ok a, j.inner) := by
  cases hdue : i.due with
  | none => exact call_of_due hdue h
  | some msg => cases (call_of_interrupted hdue h).1

end Interrupting

/-- No call of the source, now or later, is interrupted. -/
def Uninterrupted {ι : Type} [ReadSeek ι] (inner : ι) : Prop :=
  Returns (fun _ res => ∀ e, res = .error e → e.kind ≠ .interrupted)
    (fun res => ∀ e, res = .error e → e.kind ≠ .interrupted) inner

section

variable {ι : Type} [ReadSeek ι] {inner inner' : ι}

/-- A read of such a source is not interrupted. -/
theorem Uninterrupted.read (h : Uninterrupted inner) {n : Nat} {res : IoResult Bytes}
    (hread : ReadSeek.read inner n = (res, inner')) :
    (∀ e, res = .error e → e.kind ≠ .interrupted) ∧ Uninterrupted inner' := by
  have hstep := Returns.read h n
  rwa [hread] at hstep

/-- A seek of such a source is not interrupted. -/
theorem Uninterrupted.seek (h : Uninterrupted inner) {f : SeekFrom} {res : IoResult Nat}
    (hseek : ReadSeek.seek inner f = (res, inner')) :
    (∀ e, res = .error e → e.kind ≠ .interrupted) ∧ Uninterrupted inner' := by
  have hstep := Returns.seek h f
  rwa [hseek] at hstep

end

/-- Where the worker stands without the interruptions: a read that is about to be
interrupted, or has been, has not begun. -/
def WorkerPc.beyond (due : Option Message) : WorkerPc → WorkerPc
  | .reading n =>
      match due with
      | some _ => .phase1
      | none => .reading n
  | .readDone (.error e) => if e.kind = .interrupted then .phase1 else .readDone (.error e)
  | pc => pc

section

variable {due : Option Message} {pc pc' : WorkerPc}

/-- A read that is not due to be interrupted is still to come. -/
theorem WorkerPc.beyond_reading (n : Nat) : (WorkerPc.reading n).beyond none = .reading n := rfl

/-- A read is not begun, and everything else is where it was. -/
theorem WorkerPc.beyond_cases (due : Option Message) (pc : WorkerPc) :
    pc.beyond due = pc ∨
      pc.beyond due = .phase1 ∧ ((∃ n, pc = .reading n) ∨ ∃ res, pc = .readDone res) := by
  cases pc with
  | reading n =>
      cases due with
      | none => exact .inl rfl
      | some _ => exact .inr ⟨rfl, .inl ⟨n, rfl⟩⟩
  | readDone res =>
      cases res with
      | ok bs => exact .inl rfl
      | error e =>
          by_cases hkind : e.kind = .interrupted
          · exact .inr ⟨if_pos hkind, .inr ⟨_, rfl⟩⟩
          · exact .inl (if_neg hkind)
  | _ => exact .inl rfl

/-- A wakeup is the same with and without the interruptions. -/
theorem WorkerPc.beyond_notify : pc.notify.beyond due = (pc.beyond due).notify := by
  rcases pc.beyond_cases due with heq | ⟨heq, ⟨n, rfl⟩ | ⟨res, rfl⟩⟩
  · rw [heq]
    cases pc with
    | parked notified => rfl
    | _ => exact heq
  · rw [heq]
    exact heq
  · rw [heq]
    exact heq

/-- A result that is no interruption stays. -/
theorem WorkerPc.beyond_readDone {res : IoResult Bytes}
    (h : ∀ e, res = .error e → e.kind ≠ .interrupted) :
    (WorkerPc.readDone res).beyond due = .readDone res := by
  cases res with
  | ok bs => rfl
  | error e => exact if_neg (h e rfl)

/-- Away from its reads the worker is where it was. -/
theorem WorkerPc.beyond_eq_iff (h₁ : pc' ≠ .phase1) (h₂ : ∀ n, pc' ≠ .reading n)
    (h₃ : ∀ res, pc' ≠ .readDone res) : pc.beyond due = pc' ↔ pc = pc' := by
  rcases pc.beyond_cases due with heq | ⟨heq, ⟨n, rfl⟩ | ⟨res, rfl⟩⟩
  · rw [heq]
  · rw [heq]
    exact iff_of_false h₁.symm (h₂ n).symm
  · rw [heq]
    exact iff_of_false h₁.symm (h₃ res).symm

end

namespace BufferedSource

variable {ι : Type}

/-- The same state over the source without the schedule. -/
@[simps] def uninterrupted (s : BufferedSource (Interrupting ι)) : BufferedSource ι where
  st := s.st
  worker := s.worker.beyond s.inner.due
  inner := s.inner.inner
  pos := s.pos
  prefetchTimeout := s.prefetchTimeout
  reader := s.reader

/-- The worker's next seek, if any, is not interrupted. -/
def seekProceeds (s : BufferedSource (Interrupting ι)) (a : Action) : Bool :=
  match a, s.worker with
  | .worker, .seeking _ => s.inner.due.isNone
  | _, _ => true

/-- A step of the worker, the only steps that interruptions add. -/
def Action.ofWorker : Action → Bool
  | .worker => true
  | _ => false

/-! ### The reader -/

section

variable {s : BufferedSource (Interrupting ι)}

/-- The lock is poisoned when a thread has panicked. -/
theorem poisoned_eq (s : BufferedSource ι) :
    s.poisoned = (decide (s.worker = .panicked) || decide (s.reader = .panicked)) := by
  unfold poisoned
  cases s.worker <;> cases s.reader <;> simp

/-- Both sides panic together. -/
theorem poisoned_uninterrupted : (uninterrupted s).poisoned = s.poisoned := by
  have hworker : (uninterrupted s).worker = .panicked ↔ s.worker = .panicked :=
    WorkerPc.beyond_eq_iff nofun nofun nofun
  simp only [poisoned_eq, hworker, uninterrupted_reader]

/-- A read ends alike on both sides. -/
theorem afterRead_uninterrupted {want : Nat} {r : Pass × RingState × Bool} :
    (uninterrupted s).afterRead want r = (s.afterRead want r).map (Prod.map uninterrupted id) := by
  obtain ⟨pass, st', woke⟩ := r
  cases pass <;> cases woke <;>
    simp [BufferedSource.afterRead, uninterrupted, WorkerPc.beyond_notify]

/-- A seek does the same on both sides. -/
theorem doSeek_uninterrupted {f : SeekFrom} :
    (uninterrupted s).doSeek f = Prod.map uninterrupted id (s.doSeek f) := by
  simp only [doSeek, uninterrupted_st, uninterrupted_pos]
  generalize s.st.seekSection s.pos f = r
  obtain ⟨res, pos, st, woke⟩ := r
  cases woke <;> simp [uninterrupted, WorkerPc.beyond_notify]

variable [Target]

/-- A read starts alike on both sides. -/
theorem startRead_uninterrupted {want seam : Nat} :
    (uninterrupted s).startRead want seam =
      (s.startRead want seam).map (Prod.map uninterrupted id) := by
  unfold startRead
  split
  · rfl
  · exact afterRead_uninterrupted

/-- A read goes on alike on both sides. -/
theorem resumeRead_uninterrupted {want seam : Nat} {timedOut : Bool} :
    (uninterrupted s).resumeRead want timedOut seam =
      (s.resumeRead want timedOut seam).map (Prod.map uninterrupted id) := by
  unfold resumeRead
  simp only [uninterrupted_st, uninterrupted_prefetchTimeout]
  split
  · rfl
  · exact afterRead_uninterrupted

/-- The steps that are not the worker's own are the same. -/
theorem step_uninterrupted [ReadSeek ι] {a : Action} (ha : a.ofWorker = false) :
    (uninterrupted s).step a = (s.step a).map (Prod.map uninterrupted id) := by
  unfold BufferedSource.step
  rw [poisoned_uninterrupted]
  cases hpoisoned : s.poisoned with
  | true => rfl
  | false =>
      simp only [Bool.false_eq_true, ite_false, uninterrupted_reader]
      cases a with
      | worker => cases ha
      | spuriousWorker =>
          have hworker (notified : Bool) :
              (uninterrupted s).worker = .parked notified ↔ s.worker = .parked notified :=
            WorkerPc.beyond_eq_iff nofun nofun nofun
          cases hw : s.worker with
          | parked notified =>
              rw [(hworker notified).mpr hw]
              rfl
          | _ =>
              dsimp only
              split
              · rename_i notified hparked
                rw [hworker notified, hw] at hparked
                cases hparked
              · rfl
      | read want seam =>
          cases s.reader with
          | idle => exact startRead_uninterrupted
          | _ => rfl
      | wakeReader timedOut seam =>
          cases s.reader with
          | waiting want notified => exact resumeRead_uninterrupted
          | _ => rfl
      | seek f =>
          cases s.reader with
          | idle => exact congrArg some doSeek_uninterrupted
          | _ => rfl
      | drop => cases s.reader <;> rfl
      | dropNotify =>
          cases s.reader with
          | dropping => simp [uninterrupted, WorkerPc.beyond_notify]
          | _ => rfl
      | join =>
          cases s.reader with
          | joining =>
              have hworker : (uninterrupted s).worker = .exited ↔ s.worker = .exited :=
                WorkerPc.beyond_eq_iff nofun nofun nofun
              by_cases hw : s.worker = .exited
              · rw [hw, hworker.mpr hw]
                rfl
              · dsimp only
                split
                · exact absurd (hworker.mp ‹_›) hw
                · rfl
          | _ => rfl

end

/-! ### The worker -/

/-- A turn of phase 1 records nothing, and leads to a read or where no interruption
matters. -/
theorem phase1_spares (st : RingState) :
    (∀ e, st.phase1.1.surfaceErr = some e → st.surfaceErr = some e) ∧
      (∀ e, st.phase1.2.1 ≠ .seekFailed e) ∧
      ((∃ n, st.phase1 = (st, .reading n, false)) ∨
        ∀ due, st.phase1.2.1.beyond due = st.phase1.2.1) := by
  unfold RingState.phase1
  split
  · exact ⟨fun _ h => h, nofun, .inr fun _ => rfl⟩
  · split
    · exact ⟨nofun, nofun, .inr fun _ => rfl⟩
    · split
      · exact ⟨fun _ h => h, nofun, .inr fun _ => rfl⟩
      · split
        · exact ⟨fun _ h => h, nofun, .inr fun _ => rfl⟩
        · split
          · exact ⟨fun _ h => h, nofun, .inr fun _ => rfl⟩
          · exact ⟨fun _ h => h, nofun, .inl ⟨_, rfl⟩⟩

/-- An interrupted read leaves nothing behind. -/
theorem phase3_interrupted (st : RingState) {e : IoError} (he : e.kind = .interrupted) :
    st.phase3 (.error e) = (st, .phase1, false) := by
  unfold RingState.phase3
  split
  · rfl
  · exact if_pos he

/-- Phase 3 records no interruption, and does not lead to a read. -/
theorem phase3_spares (st : RingState) (res : IoResult Bytes) :
    (∀ e, (st.phase3 res).1.surfaceErr = some e →
      st.surfaceErr = some e ∨ e.kind ≠ .interrupted) ∧
      (∀ e, (st.phase3 res).2.1 ≠ .seekFailed e) ∧
      ∀ due, (st.phase3 res).2.1.beyond due = (st.phase3 res).2.1 := by
  unfold RingState.phase3
  split
  · exact ⟨fun _ h => .inl h, nofun, fun _ => rfl⟩
  · split
    · exact ⟨fun _ h => .inl h, nofun, fun _ => rfl⟩
    · split <;> exact ⟨fun _ h => .inl h, nofun, fun _ => rfl⟩
    · split
      · exact ⟨fun _ h => .inl h, nofun, fun _ => rfl⟩
      · refine ⟨fun e h => .inr ?_, nofun, fun _ => rfl⟩
        cases h
        assumption

section

variable [ReadSeek ι] {s s' : BufferedSource (Interrupting ι)}

omit [ReadSeek ι] in
/-- A section of the worker ends alike on both sides. -/
theorem afterWorker_uninterrupted {r : RingState × WorkerPc × Bool}
    (h : r.2.1.beyond s.inner.due = r.2.1) :
    uninterrupted (s.afterWorker r) = (uninterrupted s).afterWorker r := by
  simp only [uninterrupted, afterWorker, h]

/-- A step of the worker is the same, or one of the three that an interrupted read adds. -/
theorem workerStep_uninterrupted (hinner : Uninterrupted s.inner.inner)
    (hseek : seekProceeds s .worker = true) (hs : WorkerCase s s') :
    (uninterrupted s).workerStep = some (uninterrupted s') ∨ uninterrupted s' = uninterrupted s := by
  cases hs with
  | phase1 hw =>
      rcases (phase1_spares s.st).2.2 with ⟨n, hread⟩ | hbeyond
      · rw [hread]
        cases hdue : s.inner.due with
        | some msg =>
            right
            simp [uninterrupted, afterWorker, hw, hdue, WorkerPc.beyond]
        | none =>
            left
            simp [workerStep, uninterrupted, afterWorker, hw, hdue, hread, WorkerPc.beyond]
      · left
        rw [afterWorker_uninterrupted (hbeyond _)]
        simp [workerStep, uninterrupted, hw, WorkerPc.beyond]
  | seeks hw h =>
      left
      have hbase := Interrupting.call_ok h
      simp [workerStep, uninterrupted, hw, hbase, WorkerPc.beyond]
  | refused hw h =>
      left
      have hdue : s.inner.due = none := by
        simpa only [seekProceeds, hw, Option.isNone_iff_eq_none] using hseek
      have hbase := Interrupting.call_of_due hdue h
      simp [workerStep, uninterrupted, hw, hbase, WorkerPc.beyond]
  | records hw =>
      left
      rw [afterWorker_uninterrupted rfl]
      simp [workerStep, uninterrupted, hw, WorkerPc.beyond]
  | unparks hw =>
      left
      simp [workerStep, uninterrupted, hw, WorkerPc.beyond]
  | @reads n res inner hw h =>
      cases hdue : s.inner.due with
      | some msg =>
          right
          obtain ⟨rfl, hkept⟩ := Interrupting.call_of_interrupted hdue h
          simp [uninterrupted, hw, hdue, hkept, WorkerPc.beyond]
      | none =>
          left
          have hbase := Interrupting.call_of_due hdue h
          have hres : (WorkerPc.readDone res).beyond inner.due = .readDone res :=
            WorkerPc.beyond_readDone (hinner.read hbase).1
          simp only [workerStep, uninterrupted, hw, hdue, hbase, hres, WorkerPc.beyond_reading]
  | @phase3 res hw =>
      by_cases hres : ∃ e, res = .error e ∧ e.kind = .interrupted
      · right
        obtain ⟨e, rfl, he⟩ := hres
        rw [phase3_interrupted s.st he]
        simp [uninterrupted, afterWorker, hw, he, WorkerPc.beyond]
      · left
        have hbeyond : (WorkerPc.readDone res).beyond s.inner.due = .readDone res :=
          WorkerPc.beyond_readDone fun e he hkind => hres ⟨e, he, hkind⟩
        rw [afterWorker_uninterrupted ((phase3_spares _ _).2.2 _)]
        simp only [workerStep, uninterrupted, hw, hbeyond]

end

/-! ### What is recorded -/

section

variable [Target] {st st' : RingState} {e : IoError}

omit [Target] in
/-- A drain leaves the error alone. -/
theorem drain_err {n : Nat} (h : st.drain n = some st') : st'.err = st.err := by
  unfold RingState.drain at h
  split at h
  · cases h
    rfl
  · cases h

/-- A pass leaves the error alone. -/
theorem readPass_err (st : RingState) (seam want pos : Nat) :
    (st.readPass seam want pos).2.1.err = st.err := by
  unfold RingState.readPass
  split
  · rfl
  · dsimp only
    split
    · split
      · rfl
      · split
        · split
          · rfl
          · exact drain_err ‹_›
        · rfl
    · split
      · rfl
      · split
        · rfl
        · split
          · rfl
          · split
            · split
              · rfl
              · rename_i hdrain
                obtain ⟨n, _, hn⟩ := Option.bind_eq_some_iff.mp hdrain
                exact drain_err hn
            · rfl

/-- A read leaves the recorded error in place. -/
theorem readLoop_err (seam want pos fuel : Nat) (st : RingState) :
    (st.readLoop seam want pos fuel).2.1.err = st.err := by
  induction fuel generalizing st with
  | zero => rfl
  | succ fuel ih =>
      have hpass := readPass_err st seam want pos
      unfold RingState.readLoop
      split
      · rename_i hagain
        rw [hagain] at hpass
        exact (ih _).trans hpass
      · exact hpass

end

/-- No interruption is recorded or about to be. -/
structure Undisturbed [ReadSeek ι] (s : BufferedSource (Interrupting ι)) : Prop where
  inner : Uninterrupted s.inner.inner
  pending : ∀ e, s.worker = .seekFailed e → e.kind ≠ .interrupted
  recorded : ∀ e, s.st.surfaceErr = some e → e.kind ≠ .interrupted

/-- A wakeup does not make a seek fail. -/
theorem WorkerPc.notify_eq_seekFailed {pc : WorkerPc} {e : IoError}
    (h : pc.notify = .seekFailed e) : pc = .seekFailed e := by
  cases pc with
  | parked => cases h
  | _ => exact h

section

variable [ReadSeek ι] {s s' : BufferedSource (Interrupting ι)} {o : Option IoObs}

/-- A step that calls neither the source nor records anything. -/
theorem Undisturbed.congr (h : Undisturbed s) {st : RingState} {pos : Nat} {reader : ReaderPc}
    (herr : ∀ e, st.surfaceErr = some e → s.st.surfaceErr = some e) (woke : Bool) :
    Undisturbed { s with
      st, pos, reader, worker := if woke then s.worker.notify else s.worker } := by
  refine ⟨h.inner, fun e he => ?_, fun e he => h.recorded e (herr e he)⟩
  cases woke with
  | false => exact h.pending e he
  | true => exact h.pending e (WorkerPc.notify_eq_seekFailed he)

/-- The worker is not disturbed while its seeks are not interrupted. -/
theorem Undisturbed.workerStep (h : Undisturbed s) (hseek : seekProceeds s .worker = true)
    (hs : WorkerCase s s') : Undisturbed s' := by
  cases hs with
  | phase1 hw =>
      obtain ⟨hrecorded, hpc, _⟩ := phase1_spares s.st
      exact ⟨h.inner, fun e he => absurd he (hpc e), fun e he => h.recorded e (hrecorded e he)⟩
  | seeks hw hcall =>
      exact ⟨(h.inner.seek (Interrupting.call_ok hcall)).2, nofun, h.recorded⟩
  | refused hw hcall =>
      have hdue : s.inner.due = none := by
        simpa only [seekProceeds, hw, Option.isNone_iff_eq_none] using hseek
      obtain ⟨hkind, hinner⟩ := h.inner.seek (Interrupting.call_of_due hdue hcall)
      refine ⟨hinner, fun e he => ?_, h.recorded⟩
      cases he
      exact hkind _ rfl
  | records hw =>
      refine ⟨h.inner, nofun, fun e he => ?_⟩
      cases he
      exact h.pending _ hw
  | unparks => exact ⟨h.inner, nofun, h.recorded⟩
  | reads hw hcall =>
      refine ⟨?_, nofun, h.recorded⟩
      cases hdue : s.inner.due with
      | none => exact (h.inner.read (Interrupting.call_of_due hdue hcall)).2
      | some msg =>
          rw [(Interrupting.call_of_interrupted hdue hcall).2]
          exact h.inner
  | @phase3 res hw =>
      obtain ⟨hrecorded, hpc, _⟩ := phase3_spares s.st res
      refine ⟨h.inner, fun e he => absurd he (hpc e), fun e he => ?_⟩
      exact (hrecorded e he).elim (h.recorded e) id

variable [Target]

/-- A read does not disturb. -/
theorem Undisturbed.afterRead (h : Undisturbed s) {want seam : Nat}
    (hs : s.afterRead want (s.st.readSection seam want s.pos) = some (s', o)) :
    Undisturbed s' := by
  have herr := readLoop_err seam want s.pos (s.st.buf.length + 1) s.st
  change (s.st.readSection seam want s.pos).2.1.err = s.st.err at herr
  generalize s.st.readSection seam want s.pos = r at herr hs
  obtain ⟨pass, st', woke⟩ := r
  have hsurface : ∀ e, st'.surfaceErr = some e → s.st.surfaceErr = some e := by
    intro e he
    rwa [RingState.surfaceErr, herr] at he
  cases pass with
  | returns => cases hs; exact h.congr hsurface woke
  | waits => cases hs; exact h.congr hsurface woke
  | panics => cases hs; exact h.congr hsurface woke
  | again => cases hs

/-- Every step keeps it that way as long as no seek of the worker is interrupted. -/
theorem Undisturbed.step (h : Undisturbed s) {a : Action} (hseek : seekProceeds s a = true)
    (hs : s.step a = some (s', o)) : Undisturbed s' := by
  cases step_cases hs with
  | worker hstep => exact h.workerStep hseek hstep
  | wakeup => exact ⟨h.inner, nofun, h.recorded⟩
  | readEmpty => exact h
  | read _ _ hs => exact h.afterRead hs
  | timeout => exact h.congr (fun _ he => he) false
  | resume _ hs => exact h.afterRead hs
  | seek _ hcase =>
      refine h.congr ?_ _
      cases hcase with
      | restarts =>
          intro e he
          by_cases hdead : s.st.workerDead = true
          · simpa only [RingState.surfaceErr, hdead, ite_true] using he
          · simp [RingState.surfaceErr, hdead] at he
      | _ => exact fun _ he => he
  | drop => exact ⟨h.inner, h.pending, h.recorded⟩
  | dropNotify => exact h.congr (fun _ he => he) true
  | join => exact h.congr (fun _ he => he) false

end

/-! ### The simulation -/

section

variable [Target] [ReadSeek ι] {inner : ι} {b : BufferedSourceBuilder}
  {s s' t : BufferedSource (Interrupting ι)} {o : Option IoObs}

/-- A step is matched by the same step without the interruptions, or is one of the worker's
that an interrupted read adds. -/
theorem step_simulated (h : Undisturbed s) {a : Action}
    (hs : ((machine (Interrupting ι)).guard seekProceeds).step s a = some (s', o)) :
    (machine ι).step (uninterrupted s) a = some (uninterrupted s', o) ∨
      o = none ∧ a.ofWorker = true ∧ uninterrupted s' = uninterrupted s := by
  obtain ⟨hseek, hs⟩ := Machine.guard_step hs
  change s.step a = some (s', o) at hs
  cases hworker : a.ofWorker with
  | false =>
      left
      change (uninterrupted s).step a = _
      rw [step_uninterrupted hworker, hs]
      rfl
  | true =>
      cases a with
      | worker =>
          cases hpoisoned : s.poisoned with
          | true =>
              unfold BufferedSource.step at hs
              rw [hpoisoned] at hs
              cases hs
          | false =>
              have hstep : s.workerStep.map (·, none) = some (s', o) := by
                simpa only [BufferedSource.step, hpoisoned, Bool.false_eq_true, ite_false] using hs
              obtain ⟨_, hown, heq⟩ := Option.map_eq_some_iff.mp hstep
              cases heq
              rcases workerStep_uninterrupted h.inner hseek (workerStep_cases hown) with
                hmatch | hsilent
              · left
                change (uninterrupted s).step .worker = _
                simp only [BufferedSource.step, poisoned_uninterrupted, hpoisoned, hmatch,
                  Bool.false_eq_true, ite_false, Option.map_some]
              · exact .inr ⟨rfl, rfl, hsilent⟩
      | _ => cases hworker

/-- `build` has probed the source without an interruption. -/
theorem build_uninterrupted {i : Interrupting ι} (hb : b.build i = some (.ok s)) :
    b.build i.inner = some (.ok (uninterrupted s)) := by
  unfold BufferedSourceBuilder.build at hb ⊢
  split at hb
  · cases hb
  · rename_i hfit
    rw [if_neg hfit]
    dsimp only at hb ⊢
    split at hb
    · cases hb
    · rename_i hpos
      split at hb
      · cases hb
      · rename_i hstop
        split at hb
        · cases hb
        · rename_i hstart
          cases hb
          have hpos' : streamPosition i.inner = _ := Interrupting.call_ok hpos
          have hstop' := Interrupting.call_ok hstop
          have hstart' := Interrupting.call_ok hstart
          simp only [hpos', hstop', hstart']
          rfl

/-- A source that was built is undisturbed. -/
theorem build_undisturbed {i : Interrupting ι} (hinner : Uninterrupted i.inner)
    (hb : b.build i = some (.ok s)) : Undisturbed s := by
  obtain ⟨_, pos, stop, i₁, i₂, q, h₁, h₂, h₃, hst, hworker, _⟩ := build_ok hb
  change ReadSeek.seek i (.fromCurrent 0) = (.ok pos, i₁) at h₁
  have hinner₁ := (hinner.seek (Interrupting.call_ok h₁)).2
  have hinner₂ := (hinner₁.seek (Interrupting.call_ok h₂)).2
  refine ⟨(hinner₂.seek (Interrupting.call_ok h₃)).2, ?_, ?_⟩
  · rw [hworker]
    exact nofun
  · rw [hst]
    exact nofun

/-- No interruption is visible in a run: the source without them has a run from its own
`build` with the same reader operations and results, and with fewer steps of the worker,
that leaves the same ring and the same position, and a worker that has exited exactly if
this one has. -/
structure Invisible (b : BufferedSourceBuilder) (inner : ι) (as : List Action)
    (os : List IoObs) (t : BufferedSource (Interrupting ι)) : Prop where
  matched : ∃ s₀ t₀ bs, b.build inner = some (.ok s₀) ∧ (machine ι).run s₀ bs = some (t₀, os) ∧
    bs.Sublist as ∧ bs.filter (!·.ofWorker) = as.filter (!·.ofWorker) ∧
    t₀.st = t.st ∧ t₀.pos = t.pos ∧ t₀.reader = t.reader ∧
    (t₀.worker = .exited ↔ t.worker = .exited)
  unrecorded : ∀ e, t.st.surfaceErr = some e → e.kind ≠ .interrupted

/-- Whatever a schedule interrupts but the worker's seeks is invisible. -/
theorem interruptions_invisible (hinner : Uninterrupted inner) {schedule : List (Option Message)}
    (hb : b.build (Interrupting.mk inner schedule) = some (.ok s)) {as : List Action}
    {os : List IoObs}
    (hrun : ((machine (Interrupting ι)).guard seekProceeds).run s as = some (t, os)) :
    Invisible b inner as os t := by
  have hstart := build_undisturbed hinner hb
  have hinv : ∀ {s a s' o}, Undisturbed s →
      ((machine (Interrupting ι)).guard seekProceeds).step s a = some (s', o) → Undisturbed s' := by
    intro s a s' o h hs
    obtain ⟨hseek, hs⟩ := Machine.guard_step hs
    exact h.step hseek hs
  have hsim : ∀ {s a s' o}, Undisturbed s →
      ((machine (Interrupting ι)).guard seekProceeds).step s a = some (s', o) →
      (machine ι).step (uninterrupted s) a = some (uninterrupted s', o) ∨
        o = none ∧ a.ofWorker = true ∧ uninterrupted s' = uninterrupted s :=
    fun h hs => step_simulated h hs
  obtain ⟨bs, hsub, hfilter, hmatched⟩ := Machine.run_simulate hinv hsim hstart hrun
  refine ⟨⟨_, _, bs, build_uninterrupted hb, hmatched, hsub, hfilter, rfl, rfl, rfl, ?_⟩, ?_⟩
  · exact WorkerPc.beyond_eq_iff nofun nofun nofun
  · exact (Machine.run_invariant hinv hstart hrun).recorded

end

/-- A cursor is never interrupted. -/
theorem Cursor.uninterrupted (c : Cursor) : Uninterrupted c := by
  refine ⟨fun _ => True, trivial, fun c _ n => ⟨nofun, trivial⟩, fun c _ f => ⟨?_, trivial⟩⟩
  intro e he
  change (c.seek f).1 = .error e at he
  unfold Cursor.seek at he
  split at he
  · cases he
  · cases he
    exact nofun

/-- The first call after `build` is interrupted. -/
def signalled (bytes : Bytes) : Interrupting Cursor where
  inner := .new bytes
  schedule := [none, none, none, some ["signal"]]

/-- The worker's first read is interrupted, and retried. -/
theorem interruptions_invisible_read : letI := target64
    ∃ t, runFrom ((machine (Interrupting Cursor)).guard seekProceeds) .default (signalled [7])
        [.worker, .worker, .worker, .worker, .worker, .worker, .read 1 0] =
        some (t, [.read 1 (.ok [7])]) ∧
      Invisible .default (Cursor.new [7])
        [.worker, .worker, .worker, .worker, .worker, .worker, .read 1 0]
        [.read 1 (.ok [7])] t := by
  let := target64
  have hrun : (runFrom ((machine (Interrupting Cursor)).guard seekProceeds) .default
      (signalled [7]) [.worker, .worker, .worker, .worker, .worker, .worker, .read 1 0]).map
      (·.2) = some [.read 1 (.ok [7])] := by
    decide +kernel
  obtain ⟨⟨t, os⟩, hrun, rfl⟩ := Option.map_eq_some_iff.mp hrun
  obtain ⟨s, hb, hs⟩ := runFrom_eq_some hrun
  exact ⟨t, hrun, interruptions_invisible (Cursor.uninterrupted _) hb hs⟩

/-- The worker's first seek is interrupted, and the source has failed for good. -/
theorem interrupted_seek_recorded : letI := target64
    ¬ ∀ (schedule : List (Option Message)) (s t : BufferedSource (Interrupting Cursor)) as os,
      BufferedSourceBuilder.default.build (Interrupting.mk (Cursor.new [7, 8]) schedule) =
        some (.ok s) →
      (machine (Interrupting Cursor)).run s as = some (t, os) →
      Invisible .default (Cursor.new [7, 8]) as os t := by
  let := target64
  intro hall
  have hrun : (runFrom (machine (Interrupting Cursor)) .default (signalled [7, 8])
      [.seek (.fromStart 1), .worker, .worker, .worker, .read 1 0]).map
      (fun r => (r.2, r.1.st.surfaceErr)) =
      some ([.seek (.fromStart 1) (.ok 1), .read 1 (.error ⟨.interrupted, ["signal"]⟩)],
        some ⟨.interrupted, ["signal"]⟩) := by
    decide +kernel
  obtain ⟨⟨t, os⟩, hrun, hobs⟩ := Option.map_eq_some_iff.mp hrun
  obtain ⟨s, hb, hs⟩ := runFrom_eq_some hrun
  exact (hall _ s t _ _ hb hs).unrecorded _ (Prod.mk.inj hobs).2 rfl

end BufferedSource

end OxideSource
