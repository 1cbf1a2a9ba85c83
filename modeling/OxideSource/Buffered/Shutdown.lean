import OxideSource.Buffered.Wakeups

/-!
# Dropping a buffered source

Once `drop` has set `stop` and notified, every step brings the worker closer to its exit
and the reader closer to the end of its `join`. Nothing is assumed of the inner source but
that its calls return.
-/

namespace OxideSource

/-- The steps that a worker takes to its exit once `stop` is set. -/
@[simp] def WorkerPc.remaining : WorkerPc → Nat
  | .reading _ => 3
  | .seeking _ => 2
  | .readDone _ => 2
  | .parked _ => 2
  | .phase1 => 1
  | .seekFailed _ => 1
  | .exited => 0
  | .panicked => 0

/-- The calls of the inner source among them. -/
@[simp] def WorkerPc.owed : WorkerPc → Nat
  | .reading _ => 1
  | .seeking _ => 1
  | _ => 0

/-- At most three steps are left to a worker that is stopped. -/
theorem WorkerPc.remaining_le (pc : WorkerPc) : pc.remaining ≤ 3 := by
  cases pc <;> simp

/-- At most one inner call is left to it. -/
theorem WorkerPc.owed_le (pc : WorkerPc) : pc.owed ≤ 1 := by
  cases pc <;> simp

/-- A notified worker is not asleep. -/
theorem WorkerPc.notify_ne_parked (pc : WorkerPc) : pc.notify ≠ .parked false := by
  cases pc <;> exact nofun

/-- A wakeup does not panic. -/
theorem WorkerPc.notify_ne_panicked (pc : WorkerPc) (h : pc ≠ .panicked) :
    pc.notify ≠ .panicked := by
  cases pc with
  | panicked => exact h
  | _ => exact nofun

/-- A wakeup changes a waiting reader only. -/
theorem ReaderPc.notify_eq {r r' : ReaderPc} (h : r.notify = r')
    (hr : ∀ want notified, r' ≠ .waiting want notified) : r = r' := by
  cases r with
  | waiting want notified => exact absurd h.symm (hr want true)
  | _ => exact h

namespace RingState

variable {st : RingState}

/-- A stopped worker exits in its first section. -/
theorem phase1_of_stop (hstop : st.stop = true) : st.phase1 = (st, .exited, false) := if_pos hstop

/-- A stopped worker drops what it has read. -/
theorem phase3_of_stop (hstop : st.stop = true) (res : IoResult Bytes) :
    st.phase3 res = (st, .phase1, false) := by
  apply if_pos
  rw [hstop, Bool.or_true]

end RingState

namespace BufferedSource

/-- The calls of the inner source that the worker has made, as a history variable. -/
def countCall {ι : Type} (n : Nat) (s : BufferedSource ι) (a : Action) (_ : BufferedSource ι) :
    Nat :=
  match a with
  | .worker => n + s.worker.owed
  | _ => n

section

variable {ι : Type} [ReadSeek ι] {s s' : BufferedSource ι} {o : Option IoObs}

/-- What a step of the worker does once `stop` is set. -/
structure Winds (s s' : BufferedSource ι) : Prop where
  stop : s'.st.stop = true
  buf : s'.st.buf = s.st.buf
  ringStart : s'.st.ringStart = s.st.ringStart
  remaining : s'.worker.remaining < s.worker.remaining
  owed : s'.worker.owed = 0
  awake : ∀ notified, s'.worker ≠ .parked notified
  sound : s'.worker ≠ .panicked

/-- Every step of a stopped worker winds it down. -/
theorem WorkerCase.winds (h : WorkerCase s s') (hstop : s.st.stop = true) : Winds s s' := by
  cases h with
  | phase1 hw =>
      rw [RingState.phase1_of_stop hstop]
      exact ⟨hstop, rfl, rfl, by simp [hw, afterWorker], rfl, nofun, nofun⟩
  | phase3 hw =>
      rw [RingState.phase3_of_stop hstop]
      exact ⟨hstop, rfl, rfl, by simp [hw, afterWorker], rfl, nofun, nofun⟩
  | seeks hw => exact ⟨hstop, rfl, rfl, by simp [hw], rfl, nofun, nofun⟩
  | refused hw => exact ⟨hstop, rfl, rfl, by simp [hw], rfl, nofun, nofun⟩
  | records hw => exact ⟨hstop, rfl, rfl, by simp [hw, afterWorker], rfl, nofun, nofun⟩
  | unparks hw => exact ⟨hstop, rfl, rfl, by simp [hw], rfl, nofun, nofun⟩
  | reads hw => exact ⟨hstop, rfl, rfl, by simp [hw], rfl, nofun, nofun⟩

/-- A reader that does not wait stays where it is while the worker moves. -/
theorem workerStep_reader_eq (h : WorkerCase s s') {r : ReaderPc} (hr : s'.reader = r)
    (hne : ∀ want notified, r ≠ .waiting want notified) : s.reader = r := by
  rcases workerStep_reader h with heq | heq
  · exact heq.symm.trans hr
  · exact ReaderPc.notify_eq (heq.symm.trans hr) hne

omit [ReadSeek ι] in
/-- The critical section of a read leaves the reader outside `drop`. -/
theorem afterRead_reader {want : Nat} {r : Pass × RingState × Bool}
    (hs : s.afterRead want r = some (s', o)) :
    s'.reader ≠ .dropping ∧ s'.reader ≠ .joining ∧ s'.reader ≠ .dropped := by
  obtain ⟨pass, st', woke⟩ := r
  cases pass <;> cases hs <;> exact ⟨nofun, nofun, nofun⟩

variable [Target]

/-- A step is taken only with the mutex intact. -/
theorem step_sound {a : Action} (hs : s.step a = some (s', o)) : s.worker ≠ .panicked := by
  intro hw
  unfold BufferedSource.step poisoned at hs
  rw [hw] at hs
  cases hs

/-- What holds in the three stages of `drop`. -/
structure Stopping (s : BufferedSource ι) : Prop where
  dropping : s.reader = .dropping → s.st.stop = true ∧ s.worker ≠ .panicked
  joining : s.reader = .joining →
    s.st.stop = true ∧ s.worker ≠ .panicked ∧ s.worker ≠ .parked false
  dropped : s.reader = .dropped → s.st.stop = true ∧ s.worker = .exited

omit [ReadSeek ι] [Target] in
/-- Outside `drop` nothing is promised. -/
theorem Stopping.of_outside
    (h : s.reader ≠ .dropping ∧ s.reader ≠ .joining ∧ s.reader ≠ .dropped) : Stopping s :=
  ⟨fun hr => absurd hr h.1, fun hr => absurd hr h.2.1, fun hr => absurd hr h.2.2⟩

omit [Target] in
/-- The worker keeps to the stop. -/
theorem Stopping.workerStep (h : Stopping s) (hs : WorkerCase s s') : Stopping s' := by
  constructor
  · intro hr
    have hwinds := hs.winds (h.dropping (workerStep_reader_eq hs hr nofun)).1
    exact ⟨hwinds.stop, hwinds.sound⟩
  · intro hr
    have hwinds := hs.winds (h.joining (workerStep_reader_eq hs hr nofun)).1
    exact ⟨hwinds.stop, hwinds.sound, hwinds.awake false⟩
  · intro hr
    have hexited := (h.dropped (workerStep_reader_eq hs hr nofun)).2
    exact absurd hexited hs.ne_exited

/-- Every step keeps to the stop. -/
theorem Stopping.step (h : Stopping s) {a : Action} (hs : s.step a = some (s', o)) :
    Stopping s' := by
  have hsound := step_sound hs
  cases step_cases hs with
  | worker hstep => exact h.workerStep hstep
  | wakeup hw =>
      refine ⟨fun hr => ⟨(h.dropping hr).1, nofun⟩, fun hr => ⟨(h.joining hr).1, nofun, nofun⟩, ?_⟩
      intro hr
      have hexited := (h.dropped hr).2
      rw [hw] at hexited
      cases hexited
  | readEmpty => exact h
  | read _ _ hs => exact .of_outside (afterRead_reader hs)
  | timeout => exact .of_outside ⟨nofun, nofun, nofun⟩
  | resume _ hs => exact .of_outside (afterRead_reader hs)
  | seek hidle => exact .of_outside (by rw [hidle]; exact ⟨nofun, nofun, nofun⟩)
  | drop => exact ⟨fun _ => ⟨rfl, hsound⟩, nofun, nofun⟩
  | dropNotify hdrop =>
      obtain ⟨hstop, _⟩ := h.dropping hdrop
      exact ⟨nofun, fun _ => ⟨hstop, s.worker.notify_ne_panicked hsound,
        s.worker.notify_ne_parked⟩, nofun⟩
  | join hjoin hw => exact ⟨nofun, nofun, fun _ => ⟨(h.joining hjoin).1, hw⟩⟩

/-! ### From the notification on -/

omit [ReadSeek ι] [Target] in
/-- The steps left to the worker, and to a reader in `join`. -/
def stepsLeft (s : BufferedSource ι) : Nat :=
  s.worker.remaining + if s.reader = .joining then 1 else 0

/-- What stays as it was in `t` while the worker leaves. -/
structure Leaving (t s : BufferedSource ι) : Prop where
  stopping : Stopping s
  reader : s.reader = .joining ∨ s.reader = .dropped
  buf : s.st.buf = t.st.buf
  ringStart : s.st.ringStart = t.st.ringStart

omit [ReadSeek ι] [Target] in
/-- A source that is being left is stopped. -/
theorem Leaving.stop {t : BufferedSource ι} (h : Leaving t s) : s.st.stop = true := by
  rcases h.reader with hr | hr
  · exact (h.stopping.joining hr).1
  · exact (h.stopping.dropped hr).1

omit [ReadSeek ι] [Target] in
/-- A worker that has not exited was left by a reader that still joins it. -/
theorem Leaving.joining {t : BufferedSource ι} (h : Leaving t s) (hw : s.worker ≠ .exited) :
    s.reader = .joining :=
  h.reader.resolve_right fun hr => hw (h.stopping.dropped hr).2

/-- A step of a dropped source: the ring stays, the steps left are fewer, the calls made
are those no longer owed, and the worker does not park. -/
theorem Leaving.step {t : BufferedSource ι} (h : Leaving t s) {a : Action}
    (hs : s.step a = some (s', o)) :
    Leaving t s' ∧ stepsLeft s' < stepsLeft s ∧
      (∀ n, countCall n s a s' + s'.worker.owed ≤ n + s.worker.owed) ∧
      ∀ notified, s'.worker ≠ .parked notified := by
  have hstopping := h.stopping.step hs
  have hreader := h.reader
  cases step_cases hs with
  | worker hstep =>
      have hwinds := hstep.winds h.stop
      have hjoin := h.joining hstep.ne_exited
      have hjoin' : s'.reader = .joining := by
        rcases workerStep_reader hstep with heq | heq
        · exact heq.trans hjoin
        · rw [heq, hjoin]
          rfl
      refine ⟨⟨hstopping, .inl hjoin', hwinds.buf.trans h.buf,
        hwinds.ringStart.trans h.ringStart⟩, ?_, ?_, hwinds.awake⟩
      · have hlt := hwinds.remaining
        simp only [stepsLeft, hjoin, hjoin', ite_true]
        omega
      · intro n
        rw [hwinds.owed]
        exact Nat.le_refl _
  | wakeup hw =>
      have hjoin := h.joining (by rw [hw]; exact nofun)
      refine ⟨⟨hstopping, h.reader, h.buf, h.ringStart⟩, ?_, ?_, nofun⟩
      · simp [stepsLeft, hw]
      · simp [countCall]
  | join hjoin hw =>
      refine ⟨⟨hstopping, .inr rfl, h.buf, h.ringStart⟩, ?_, ?_, ?_⟩
      · simp [stepsLeft, hjoin]
      · simp [countCall]
      · rw [hw]
        exact nofun
  | readEmpty hidle => simp [hidle] at hreader
  | read hidle => simp [hidle] at hreader
  | timeout hwait => simp [hwait] at hreader
  | resume hwait => simp [hwait] at hreader
  | seek hidle => simp [hidle] at hreader
  | drop hidle => simp [hidle] at hreader
  | dropNotify hdrop => simp [hdrop] at hreader

omit [Target] in
/-- Only an exited, a panicked and a sleeping worker take no step. -/
theorem workerStep_isSome (hexited : s.worker ≠ .exited) (hsound : s.worker ≠ .panicked)
    (hawake : s.worker ≠ .parked false) : ∃ s', s.workerStep = some s' := by
  unfold workerStep
  cases hw : s.worker with
  | seeking target =>
      rcases hseek : ReadSeek.seek s.inner (.fromStart (.ofNat target)) with ⟨res, inner⟩
      cases res <;> (simp only [hseek]; exact ⟨_, rfl⟩)
  | parked notified =>
      cases notified with
      | false => exact absurd hw hawake
      | true => exact ⟨_, rfl⟩
  | exited => exact absurd hw hexited
  | panicked => exact absurd hw hsound
  | _ => exact ⟨_, rfl⟩

/-- A dropped source is never stuck before the `join` has returned. -/
theorem Leaving.proceeds {t : BufferedSource ι} (h : Leaving t s) (hr : s.reader ≠ .dropped) :
    (s.worker = .exited ∧ s.step .join = some ({ s with reader := .dropped }, none)) ∨
      ∃ s', s.step .worker = some (s', none) := by
  have hjoin := h.reader.resolve_right hr
  obtain ⟨_, hsound, hawake⟩ := h.stopping.joining hjoin
  have hwhole : s.poisoned = false := by
    unfold poisoned
    rw [hjoin]
    cases hw : s.worker with
    | panicked => exact absurd hw hsound
    | _ => rfl
  by_cases hw : s.worker = .exited
  · refine .inl ⟨hw, ?_⟩
    simp only [BufferedSource.step, hwhole, hjoin, hw, Bool.false_eq_true, ite_false]
  · obtain ⟨s', hs'⟩ := workerStep_isSome hw hsound hawake
    refine .inr ⟨s', ?_⟩
    simp only [BufferedSource.step, hwhole, hs', Bool.false_eq_true, ite_false, Option.map_some]

/-- How a dropped source winds down along a run `as` from `t` to `u`. -/
structure WindsDown (t u : BufferedSource ι) (as : List Action) : Prop where
  /-- At most one more call of the inner source. -/
  calls : (machine ι).history countCall 0 t as ≤ 1
  /-- Three steps of the worker and the return of `join`. -/
  steps : as.length ≤ 4
  buf : u.st.buf = t.st.buf
  ringStart : u.st.ringStart = t.st.ringStart
  awake : ∀ {a u' o}, u.step a = some (u', o) → ∀ notified, u'.worker ≠ .parked notified
  exited : u.reader = .dropped → u.worker = .exited
  proceeds : u.reader ≠ .dropped →
    (u.worker = .exited ∧ u.step .join = some ({ u with reader := .dropped }, none)) ∨
      ∃ u', u.step .worker = some (u', none)

/-- From every state in which `drop` has set `stop` and notified, every run winds down: it
is short, goes on until the `join` has returned, makes at most one more call of the inner
source, and leaves the ring alone. -/
theorem drop_completes {b : BufferedSourceBuilder} {inner : ι} {t u : BufferedSource ι}
    (hb : b.build inner = some (.ok s)) (hreach : (machine ι).Reach s t)
    (hjoin : t.reader = .joining) {as : List Action} {os : List IoObs}
    (hrun : (machine ι).run t as = some (u, os)) : WindsDown t u as := by
  have hstart : Stopping s := by
    obtain ⟨_, _, _, _, _, _, _, _, _, _, _, _, hreader⟩ := build_ok hb
    exact .of_outside (by rw [hreader]; exact ⟨nofun, nofun, nofun⟩)
  have hstopping : Stopping t := hreach.invariant (fun hI hs => hI.step hs) hstart
  have ht : Leaving t t := ⟨hstopping, .inl hjoin, rfl, rfl⟩
  have hcalls : Leaving t u ∧ (machine ι).history countCall 0 t as + u.worker.owed ≤ 1 :=
    Machine.run_history (I := fun u n => Leaving t u ∧ n + u.worker.owed ≤ 1)
      (fun hI hs => ⟨(hI.1.step hs).1, ((hI.1.step hs).2.2.1 _).trans hI.2⟩)
      ⟨ht, (Nat.zero_add _).le.trans t.worker.owed_le⟩ hrun
  have hlength : as.length + stepsLeft u ≤ stepsLeft t :=
    Machine.run_length_le (I := Leaving t)
      (fun hI hs => ⟨(hI.step hs).1, (hI.step hs).2.1⟩) ht hrun
  obtain ⟨hu, howed⟩ := hcalls
  have hrank : stepsLeft t ≤ 4 := by
    have hle := t.worker.remaining_le
    simp only [stepsLeft, hjoin, ite_true]
    omega
  exact ⟨by omega, by omega, hu.buf, hu.ringStart, fun hs => (hu.step hs).2.2.2,
    fun hr => (hu.stopping.dropped hr).2, hu.proceeds⟩

end

/-- A worker dropped on its way into the inner source reads once more and exits. -/
theorem drop_completes_reading : letI := target64
    ∃ t u, runFrom (machine Cursor) .default (Cursor.new [7]) [.worker, .drop, .dropNotify] =
        some (t, []) ∧
      (machine Cursor).run t [.worker, .worker, .worker, .join] = some (u, []) ∧
      u.reader = .dropped ∧ WindsDown t u [.worker, .worker, .worker, .join] := by
  let := target64
  have hrun : (runFrom (machine Cursor) .default (Cursor.new [7])
      [.worker, .drop, .dropNotify]).map (fun r => (r.2, r.1.reader,
        ((machine Cursor).run r.1 [.worker, .worker, .worker, .join]).map
          fun q => (q.2, q.1.reader))) = some ([], .joining, some ([], .dropped)) := by
    decide +kernel
  obtain ⟨⟨t, os⟩, hrun, hobs⟩ := Option.map_eq_some_iff.mp hrun
  simp only [Prod.mk.injEq] at hobs
  obtain ⟨rfl, hjoin, hlater⟩ := hobs
  obtain ⟨⟨u, os⟩, hlater, hobs⟩ := Option.map_eq_some_iff.mp hlater
  simp only [Prod.mk.injEq] at hobs
  obtain ⟨rfl, hdropped⟩ := hobs
  obtain ⟨s, hb, hs⟩ := runFrom_eq_some hrun
  exact ⟨t, u, hrun, hlater, hdropped, drop_completes hb ⟨_, _, hs⟩ hjoin hlater⟩

end BufferedSource

end OxideSource
