import OxideSource.Buffered.Refines
import OxideSource.Buffered.Timeouts
import OxideSource.Buffered.Shutdown

/-!
# A waiting read is served

While a read waits for the worker, the worker always has a step to take, and each of its
steps brings the next deposit, the end or a failure closer, but for an interrupted read
of the inner source, which is made again. Nothing is assumed about how the two threads
are scheduled.
-/

namespace OxideSource

/-- The read was interrupted. -/
def interruptedRead (res : IoResult Bytes) : Bool :=
  match res with
  | .error e => decide (e.kind = .interrupted)
  | .ok _ => false

/-- The steps of the worker before a waiting reader can be served, when no read of the
inner source is interrupted from here on. With a seek pending, what the worker is doing is
for nothing. -/
def WorkerPc.distance (pending : Bool) : WorkerPc → Nat
  | .reading _ => if pending then 7 else 2
  | .readDone res => if pending then 6 else if interruptedRead res then 4 else 1
  | .phase1 => if pending then 5 else 3
  | .seeking _ => if pending then 6 else 4
  | .parked _ => if pending then 6 else 4
  | .seekFailed _ => 1
  | .exited => 0
  | .panicked => 0

theorem WorkerPc.distance_le (pending : Bool) (pc : WorkerPc) : pc.distance pending ≤ 7 := by
  cases pc <;> simp only [distance] <;> repeat' split
  all_goals decide

theorem WorkerPc.distance_notify (pending : Bool) (pc : WorkerPc) :
    pc.notify.distance pending = pc.distance pending := by
  cases pc <;> rfl

namespace BufferedSource

/-- What a wait has cost: the steps of the worker, and the reads that were interrupted. -/
structure Effort where
  turns : Nat
  interruptions : Nat
  deriving DecidableEq

section

variable {ι : Type} [ReadSeek ι]

/-- The worker is about to make a read that is interrupted. -/
def interruption (s : BufferedSource ι) : Nat :=
  match s.worker with
  | .reading n => if interruptedRead (ReadSeek.read s.inner n).1 then 1 else 0
  | _ => 0

/-- Effort as a history variable. -/
def spend (e : Effort) (s : BufferedSource ι) (a : Action) (_ : BufferedSource ι) : Effort :=
  match a with
  | .worker => ⟨e.turns + 1, e.interruptions + s.interruption⟩
  | _ => e

omit [ReadSeek ι] in
/-- How far a waiting reader is from being served. -/
def distance (s : BufferedSource ι) : Nat := s.worker.distance s.st.targetPos.isSome

variable [Target] {F : Faults} {D : Bytes} {s s' : BufferedSource ι} {o : Option IoObs}

omit [Target] [ReadSeek ι] in
theorem waiting_of_notify {r : ReaderPc} {want : Nat} {notified : Bool}
    (h : r.notify = .waiting want notified) : ∃ n, r = .waiting want n := by
  cases r with
  | waiting w n =>
      cases h
      exact ⟨n, rfl⟩
  | _ => cases h

omit [Target] in
/-- The worker does not end a wait, nor begin one. -/
theorem WorkerCase.waiting (h : WorkerCase s s') {want : Nat} :
    (∃ n, s'.reader = .waiting want n) ↔ ∃ n, s.reader = .waiting want n := by
  constructor
  · rintro ⟨n, hn⟩
    rcases workerStep_reader h with heq | heq
    · exact ⟨n, heq.symm.trans hn⟩
    · exact waiting_of_notify (heq.symm.trans hn)
  · rintro ⟨n, hn⟩
    rcases workerStep_reader h with heq | heq
    · exact ⟨n, heq.trans hn⟩
    · exact ⟨true, by rw [heq, hn]; rfl⟩

/-- Nothing for the reader: it stands at the tail of a ring that goes on. -/
theorem Tracks.unserved_iff (h : Tracks F D s) : Unserved s ↔
    s.pos = s.st.tail ∧ s.st.eof = false ∧ s.st.err = none ∧ s.st.pastEnd s.pos = false := by
  have hlo := h.ring.lo
  have hhi := h.ring.hi
  constructor
  · rintro ⟨hempty, heof, herr, hend⟩
    refine ⟨?_, heof, herr, hend⟩
    by_contra hne
    exact hempty ⟨hlo, by omega⟩
  · rintro ⟨hpos, heof, herr, hend⟩
    exact ⟨fun hlt => by omega, heof, herr, hend⟩

/-- A reader that waits at the tail of the ring has left room there. -/
def Roomy (s : BufferedSource ι) : Prop :=
  ∀ want notified, s.reader = .waiting want notified → s.pos = s.st.tail →
    s.st.buf.length < s.st.capacity

theorem Roomy.step (hr : Roomy s) (h : Consistent F D s) {a : Action}
    (hs : s.step a = some (s', o)) : Roomy s' := by
  have hafter : ∀ {want seam : Nat},
      s.afterRead want (s.st.readSection seam want s.pos) = some (s', o) → Roomy s' := by
    intro want seam hs w n hw _
    have hsettled := h.orderly.settled seam want
    generalize s.st.readSection seam want s.pos = r at hs hsettled
    obtain ⟨pass, st', woke⟩ := r
    cases pass with
    | waits =>
        obtain ⟨rfl, _⟩ := Prod.mk.inj (Option.some.inj hs)
        obtain ⟨htrim, _, _, hroom⟩ := hsettled
        have hlen := (Trimmed.keeps htrim).2.1 h.orderly.length
        exact Nat.lt_of_le_of_ne hlen hroom
    | returns res pos =>
        obtain ⟨rfl, _⟩ := Prod.mk.inj (Option.some.inj hs)
        cases hw
    | again => cases hs
    | panics =>
        obtain ⟨rfl, _⟩ := Prod.mk.inj (Option.some.inj hs)
        cases hw
  cases step_cases hs with
  | worker hstep =>
      intro want n hw hpos
      obtain ⟨n', hw'⟩ := hstep.waiting.mp ⟨n, hw⟩
      have hold := hr want n' hw'
      cases hstep with
      | phase1 =>
          have hspec := h.orderly.phase1Case
          generalize s.st.phase1 = r at hspec hpos
          cases hspec with
          | restarts => exact (Nat.zero_le _).trans_lt h.orderly.rear
          | _ => exact hold hpos
      | phase3 hworker =>
          have hspec := h.orderly.phase3Case hworker
          generalize s.st.phase3 _ = r at hspec hpos
          cases hspec with
          | deposits _ _ _ hne =>
              have hhi := h.tracks.ring.hi
              have hlen := List.length_pos_iff.mpr hne
              simp only [afterWorker, RingState.tail, List.length_append] at hpos hhi
              omega
          | _ => exact hold hpos
      | _ => exact hold hpos
  | wakeup => exact hr
  | readEmpty => exact hr
  | read _ _ hs => exact hafter hs
  | resume _ hs => exact hafter hs
  | timeout =>
      intro _ _ hw
      cases hw
  | seek hidle =>
      intro want n hw
      rw [show s.reader = .waiting want n from hw] at hidle
      cases hidle
  | drop =>
      intro _ _ hw
      cases hw
  | dropNotify =>
      intro _ _ hw
      cases hw
  | join =>
      intro _ _ hw
      cases hw

/-- A read waits in a reachable state. -/
structure Waits (F : Faults) (D : Bytes) (want : Nat) (s : BufferedSource ι) : Prop where
  consistent : Consistent F D s
  roomy : Roomy s
  reader : ∃ notified, s.reader = .waiting want notified

variable {want : Nat}

theorem Waits.running (h : Waits F D want s) : s.st.stop = false := by
  obtain ⟨notified, hw⟩ := h.reader
  have hreader := h.consistent.orderly.reader
  rw [hw] at hreader
  exact hreader.2.1

/-- Where a worker is not exited, it has not failed; where it has, a reader is served. -/
theorem Waits.alive (h : Waits F D want s) (hu : Unserved s) : s.worker ≠ .exited := by
  intro hw
  have hworker := h.consistent.orderly.worker
  rw [hw] at hworker
  rcases hworker with hdead | hstop
  · exact h.consistent.orderly.sticky.mpr hdead hu.err
  · rw [h.running] at hstop
    cases hstop

/-- A worker does not sleep while an unserved reader waits. -/
theorem Waits.awake (h : Waits F D want s) (hu : Unserved s) : s.worker ≠ .parked false := by
  intro hw
  obtain ⟨notified, hreader⟩ := h.reader
  have hworker := h.consistent.orderly.worker
  rw [hw, hreader] at hworker
  obtain ⟨hpos, heof, _⟩ := h.consistent.tracks.unserved_iff.mp hu
  rcases hworker with hdrop | ⟨_, _, hend | hfull⟩
  · cases hdrop
  · rw [heof] at hend
    cases hend
  · have hroom := h.roomy want notified hreader hpos
    omega

/-- A wait that the reader is woken from in vain leaves everything but old bytes. -/
theorem Waits.woken (h : Waits F D want s) {want' seam : Nat}
    (hs : s.afterRead want' (s.st.readSection seam want' s.pos) = some (s', none)) :
    Unserved s ∧ (∃ n, s'.reader = .waiting want' n) ∧ s'.distance = s.distance := by
  have hcase := h.consistent.tracks.readCase h.consistent.orderly seam want'
  generalize s.st.readSection seam want' s.pos = r at hs hcase
  cases hcase with
  | @waits st' woke hpos herr heof hend htrim =>
      obtain ⟨rfl, _⟩ := Prod.mk.inj (Option.some.inj hs)
      refine ⟨h.consistent.tracks.unserved_iff.mpr ⟨hpos, heof, herr, hend⟩, ⟨false, rfl⟩, ?_⟩
      have htarget : st'.targetPos = s.st.targetPos := by
        rcases htrim with rfl | ⟨k, _, rfl, _⟩ <;> rfl
      simp only [distance, htarget]
      split
      · exact s.worker.distance_notify _
      · rfl
  | hit => cases (Prod.mk.inj (Option.some.inj hs)).2
  | failed => cases (Prod.mk.inj (Option.some.inj hs)).2
  | ended => cases (Prod.mk.inj (Option.some.inj hs)).2

omit [Target] in
/-- A call of the worker on the inner source, or its way from one section to the next. -/
theorem distance_of_moves {worker : WorkerPc} {inner : ι}
    (hd : worker.distance s.st.targetPos.isSome + 1 ≤
      s.worker.distance s.st.targetPos.isSome + 3 * s.interruption)
    (hu' : Unserved { s with worker, inner }) :
    Unserved s ∧ distance { s with worker, inner } + 1 ≤ s.distance + 3 * s.interruption :=
  ⟨⟨hu'.empty, hu'.eof, hu'.err, hu'.before_end⟩, hd⟩

/-- A seek that the worker is about to take up leaves the reader as far from bytes as it
was: the ring was emptied when the seek was made. -/
theorem Tracks.unserved_of_restart (h : Tracks F D s) (ho : Orderly s) (herr : s.st.err = none)
    {target : Nat} (htarget : s.st.targetPos = some target)
    (heof : s.st.pastEnd target = false) (hend : s.st.pastEnd s.pos = false) : Unserved s := by
  have hnil := ho.pending (by rw [htarget]; exact nofun)
  have hstart := h.target target htarget
  have htail : s.st.tail = s.st.ringStart := by rw [RingState.tail, hnil, List.length_nil]; rfl
  have hlo := h.ring.lo
  have hhi := h.ring.hi
  refine h.unserved_iff.mpr ⟨by omega, ?_, herr, hend⟩
  cases he : s.st.eof with
  | false => rfl
  | true =>
      have hover := h.eof he
      simp only [RingState.pastEnd, h.total, decide_eq_false_iff_not] at heof
      omega

/-- A step of the worker that leaves the reader unserved brings it closer, but for an
interrupted read. -/
theorem Waits.worker_closer (h : Waits F D want s) (hstep : WorkerCase s s')
    (hu' : Unserved s') :
    Unserved s ∧ s'.distance + 1 ≤ s.distance + 3 * s.interruption := by
  have htracks := h.consistent.tracks
  have horderly := h.consistent.orderly
  have hrunning := h.running
  cases hstep with
  | phase1 hw =>
      have hspec := horderly.phase1Case
      have herr := (horderly.healthy (by rw [hw]; exact nofun)).2
      generalize s.st.phase1 = r at hspec hu'
      cases hspec with
      | stops hstop =>
          rw [hrunning] at hstop
          cases hstop
      | @restarts target _ htarget =>
          refine ⟨htracks.unserved_of_restart horderly herr htarget hu'.eof hu'.before_end, ?_⟩
          simp [distance, afterWorker, WorkerPc.distance, hw, htarget]
      | parks _ _ hfull =>
          have hu : Unserved s := ⟨hu'.empty, hu'.eof, hu'.err, hu'.before_end⟩
          obtain ⟨notified, hreader⟩ := h.reader
          have hroom := h.roomy want notified hreader (htracks.unserved_iff.mp hu).1
          rcases hfull with heof | hfull
          · rw [hu.eof] at heof
            cases heof
          · omega
      | reads _ htarget =>
          refine ⟨⟨hu'.empty, hu'.eof, hu'.err, hu'.before_end⟩, ?_⟩
          simp [distance, afterWorker, WorkerPc.distance, hw, htarget]
  | seeks hw =>
      refine distance_of_moves ?_ hu'
      cases hp : s.st.targetPos <;> simp [WorkerPc.distance, hw]
  | refused hw =>
      refine distance_of_moves ?_ hu'
      have hclose : 2 ≤ s.worker.distance s.st.targetPos.isSome := by
        cases hp : s.st.targetPos <;> simp [WorkerPc.distance, hw]
      change 1 + 1 ≤ _
      omega
  | records hw => cases hu'.err
  | unparks hw =>
      refine distance_of_moves ?_ hu'
      cases hp : s.st.targetPos <;> simp [WorkerPc.distance, hw]
  | @reads n res inner hw hread =>
      refine distance_of_moves ?_ hu'
      have hres : (ReadSeek.read s.inner n).1 = res := congrArg Prod.fst hread
      cases hi : interruptedRead res <;> cases hp : s.st.targetPos <;>
        simp [WorkerPc.distance, interruption, hw, hres, hi]
  | @phase3 res hw =>
      have hspec := horderly.phase3Case hw
      generalize s.st.phase3 res = r at hspec hu'
      cases hspec with
      | stale hstale =>
          refine ⟨⟨hu'.empty, hu'.eof, hu'.err, hu'.before_end⟩, ?_⟩
          have hpending : s.st.targetPos.isSome = true := by
            rcases hstale with ht | hstop
            · exact Option.isSome_iff_ne_none.mpr ht
            · rw [hrunning] at hstop
              cases hstop
          simp [distance, afterWorker, WorkerPc.distance, hw, hpending]
      | ended => cases hu'.eof
      | @deposits bs _ _ _ hne =>
          have hlo := htracks.ring.lo
          have hhi := htracks.ring.hi
          have hlen := List.length_pos_iff.mpr hne
          refine absurd ⟨hlo, ?_⟩ hu'.empty
          simp only [afterWorker, RingState.tail, List.length_append] at hhi ⊢
          omega
      | retries htarget _ hres hkind =>
          refine ⟨⟨hu'.empty, hu'.eof, hu'.err, hu'.before_end⟩, ?_⟩
          simp [distance, afterWorker, WorkerPc.distance, hw, htarget, hres, interruptedRead, hkind]
      | fails => cases hu'.err

/-- What a silent step does to a wait. -/
theorem Waits.step (h : Waits F D want s) (hF : F.Conventional) (hD : D.length < u64Size)
    {a : Action} (hs : s.step a = some (s', none)) :
    Waits F D want s' ∧ (Unserved s' → Unserved s ∧ ∀ e : Effort,
      e.turns + s.distance ≤ 7 + 3 * e.interruptions →
        (spend e s a s').turns + s'.distance ≤ 7 + 3 * (spend e s a s').interruptions) := by
  have hconsistent := h.consistent.step hF hD hs
  have hroomy := h.roomy.step h.consistent hs
  obtain ⟨notified, hreader⟩ := h.reader
  cases step_cases hs with
  | worker hstep =>
      refine ⟨⟨hconsistent, hroomy, hstep.waiting.mpr h.reader⟩, fun hu' => ?_⟩
      obtain ⟨hu, hcloser⟩ := h.worker_closer hstep hu'
      refine ⟨hu, fun e he => ?_⟩
      simp only [spend]
      omega
  | wakeup hw =>
      refine ⟨⟨hconsistent, hroomy, h.reader⟩, fun hu' => ?_⟩
      refine ⟨⟨hu'.empty, hu'.eof, hu'.err, hu'.before_end⟩, fun e he => ?_⟩
      have hcloser : WorkerPc.phase1.distance s.st.targetPos.isSome ≤ s.distance := by
        cases hp : s.st.targetPos <;> simp [distance, WorkerPc.distance, hw, hp]
      simp only [spend, distance] at he hcloser ⊢
      omega
  | resume hwait hs =>
      obtain ⟨hu, hreader', hsame⟩ := h.woken hs
      rw [hreader] at hwait
      obtain ⟨rfl, _⟩ := ReaderPc.waiting.inj hwait
      refine ⟨⟨hconsistent, hroomy, hreader'⟩, fun _ => ⟨hu, fun e he => ?_⟩⟩
      simp only [spend, hsame]
      exact he
  | read hidle => rw [hreader] at hidle; cases hidle
  | drop hidle => rw [hreader] at hidle; cases hidle
  | dropNotify hdrop => rw [hreader] at hdrop; cases hdrop
  | join hjoin => rw [hreader] at hjoin; cases hjoin

/-- A worker that nobody is done with takes a step. -/
theorem Waits.proceeds (h : Waits F D want s) (hu : Unserved s) :
    ∃ s', s.step .worker = some (s', none) := by
  have hwhole := h.consistent.orderly.not_poisoned
  have hsound : s.worker ≠ .panicked := by
    intro hw
    have hworker := h.consistent.orderly.worker
    rw [hw] at hworker
    exact hworker
  obtain ⟨s', hs'⟩ := workerStep_isSome (h.alive hu) hsound (h.awake hu)
  refine ⟨s', ?_⟩
  simp only [BufferedSource.step, hwhole, hs', Bool.false_eq_true, ite_false, Option.map_some]

/-- A woken reader takes up its read again. -/
theorem Waits.resumes (h : Waits F D want s) (seam : Nat) :
    ∃ r, ReadCase s.st want s.pos r ∧ s.step (.wakeReader false seam) = s.afterRead want r := by
  obtain ⟨notified, hreader⟩ := h.reader
  have hwhole := h.consistent.orderly.not_poisoned
  refine ⟨_, h.consistent.tracks.readCase h.consistent.orderly seam want, ?_⟩
  simp only [BufferedSource.step, hwhole, hreader, resumeRead, Bool.false_eq_true, false_and,
    ite_false]

/-- A reader that can be served returns when it is woken. -/
theorem Waits.served (h : Waits F D want s) (hu : ¬ Unserved s) (seam : Nat) :
    ∃ s' res, s.step (.wakeReader false seam) = some (s', some (.read want res)) := by
  obtain ⟨r, hcase, hstep⟩ := h.resumes seam
  rw [hstep]
  cases hcase with
  | hit => exact ⟨_, _, rfl⟩
  | failed => exact ⟨_, _, rfl⟩
  | ended => exact ⟨_, _, rfl⟩
  | waits hpos herr heof hend =>
      exact absurd (h.consistent.tracks.unserved_iff.mpr ⟨hpos, heof, herr, hend⟩) hu

/-- How a wait goes on along a silent run `as` from `t` to `u`. -/
structure Responds (want : Nat) (t u : BufferedSource ι) (as : List Action) : Prop where
  /-- An unserved reader has cost the worker a few steps, and three more for each
  interrupted read. -/
  bounded : Unserved u → ((machine ι).history spend ⟨0, 0⟩ t as).turns ≤
    7 + 3 * ((machine ι).history spend ⟨0, 0⟩ t as).interruptions
  proceeds : Unserved u → ∃ u', u.step .worker = some (u', none)
  served : ¬ Unserved u → ∀ seam, ∃ u' res,
    u.step (.wakeReader false seam) = some (u', some (.read want res))

variable {b : BufferedSourceBuilder} {inner : ι} {p₀ : Nat} {t u : BufferedSource ι}
  {as : List Action}

/-- A reader that waits in a reachable state. -/
theorem reach_waits (hF : F.Conventional) (hinner : Serves F D inner (some p₀))
    (hp : p₀ < u64Size) (hD : D.length < u64Size) (hb : b.build inner = some (.ok s))
    (hreach : (machine ι).Reach s t) {woken : Bool} (hwait : t.reader = .waiting want woken) :
    Waits F D want t := by
  have hstart := (build_consistent hinner hp hD hb).1
  have hroomy : Roomy s := by
    obtain ⟨_, _, _, _, _, _, _, _, _, _, _, _, hidle⟩ := build_ok hb
    intro want notified hw
    rw [hidle] at hw
    cases hw
  obtain ⟨hconsistent, hroomy⟩ : Consistent F D t ∧ Roomy t :=
    hreach.invariant (I := fun s => Consistent F D s ∧ Roomy s)
      (fun hI hs => ⟨hI.1.step hF hD hs, hI.2.step hI.1 hs⟩) ⟨hstart, hroomy⟩
  exact ⟨hconsistent, hroomy, woken, hwait⟩

/-- A wait goes on along every silent run, and the worker is at most its first distance
from serving it. -/
theorem Waits.run (h : Waits F D want t) (hF : F.Conventional) (hD : D.length < u64Size)
    (hrun : (machine ι).run t as = some (u, [])) : Waits F D want u ∧ Responds want t u as := by
  have hspent : Waits F D want u ∧ (Unserved u →
      ((machine ι).history spend ⟨0, 0⟩ t as).turns + u.distance ≤
        7 + 3 * ((machine ι).history spend ⟨0, 0⟩ t as).interruptions) :=
    Machine.run_history_silent
      (I := fun u (e : Effort) => Waits F D want u ∧
        (Unserved u → e.turns + u.distance ≤ 7 + 3 * e.interruptions))
      (fun hI hs => by
        obtain ⟨hwaits, hcloser⟩ := hI.1.step hF hD hs
        refine ⟨hwaits, fun hu' => ?_⟩
        obtain ⟨hu, hspend⟩ := hcloser hu'
        exact hspend _ (hI.2 hu))
      ⟨h, fun _ => by
        have hle := t.worker.distance_le t.st.targetPos.isSome
        simpa [distance] using hle⟩ hrun
  obtain ⟨hwaits, hbound⟩ := hspent
  refine ⟨hwaits, fun hu => ?_, hwaits.proceeds, hwaits.served⟩
  exact (Nat.le_add_right _ _).trans (hbound hu)

/-- However the threads are scheduled, a read that waits is answered after a bounded number
of steps of the worker: until the ring holds a byte for it, the end or a failure, the
worker can step and has taken at most seven steps and three for each interrupted read of
the inner source; from then on the next wakeup returns. -/
theorem wait_responds (hF : F.Conventional) (hinner : Serves F D inner (some p₀))
    (hp : p₀ < u64Size) (hD : D.length < u64Size) (hb : b.build inner = some (.ok s))
    (hreach : (machine ι).Reach s t) {woken : Bool} (hwait : t.reader = .waiting want woken)
    (hrun : (machine ι).run t as = some (u, [])) : Responds want t u as :=
  ((reach_waits hF hinner hp hD hb hreach hwait).run hF hD hrun).2

end

/-- A read of one byte waits for three steps of the worker. -/
theorem wait_responds_once : letI := target64
    ∃ t u, runFrom (machine Cursor) .default (Cursor.new [7]) [.read 1 0] = some (t, []) ∧
      (machine Cursor).run t [.worker, .worker, .worker] = some (u, []) ∧
      Responds 1 t u [.worker, .worker, .worker] := by
  let := target64
  have hrun : (runFrom (machine Cursor) .default (Cursor.new [7]) [.read 1 0]).map
      (fun r => (r.2, r.1.reader,
        ((machine Cursor).run r.1 [.worker, .worker, .worker]).map Prod.snd)) =
        some ([], .waiting 1 false, some []) := by
    decide +kernel
  obtain ⟨⟨t, os⟩, hrun, hobs⟩ := Option.map_eq_some_iff.mp hrun
  simp only [Prod.mk.injEq] at hobs
  obtain ⟨rfl, hwait, hlater⟩ := hobs
  obtain ⟨⟨u, os⟩, hlater, hobs⟩ := Option.map_eq_some_iff.mp hlater
  obtain rfl : os = [] := hobs
  obtain ⟨s, hb, hs⟩ := runFrom_eq_some hrun
  have hserves : Serves interrupted [7] (Cursor.new [7]) (some 0) :=
    (Cursor.behaves (fun e => e.kind = .interrupted) (Cursor.new [7])).serves
  exact ⟨t, u, hrun, hlater, wait_responds interrupted_conventional hserves (by decide)
    (by decide) hb ⟨_, _, hs⟩ hwait hlater⟩

end BufferedSource

end OxideSource
