import OxideSource.Buffered.System

/-!
# Wakeups

The content-free invariant of the two threads: the ring never outgrows its
capacity, a parked worker has nothing to do unless it was notified, and a waiting
reader has nothing to receive unless it was notified. It needs nothing of the inner
source but that a read returns no more than was asked for.
-/

namespace OxideSource.BufferedSource

/-- What holds of the worker where it stands. -/
def WorkerOk (st : RingState) (reader : ReaderPc) : WorkerPc → Prop
  | .reading n =>
      n ≤ st.blockSize ∧ (st.targetPos = none → st.buf.length + n ≤ st.capacity)
  | .readDone (.ok bs) =>
      bs.length ≤ st.blockSize ∧ (st.targetPos = none → st.buf.length + bs.length ≤ st.capacity)
  -- `drop` sets `stop` before it notifies anybody
  | .parked false =>
      reader = .dropping ∨
        st.targetPos = none ∧ st.stop = false ∧ (st.eof = true ∨ st.buf.length = st.capacity)
  | .exited => st.workerDead = true ∨ st.stop = true
  | .panicked => False
  | _ => True

/-- What holds of the reader where it stands. -/
def ReaderOk (st : RingState) : ReaderPc → Prop
  | .idle => st.stop = false
  | .waiting want notified =>
      want ≠ 0 ∧ st.stop = false ∧
        (notified = false → st.err = none ∧ st.eof = false ∧ st.buf.length ≠ st.capacity)
  | .dropping => st.stop = true
  | .joining => st.stop = true
  | .dropped => st.stop = true
  | .panicked => False

/-- The content-free invariant. -/
structure Orderly [Target] {ι : Type} (s : BufferedSource ι) : Prop where
  rear : s.st.rear < s.st.capacity
  length : s.st.buf.length ≤ s.st.capacity
  pending : s.st.targetPos ≠ none → s.st.buf = []
  sticky : s.st.err ≠ none ↔ s.st.workerDead = true
  dead : s.st.workerDead = true → s.worker = .exited
  worker : WorkerOk s.st s.reader s.worker
  reader : ReaderOk s.st s.reader

section

variable {st : RingState} {reader reader' : ReaderPc} {worker : WorkerPc} {woke : Bool}

/-- Away from `drop` the worker does not depend on where the reader stands. -/
theorem WorkerOk.elsewhere (h : WorkerOk st reader worker) (hr : reader ≠ .dropping) :
    WorkerOk st reader' worker := by
  match worker, h with
  | .parked false, h => exact .inr (h.resolve_left hr)
  | .parked true, _ => trivial
  | .phase1, _ => trivial
  | .seeking _, _ => trivial
  | .seekFailed _, _ => trivial
  | .reading _, h => exact h
  | .readDone (.ok _), h => exact h
  | .readDone (.error _), _ => trivial
  | .exited, h => exact h

/-- A notified worker has no parking obligation, and gains none on a ring with more
room, a pending seek, or a stop. -/
theorem WorkerOk.notify {st' : RingState} (h : WorkerOk st reader worker)
    (hblock : st'.blockSize = st.blockSize) (hcap : st'.capacity = st.capacity)
    (hdead : st'.workerDead = st.workerDead) (hstop : st.stop = true → st'.stop = true)
    (hroom : st'.targetPos = none → st.targetPos = none ∧ st'.buf.length ≤ st.buf.length) :
    WorkerOk st' reader' worker.notify := by
  match worker, h with
  | .parked _, _ => trivial
  | .phase1, _ => trivial
  | .seeking _, _ => trivial
  | .seekFailed _, _ => trivial
  | .reading n, ⟨hn, hfit⟩ =>
      refine ⟨hblock ▸ hn, fun ht => ?_⟩
      have hfit' := hfit (hroom ht).1
      have hlen := (hroom ht).2
      omega
  | .readDone (.ok bs), ⟨hn, hfit⟩ =>
      refine ⟨hblock ▸ hn, fun ht => ?_⟩
      have hfit' := hfit (hroom ht).1
      have hlen := (hroom ht).2
      omega
  | .readDone (.error _), _ => trivial
  | .exited, h =>
      rcases h with h | h
      · exact .inl (hdead.trans h)
      · exact .inr (hstop h)

/-- Setting `stop` suspends the obligations of a parked worker until it is notified. -/
theorem WorkerOk.stopping (h : WorkerOk st reader worker) :
    WorkerOk { st with stop := true } .dropping worker := by
  match worker, h with
  | .parked false, _ => exact .inl rfl
  | .parked true, _ => trivial
  | .phase1, _ => trivial
  | .seeking _, _ => trivial
  | .seekFailed _, _ => trivial
  | .reading _, h => exact h
  | .readDone (.ok _), h => exact h
  | .readDone (.error _), _ => trivial
  | .exited, _ => exact .inr rfl

/-- Dropping the oldest bytes keeps the worker's obligations if it notifies. -/
theorem WorkerOk.trimmed {st' : RingState} {n : Nat} (h : WorkerOk st reader worker)
    (hr : reader ≠ .dropping) (htrim : st.Trimmed n st' woke) :
    WorkerOk st' reader' (if woke then worker.notify else worker) := by
  rcases htrim with rfl | ⟨k, _, rfl, rfl⟩
  · cases woke with
    | false => exact h.elsewhere hr
    | true => exact h.notify rfl rfl rfl (fun hs => hs) fun ht => ⟨ht, Nat.le_refl _⟩
  · refine h.notify rfl rfl rfl (fun hs => hs) fun ht => ⟨ht, ?_⟩
    rw [RingState.length_discard]
    exact Nat.sub_le _ _

/-- Losing old bytes changes nothing that the invariant looks at. -/
theorem Trimmed.keeps [Target] {st' : RingState} {n : Nat} (h : st.Trimmed n st' woke) :
    (st.rear < st.capacity → st'.rear < st'.capacity) ∧
    (st.buf.length ≤ st.capacity → st'.buf.length ≤ st'.capacity) ∧
    ((st.targetPos ≠ none → st.buf = []) → st'.targetPos ≠ none → st'.buf = []) ∧
    ((st.err ≠ none ↔ st.workerDead = true) → (st'.err ≠ none ↔ st'.workerDead = true)) ∧
    st'.workerDead = st.workerDead ∧ st'.stop = st.stop := by
  rcases h with rfl | ⟨k, _, rfl, _⟩
  · exact ⟨id, id, id, id, rfl, rfl⟩
  · refine ⟨id, ?_, ?_, id, rfl, rfl⟩
    · intro hlen
      rw [RingState.length_discard]
      exact (Nat.sub_le _ _).trans hlen
    · intro hpend ht
      simp only [RingState.discard, hpend ht, List.drop_nil]

/-- Between operations and in its wait the reader is not in `drop`. -/
def InRead (reader : ReaderPc) : Prop :=
  reader = .idle ∨ ∃ want notified, reader = .waiting want notified

theorem InRead.ne_dropping (h : InRead reader) : reader ≠ .dropping := by
  rcases h with rfl | ⟨_, _, rfl⟩ <;> exact nofun

theorem InRead.running (h : InRead reader) (hr : ReaderOk st reader) : st.stop = false := by
  rcases h with rfl | ⟨_, _, rfl⟩
  · exact hr
  · exact hr.2.1

theorem notify_eq_exited (h : worker = .exited) : worker.notify = .exited := by
  subst h
  rfl

end

section

variable [Target] {ι : Type} {s : BufferedSource ι}

theorem Orderly.not_poisoned (h : Orderly s) : s.poisoned = false := by
  obtain ⟨st, worker, inner, pos, prefetchTimeout, reader⟩ := s
  have hw := h.worker
  have hr := h.reader
  cases worker with
  | panicked => exact hw.elim
  | _ =>
      cases reader with
      | panicked => exact hr.elim
      | _ => rfl

/-- The critical section of a read always ends in a return or a wait, and keeps the
invariant. -/
theorem Orderly.afterRead (h : Orderly s) (hin : InRead s.reader) {want : Nat} (hwant : want ≠ 0)
    {r : Pass × RingState × Bool} (hr : s.st.Settled r) :
    ∃ s' o, s.afterRead want r = some (s', o) ∧ Orderly s' := by
  have hstop := hin.running h.reader
  obtain ⟨pass, st', woke⟩ := r
  obtain ⟨htrim, hpass⟩ := hr
  obtain ⟨hrear, hlen, hpend, hsticky, hdeadEq, hstopEq⟩ := Trimmed.keeps htrim
  have hworker : ∀ reader', WorkerOk st' reader' (if woke then s.worker.notify else s.worker) :=
    fun reader' => h.worker.trimmed hin.ne_dropping htrim
  have hdead : st'.workerDead = true →
      (if woke then s.worker.notify else s.worker) = .exited := by
    intro hd
    have he := h.dead (hdeadEq ▸ hd)
    split
    · exact notify_eq_exited he
    · exact he
  cases pass with
  | returns res pos' =>
      exact ⟨_, _, rfl, ⟨hrear h.rear, hlen h.length, hpend h.pending, hsticky h.sticky, hdead,
        hworker _, hstopEq.trans hstop⟩⟩
  | waits =>
      exact ⟨_, _, rfl, ⟨hrear h.rear, hlen h.length, hpend h.pending, hsticky h.sticky, hdead,
        hworker _, hwant, hstopEq.trans hstop, fun _ => hpass⟩⟩
  | again => exact hpass.elim
  | panics => exact hpass.elim

theorem Orderly.settled (h : Orderly s) (seam want : Nat) :
    s.st.Settled (s.st.readSection seam want s.pos) :=
  RingState.readSection_settled h.rear seam want s.pos

/-- A seek keeps the invariant: it notifies whenever it touches the ring. -/
theorem Orderly.seek (h : Orderly s) (hidle : s.reader = .idle) {f : SeekFrom}
    {res : IoResult Nat} {pos : Nat} {st : RingState} {woke : Bool}
    (hcase : s.st.SeekCase s.pos f (res, pos, st, woke)) :
    Orderly { s with st, pos, worker := if woke then s.worker.notify else s.worker } := by
  have hreader := h.reader
  cases hcase with
  | rejects => exact h
  | inside => exact ⟨h.rear, h.length, h.pending, h.sticky, h.dead, h.worker, h.reader⟩
  | restarts =>
      refine ⟨h.rear, Nat.zero_le _, fun _ => rfl, ?_, ?_, ?_, ?_⟩
      · have hsticky := h.sticky
        change (if s.st.workerDead then s.st.err else none) ≠ none ↔ s.st.workerDead = true
        by_cases hd : s.st.workerDead = true
        · rw [if_pos hd]
          exact hsticky
        · simp only [hd, Bool.false_eq_true, ite_false, ne_eq, not_true_eq_false]
      · intro hd
        exact notify_eq_exited (h.dead hd)
      · exact h.worker.notify rfl rfl rfl (fun hs => hs) nofun
      · change ReaderOk _ s.reader
        rw [hidle] at hreader ⊢
        exact hreader

/-- A section of the worker that changes the ring notifies the reader. -/
theorem Orderly.notified {st' : RingState} (h : Orderly s) (hstop : st'.stop = s.st.stop) :
    ReaderOk st' s.reader.notify := by
  have hr := h.reader
  cases hreader : s.reader with
  | idle => rw [hreader] at hr; exact hstop.trans hr
  | waiting want notified =>
      rw [hreader] at hr
      exact ⟨hr.1, hstop.trans hr.2.1, nofun⟩
  | dropping => rw [hreader] at hr; exact hstop.trans hr
  | joining => rw [hreader] at hr; exact hstop.trans hr
  | dropped => rw [hreader] at hr; exact hstop.trans hr
  | panicked => rw [hreader] at hr; exact hr.elim

/-- A running worker has recorded no failure. -/
theorem Orderly.healthy (h : Orderly s) (hw : s.worker ≠ .exited) :
    s.st.workerDead = false ∧ s.st.err = none := by
  have hdead : s.st.workerDead = false := by
    cases hd : s.st.workerDead with
    | false => rfl
    | true => exact absurd (h.dead hd) hw
  refine ⟨hdead, ?_⟩
  by_contra herr
  rw [h.sticky.mp herr] at hdead
  cases hdead

/-- Phase 1 of an orderly ring does not panic. -/
theorem Orderly.phase1Case (h : Orderly s) : s.st.Phase1Case s.st.phase1 :=
  RingState.phase1_spec h.length

/-- Nor does phase 3: what was read is within the block size. -/
theorem Orderly.phase3Case (h : Orderly s) {res : IoResult Bytes} (hw : s.worker = .readDone res) :
    s.st.Phase3Case res (s.st.phase3 res) := by
  apply RingState.phase3_spec
  rintro bs rfl
  have hworker := h.worker
  rw [hw] at hworker
  exact hworker.1

theorem Orderly.phase1 (h : Orderly s) (hw : s.worker = .phase1) :
    Orderly (s.afterWorker s.st.phase1) := by
  obtain ⟨hdead, herr⟩ := h.healthy (by rw [hw]; exact nofun)
  have hdead' : ¬ s.st.workerDead = true := by rw [hdead]; exact nofun
  have hspec := h.phase1Case
  generalize s.st.phase1 = r at hspec
  cases hspec with
  | stops hstop =>
      exact ⟨h.rear, h.length, h.pending, h.sticky, fun _ => rfl, .inr hstop, h.reader⟩
  | restarts hstop htarget =>
      refine ⟨h.rear, Nat.zero_le _, nofun, ?_, fun hd => absurd hd hdead', trivial,
        h.notified rfl⟩
      exact ⟨fun hne => absurd rfl hne, fun hd => absurd hd hdead'⟩
  | parks hstop htarget hfull =>
      exact ⟨h.rear, h.length, h.pending, h.sticky, fun hd => absurd hd hdead',
        .inr ⟨htarget, hstop, hfull⟩, h.reader⟩
  | reads hstop htarget heof hroom =>
      refine ⟨h.rear, h.length, h.pending, h.sticky, fun hd => absurd hd hdead',
        ⟨Nat.min_le_right _ _, fun _ => ?_⟩, h.reader⟩
      change s.st.buf.length + min (s.st.capacity - s.st.buf.length) s.st.blockSize ≤ s.st.capacity
      omega

/-- Recording a failure and exiting keeps the invariant. -/
theorem Orderly.fail (h : Orderly s) (e : IoError) :
    Orderly (s.afterWorker (s.st.fail e, .exited, true)) :=
  ⟨h.rear, h.length, h.pending, ⟨fun _ => rfl, fun _ => nofun⟩, fun _ => rfl, .inl rfl,
    h.notified rfl⟩

theorem Orderly.phase3 (h : Orderly s) {res : IoResult Bytes} (hw : s.worker = .readDone res) :
    Orderly (s.afterWorker (s.st.phase3 res)) := by
  obtain ⟨hdead, _⟩ := h.healthy (by rw [hw]; exact nofun)
  have hdead' : ¬ s.st.workerDead = true := by rw [hdead]; exact nofun
  have hworker := h.worker
  rw [hw] at hworker
  have hspec := h.phase3Case hw
  generalize s.st.phase3 res = r at hspec
  cases hspec with
  | stale =>
      exact ⟨h.rear, h.length, h.pending, h.sticky, fun hd => absurd hd hdead', trivial, h.reader⟩
  | ended =>
      exact ⟨h.rear, h.length, h.pending, h.sticky, fun hd => absurd hd hdead', trivial,
        h.notified rfl⟩
  | @deposits bs htarget hstop hres hne =>
      subst hres
      have hfit := hworker.2 htarget
      refine ⟨h.rear, ?_, ?_, h.sticky, fun hd => absurd hd hdead', trivial, h.notified rfl⟩
      · change (s.st.buf ++ bs).length ≤ s.st.capacity
        rw [List.length_append]
        exact hfit
      · intro ht
        exact absurd htarget ht
  | retries =>
      exact ⟨h.rear, h.length, h.pending, h.sticky, fun hd => absurd hd hdead', trivial, h.reader⟩
  | fails => exact h.fail _

/-- The worker changes only its own place when it calls the inner source. -/
theorem Orderly.moved (h : Orderly s) {worker : WorkerPc} (inner : ι) (hw : s.worker ≠ .exited)
    (hok : WorkerOk s.st s.reader worker) : Orderly { s with worker, inner } := by
  have hdead := (h.healthy hw).1
  refine ⟨h.rear, h.length, h.pending, h.sticky, ?_, hok, h.reader⟩
  intro hd
  change s.st.workerDead = true at hd
  rw [hdead] at hd
  cases hd

end

section

variable [Target] {ι : Type} [ReadSeek ι] {s s' : BufferedSource ι} {o : Option IoObs}

/-- The worker keeps the invariant if its next read returns no more than asked for. -/
theorem Orderly.workerStep (h : Orderly s)
    (hread : ∀ n bs, s.worker = .reading n → (ReadSeek.read s.inner n).1 = .ok bs → bs.length ≤ n)
    (hs : WorkerCase s s') : Orderly s' := by
  have hworker := h.worker
  cases hs with
  | phase1 hw => exact h.phase1 hw
  | seeks hw => exact h.moved _ (by rw [hw]; exact nofun) trivial
  | refused hw => exact h.moved _ (by rw [hw]; exact nofun) trivial
  | records => exact h.fail _
  | unparks hw => exact h.moved s.inner (by rw [hw]; exact nofun) trivial
  | @reads n res inner hw hres =>
      rw [hw] at hworker
      apply h.moved inner (by rw [hw]; exact nofun)
      cases res with
      | error e => trivial
      | ok bs =>
          have hlen : bs.length ≤ n := hread n bs hw (congrArg Prod.fst hres)
          refine ⟨hlen.trans hworker.1, fun ht => ?_⟩
          have hfit := hworker.2 ht
          omega
  | phase3 hw => exact h.phase3 hw

/-- Every step keeps the content-free invariant. -/
theorem Orderly.step (h : Orderly s) {a : Action}
    (hread : ∀ n bs, s.worker = .reading n → (ReadSeek.read s.inner n).1 = .ok bs → bs.length ≤ n)
    (hs : s.step a = some (s', o)) : Orderly s' := by
  have hreader := h.reader
  have hafter : ∀ {want seam : Nat}, InRead s.reader → want ≠ 0 →
      s.afterRead want (s.st.readSection seam want s.pos) = some (s', o) → Orderly s' := by
    intro want seam hin hwant hs
    obtain ⟨t, o', ht, hok⟩ := h.afterRead hin hwant (h.settled seam want)
    obtain ⟨rfl, _⟩ := Prod.mk.inj (Option.some.inj (ht.symm.trans hs))
    exact hok
  cases step_cases hs with
  | worker hstep => exact h.workerStep hread hstep
  | wakeup hw => exact h.moved s.inner (by rw [hw]; exact nofun) trivial
  | readEmpty => exact h
  | read hidle hwant hs => exact hafter (.inl hidle) hwant hs
  | @timeout want _ notified hwait =>
      have hin : InRead s.reader := .inr ⟨want, notified, hwait⟩
      exact ⟨h.rear, h.length, h.pending, h.sticky, h.dead, h.worker.elsewhere hin.ne_dropping,
        hin.running hreader⟩
  | resume hwait hs =>
      rw [hwait] at hreader
      exact hafter (.inr ⟨_, _, hwait⟩) hreader.1 hs
  | seek hidle hcase => exact h.seek hidle hcase
  | drop hidle =>
      exact ⟨h.rear, h.length, h.pending, h.sticky, h.dead, h.worker.stopping, rfl⟩
  | dropNotify hdrop =>
      rw [hdrop] at hreader
      exact ⟨h.rear, h.length, h.pending, h.sticky, fun hd => notify_eq_exited (h.dead hd),
        h.worker.notify rfl rfl rfl (fun hs => hs) (fun ht => ⟨ht, Nat.le_refl _⟩), hreader⟩
  | join hjoin hw =>
      rw [hjoin] at hreader
      exact ⟨h.rear, h.length, h.pending, h.sticky, h.dead, by rw [hw]; exact .inr hreader,
        hreader⟩

/-- Only the worker's calls move the inner source. -/
theorem step_inner (h : Orderly s) {a : Action} (hs : s.step a = some (s', o)) :
    s'.inner = s.inner ∨ (∃ n, s'.inner = (ReadSeek.read s.inner n).2) ∨
      ∃ f, s'.inner = (ReadSeek.seek s.inner f).2 := by
  cases step_cases hs with
  | worker hstep =>
      cases hstep with
      | seeks _ hseek => exact .inr (.inr ⟨_, (congrArg Prod.snd hseek).symm⟩)
      | refused _ hseek => exact .inr (.inr ⟨_, (congrArg Prod.snd hseek).symm⟩)
      | reads _ hread => exact .inr (.inl ⟨_, (congrArg Prod.snd hread).symm⟩)
      | _ => exact .inl rfl
  | read _ _ hs =>
      obtain ⟨_, _, hinner, _⟩ := afterRead_trimmed (h.settled _ _) hs
      exact .inl hinner
  | resume _ hs =>
      obtain ⟨_, _, hinner, _⟩ := afterRead_trimmed (h.settled _ _) hs
      exact .inl hinner
  | _ => exact .inl rfl

/-- No step changes the settings of the ring. -/
theorem step_knobs (h : Orderly s) {a : Action} (hs : s.step a = some (s', o)) :
    s'.st.knobs = s.st.knobs := by
  have hafter {want seam : Nat}
      (hs : s.afterRead want (s.st.readSection seam want s.pos) = some (s', o)) :
      s'.st.knobs = s.st.knobs := by
    obtain ⟨_, htrim, _⟩ := afterRead_trimmed (h.settled seam want) hs
    rcases htrim with heq | ⟨k, _, heq, _⟩
    · rw [heq]
    · rw [heq]
      rfl
  cases step_cases hs with
  | worker hstep =>
      cases hstep with
      | phase1 hw =>
          have hspec := h.phase1Case
          generalize s.st.phase1 = r at hspec
          cases hspec <;> rfl
      | phase3 hw =>
          have hspec := h.phase3Case hw
          generalize s.st.phase3 _ = r at hspec
          cases hspec <;> rfl
      | _ => rfl
  | read _ _ hs => exact hafter hs
  | resume _ hs => exact hafter hs
  | seek _ hcase => cases hcase <;> rfl
  | _ => rfl

end

/-! ### From construction on -/

section

variable {ι : Type} [ReadSeek ι] {inner : ι}

/-- Every read of the source, now or later, returns at most the requested count. -/
def Measured (inner : ι) : Prop :=
  ∃ P : ι → Prop, P inner ∧
    (∀ i, P i → ∀ n, (∀ bs, (ReadSeek.read i n).1 = .ok bs → bs.length ≤ n) ∧
      P (ReadSeek.read i n).2) ∧
    ∀ i, P i → ∀ f, P (ReadSeek.seek i f).2

/-- A read delivers no more than is asked for. -/
theorem Measured.length_le (h : Measured inner) {n : Nat} {bs : Bytes}
    (hread : (ReadSeek.read inner n).1 = .ok bs) : bs.length ≤ n := by
  obtain ⟨P, hP, hstep, _⟩ := h
  exact (hstep inner hP n).1 bs hread

/-- It stays so after a read. -/
theorem Measured.read (h : Measured inner) (n : Nat) : Measured (ReadSeek.read inner n).2 := by
  obtain ⟨P, hP, hstep, hseek⟩ := h
  exact ⟨P, (hstep inner hP n).2, hstep, hseek⟩

/-- It stays so after a seek. -/
theorem Measured.seek (h : Measured inner) (f : SeekFrom) :
    Measured (ReadSeek.seek inner f).2 := by
  obtain ⟨P, hP, hstep, hseek⟩ := h
  exact ⟨P, hseek inner hP f, hstep, hseek⟩

end

section

variable [Target] {ι : Type} [ReadSeek ι] {b : BufferedSourceBuilder} {inner : ι}
  {s t : BufferedSource ι}

/-- What `build` returns is in order. -/
theorem build_orderly (h : b.build inner = some (.ok s)) : Orderly s := by
  obtain ⟨_, pos, stop, i₁, i₂, q, _, _, _, hst, hworker, _, hreader⟩ := build_ok h
  have hrear : s.st.rear < s.st.capacity := by
    apply RingState.rear_lt
    · rw [hst]
      exact (ring_pos b).1
    · rw [hst]
      exact sanitiseLookback_lt _ _
  refine ⟨hrear, ?_, ?_, ?_, ?_, ?_, ?_⟩
  · rw [hst]
    exact Nat.zero_le _
  · intro _
    rw [hst]
  · rw [hst]
    exact ⟨fun hne => absurd rfl hne, nofun⟩
  · rw [hst]
    exact nofun
  · rw [hworker]
    trivial
  · rw [hreader, hst]
    rfl

/-- In order, over an inner source whose reads keep to the requested count. -/
structure Supplied (s : BufferedSource ι) : Prop where
  orderly : Orderly s
  measured : Measured s.inner

/-- A source that was built is supplied. -/
theorem build_supplied (hinner : Measured inner) (hb : b.build inner = some (.ok s)) :
    Supplied s := by
  refine ⟨build_orderly hb, ?_⟩
  obtain ⟨_, pos, stop, i₁, i₂, q, h₁, h₂, h₃, _⟩ := build_ok hb
  have hm₁ := hinner.seek (.fromCurrent 0)
  rw [show ReadSeek.seek inner (.fromCurrent 0) = (.ok pos, i₁) from h₁] at hm₁
  have hm₂ := hm₁.seek (.fromEnd 0)
  rw [h₂] at hm₂
  have hm₃ := hm₂.seek (.fromStart (.ofNat pos))
  rwa [h₃] at hm₃

/-- Every step keeps it supplied. -/
theorem Supplied.step (h : Supplied s) {a : Action} {s' : BufferedSource ι} {o : Option IoObs}
    (hs : s.step a = some (s', o)) : Supplied s' := by
  refine ⟨h.orderly.step (fun n bs _ hread => h.measured.length_le hread) hs, ?_⟩
  rcases step_inner h.orderly hs with heq | ⟨n, heq⟩ | ⟨f, heq⟩
  · rw [heq]
    exact h.measured
  · rw [heq]
    exact h.measured.read n
  · rw [heq]
    exact h.measured.seek f

/-- The invariant holds of every state that the two threads reach. -/
theorem reach_orderly (hinner : Measured inner) (hb : b.build inner = some (.ok s))
    (hreach : (machine ι).Reach s t) : Orderly t :=
  (hreach.invariant (fun hI hs => hI.step hs) (build_supplied hinner hb)).orderly

/-- The two threads never wait for each other un-notified, and a worker that is parked
un-notified while the reader is between operations or in its wait has nothing to do. -/
theorem no_lost_wakeup (hinner : Measured inner) (hb : b.build inner = some (.ok s))
    (hreach : (machine ι).Reach s t) :
    ¬ ((∃ want, t.reader = .waiting want false) ∧ t.worker = .parked false) ∧
      (t.worker = .parked false → InRead t.reader →
        t.st.targetPos = none ∧ t.st.stop = false ∧
          (t.st.eof = true ∨ t.st.buf.length = t.st.capacity)) := by
  have h := reach_orderly hinner hb hreach
  have hparked : t.worker = .parked false → InRead t.reader →
      t.st.targetPos = none ∧ t.st.stop = false ∧
        (t.st.eof = true ∨ t.st.buf.length = t.st.capacity) := by
    intro hw hin
    have hworker := h.worker
    rw [hw] at hworker
    exact hworker.resolve_left hin.ne_dropping
  refine ⟨?_, hparked⟩
  rintro ⟨⟨want, hwait⟩, hw⟩
  have hreader := h.reader
  rw [hwait] at hreader
  obtain ⟨_, heof, hroom⟩ := hreader.2.2 rfl
  obtain ⟨_, _, hfull⟩ := hparked hw (.inr ⟨want, false, hwait⟩)
  rcases hfull with hfull | hfull
  · rw [heof] at hfull
    cases hfull
  · exact hroom hfull

end

/-- A cursor keeps to the requested count. -/
theorem Cursor.measured (c : Cursor) : Measured c := by
  refine ⟨fun _ => True, trivial, ?_, fun _ _ _ => trivial⟩
  intro c _ n
  refine ⟨fun bs hread => ?_, trivial⟩
  obtain rfl := Except.ok.inj hread
  exact List.length_take_le _ _

/-- A worker that has prefetched everything parks at the end of the stream. -/
theorem no_lost_wakeup_parked : letI := target64
    ∃ t os, runFrom (machine Cursor) .default (Cursor.new [7]) (List.replicate 7 .worker) =
        some (t, os) ∧
      t.worker = .parked false ∧ t.st.targetPos = none ∧ t.st.stop = false ∧
        (t.st.eof = true ∨ t.st.buf.length = t.st.capacity) := by
  let := target64
  have hrun : (runFrom (machine Cursor) .default (Cursor.new [7]) (List.replicate 7 .worker)).map
      (fun r => (r.1.worker, r.1.reader)) = some (.parked false, .idle) := by
    decide +kernel
  obtain ⟨⟨t, os⟩, hrun, hpcs⟩ := Option.map_eq_some_iff.mp hrun
  obtain ⟨hworker, hreader⟩ := Prod.mk.inj hpcs
  obtain ⟨s, hb, hs⟩ := runFrom_eq_some hrun
  have hwakeup := no_lost_wakeup (Cursor.measured _) hb ⟨_, _, hs⟩
  exact ⟨t, os, hrun, hworker, hwakeup.2 hworker (.inl hreader)⟩

end OxideSource.BufferedSource
