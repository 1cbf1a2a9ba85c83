import OxideSource.Buffered.Wakeups

/-!
# The ring holds the inner bytes

The content invariant ties the ring, the pending seek and the inner cursor together:
the ring is a window of the content, the reader stands inside it, and unless a seek
is pending the inner cursor stands at its tail. Every observation of every
interleaving is then one that a cursor over the content allows.
-/

namespace OxideSource

/-- One past the last byte of the ring. -/
def RingState.tail (st : RingState) : Nat := st.ringStart + st.buf.length

/-- Errors follow the convention of `Read`: an interrupted read has done nothing, and
every other failed read is not interrupted. -/
structure Faults.Conventional (F : Faults) : Prop where
  keeps : ∀ e, F.keeps e → e.kind = .interrupted
  reads : ∀ e, F.reads e → e.kind ≠ .interrupted

/-- The errors that stop the worker. -/
def Faults.fatal (F : Faults) (e : IoError) : Prop := F.reads e ∨ ∃ t, F.seeks t e

namespace BufferedSource

/-! ### A reader inside the ring -/

/-- The reader stands inside an addressable ring. -/
structure InRing (st : RingState) (pos : Nat) : Prop where
  lo : st.ringStart ≤ pos
  hi : pos ≤ st.tail
  tail_lt : st.tail < u64Size

section

variable {st st' : RingState} {pos want n : Nat} {woke : Bool}

/-- What old bytes leave behind: the tail and all that is not the ring stay. -/
theorem Trimmed.tail (h : st.Trimmed n st' woke) (hn : st.ringStart + n ≤ pos)
    (hpos : pos ≤ st.tail) (htail : st.tail < u64Size) :
    InRing st' pos ∧ st'.tail = st.tail ∧ ∃ k, k ≤ n ∧ st'.ringStart = st.ringStart + k ∧
      st'.buf = st.buf.drop k := by
  rcases h with rfl | ⟨k, hk, rfl, _⟩
  · exact ⟨⟨by omega, hpos, htail⟩, rfl, 0, Nat.zero_le _, rfl, rfl⟩
  · have hstart : (st.discard k).ringStart = st.ringStart + k := by
      apply addU64_of_lt
      unfold RingState.tail at hpos htail
      omega
    have htail' : (st.discard k).tail = st.tail := by
      unfold RingState.tail at hpos htail ⊢
      rw [hstart, RingState.length_discard]
      omega
    exact ⟨⟨by omega, by omega, by omega⟩, htail', k, hk, hstart, rfl⟩

theorem InRing.congr (h : InRing st pos) (hstart : st'.ringStart = st.ringStart)
    (hbuf : st'.buf = st.buf) : InRing st' pos := by
  have htail : st'.tail = st.tail := by rw [RingState.tail, hstart, hbuf, RingState.tail]
  exact ⟨hstart ▸ h.lo, htail ▸ h.hi, htail ▸ h.tail_lt⟩

/-- A reader at the tail stays inside the ring whatever is drained. -/
theorem InRing.drained (h : InRing st pos) (hpos : pos = st.tail) {k : Nat}
    (hk : k ≤ st.buf.length) : InRing (st.discard k) pos ∧ (st.discard k).tail = st.tail := by
  have htrim : st.Trimmed k (st.discard k) true := .inr ⟨k, Nat.le_refl k, rfl, rfl⟩
  have hle : st.ringStart + k ≤ pos := by
    unfold RingState.tail at hpos
    omega
  obtain ⟨hin, htail, _⟩ := Trimmed.tail htrim hle h.hi h.tail_lt
  exact ⟨hin, htail⟩

/-- The end of the ring that a seek computes does not wrap. -/
theorem InRing.ringEnd (h : InRing st pos) : addU64 st.ringStart st.buf.length = st.tail :=
  addU64_of_lt h.tail_lt

/-- The ways the critical section of a read ends for a reader inside the ring. -/
inductive ReadCase (st : RingState) (want pos : Nat) : Pass × RingState × Bool → Prop where
  | hit {n : Nat} {st' : RingState} {woke : Bool} (hpos : pos < st.tail)
      (hn : n = min (st.tail - pos) want) (hst : st.Trimmed (pos - st.ringStart + n) st' woke) :
      ReadCase st want pos
        (.returns (.ok (window st.buf (pos - st.ringStart) n)) (pos + n), st', woke)
  | failed {e : IoError} (hpos : pos = st.tail) (herr : st.surfaceErr = some e) :
      ReadCase st want pos (.returns (.error e) pos, st, false)
  | ended (hpos : pos = st.tail) (herr : st.err = none)
      (hend : st.eof = true ∨ st.pastEnd pos = true) :
      ReadCase st want pos (.returns (.ok []) pos, st, false)
  | waits {st' : RingState} {woke : Bool} (hpos : pos = st.tail) (herr : st.err = none)
      (heof : st.eof = false) (hend : st.pastEnd pos = false)
      (hst : st.Trimmed st.buf.length st' woke) : ReadCase st want pos (.waits, st', woke)

variable [Target]

/-- The offset of a reader inside an addressable ring is not truncated. -/
theorem InRing.rel (h : InRing st pos) (hfit : st.buf.length ≤ usizeMax) :
    asUsize (pos - st.ringStart) = pos - st.ringStart := by
  apply asUsize_of_lt
  have hhi := h.hi
  unfold RingState.tail at hhi
  omega

/-- A single pass of a reader inside the ring. -/
theorem InRing.pass (h : InRing st pos) (hfit : st.buf.length ≤ usizeMax)
    {r : Pass × RingState × Bool} (hcase : st.PassCase want pos r) (hr : r.1 ≠ .again) :
    ReadCase st want pos r := by
  have hrel := h.rel hfit
  obtain ⟨hlo, hhi, htail⟩ := h
  have hmiss : st.buf.length ≤ asUsize (pos - st.ringStart) → pos = st.tail := by
    intro hle
    rw [hrel] at hle
    unfold RingState.tail at hhi ⊢
    omega
  cases hcase with
  | behind hlt => omega
  | @hit rel n st' woke hle hr' hhit hn hst =>
      rw [hrel] at hr'
      subst hr'
      have hn' : n = min (st.tail - pos) want := by
        unfold RingState.tail
        omega
      have hpos : pos < st.tail := by
        unfold RingState.tail
        omega
      rw [show addU64 pos n = pos + n from addU64_of_lt (by omega)]
      exact .hit hpos hn' hst
  | failed hle hm herr => exact .failed (hmiss hm) herr
  | ended hle hm herr hend => exact .ended (hmiss hm) herr hend
  | drains => exact absurd rfl hr
  | waits hle hm herr heof hend hroom => exact .waits (hmiss hm) herr heof hend (.inl rfl)

/-- The critical section of a reader inside the ring. -/
theorem InRing.readSection (h : InRing st pos) (hrear : st.rear < st.capacity)
    (hfit : st.buf.length ≤ usizeMax) (seam want : Nat) :
    ReadCase st want pos (st.readSection seam want pos) := by
  rcases RingState.readSection_spec hrear seam want pos with
    ⟨r, hcase, hr, heq⟩ | ⟨r, hfirst, hcase, hr, heq⟩
  · rw [heq]
    exact h.pass hfit hcase hr
  · -- a full ring behind the reader: the drained ring is a miss again, now with room
    rw [heq]
    cases hfirst with
    | drains hle hm herr heof hend hfull =>
        rw [h.rel hfit] at hm
        have hpos : pos = st.tail := by
          have hhi := h.hi
          unfold RingState.tail at hhi ⊢
          omega
        have htrim : st.Trimmed st.buf.length (st.discard (st.buf.length - st.rear)) true :=
          .inr ⟨_, Nat.sub_le _ _, rfl, rfl⟩
        obtain ⟨hin, htail⟩ := h.drained hpos (Nat.sub_le st.buf.length st.rear)
        have hsecond := hin.pass (by rw [RingState.length_discard]; omega) hcase hr
        cases hsecond with
        | hit hlt => omega
        | failed _ herr' =>
            have hnone := RingState.surfaceErr_eq_none.mpr herr
            change st.surfaceErr = _ at herr'
            rw [hnone] at herr'
            cases herr'
        | ended _ _ hend' =>
            change st.eof = true ∨ st.pastEnd pos = true at hend'
            rw [heof, hend] at hend'
            simp only [Bool.false_eq_true, or_self] at hend'
        | waits _ _ _ _ hst =>
            rcases hst with rfl | ⟨k, hk, rfl, _⟩
            · exact .waits hpos herr heof hend htrim
            · rw [RingState.discard_discard]
              refine .waits hpos herr heof hend (.inr ⟨_, ?_, rfl, rfl⟩)
              rw [RingState.length_discard] at hk
              omega

end

/-- A seek inside the ring moves the reader only. -/
theorem InRing.seek_inside [Target] {ι : Type} [ReadSeek ι] {s : BufferedSource ι}
    (h : InRing s.st s.pos) (ho : Orderly s) (hidle : s.reader = .idle) {f : SeekFrom} {q : Nat}
    (hq : s.st.resolve s.pos f = .ok q) (hlo : s.st.ringStart ≤ q) (hhi : q ≤ s.st.tail) :
    s.step (.seek f) = some ({ s with pos := q }, some (.seek f (.ok q))) := by
  have hseek : s.st.seekSection s.pos f = (.ok q, q, s.st, false) := by
    simp only [RingState.seekSection, hq, h.ringEnd, ge_iff_le, hlo, hhi, and_self, ite_true]
  unfold BufferedSource.step BufferedSource.doSeek
  simp only [ho.not_poisoned, Bool.false_eq_true, ite_false, hidle, hseek]

/-! ### The invariant -/

/-- The inner cursor where the worker stands. While the ring is live, that is with no
seek pending and no stop, it is at the tail of the ring. -/
def InnerOk {ι : Type} [ReadSeek ι] (F : Faults) (D : Bytes) (live : Prop) (tail : Nat)
    (inner : ι) : WorkerPc → Prop
  | .phase1 => ∃ c, Serves F D inner c ∧ (live → c = some tail)
  | .parked _ => ∃ c, Serves F D inner c ∧ (live → c = some tail)
  | .seeking target => target < u64Size ∧ (∃ c, Serves F D inner c) ∧ (live → target = tail)
  | .seekFailed e => ∃ t, F.seeks t e
  | .reading n => 0 < n ∧ ∃ p, Serves F D inner (some p) ∧ (live → p = tail)
  | .readDone res => ∃ n p c, 0 < n ∧ ReadOutcome F D p n res c ∧ Serves F D inner c ∧
      (live → p = tail)
  | .exited => True
  | .panicked => False

/-- The ring is live: nothing tells the worker to abandon it. -/
def RingState.Live (st : RingState) : Prop := st.targetPos = none ∧ st.stop = false

/-- The content invariant over an inner source that serves `D`. -/
structure Tracks [Target] {ι : Type} [ReadSeek ι] (F : Faults) (D : Bytes)
    (s : BufferedSource ι) : Prop where
  block : 0 < s.st.blockSize
  addressable : s.st.capacity ≤ usizeMax
  total : s.st.totalLen = some D.length
  ring : InRing s.st s.pos
  bytes : s.st.buf <+: D.drop s.st.ringStart
  target : ∀ t, s.st.targetPos = some t → t = s.st.ringStart
  eof : s.st.eof = true → D.length ≤ s.st.tail
  err : ∀ e, s.st.surfaceErr = some e → F.fatal e
  inner : InnerOk F D (RingState.Live s.st) s.st.tail s.inner s.worker

section

variable {ι : Type} [ReadSeek ι] {F : Faults} {D : Bytes} {live live' : Prop}
  {tail tail' : Nat} {inner : ι} {worker : WorkerPc}

/-- The ring may become less live, and while it is live its tail stays. -/
theorem InnerOk.weaken (h : InnerOk F D live tail inner worker)
    (hlive : live' → live ∧ tail' = tail) : InnerOk F D live' tail' inner worker := by
  match worker, h with
  | .phase1, ⟨c, hc, htail⟩ => exact ⟨c, hc, fun hl => (hlive hl).2 ▸ htail (hlive hl).1⟩
  | .parked _, ⟨c, hc, htail⟩ => exact ⟨c, hc, fun hl => (hlive hl).2 ▸ htail (hlive hl).1⟩
  | .seeking t, ⟨ht, hc, htail⟩ => exact ⟨ht, hc, fun hl => (hlive hl).2 ▸ htail (hlive hl).1⟩
  | .seekFailed e, h => exact h
  | .reading n, ⟨hn, p, hp, htail⟩ =>
      exact ⟨hn, p, hp, fun hl => (hlive hl).2 ▸ htail (hlive hl).1⟩
  | .readDone res, ⟨n, p, c, hn, ho, hc, htail⟩ =>
      exact ⟨n, p, c, hn, ho, hc, fun hl => (hlive hl).2 ▸ htail (hlive hl).1⟩
  | .exited, _ => trivial

theorem InnerOk.notify (h : InnerOk F D live tail inner worker) :
    InnerOk F D live tail inner worker.notify := by
  cases worker <;> exact h

end

section

variable [Target] {ι : Type} [ReadSeek ι] {F : Faults} {D : Bytes} {s s' : BufferedSource ι}
  {o : Option IoObs}

/-- The bytes that a hit delivers. -/
theorem Tracks.hit_prefix (h : Tracks F D s) (n : Nat) :
    window s.st.buf (s.pos - s.st.ringStart) n <+: D.drop s.pos := by
  have hlo := h.ring.lo
  have hdrop := drop_prefix_drop (k := s.pos - s.st.ringStart) h.bytes
  rw [show s.st.ringStart + (s.pos - s.st.ringStart) = s.pos by omega] at hdrop
  exact (List.take_prefix _ _).trans hdrop

/-- Losing old bytes behind the reader keeps the invariant. -/
theorem Tracks.trimmed (h : Tracks F D s) {st' : RingState} {n pos : Nat} {woke : Bool}
    (htrim : s.st.Trimmed n st' woke) (hn : s.st.ringStart + n ≤ pos) (hpos : pos ≤ s.st.tail)
    (hpend : s.st.targetPos ≠ none → s.st.buf = []) (reader : ReaderPc) :
    Tracks F D { s with
      st := st', pos, worker := if woke then s.worker.notify else s.worker, reader } := by
  obtain ⟨hring, htail, k, hk, hstart, hbuf⟩ := Trimmed.tail htrim hn hpos h.ring.tail_lt
  have hsame : st'.blockSize = s.st.blockSize ∧ st'.capacity = s.st.capacity ∧
      st'.totalLen = s.st.totalLen ∧ st'.targetPos = s.st.targetPos ∧ st'.eof = s.st.eof ∧
      st'.err = s.st.err ∧ st'.stop = s.st.stop := by
    rcases htrim with rfl | ⟨k, _, rfl, _⟩
    · exact ⟨rfl, rfl, rfl, rfl, rfl, rfl, rfl⟩
    · exact ⟨rfl, rfl, rfl, rfl, rfl, rfl, rfl⟩
  obtain ⟨hblock, hcap, htotal, htarget, heof, herr, hstop⟩ := hsame
  refine ⟨hblock ▸ h.block, hcap ▸ h.addressable, htotal.trans h.total, hring, ?_, ?_, ?_, ?_, ?_⟩
  · change st'.buf <+: D.drop st'.ringStart
    rw [hbuf, hstart]
    exact drop_prefix_drop h.bytes
  · intro t ht
    change st'.targetPos = some t at ht
    rw [htarget] at ht
    change t = st'.ringStart
    have hnil := hpend (by rw [ht]; exact nofun)
    have hhi := hring.hi
    have hlo := h.ring.lo
    have hold := h.target t ht
    unfold RingState.tail at htail
    rw [hstart, hbuf, hnil, List.drop_nil] at htail
    simp only [List.length_nil] at htail
    omega
  · intro he
    change D.length ≤ st'.tail
    rw [htail]
    exact h.eof (heof ▸ he)
  · intro e he
    apply h.err e
    change st'.surfaceErr = some e at he
    unfold RingState.surfaceErr at he ⊢
    rwa [herr] at he
  · have hinner : InnerOk F D (RingState.Live st') st'.tail s.inner s.worker := by
      refine h.inner.weaken fun hl => ⟨?_, htail⟩
      unfold RingState.Live at hl ⊢
      rwa [htarget, hstop] at hl
    change InnerOk F D (RingState.Live st') st'.tail s.inner
      (if woke then s.worker.notify else s.worker)
    split
    · exact hinner.notify
    · exact hinner

/-- The errors a read may show: the recorded one, and timeouts. -/
def Shown {ι : Type} (s : BufferedSource ι) (e : IoError) : Prop :=
  s.st.surfaceErr = some e ∨ ∃ t, e = timeoutError t

/-- What a step shows is allowed for a cursor over the content, and a step that shows
nothing does not move the reader. -/
def Follows {ι : Type} (D : Bytes) (s : BufferedSource ι) (o : Option IoObs)
    (s' : BufferedSource ι) : Prop :=
  (∃ obs, o = some obs ∧ CursorStep D (Shown s) s.pos obs s'.pos) ∨ o = none ∧ s'.pos = s.pos

omit [Target] [ReadSeek ι] in
theorem Follows.observed {obs : IoObs} (h : Follows D s (some obs) s') :
    CursorStep D (Shown s) s.pos obs s'.pos := by
  rcases h with ⟨obs', hobs, hstep⟩ | ⟨hobs, _⟩
  · obtain rfl := Option.some.inj hobs
    exact hstep
  · cases hobs

omit [Target] [ReadSeek ι] in
theorem Follows.silent (h : Follows D s none s') : s'.pos = s.pos := by
  rcases h with ⟨obs, hobs, _⟩ | ⟨_, hpos⟩
  · cases hobs
  · exact hpos

/-- The critical section of a read keeps the invariant, and returns what a cursor over
the content allows or the recorded failure. -/
theorem Tracks.afterRead (h : Tracks F D s) (ho : Orderly s) {want : Nat}
    {r : Pass × RingState × Bool} (hr : ReadCase s.st want s.pos r)
    (hs : s.afterRead want r = some (s', o)) :
    Tracks F D s' ∧ Follows D s o s' := by
  have hlo := h.ring.lo
  have hhi := h.ring.hi
  have hkeep : s.st.Trimmed 0 s.st false := .inl rfl
  cases hr with
  | @hit n st' woke hpos hn hst =>
      obtain ⟨rfl, rfl⟩ := Prod.mk.inj (Option.some.inj hs)
      refine ⟨h.trimmed hst (by omega) (by omega) ho.pending _, .inl ⟨_, rfl, ?_⟩⟩
      have hlen : (window s.st.buf (s.pos - s.st.ringStart) n).length = n := by
        apply length_window_of_le
        unfold RingState.tail at hn hpos
        omega
      have hstep : CursorStep D (Shown s) s.pos (.read want (.ok _)) _ :=
        .read (h.hit_prefix n) (by omega) (by
          intro hnil
          rw [hnil, List.length_nil] at hlen
          omega)
      rw [hlen] at hstep
      exact hstep
  | failed hpos herr =>
      obtain ⟨rfl, rfl⟩ := Prod.mk.inj (Option.some.inj hs)
      exact ⟨h.trimmed hkeep hlo hhi ho.pending _,
        .inl ⟨_, rfl, .readError (.inl herr)⟩⟩
  | ended hpos herr hend =>
      obtain ⟨rfl, rfl⟩ := Prod.mk.inj (Option.some.inj hs)
      refine ⟨h.trimmed hkeep hlo hhi ho.pending _, .inl ⟨_, rfl, ?_⟩⟩
      refine .read List.nil_prefix (Nat.zero_le _) fun _ => .inr ?_
      rcases hend with heof | hend
      · exact hpos ▸ h.eof heof
      · simp only [RingState.pastEnd, h.total, decide_eq_true_eq] at hend
        exact hend
  | @waits st' woke hpos herr heof hend hst =>
      obtain ⟨rfl, rfl⟩ := Prod.mk.inj (Option.some.inj hs)
      refine ⟨h.trimmed hst ?_ hhi ho.pending _, .inr ⟨rfl, rfl⟩⟩
      unfold RingState.tail at hpos
      omega

theorem Tracks.readCase (h : Tracks F D s) (ho : Orderly s) (seam want : Nat) :
    ReadCase s.st want s.pos (s.st.readSection seam want s.pos) :=
  h.ring.readSection ho.rear (ho.length.trans h.addressable) seam want

/-- A seek keeps the invariant and resolves as that of a cursor. -/
theorem Tracks.seek (h : Tracks F D s) (hD : D.length < u64Size) {f : SeekFrom}
    {res : IoResult Nat} {pos : Nat} {st : RingState} {woke : Bool}
    (hcase : s.st.SeekCase s.pos f (res, pos, st, woke)) :
    Tracks F D { s with st, pos, worker := if woke then s.worker.notify else s.worker } ∧
      CursorStep D (Shown s) s.pos (.seek f res) pos := by
  have hlo := h.ring.lo
  have hhi := h.ring.hi
  have htail := h.ring.tail_lt
  have hpos : s.pos < u64Size := by omega
  have hres := RingState.resolve_eq h.total s.pos f
  cases hcase with
  | rejects he =>
      rcases hres with ⟨q, hq, _⟩ | ⟨e, he', hkind, hnone⟩
      · rw [he] at hq
        cases hq
      · obtain rfl := Except.error.inj (he.symm.trans he')
        exact ⟨h, .seekError hnone hkind⟩
  | inside hq hlo' hhi' =>
      rcases hres with ⟨q', hq', hsome⟩ | ⟨e, he', _⟩
      · obtain rfl := Except.ok.inj (hq.symm.trans hq')
        rw [h.ring.ringEnd] at hhi'
        exact ⟨⟨h.block, h.addressable, h.total, ⟨hlo', hhi', htail⟩, h.bytes, h.target, h.eof,
          h.err, h.inner⟩, .seek hsome⟩
      · rw [hq] at he'
        cases he'
  | restarts hq hout =>
      rcases hres with ⟨q', hq', hsome⟩ | ⟨e, he', _⟩
      · obtain rfl := Except.ok.inj (hq.symm.trans hq')
        have hlt : pos < u64Size := seekTarget_lt hD hpos hsome
        refine ⟨⟨h.block, h.addressable, h.total, ⟨Nat.le_refl _, Nat.le_refl _, hlt⟩,
          List.nil_prefix, ?_, ?_, ?_, ?_⟩, .seek hsome⟩
        · intro t ht
          exact (Option.some.inj ht).symm
        · intro heof
          change s.st.pastEnd pos = true at heof
          simp only [RingState.pastEnd, h.total, decide_eq_true_eq] at heof
          exact heof
        · intro e he
          apply h.err e
          by_cases hd : s.st.workerDead = true
          · simpa only [RingState.surfaceErr, hd, ite_true] using he
          · simp only [RingState.surfaceErr, hd, Bool.false_eq_true, ite_false,
              Option.map_none] at he
            cases he
        · refine (h.inner.weaken fun hl => ?_).notify
          cases hl.1
      · rw [hq] at he'
        cases he'

/-! ### The worker -/

/-- A step of the worker that leaves the ring alone. -/
theorem Tracks.moved (h : Tracks F D s) {worker : WorkerPc} {inner : ι} (reader : ReaderPc)
    (hinner : InnerOk F D (RingState.Live s.st) s.st.tail inner worker) :
    Tracks F D { s with worker, inner, reader } :=
  ⟨h.block, h.addressable, h.total, h.ring, h.bytes, h.target, h.eof, h.err, hinner⟩

theorem Tracks.phase1 (h : Tracks F D s) (ho : Orderly s) (hw : s.worker = .phase1) :
    Tracks F D (s.afterWorker s.st.phase1) := by
  have hinner := h.inner
  rw [hw] at hinner
  obtain ⟨c, hc, htail⟩ := hinner
  have hspec := ho.phase1Case
  generalize s.st.phase1 = r at hspec
  cases hspec with
  | stops hstop => exact h.moved s.reader trivial
  | @restarts target hstop htarget =>
      have hstart := h.target target htarget
      have hnil := ho.pending (by rw [htarget]; exact nofun)
      have hlo := h.ring.lo
      have hhi := h.ring.hi
      have hlt := h.ring.tail_lt
      unfold RingState.tail at hhi hlt
      rw [hnil, List.length_nil, ← hstart] at hhi hlt
      refine ⟨h.block, h.addressable, h.total, ⟨?_, hhi, hlt⟩, List.nil_prefix, nofun, ?_, nofun,
        hlt, ⟨c, hc⟩, fun _ => rfl⟩
      · exact hstart ▸ hlo
      · intro heof
        change s.st.pastEnd target = true at heof
        simp only [RingState.pastEnd, h.total, decide_eq_true_eq] at heof
        exact heof
  | parks hstop htarget hfull => exact h.moved s.reader ⟨c, hc, htail⟩
  | reads hstop htarget heof hroom =>
      obtain rfl := htail ⟨htarget, hstop⟩
      have hblock := h.block
      exact h.moved s.reader ⟨by omega, _, hc, fun _ => rfl⟩

/-- Recording a failure of the inner source. -/
theorem Tracks.fail (h : Tracks F D s) {e : IoError} (he : F.fatal e) :
    Tracks F D (s.afterWorker (s.st.fail e, .exited, true)) := by
  refine ⟨h.block, h.addressable, h.total, h.ring.congr rfl rfl, h.bytes, h.target, h.eof, ?_,
    trivial⟩
  intro e' he'
  obtain rfl := Option.some.inj he'
  exact he

/-- Marking the end keeps the invariant when the inner cursor stands there. -/
theorem Tracks.ended (h : Tracks F D s) (hend : D.length ≤ s.st.tail)
    (hinner : InnerOk F D (RingState.Live s.st) s.st.tail s.inner .phase1) :
    Tracks F D (s.afterWorker ({ s.st with eof := true }, .phase1, true)) :=
  ⟨h.block, h.addressable, h.total, h.ring.congr rfl rfl, h.bytes, h.target, fun _ => hend, h.err,
    hinner⟩

/-- Depositing the bytes read at the tail moves the tail behind them. -/
theorem Tracks.deposit (h : Tracks F D s) (hD : D.length < u64Size) {bs : Bytes} (hne : bs ≠ [])
    (htarget : s.st.targetPos = none) (hpre : bs <+: D.drop s.st.tail)
    (hc : Serves F D s.inner (some (s.st.tail + bs.length))) :
    Tracks F D (s.afterWorker ({ s.st with buf := s.st.buf ++ bs }, .phase1, true)) := by
  have hfit := add_length_le_of_prefix_drop hpre hne
  have htail : RingState.tail { s.st with buf := s.st.buf ++ bs } = s.st.tail + bs.length := by
    unfold RingState.tail
    rw [List.length_append, Nat.add_assoc]
  have hlo := h.ring.lo
  have hhi : s.pos ≤ s.st.tail + bs.length := h.ring.hi.trans (Nat.le_add_right _ _)
  refine ⟨h.block, h.addressable, h.total, ⟨hlo, hhi.trans_eq htail.symm, ?_⟩, ?_, ?_, ?_, h.err,
    _, hc, fun _ => congrArg some htail.symm⟩
  · exact htail.trans_lt (by omega)
  · exact append_prefix_drop h.bytes hpre
  · intro t ht
    change s.st.targetPos = some t at ht
    rw [htarget] at ht
    cases ht
  · intro heof
    have hle : D.length ≤ s.st.tail + bs.length := (h.eof heof).trans (Nat.le_add_right _ _)
    exact hle.trans_eq htail.symm

theorem Tracks.phase3 (h : Tracks F D s) (ho : Orderly s) (hF : F.Conventional)
    (hD : D.length < u64Size) {res : IoResult Bytes} (hw : s.worker = .readDone res) :
    Tracks F D (s.afterWorker (s.st.phase3 res)) := by
  have hinner := h.inner
  rw [hw] at hinner
  obtain ⟨n, p, c, hn, hout, hc, htail⟩ := hinner
  have hspec := ho.phase3Case hw
  generalize s.st.phase3 res = r at hspec
  cases hspec with
  | stale hstale =>
      refine h.moved s.reader ⟨c, hc, fun hl => ?_⟩
      rcases hstale with ht | ht
      · exact absurd hl.1 ht
      · rw [hl.2] at ht
        cases ht
  | ended htarget hstop hres =>
      subst hres
      obtain rfl := htail ⟨htarget, hstop⟩
      cases hout with
      | ok hpre hlen hend =>
          have hover := (hend rfl).resolve_left (by omega)
          exact h.ended hover ⟨_, hc, fun _ => rfl⟩
  | deposits htarget hstop hres hne =>
      subst hres
      obtain rfl := htail ⟨htarget, hstop⟩
      cases hout with
      | ok hpre hlen hend => exact h.deposit hD hne htarget hpre hc
  | retries htarget hstop hres hkind =>
      subst hres
      cases hout with
      | keeps he => exact h.moved s.reader ⟨_, hc, fun hl => congrArg some (htail hl)⟩
      | fails he => exact absurd hkind (hF.reads _ he)
  | fails htarget hstop hres hkind =>
      subst hres
      cases hout with
      | keeps he => exact absurd (hF.keeps _ he) hkind
      | fails he => exact h.fail (.inl he)

omit [Target] in
theorem workerStep_pos (hs : WorkerCase s s') : s'.pos = s.pos := by
  cases hs <;> rfl

/-- Every step of the worker keeps the content invariant. -/
theorem Tracks.workerStep (h : Tracks F D s) (ho : Orderly s) (hF : F.Conventional)
    (hD : D.length < u64Size) (hs : WorkerCase s s') : Tracks F D s' := by
  have hinner := h.inner
  cases hs with
  | phase1 hw => exact h.phase1 ho hw
  | seeks hw hseek =>
      rw [hw] at hinner
      obtain ⟨hlt, ⟨c, hc⟩, htail⟩ := hinner
      exact h.moved s.reader ⟨_, hc.seekStart_ok hlt hseek, fun hl => congrArg some (htail hl)⟩
  | @refused target e inner hw hseek =>
      rw [hw] at hinner
      obtain ⟨hlt, ⟨c, hc⟩, _⟩ := hinner
      exact h.moved s.reader ⟨target, (hc.seekStart_error hlt hseek).1⟩
  | records hw =>
      rw [hw] at hinner
      exact h.fail (.inr hinner)
  | unparks hw =>
      rw [hw] at hinner
      exact h.moved s.reader hinner
  | @reads n res inner hw hread =>
      rw [hw] at hinner
      obtain ⟨hn, p, hp, htail⟩ := hinner
      obtain ⟨c, hout, hc⟩ := hp.read n
      rw [hread] at hout hc
      exact h.moved s.reader ⟨n, p, c, hn, hout, hc, htail⟩
  | phase3 hw => exact h.phase3 ho hF hD hw

/-! ### Every step -/

/-- Every step keeps the content invariant. What it lets the caller observe is allowed
for a cursor over the content, and a step that shows nothing does not move the reader. -/
theorem Tracks.step (h : Tracks F D s) (ho : Orderly s) (hF : F.Conventional)
    (hD : D.length < u64Size) {a : Action} (hs : s.step a = some (s', o)) :
    Tracks F D s' ∧ Follows D s o s' := by
  have hinner := h.inner
  cases step_cases hs with
  | worker hstep => exact ⟨h.workerStep ho hF hD hstep, .inr ⟨rfl, workerStep_pos hstep⟩⟩
  | wakeup hw =>
      rw [hw] at hinner
      exact ⟨h.moved s.reader hinner, .inr ⟨rfl, rfl⟩⟩
  | readEmpty _ hwant =>
      exact ⟨h, .inl ⟨_, rfl, .read List.nil_prefix (Nat.zero_le _) fun _ => .inl hwant⟩⟩
  | read _ _ hs => exact h.afterRead ho (h.readCase ho _ _) hs
  | timeout => exact ⟨h.moved .idle hinner, .inl ⟨_, rfl, .readError (.inr ⟨_, rfl⟩)⟩⟩
  | resume _ hs => exact h.afterRead ho (h.readCase ho _ _) hs
  | seek _ hcase =>
      obtain ⟨htracks, hstep⟩ := h.seek hD hcase
      exact ⟨htracks, .inl ⟨_, rfl, hstep⟩⟩
  | drop =>
      refine ⟨⟨h.block, h.addressable, h.total, h.ring.congr rfl rfl, h.bytes, h.target, h.eof,
        h.err, ?_⟩, .inr ⟨rfl, rfl⟩⟩
      exact hinner.weaken fun hl => nomatch hl.2
  | dropNotify => exact ⟨h.moved .joining hinner.notify, .inr ⟨rfl, rfl⟩⟩
  | join => exact ⟨h.moved .dropped hinner, .inr ⟨rfl, rfl⟩⟩

end

end BufferedSource

end OxideSource
