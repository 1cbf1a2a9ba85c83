import OxideSource.Buffered.Positions

/-!
# When a read times out

A waiting reader that is woken by its timeout looks at the error and at the end before it
gives up, and not at the ring. What it leaves behind is what the worker has deposited since
the wait began.
-/

namespace OxideSource.BufferedSource

/-- The next step of the worker deposits bytes. -/
def deposits {ι : Type} (s : BufferedSource ι) : Bool :=
  match s.worker with
  | .readDone (.ok (_ :: _)) => s.st.targetPos.isNone && !s.st.stop
  | _ => false

theorem deposits_eq_true {ι : Type} {s : BufferedSource ι} :
    s.deposits = true ↔
      ∃ bs, s.worker = .readDone (.ok bs) ∧ bs ≠ [] ∧ RingState.Live s.st := by
  unfold deposits
  constructor
  · intro h
    split at h
    · rename_i b bs hw
      rw [Bool.and_eq_true, Option.isNone_iff_eq_none, Bool.not_eq_true'] at h
      exact ⟨b :: bs, hw, List.cons_ne_nil b bs, h⟩
    · cases h
  · rintro ⟨bs, hw, hne, htarget, hstop⟩
    obtain ⟨b, bs, rfl⟩ := List.exists_cons_of_ne_nil hne
    simp only [hw, htarget, hstop, Option.isNone_none, Bool.not_false, Bool.and_self]

/-- Whether the worker has deposited bytes since the reader last began to wait, as a history
variable. -/
def deposited {ι : Type} (d : Bool) (s : BufferedSource ι) (a : Action) (_ : BufferedSource ι) :
    Bool :=
  match a with
  | .worker => d || s.deposits
  | .read _ _ => false
  | .wakeReader _ _ => false
  | _ => d

/-- Nothing can be served at the reader's position, and nothing has ended or failed. -/
structure Unserved {ι : Type} (s : BufferedSource ι) : Prop where
  empty : ¬ (s.st.ringStart ≤ s.pos ∧ s.pos < s.st.tail)
  eof : s.st.eof = false
  err : s.st.err = none
  before_end : s.st.pastEnd s.pos = false

section

variable [Target] {st st' : RingState} {pos want seam : Nat} {woke : Bool}

/-- A reader that waits stands at the tail, before the end. -/
theorem Within.waits (h : Within st pos) (hrear : st.rear < st.capacity)
    (hfit : st.buf.length ≤ usizeMax) (hpos : pos < u64Size)
    (hread : st.readSection seam want pos = (.waits, st', woke)) :
    st'.ringStart ≤ pos ∧ pos = st'.tail ∧ st'.pastEnd pos = false := by
  rcases RingState.readSection_spec hrear seam want pos with
    ⟨r, hcase, _, heq⟩ | ⟨r, hfirst, hcase, _, heq⟩
  · obtain rfl := heq.symm.trans hread
    cases hcase with
    | waits hle hmiss _ _ hend => exact ⟨hle, h.tail_eq hfit hle hmiss, hend⟩
  · cases hfirst with
    | drains hle hmiss =>
        obtain ⟨hin, htail⟩ := h.drained hfit hpos hle hmiss (Nat.sub_le st.buf.length st.rear)
        obtain ⟨pass, st₂, woke₂⟩ := r
        obtain ⟨rfl, rfl, _⟩ : pass = .waits ∧ st₂ = st' ∧ true = woke := by
          simpa using heq.symm.trans hread
        cases hcase with
        | waits _ _ _ _ hend => exact ⟨hin.lo, htail, hend⟩

/-- A read that fails shows the recorded error, or the reader has fallen behind the ring. -/
theorem readSection_error {e : IoError} {pos' : Nat} (hrear : st.rear < st.capacity)
    (hread : st.readSection seam want pos = (.returns (.error e) pos', st', woke)) :
    e = RingState.behindError ∨ st.surfaceErr = some e ∧ st' = st := by
  rcases RingState.readSection_spec hrear seam want pos with
    ⟨r, hcase, _, heq⟩ | ⟨r, hfirst, hcase, _, heq⟩
  · obtain rfl := heq.symm.trans hread
    cases hcase with
    | behind => exact .inl rfl
    | failed _ _ herr => exact .inr ⟨herr, rfl⟩
  · obtain ⟨pass, st₂, woke₂⟩ := r
    obtain ⟨rfl, rfl, _⟩ : pass = .returns (.error e) pos' ∧ st₂ = st' ∧ true = woke := by
      simpa using heq.symm.trans hread
    cases hfirst with
    | drains _ _ herr =>
        cases hcase with
        | behind => exact .inl rfl
        | failed _ _ herr' => exact absurd herr (@RingState.err_ne_none st _ herr')

end

/-! ### The wait -/

/-- What a waiting reader waits for: the ring holds a byte for it exactly if the worker has
deposited one since the wait began. -/
structure Awaits [Target] {ι : Type} [ReadSeek ι] (s : BufferedSource ι) (d : Bool) : Prop where
  stationed : Stationed s
  waiting : ∀ {want notified}, s.reader = .waiting want notified →
    s.st.ringStart ≤ s.pos ∧ s.st.pastEnd s.pos = false ∧ (d = true ↔ s.pos < s.st.tail)

section

variable [Target] {ι : Type} [ReadSeek ι] {s s' t u : BufferedSource ι} {d : Bool}
  {o : Option IoObs} {a : Action}

/-- A step that leaves the ring and the position alone keeps the wait as it is. -/
theorem Awaits.congr (h : Awaits s d) (hs' : Stationed s') (hstart : s'.st.ringStart = s.st.ringStart)
    (hbuf : s'.st.buf = s.st.buf) (htotal : s'.st.totalLen = s.st.totalLen)
    (hpos : s'.pos = s.pos)
    (hreader : ∀ {want notified}, s'.reader = .waiting want notified →
      ∃ notified', s.reader = .waiting want notified') : Awaits s' d := by
  refine ⟨hs', fun hr => ?_⟩
  obtain ⟨_, hwait⟩ := hreader hr
  have hkeep := h.waiting hwait
  have htail : s'.st.tail = s.st.tail := by rw [RingState.tail, hstart, hbuf, RingState.tail]
  have hpast : s'.st.pastEnd s'.pos = s.st.pastEnd s.pos := by
    rw [RingState.pastEnd, htotal, hpos, RingState.pastEnd]
  rw [hpast, htail, hstart, hpos]
  exact hkeep

omit [Target] in
/-- A waiting reader was waiting before the worker moved. -/
theorem workerStep_waiting (h : WorkerCase s s') {want : Nat} {notified : Bool}
    (hr : s'.reader = .waiting want notified) : ∃ notified', s.reader = .waiting want notified' := by
  rcases workerStep_reader h with heq | heq
  · exact ⟨notified, heq.symm.trans hr⟩
  · rw [heq] at hr
    cases hreader : s.reader with
    | waiting want' notified' =>
        rw [hreader] at hr
        cases hr
        exact ⟨notified', rfl⟩
    | _ =>
        rw [hreader] at hr
        cases hr

/-- The worker serves the waiting reader exactly by its deposits. -/
theorem Awaits.workerStep (h : Awaits s d) (hs' : Stationed s') (hs : WorkerCase s s') :
    Awaits s' (d || s.deposits) := by
  obtain ⟨hpos, _, _, htotal, hring⟩ := h.stationed.orderly.workerMove hs
  cases hring with
  | keeps hidle hbuf hstart =>
      have hquiet : s.deposits = false := by
        by_contra hdep
        obtain ⟨bs, hw, hne, hlive⟩ := deposits_eq_true.mp ((Bool.not_eq_false _).mp hdep)
        exact hidle bs hw hne hlive
      rw [hquiet, Bool.or_false]
      exact h.congr hs' hstart hbuf htotal hpos (workerStep_waiting hs)
  | restarts htarget hbuf hstart =>
      -- nothing was in the ring, and nothing is in it at the target
      have hat := (h.stationed.placed.target _ htarget).1
      have hnil := h.stationed.orderly.pending (by rw [htarget]; exact nofun)
      have hquiet : s.deposits = false := by
        by_contra hdep
        obtain ⟨_, _, _, hlive⟩ := deposits_eq_true.mp ((Bool.not_eq_false _).mp hdep)
        rw [hlive.1] at htarget
        cases htarget
      rw [hquiet, Bool.or_false]
      exact h.congr hs' (hstart.trans hat) (hbuf.trans hnil.symm) htotal hpos
        (workerStep_waiting hs)
  | @deposits bs hw hne hlive hbuf hstart =>
      refine ⟨hs', fun hr => ?_⟩
      obtain ⟨_, hwait⟩ := workerStep_waiting hs hr
      obtain ⟨hlo, hpast, _⟩ := h.waiting hwait
      have hdep : s.deposits = true := deposits_eq_true.mpr ⟨bs, hw, hne, hlive⟩
      have hhi := h.stationed.placed.within hlo
      have hlen := List.length_pos_iff.mpr hne
      have hpast' : s'.st.pastEnd s'.pos = s.st.pastEnd s.pos := by
        rw [RingState.pastEnd, htotal, hpos, RingState.pastEnd]
      refine ⟨by rwa [hstart, hpos], hpast'.trans hpast,
        iff_of_true (by rw [hdep, Bool.or_true]) ?_⟩
      unfold RingState.tail at hhi ⊢
      rw [hpos, hbuf, hstart, List.length_append]
      omega

/-- A read that waits begins its wait with no byte in the ring. -/
theorem Stationed.awaits (h : Stationed s) (hs' : Stationed s') {want seam : Nat}
    (hs : s.afterRead want (s.st.readSection seam want s.pos) = some (s', o)) : Awaits s' false := by
  refine ⟨hs', fun hr => ?_⟩
  rcases hread : s.st.readSection seam want s.pos with ⟨pass, st', woke⟩
  rw [hread] at hs
  cases pass with
  | waits =>
      obtain ⟨hlo, htail, hpast⟩ :=
        h.placed.within.waits h.orderly.rear h.fits h.placed.pos_lt hread
      cases hs
      refine ⟨hlo, hpast, iff_of_false nofun ?_⟩
      exact Nat.not_lt.mpr htail.ge
  | returns =>
      cases hs
      cases hr
  | panics =>
      cases hs
      cases hr
  | again => cases hs

/-- Every step keeps what a waiting reader waits for. -/
theorem Awaits.step (h : Awaits s d) (hs : s.step a = some (s', o)) :
    Awaits s' (deposited d s a s') := by
  have hs' := h.stationed.step hs
  cases step_cases hs with
  | worker hstep => exact h.workerStep hs' hstep
  | wakeup => exact h.congr hs' rfl rfl rfl rfl fun hr => ⟨_, hr⟩
  | readEmpty hidle =>
      refine ⟨hs', fun hr => ?_⟩
      rw [hidle] at hr
      cases hr
  | read _ _ hs => exact h.stationed.awaits hs' hs
  | timeout => exact ⟨hs', nofun⟩
  | resume _ hs => exact h.stationed.awaits hs' hs
  | seek hidle =>
      refine ⟨hs', fun hr => ?_⟩
      rw [hidle] at hr
      cases hr
  | drop => exact ⟨hs', nofun⟩
  | dropNotify => exact ⟨hs', nofun⟩
  | join => exact ⟨hs', nofun⟩

/-- A woken reader gives up on its timeout, with no error recorded and no end reached, or
looks at the ring. -/
theorem wakeReader_cases {timedOut : Bool} {seam : Nat}
    (hs : s.step (.wakeReader timedOut seam) = some (s', o)) :
    ∃ want notified, s.reader = .waiting want notified ∧
      ((s.st.err = none ∧ s.st.eof = false ∧ s' = { s with reader := .idle }) ∨
        s.afterRead want (s.st.readSection seam want s.pos) = some (s', o)) := by
  unfold BufferedSource.step at hs
  split at hs
  · cases hs
  · split at hs
    case h_4 timedOut seam want notified heq hwait =>
      cases heq
      refine ⟨want, notified, hwait, ?_⟩
      unfold resumeRead at hs
      split at hs
      · rename_i hcond
        cases hs
        exact .inl ⟨hcond.2.1, hcond.2.2, rfl⟩
      · exact .inr hs
    all_goals simp_all

/-- A read fails with the recorded error if it does not fail by its timeout. -/
theorem Stationed.failed (h : Stationed s) {want seam want' : Nat} {e : IoError}
    (hs : s.afterRead want (s.st.readSection seam want s.pos) =
      some (s', some (.read want' (.error e)))) (hkind : e.kind = .timedOut) :
    s.st.surfaceErr = some e ∧ ¬ Unserved s' := by
  rcases hread : s.st.readSection seam want s.pos with ⟨pass, st', woke⟩
  rw [hread] at hs
  cases pass with
  | returns res pos' =>
      cases hs
      rcases readSection_error h.orderly.rear hread with rfl | ⟨herr, rfl⟩
      · cases hkind
      · exact ⟨herr, fun hun => RingState.err_ne_none herr hun.err⟩
  | waits => cases hs
  | panics => cases hs
  | again => cases hs

variable {b : BufferedSourceBuilder} {inner : ι}

theorem build_awaits (hinner : Measured inner) (haddr : Addressed inner)
    (hb : b.build inner = some (.ok s)) : Awaits s false := by
  refine ⟨build_stationed hinner haddr hb, fun hr => ?_⟩
  obtain ⟨_, _, _, _, _, _, _, _, _, _, _, _, hreader⟩ := build_ok hb
  rw [hreader] at hr
  cases hr

/-- When a read returns `TimedOut`, nothing could be served exactly if the worker has
deposited nothing since the wait began and no inner call has failed with `TimedOut`. -/
theorem timed_out_iff (hinner : Measured inner) (haddr : Addressed inner)
    (hb : b.build inner = some (.ok s)) {as : List Action} {os : List IoObs}
    (hrun : (machine ι).run s as = some (t, os)) {want : Nat} {e : IoError}
    (hstep : t.step a = some (u, some (.read want (.error e)))) (hkind : e.kind = .timedOut) :
    Unserved u ↔ (machine ι).history deposited false s as = false ∧
      ∀ e', t.st.surfaceErr = some e' → e'.kind ≠ .timedOut := by
  have h : Awaits t ((machine ι).history deposited false s as) :=
    Machine.run_history (fun hI hs => hI.step hs) (build_awaits hinner haddr hb) hrun
  cases a with
  | wakeReader timedOut seam =>
      obtain ⟨want', notified, hwait, ⟨herr, heof, rfl⟩ | hread⟩ := wakeReader_cases hstep
      · obtain ⟨hlo, hpast, hserved⟩ := h.waiting hwait
        have hsurface : t.st.surfaceErr = none := RingState.surfaceErr_eq_none.mpr herr
        rw [hsurface]
        constructor
        · intro hun
          refine ⟨?_, nofun⟩
          rw [← Bool.not_eq_true, hserved]
          exact fun hlt => hun.empty ⟨hlo, hlt⟩
        · rintro ⟨hd, _⟩
          rw [← Bool.not_eq_true, hserved] at hd
          exact ⟨fun hin => hd hin.2, heof, herr, hpast⟩
      · obtain ⟨herr, hserved⟩ := h.stationed.failed hread hkind
        exact iff_of_false hserved fun hquiet => hquiet.2 e herr hkind
  | read want' seam =>
      cases step_cases hstep with
      | read _ _ hread =>
          obtain ⟨herr, hserved⟩ := h.stationed.failed hread hkind
          exact iff_of_false hserved fun hquiet => hquiet.2 e herr hkind
  | worker => nomatch step_cases hstep
  | spuriousWorker => nomatch step_cases hstep
  | seek f => nomatch step_cases hstep
  | drop => nomatch step_cases hstep
  | dropNotify => nomatch step_cases hstep
  | join => nomatch step_cases hstep

end

/-- A reader that gives up before the worker has taken a step gives up over nothing. -/
theorem timed_out_iff_stalled : letI := target64
    ∃ t u, runFrom (machine Cursor) .default (Cursor.new [7]) [.read 1 0] = some (t, []) ∧
      t.step (.wakeReader true 0) = some (u, some (.read 1 (.error (timeoutError 30000000000)))) ∧
      Unserved u := by
  let := target64
  have hrun : (runFrom (machine Cursor) .default (Cursor.new [7]) [.read 1 0]).map
      (fun r => (r.2, r.1.st.err, (r.1.step (.wakeReader true 0)).map (·.2))) =
      some ([], none, some (some (.read 1 (.error (timeoutError 30000000000))))) := by
    decide +kernel
  obtain ⟨⟨t, os⟩, hrun, hobs⟩ := Option.map_eq_some_iff.mp hrun
  simp only [Prod.mk.injEq] at hobs
  obtain ⟨rfl, herr, hobs⟩ := hobs
  obtain ⟨⟨u, o⟩, hstep, rfl⟩ := Option.map_eq_some_iff.mp hobs
  obtain ⟨s, hb, hs⟩ := runFrom_eq_some hrun
  have hquiet : (machine Cursor).history deposited false s [.read 1 0] = false := by
    unfold Machine.history
    split <;> rfl
  refine ⟨t, u, hrun, hstep, ?_⟩
  apply (timed_out_iff (Cursor.measured _) (Cursor.addressed (.new [7]) (by decide) (by decide))
    hb hs hstep rfl).mpr
  refine ⟨hquiet, fun e he => ?_⟩
  exact absurd herr (RingState.err_ne_none he)

/-- The byte arrives between the timeout and the lock, and the reader gives up over it. -/
theorem timed_out_served : letI := target64
    ¬ ∀ (s t u : BufferedSource Cursor) as os a want e,
      BufferedSourceBuilder.default.build (Cursor.new [7]) = some (.ok s) →
      (machine Cursor).run s as = some (t, os) →
      t.step a = some (u, some (.read want (.error e))) → e.kind = .timedOut → Unserved u := by
  let := target64
  intro hall
  have hrun : (runFrom (machine Cursor) .default (Cursor.new [7])
      [.read 1 0, .worker, .worker, .worker]).map (fun r => (r.1.step (.wakeReader true 0)).map
        fun q => (q.2, q.1.st.ringStart, q.1.pos, q.1.st.buf)) =
      some (some (some (.read 1 (.error (timeoutError 30000000000))), 0, 0, [7])) := by
    decide +kernel
  obtain ⟨⟨t, os⟩, hrun, hobs⟩ := Option.map_eq_some_iff.mp hrun
  obtain ⟨⟨u, o⟩, hstep, hobs⟩ := Option.map_eq_some_iff.mp hobs
  simp only [Prod.mk.injEq] at hobs
  obtain ⟨rfl, hstart, hpos, hbuf⟩ := hobs
  obtain ⟨s, hb, hs⟩ := runFrom_eq_some hrun
  apply (hall s t u _ _ _ _ _ hb hs hstep rfl).empty
  rw [RingState.tail, hstart, hpos, hbuf]
  decide

end OxideSource.BufferedSource
