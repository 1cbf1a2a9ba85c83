import OxideSource.Buffered.Ring

/-!
# What a section of the ring can do

One case analysis for each critical section. Invariants of the two threads are
derived from these cases and never from the bodies of the sections.
-/

namespace OxideSource.RingState

variable {st : RingState}

/-! ### The worker -/

/-- The ways a turn of phase 1 ends. -/
inductive Phase1Case (st : RingState) : RingState × WorkerPc × Bool → Prop where
  | stops (hstop : st.stop = true) : Phase1Case st (st, .exited, false)
  | restarts {target : Nat} (hstop : st.stop = false) (htarget : st.targetPos = some target) :
      Phase1Case st
        ({ st.restart target with targetPos := none, err := none }, .seeking target, true)
  | parks (hstop : st.stop = false) (htarget : st.targetPos = none)
      (hfull : st.eof = true ∨ st.buf.length = st.capacity) :
      Phase1Case st (st, .parked false, false)
  | reads (hstop : st.stop = false) (htarget : st.targetPos = none) (heof : st.eof = false)
      (hroom : st.buf.length < st.capacity) :
      Phase1Case st (st, .reading (min (st.capacity - st.buf.length) st.blockSize), false)

/-- The first section, case by case. -/
theorem phase1_spec (hlen : st.buf.length ≤ st.capacity) : Phase1Case st st.phase1 := by
  unfold phase1
  by_cases hstop : st.stop = true
  · rw [if_pos hstop]
    exact .stops hstop
  · rw [if_neg hstop]
    have hstop' : st.stop = false := by simpa using hstop
    cases htarget : st.targetPos with
    | some target => exact .restarts hstop' htarget
    | none =>
        by_cases heof : st.eof = true
        · simp only [heof, ite_true]
          exact .parks hstop' htarget (.inl heof)
        · simp only [heof, checkedSub_of_le hlen]
          by_cases hfree : st.capacity - st.buf.length = 0
          · simp only [hfree, ite_true]
            exact .parks hstop' htarget (.inr (by omega))
          · simp only [hfree, ite_false]
            exact .reads hstop' htarget (by simpa using heof) (by omega)

/-- The ways phase 3 ends on a read within the block size. -/
inductive Phase3Case (st : RingState) (res : IoResult Bytes) :
    RingState × WorkerPc × Bool → Prop where
  | stale (h : st.targetPos ≠ none ∨ st.stop = true) : Phase3Case st res (st, .phase1, false)
  | ended (htarget : st.targetPos = none) (hstop : st.stop = false) (hres : res = .ok []) :
      Phase3Case st res ({ st with eof := true }, .phase1, true)
  | deposits {bs : Bytes} (htarget : st.targetPos = none) (hstop : st.stop = false)
      (hres : res = .ok bs) (hne : bs ≠ []) :
      Phase3Case st res ({ st with buf := st.buf ++ bs }, .phase1, true)
  | retries {e : IoError} (htarget : st.targetPos = none) (hstop : st.stop = false)
      (hres : res = .error e) (hkind : e.kind = .interrupted) :
      Phase3Case st res (st, .phase1, false)
  | fails {e : IoError} (htarget : st.targetPos = none) (hstop : st.stop = false)
      (hres : res = .error e) (hkind : e.kind ≠ .interrupted) :
      Phase3Case st res (st.fail e, .exited, true)

/-- The third section, case by case. -/
theorem phase3_spec {res : IoResult Bytes}
    (hblock : ∀ bs, res = .ok bs → bs.length ≤ st.blockSize) :
    Phase3Case st res (st.phase3 res) := by
  unfold phase3
  by_cases hstale : (st.targetPos.isSome || st.stop) = true
  · rw [if_pos hstale]
    rw [Bool.or_eq_true, Option.isSome_iff_ne_none] at hstale
    exact .stale hstale
  · rw [if_neg hstale]
    rw [Bool.or_eq_true, not_or, Option.not_isSome_iff_eq_none, Bool.not_eq_true] at hstale
    obtain ⟨htarget, hstop⟩ := hstale
    match res, hblock with
    | .ok [], _ => exact .ended htarget hstop rfl
    | .ok (b :: bs), hblock =>
        have hfit := hblock _ rfl
        simp only [hfit, ite_true]
        exact .deposits htarget hstop rfl (List.cons_ne_nil b bs)
    | .error e, _ =>
        by_cases hkind : e.kind = .interrupted
        · simp only [hkind, ite_true]
          exact .retries htarget hstop rfl hkind
        · simp only [hkind, ite_false]
          exact .fails htarget hstop rfl hkind

/-! ### One pass of the reader -/

/-- The ring is untouched, or has lost some of its `n` oldest bytes and `not_full` was
notified. -/
def Trimmed (st : RingState) (n : Nat) (st' : RingState) (woke : Bool) : Prop :=
  st' = st ∨ ∃ k, k ≤ n ∧ st' = st.discard k ∧ woke = true

/-- Draining leaves the error alone. -/
theorem Trimmed.err {n : Nat} {st' : RingState} {woke : Bool} (h : st.Trimmed n st' woke) :
    st'.err = st.err := by
  rcases h with rfl | ⟨k, _, rfl, _⟩
  · rfl
  · rfl

/-- Draining leaves what the reader sees of the error alone. -/
theorem Trimmed.surfaceErr {n : Nat} {st' : RingState} {woke : Bool} (h : st.Trimmed n st' woke) :
    st'.surfaceErr = st.surfaceErr := congrArg (Option.map _) h.err

/-- The ways a pass of the reader ends. -/
inductive PassCase [Target] (st : RingState) (want pos : Nat) : Pass × RingState × Bool → Prop where
  | behind (h : pos < st.ringStart) :
      PassCase st want pos (.returns (.error behindError) pos, st, false)
  | hit {rel n : Nat} {st' : RingState} {woke : Bool} (hle : st.ringStart ≤ pos)
      (hrel : rel = asUsize (pos - st.ringStart)) (hhit : rel < st.buf.length)
      (hn : n = min (st.buf.length - rel) want) (hst : Trimmed st (rel + n) st' woke) :
      PassCase st want pos (.returns (.ok (window st.buf rel n)) (addU64 pos n), st', woke)
  | failed {e : IoError} (hle : st.ringStart ≤ pos)
      (hmiss : st.buf.length ≤ asUsize (pos - st.ringStart)) (herr : st.surfaceErr = some e) :
      PassCase st want pos (.returns (.error e) pos, st, false)
  | ended (hle : st.ringStart ≤ pos) (hmiss : st.buf.length ≤ asUsize (pos - st.ringStart))
      (herr : st.err = none) (hend : st.eof = true ∨ st.pastEnd pos = true) :
      PassCase st want pos (.returns (.ok []) pos, st, false)
  | drains (hle : st.ringStart ≤ pos) (hmiss : st.buf.length ≤ asUsize (pos - st.ringStart))
      (herr : st.err = none) (heof : st.eof = false) (hend : st.pastEnd pos = false)
      (hfull : st.buf.length = st.capacity) :
      PassCase st want pos (.again, st.discard (st.buf.length - st.rear), true)
  | waits (hle : st.ringStart ≤ pos) (hmiss : st.buf.length ≤ asUsize (pos - st.ringStart))
      (herr : st.err = none) (heof : st.eof = false) (hend : st.pastEnd pos = false)
      (hroom : st.buf.length ≠ st.capacity) :
      PassCase st want pos (.waits, st, false)

/-- A drain within the ring discards its bytes. -/
theorem drain_eq {n : Nat} (h : n ≤ st.buf.length) : st.drain n = some (st.discard n) := if_pos h

/-- The reader sees an error exactly when there is one. -/
theorem surfaceErr_eq_none : st.surfaceErr = none ↔ st.err = none := Option.map_eq_none_iff

/-- An error that is seen is there. -/
theorem err_ne_none {e : IoError} (h : st.surfaceErr = some e) : st.err ≠ none := by
  intro hnone
  rw [surfaceErr_eq_none.mpr hnone] at h
  cases h

/-- A hit, with what it drains. -/
theorem readPass_hit [Target] {seam want pos rel n : Nat} (hle : st.ringStart ≤ pos)
    (hrel : rel = asUsize (pos - st.ringStart)) (hhit : rel < st.buf.length)
    (hn : n = min (st.buf.length - rel) want) :
    st.readPass seam want pos =
      (.returns (.ok (window st.buf rel n)) (addU64 pos n),
        if rel + n > st.rear then (st.discard (rel + n - st.rear), true) else (st, false)) := by
  have hcopy : hitCopy seam st.buf rel n = some (window st.buf rel n) := hitCopy_eq (by omega)
  unfold readPass
  rw [if_neg (Nat.not_lt.mpr hle)]
  simp only [← hrel, hhit, ite_true, ← hn, hcopy]
  by_cases hdrop : rel + n > st.rear
  · rw [if_pos hdrop, if_pos hdrop, drain_eq (by omega)]
  · rw [if_neg hdrop, if_neg hdrop]

/-- One pass of a read, case by case. -/
theorem readPass_spec [Target] (st : RingState) (hrear : st.rear < st.capacity)
    (seam want pos : Nat) :
    PassCase st want pos (st.readPass seam want pos) := by
  by_cases hbehind : pos < st.ringStart
  · unfold readPass
    rw [if_pos hbehind]
    exact .behind hbehind
  · have hle : st.ringStart ≤ pos := Nat.not_lt.mp hbehind
    by_cases hhit : asUsize (pos - st.ringStart) < st.buf.length
    · rw [readPass_hit hle rfl hhit rfl]
      split
      · exact .hit hle rfl hhit rfl (.inr ⟨_, Nat.sub_le _ _, rfl, rfl⟩)
      · exact .hit hle rfl hhit rfl (.inl rfl)
    · have hmiss : st.buf.length ≤ asUsize (pos - st.ringStart) := Nat.not_lt.mp hhit
      unfold readPass
      rw [if_neg hbehind]
      simp only [hhit, ite_false]
      cases herr : st.surfaceErr with
      | some e => exact .failed hle hmiss herr
      | none =>
          have herr' := surfaceErr_eq_none.mp herr
          by_cases heof : st.eof = true
          · simp only [heof, ite_true]
            exact .ended hle hmiss herr' (.inl heof)
          · have heof' : st.eof = false := by simpa using heof
            by_cases hend : st.pastEnd pos = true
            · simp only [heof', hend, Bool.false_eq_true, ite_false, ite_true]
              exact .ended hle hmiss herr' (.inr hend)
            · have hend' : st.pastEnd pos = false := by simpa using hend
              simp only [heof', hend', Bool.false_eq_true, ite_false]
              by_cases hfull : st.buf.length = st.capacity
              · rw [if_pos hfull, checkedSub_of_le (by omega), Option.bind_some,
                  drain_eq (Nat.sub_le _ _)]
                exact .drains hle hmiss herr' heof' hend' hfull
              · rw [if_neg hfull]
                exact .waits hle hmiss herr' heof' hend' hfull

/-! ### The reader's loop -/

/-- Discards add up. -/
theorem discard_discard (m n : Nat) : (st.discard m).discard n = st.discard (m + n) := by
  have hbuf : (st.buf.drop m).drop n = st.buf.drop (m + n) := List.drop_drop
  have hstart : addU64 (addU64 st.ringStart m) n = addU64 st.ringStart (m + n) := by
    simp only [addU64, Nat.mod_add_mod, Nat.add_assoc]
  simp only [discard, hbuf, hstart]

/-- What the reader's loop leaves behind, whatever the bytes: the ring has at most lost
its oldest bytes, and the reader waits only on a ring with room that is neither failed
nor at its end. -/
def Settled (st : RingState) : Pass × RingState × Bool → Prop
  | (pass, st', woke) =>
      Trimmed st st.buf.length st' woke ∧
        match pass with
        | .returns _ _ => True
        | .waits => st'.err = none ∧ st'.eof = false ∧ st'.buf.length ≠ st'.capacity
        | .again => False
        | .panics => False

/-- A pass that ends the read leaves the ring settled. -/
theorem PassCase.settled [Target] {want pos : Nat} {r : Pass × RingState × Bool}
    (h : PassCase st want pos r) (hr : r.1 ≠ .again) : Settled st r := by
  cases h with
  | behind => exact ⟨.inl rfl, trivial⟩
  | hit hle hrel hhit hn hst =>
      refine ⟨hst.imp id ?_, trivial⟩
      rintro ⟨k, hk, hst', hwoke⟩
      exact ⟨k, by omega, hst', hwoke⟩
  | failed => exact ⟨.inl rfl, trivial⟩
  | ended => exact ⟨.inl rfl, trivial⟩
  | drains => exact absurd rfl hr
  | waits hle hmiss herr heof hend hroom => exact ⟨.inl rfl, herr, heof, hroom⟩

/-- A pass continues only on a full ring, which it drains. -/
theorem PassCase.again [Target] {want pos : Nat} {r : Pass × RingState × Bool}
    (h : PassCase st want pos r) (hr : r.1 = .again) :
    st.buf.length = st.capacity ∧ r = (.again, st.discard (st.buf.length - st.rear), true) := by
  cases h with
  | drains _ _ _ _ _ hfull => exact ⟨hfull, rfl⟩
  | _ => cases hr

/-- A pass that does not continue ends the loop. -/
theorem readLoop_of_ends [Target] {seam want pos fuel : Nat} (hfuel : 0 < fuel)
    (h : (st.readPass seam want pos).1 ≠ .again) :
    st.readLoop seam want pos fuel = st.readPass seam want pos := by
  obtain ⟨k, rfl⟩ := Nat.exists_eq_succ_of_ne_zero (Nat.ne_of_gt hfuel)
  rw [readLoop]
  split
  · rename_i hpass
    rw [hpass] at h
    exact absurd rfl h
  · rfl

/-- The loop ends with its first pass, or drains a full ring and ends with the second:
the drained ring is no longer full. -/
theorem readSection_spec [Target] (hrear : st.rear < st.capacity) (seam want pos : Nat) :
    (∃ r, PassCase st want pos r ∧ r.1 ≠ .again ∧ st.readSection seam want pos = r) ∨
    ∃ r, PassCase st want pos (.again, st.discard (st.buf.length - st.rear), true) ∧
      PassCase (st.discard (st.buf.length - st.rear)) want pos r ∧ r.1 ≠ .again ∧
      st.readSection seam want pos = (r.1, r.2.1, true) := by
  have hfirst := readPass_spec st hrear seam want pos
  by_cases hagain : (st.readPass seam want pos).1 = .again
  · obtain ⟨hfull, hdrained⟩ := hfirst.again hagain
    have hsecond := readPass_spec (st.discard (st.buf.length - st.rear)) hrear seam want pos
    have hends : ((st.discard (st.buf.length - st.rear)).readPass seam want pos).1 ≠ .again := by
      intro h
      have hfull' : (st.discard (st.buf.length - st.rear)).buf.length = st.capacity :=
        (hsecond.again h).1
      rw [length_discard] at hfull'
      omega
    have hlen : 0 < st.buf.length := by omega
    refine .inr ⟨_, hdrained ▸ hfirst, hsecond, hends, ?_⟩
    simp only [readSection, readLoop, hdrained, readLoop_of_ends hlen hends, Bool.true_or]
  · exact .inl ⟨_, hfirst, hagain, readLoop_of_ends (Nat.zero_lt_succ _) hagain⟩

/-- The critical section of a read settles. -/
theorem readSection_settled [Target] (hrear : st.rear < st.capacity) (seam want pos : Nat) :
    Settled st (st.readSection seam want pos) := by
  rcases readSection_spec hrear seam want pos with ⟨r, hcase, hr, heq⟩ | ⟨r, _, hcase, hr, heq⟩
  · rw [heq]
    exact hcase.settled hr
  · rw [heq]
    obtain ⟨htrim, hpass⟩ := hcase.settled hr
    refine ⟨.inr ?_, hpass⟩
    rcases htrim with hst | ⟨k, hk, hst, _⟩
    · exact ⟨_, Nat.sub_le _ _, hst, rfl⟩
    · refine ⟨st.buf.length - st.rear + k, ?_, hst.trans (discard_discard _ _), rfl⟩
      rw [length_discard] at hk
      omega

/-! ### Seeks -/

/-- `add_signed` resolves exactly as a cursor does. -/
theorem addSigned_eq (base : Nat) (d : Int64) :
    (∃ q, addSigned base d = .ok q ∧ checkedAddSigned base d = some q) ∨
    ∃ e, addSigned base d = .error e ∧ e.kind = .invalidInput ∧ checkedAddSigned base d = none := by
  unfold addSigned
  cases checkedAddSigned base d with
  | some q => exact .inl ⟨q, rfl, rfl⟩
  | none => exact .inr ⟨_, rfl, rfl, rfl⟩

/-- With the length known, a seek resolves exactly as that of a cursor. -/
theorem resolve_eq {L : Nat} (htotal : st.totalLen = some L) (pos : Nat) (f : SeekFrom) :
    (∃ q, st.resolve pos f = .ok q ∧ seekTarget L (some pos) f = some q) ∨
    ∃ e, st.resolve pos f = .error e ∧ e.kind = .invalidInput ∧
      seekTarget L (some pos) f = none := by
  cases f with
  | fromStart n => exact .inl ⟨_, rfl, rfl⟩
  | fromEnd d =>
      simp only [resolve, htotal]
      exact addSigned_eq L d
  | fromCurrent d => exact addSigned_eq pos d

/-- The ways a seek ends. -/
inductive SeekCase (st : RingState) (pos : Nat) (f : SeekFrom) :
    IoResult Nat × Nat × RingState × Bool → Prop where
  | rejects {e : IoError} (h : st.resolve pos f = .error e) :
      SeekCase st pos f (.error e, pos, st, false)
  | inside {q : Nat} (h : st.resolve pos f = .ok q) (hlo : st.ringStart ≤ q)
      (hhi : q ≤ addU64 st.ringStart st.buf.length) : SeekCase st pos f (.ok q, q, st, false)
  | restarts {q : Nat} (h : st.resolve pos f = .ok q)
      (hout : q < st.ringStart ∨ addU64 st.ringStart st.buf.length < q) :
      SeekCase st pos f (.ok q, q,
        { st.restart q with
          targetPos := some q, err := if st.workerDead then st.err else none }, true)

/-- The section of a seek, case by case. -/
theorem seekSection_spec (st : RingState) (pos : Nat) (f : SeekFrom) :
    SeekCase st pos f (st.seekSection pos f) := by
  unfold seekSection
  cases h : st.resolve pos f with
  | error e => exact .rejects h
  | ok q =>
      by_cases hin : q ≥ st.ringStart ∧ q ≤ addU64 st.ringStart st.buf.length
      · simp only [hin, and_self, ite_true]
        exact .inside h hin.1 hin.2
      · simp only [hin, ite_false]
        exact .restarts h (by omega)

end OxideSource.RingState
