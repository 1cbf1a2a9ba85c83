import OxideSource.Buffered.StreamEnd

/-!
# Failures of the inner source

What the caller sees once the inner source has failed: the recorded error is sticky
and is never masked, whichever seeks follow, and the ring stays readable.
-/

namespace OxideSource.BufferedSource

section

variable [Target] {ι : Type} [ReadSeek ι] {F : Faults} {D : Bytes} {s s' t u : BufferedSource ι}
  {b : BufferedSourceBuilder} {inner : ι} {p₀ : Nat} {o : Option IoObs} {e : IoError}

/-- The recorded error outlives every step. -/
theorem surfaceErr_step (ho : Orderly s) (herr : s.st.surfaceErr = some e) {a : Action}
    (hs : s.step a = some (s', o)) : s'.st.surfaceErr = some e := by
  have hne := RingState.err_ne_none herr
  have hdead : s.st.workerDead = true := ho.sticky.mp hne
  have hexited : s.worker = .exited := ho.dead hdead
  have hafter : ∀ {want seam : Nat},
      s.afterRead want (s.st.readSection seam want s.pos) = some (s', o) →
      s'.st.surfaceErr = some e := by
    intro want seam hs
    obtain ⟨woke, htrim, _⟩ := afterRead_trimmed (ho.settled seam want) hs
    exact htrim.surfaceErr.trans herr
  cases step_cases hs with
  | worker hstep => exact absurd hexited hstep.ne_exited
  | read _ _ hs => exact hafter hs
  | resume _ hs => exact hafter hs
  | seek _ hcase =>
      cases hcase with
      | rejects => exact herr
      | inside => exact herr
      | restarts =>
          change Option.map _ (if s.st.workerDead then s.st.err else none) = some e
          rw [hdead]
          exact herr
  | _ => exact herr

/-- What a read may return once `e` is recorded: the ring bytes at the position, which
are the inner bytes there, or `e`. -/
def Served (D : Bytes) (s : BufferedSource ι) (e : IoError) (want : Nat) (res : IoResult Bytes) :
    Prop :=
  (s.pos < s.st.tail ∧ ∃ bs, res = .ok bs ∧ bs ≠ [] ∧ bs.length ≤ want ∧ bs <+: D.drop s.pos ∧
    bs <+: s.st.buf.drop (s.pos - s.st.ringStart)) ∨
  s.pos = s.st.tail ∧ res = .error e

/-- The action is a pass of the reader's loop. -/
def Action.isRead : Action → Bool
  | .read _ _ => true
  | .wakeReader _ _ => true
  | _ => false

/-- The ring is what it was, has lost its oldest bytes to the drain of a read, or was emptied
by a seek that left it. -/
def RingKept (s s' : BufferedSource ι) (a : Action) : Prop :=
  (s'.st.ringStart = s.st.ringStart ∧ s'.st.buf = s.st.buf) ∨
  (a.isRead = true ∧ ∃ k, s'.st = s.st.discard k) ∨
  ∃ f q, a = .seek f ∧ s.st.resolve s.pos f = .ok q ∧ (q < s.st.ringStart ∨ s.st.tail < q)

/-- How a source behaves after its worker has failed with `e`. -/
structure FailsFast (F : Faults) (D : Bytes) (e : IoError) (s : BufferedSource ι) : Prop where
  fatal : F.fatal e
  recorded : s.st.surfaceErr = some e
  exited : s.worker = .exited
  read : s.reader = .idle → ∀ want seam, want ≠ 0 →
    ∃ s' res, s.step (.read want seam) = some (s', some (.read want res)) ∧ Served D s e want res
  resume : ∀ want notified, s.reader = .waiting want notified → ∀ timedOut seam,
    ∃ s' res, s.step (.wakeReader timedOut seam) = some (s', some (.read want res)) ∧
      Served D s e want res
  seek : s.reader = .idle → ∀ f q, s.st.resolve s.pos f = .ok q → s.st.ringStart ≤ q →
    q ≤ s.st.tail → s.step (.seek f) = some ({ s with pos := q }, some (.seek f (.ok q)))
  kept : ∀ a s' o, s.step a = some (s', o) → RingKept s s' a

/-- A read that finds the recorded error is served from the ring or fails with it. -/
theorem Consistent.served (h : Consistent F D s) (herr : s.st.surfaceErr = some e) {want : Nat}
    (hwant : want ≠ 0) {r : Pass × RingState × Bool} (hcase : ReadCase s.st want s.pos r) :
    ∃ s' res, s.afterRead want r = some (s', some (.read want res)) ∧ Served D s e want res := by
  have hne := RingState.err_ne_none herr
  cases hcase with
  | @hit n st' woke hpos hn hst =>
      have hlo := h.tracks.ring.lo
      have hlen : (window s.st.buf (s.pos - s.st.ringStart) n).length = n := by
        apply length_window_of_le
        unfold RingState.tail at hn hpos
        omega
      refine ⟨_, _, rfl, .inl ⟨hpos, _, rfl, ?_, by omega, h.tracks.hit_prefix n, ?_⟩⟩
      · intro hnil
        rw [hnil, List.length_nil] at hlen
        omega
      · exact List.take_prefix _ _
  | failed hpos herr' =>
      obtain rfl := Option.some.inj (herr.symm.trans herr')
      exact ⟨_, _, rfl, .inr ⟨hpos, rfl⟩⟩
  | ended _ hnone _ => exact absurd hnone hne
  | waits _ hnone _ _ _ => exact absurd hnone hne

/-- A reader that wakes after a failure does not time out. -/
theorem Consistent.resume_failed (h : Consistent F D s) (hne : s.st.err ≠ none) {want : Nat}
    {notified : Bool} (hwait : s.reader = .waiting want notified) (timedOut : Bool) (seam : Nat) :
    s.step (.wakeReader timedOut seam) =
      s.afterRead want (s.st.readSection seam want s.pos) := by
  unfold BufferedSource.step BufferedSource.resumeRead
  simp only [h.orderly.not_poisoned, Bool.false_eq_true, ite_false, hwait, hne, false_and,
    and_false]

/-- With the worker gone, only the reader's own drains and seeks take bytes away. -/
theorem Consistent.ringKept (h : Consistent F D s) (hexited : s.worker = .exited) {a : Action}
    (hs : s.step a = some (s', o)) : RingKept s s' a := by
  have hafter : ∀ {want seam : Nat}, a.isRead = true →
      s.afterRead want (s.st.readSection seam want s.pos) = some (s', o) → RingKept s s' a := by
    intro want seam hread hs
    obtain ⟨woke, htrim, _⟩ := afterRead_trimmed (h.orderly.settled seam want) hs
    rcases htrim with hst | ⟨k, _, hst, _⟩
    · exact .inl (by rw [hst]; exact ⟨rfl, rfl⟩)
    · exact .inr (.inl ⟨hread, k, hst⟩)
  cases step_cases hs with
  | worker hstep => exact absurd hexited hstep.ne_exited
  | read _ _ hs => exact hafter rfl hs
  | resume _ hs => exact hafter rfl hs
  | seek _ hcase =>
      cases hcase with
      | rejects => exact .inl ⟨rfl, rfl⟩
      | inside => exact .inl ⟨rfl, rfl⟩
      | restarts hq hout =>
          rw [h.tracks.ring.ringEnd] at hout
          exact .inr (.inr ⟨_, _, rfl, hq, hout⟩)
  | _ => exact .inl ⟨rfl, rfl⟩

/-- A consistent source with a recorded error fails fast. -/
theorem Consistent.failsFast (h : Consistent F D s) (herr : s.st.surfaceErr = some e) :
    FailsFast F D e s := by
  have hne := RingState.err_ne_none herr
  have hexited := h.orderly.dead (h.orderly.sticky.mp hne)
  refine ⟨h.tracks.err e herr, herr, hexited, ?_, ?_, ?_, ?_⟩
  · intro hidle want seam hwant
    obtain ⟨r, hcase, hstep⟩ := h.read hidle hwant seam
    rw [hstep]
    exact h.served herr hwant hcase
  · intro want notified hwait timedOut seam
    have hreader := h.orderly.reader
    rw [hwait] at hreader
    rw [h.resume_failed hne hwait]
    exact h.served herr hreader.1 (h.tracks.readCase h.orderly seam want)
  · intro hidle f q hq hlo hhi
    exact h.tracks.ring.seek_inside h.orderly hidle hq hlo hhi
  · intro a s' o hs
    exact h.ringKept hexited hs

/-- Once the worker has failed, in every state that the two threads reach from there, reads
are served from the ring or fail with the recorded error at once. -/
theorem failure_is_sticky (hinner : Serves F D inner (some p₀)) (hF : F.Conventional)
    (hp : p₀ < u64Size) (hD : D.length < u64Size) (hb : b.build inner = some (.ok s))
    (hreach : (machine ι).Reach s t) (herr : t.st.surfaceErr = some e)
    (hlater : (machine ι).Reach t u) : FailsFast F D e u := by
  have ht := (build_consistent hinner hp hD hb).1.reach hF hD hreach
  have hinv := hlater.invariant (I := fun u => Consistent F D u ∧ u.st.surfaceErr = some e)
    (fun hI hs => ⟨hI.1.step hF hD hs, surfaceErr_step hI.1.orderly hI.2 hs⟩) ⟨ht, herr⟩
  exact hinv.1.failsFast hinv.2

end

/-- A failure after the first of two bytes stays in force across a seek. -/
theorem failure_is_sticky_seek : letI := target64
    ∃ t u, runFrom (machine Brittle) .default (Brittle.mk [1, 2] 0 (some 1) none)
        (List.replicate 6 .worker) = some (t, []) ∧
      (machine Brittle).Reach t u ∧ FailsFast Brittle.breaks [1, 2] Brittle.lost u := by
  let := target64
  have hrun : (runFrom (machine Brittle) .default (Brittle.mk [1, 2] 0 (some 1) none)
      (List.replicate 6 .worker)).map (fun r => (r.2, r.1.st.surfaceErr,
        ((machine Brittle).run r.1 [.seek (.fromStart 1)]).map (·.2))) =
      some ([], some Brittle.lost, some [.seek (.fromStart 1) (.ok 1)]) := by
    decide +kernel
  obtain ⟨⟨t, os⟩, hrun, hobs⟩ := Option.map_eq_some_iff.mp hrun
  simp only [Prod.mk.injEq] at hobs
  obtain ⟨rfl, herr, hseek⟩ := hobs
  obtain ⟨⟨u, os'⟩, hseek, _⟩ := Option.map_eq_some_iff.mp hseek
  obtain ⟨s, hb, hs⟩ := runFrom_eq_some hrun
  exact ⟨t, u, hrun, ⟨_, _, hseek⟩, failure_is_sticky (Brittle.breaking [1, 2] 1)
    Brittle.breaks_conventional (by decide) (by decide) hb ⟨_, _, hs⟩ herr ⟨_, _, hseek⟩⟩

end OxideSource.BufferedSource
