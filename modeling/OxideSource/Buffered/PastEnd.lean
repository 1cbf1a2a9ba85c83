import OxideSource.Buffered.Progress
import OxideSource.Buffered.StreamEnd

/-!
# Seeks past the end

A seek past the end is harmless exactly as long as the inner source accepts it. The
worker repeats it on the inner source, and a refusal is recorded as fatal, as is a read
there that fails. Until then every seek is recoverable: reads go on to deliver the inner
bytes, and one that has to wait for the worker is served after a few of its steps.
-/

namespace OxideSource.BufferedSource

/-- The inner source may refuse to seek past its end, and reads may be interrupted. -/
def refusesPastEnd (D : Bytes) : Faults :=
  ⟨fun e => e.kind = .interrupted, fun _ => False, fun q _ => D.length < q⟩

section

variable [Target] {ι : Type} [ReadSeek ι] {F : Faults} {D : Bytes} {s s' t u : BufferedSource ι}
  {b : BufferedSourceBuilder} {inner : ι} {p₀ want : Nat} {o : Option IoObs} {as : List Action}

omit [Target] [ReadSeek ι] in
/-- The worker does not go on from a call that the inner source has refused: a seek, or a
read that was not interrupted and whose result counts. Once the reader drops the source,
nothing depends on the worker. -/
def unrefused (s : BufferedSource ι) (a : Action) : Bool :=
  match a, s.worker with
  | .worker, .seekFailed _ => s.st.stop
  | .worker, .readDone (.error e) =>
      decide (e.kind = .interrupted) || s.st.targetPos.isSome || s.st.stop
  | _, _ => true

omit [Target] [ReadSeek ι] in
/-- No failure is recorded while the source is in use. -/
def Healthy (s : BufferedSource ι) : Prop := s.st.stop = false → s.st.err = none

/-- A worker that does not go on from a refused call records no failure. -/
theorem Healthy.workerStep (h : Healthy s) (ho : Orderly s)
    (hok : unrefused s .worker = true) (hs : WorkerCase s s') : Healthy s' := by
  unfold unrefused at hok
  cases hs with
  | phase1 hw =>
      have hspec := ho.phase1Case
      generalize s.st.phase1 = r at hspec
      cases hspec with
      | restarts => exact fun _ => rfl
      | _ => exact h
  | records hw =>
      simp only [hw] at hok
      intro hrunning
      exact absurd hok (by rw [show s.st.stop = false from hrunning]; exact nofun)
  | phase3 hw =>
      have hspec := ho.phase3Case hw
      generalize s.st.phase3 _ = r at hspec
      cases hspec with
      | fails htarget hstop hres hkind =>
          subst hres
          simp [hw, hkind, htarget, hstop] at hok
      | _ => exact h
  | _ => exact h

/-- Every step keeps a source healthy, the reader's among them. -/
theorem Healthy.step (h : Healthy s) (ho : Orderly s) {a : Action}
    (hok : unrefused s a = true) (hs : s.step a = some (s', o)) : Healthy s' := by
  have hafter : ∀ {want seam : Nat},
      s.afterRead want (s.st.readSection seam want s.pos) = some (s', o) → Healthy s' := by
    intro want seam hs hrunning
    obtain ⟨woke, htrim, _, _⟩ := afterRead_trimmed (ho.settled seam want) hs
    obtain ⟨_, _, _, _, _, hstop⟩ := Trimmed.keeps htrim
    exact htrim.err.trans (h (hstop.symm.trans hrunning))
  cases step_cases hs with
  | worker hstep => exact h.workerStep ho hok hstep
  | read _ _ hs => exact hafter hs
  | resume _ hs => exact hafter hs
  | seek _ hcase =>
      cases hcase with
      | rejects => exact h
      | inside => exact h
      | restarts =>
          intro hrunning
          change (if s.st.workerDead then s.st.err else none) = none
          split
          · exact h hrunning
          · rfl
  | drop => exact nofun
  | _ => exact h

omit [Target] in
/-- Nothing has failed in what `build` returns. -/
theorem build_healthy [Target] (hb : b.build inner = some (.ok s)) : Healthy s := by
  obtain ⟨_, _, _, _, _, _, _, _, _, hst, _⟩ := build_ok hb
  intro _
  rw [hst]

/-- With no failure recorded, the critical section of a read delivers bytes that are there,
or the end, or waits for the worker. -/
theorem Consistent.delivers (h : Consistent F D s) (herr : s.st.err = none) (hwant : want ≠ 0)
    {r : Pass × RingState × Bool} (hcase : ReadCase s.st want s.pos r) :
    (∃ s' bs, s.afterRead want r = some (s', some (.read want (.ok bs))) ∧
      bs <+: D.drop s.pos ∧ (bs = [] → D.length ≤ s.pos)) ∨
    Unserved s ∧ ∃ s', s.afterRead want r = some (s', none) ∧ s'.reader = .waiting want false := by
  have hallowed : ∀ {s' bs}, s.afterRead want r = some (s', some (.read want (.ok bs))) →
      bs <+: D.drop s.pos ∧ (bs = [] → D.length ≤ s.pos) := by
    intro s' bs hs
    have hfollows := (h.tracks.afterRead h.orderly hcase hs).2.observed
    generalize s'.pos = q at hfollows
    cases hfollows with
    | read hpre _ hend => exact ⟨hpre, fun hnil => (hend hnil).resolve_left hwant⟩
  cases hcase with
  | hit => exact .inl ⟨_, _, rfl, hallowed rfl⟩
  | failed _ hfail => exact absurd herr (RingState.err_ne_none hfail)
  | ended => exact .inl ⟨_, _, rfl, hallowed rfl⟩
  | waits hpos herr heof hend =>
      exact .inr ⟨h.tracks.unserved_iff.mpr ⟨hpos, heof, herr, hend⟩, _, rfl, rfl⟩

/-- A source that has recovered from every seek so far: it is healthy and accepts every
seek; past the end it reports the end at once, and below it it delivers the inner bytes at
once or waits for them. -/
structure Recoverable (D : Bytes) (s : BufferedSource ι) : Prop where
  err : s.st.stop = false → s.st.err = none
  alive : s.st.stop = false → s.st.workerDead = false
  seek : s.reader = .idle → ∀ q : UInt64, ∃ s',
    s.step (.seek (.fromStart q)) = some (s', some (.seek (.fromStart q) (.ok q.toNat))) ∧
      s'.pos = q.toNat
  past_end : s.reader = .idle → D.length ≤ s.pos → ∀ want seam, want ≠ 0 →
    ∃ s', s.step (.read want seam) = some (s', some (.read want (.ok [])))
  below : s.reader = .idle → s.pos < D.length → ∀ want seam, want ≠ 0 →
    (∃ s' bs, s.step (.read want seam) = some (s', some (.read want (.ok bs))) ∧
      bs ≠ [] ∧ bs <+: D.drop s.pos) ∨
    ∃ s', s.step (.read want seam) = some (s', none) ∧ s'.reader = .waiting want false

/-- How a wait goes on along a silent run `as` from `t` to `u` in which no refused call
counts: it is answered after a bounded number of steps of the worker, by the inner bytes or,
past them, by the end. -/
structure Delivers (D : Bytes) (want : Nat) (t u : BufferedSource ι) (as : List Action) : Prop
    extends Responds want t u as where
  delivers : ¬ Unserved u → ∀ seam, ∃ u' bs,
    u.step (.wakeReader false seam) = some (u', some (.read want (.ok bs))) ∧
      bs <+: D.drop t.pos ∧ (bs = [] → D.length ≤ t.pos)

/-- A healthy source has recovered. -/
theorem Consistent.recoverable (h : Consistent F D s) (hhealthy : Healthy s) :
    Recoverable D s := by
  have hidle_err : s.reader = .idle → s.st.err = none := by
    intro hidle
    have hrunning := h.orderly.reader
    rw [hidle] at hrunning
    exact hhealthy hrunning
  refine ⟨hhealthy, ?_, ?_, ?_, ?_⟩
  · intro hrunning
    cases hdead : s.st.workerDead with
    | false => rfl
    | true => exact absurd (hhealthy hrunning) (h.orderly.sticky.mpr hdead)
  · intro hidle q
    have hstep : s.step (.seek (.fromStart q)) = some (s.doSeek (.fromStart q)) := by
      unfold BufferedSource.step
      simp only [h.orderly.not_poisoned, Bool.false_eq_true, ite_false, hidle]
    rw [hstep]
    have hspec := s.st.seekSection_spec s.pos (.fromStart q)
    unfold BufferedSource.doSeek
    generalize s.st.seekSection s.pos (.fromStart q) = r at hspec
    cases hspec with
    | rejects hq => cases hq
    | inside hq =>
        cases hq
        exact ⟨_, rfl, rfl⟩
    | restarts hq =>
        cases hq
        exact ⟨_, rfl, rfl⟩
  · intro hidle hend want seam hwant
    exact (h.read_end hidle hend hwant seam).mpr (hidle_err hidle)
  · intro hidle hlt want seam hwant
    obtain ⟨r, hcase, hstep⟩ := h.read hidle hwant seam
    rw [hstep]
    rcases h.delivers (hidle_err hidle) hwant hcase with ⟨s', bs, hs, hpre, hend⟩ | ⟨_, hwaits⟩
    · exact .inl ⟨s', bs, hs, fun hnil => Nat.not_le.mpr hlt (hend hnil), hpre⟩
    · exact .inr hwaits

/-- A source that answers its reader is in use. -/
theorem Orderly.observed (ho : Orderly s) {a : Action} {obs : IoObs}
    (hs : s.step a = some (s', some obs)) : s.st.stop = false := by
  have hidle : s.reader = .idle → s.st.stop = false := fun h => InRead.running (.inl h) ho.reader
  have hwaiting : ∀ {want notified}, s.reader = .waiting want notified → s.st.stop = false :=
    fun h => InRead.running (.inr ⟨_, _, h⟩) ho.reader
  cases step_cases hs with
  | readEmpty h => exact hidle h
  | read h => exact hidle h
  | timeout h => exact hwaiting h
  | resume h => exact hwaiting h
  | seek h => exact hidle h

/-- A step from which no refused call counts keeps both invariants, and shows no error but
a timeout. -/
theorem Healthy.guarded_step (hF : F.Conventional) (hD : D.length < u64Size)
    (hI : Consistent F D s ∧ Healthy s) {a : Action}
    (hs : ((machine ι).guard unrefused).step s a = some (s', o)) :
    (Consistent F D s' ∧ Healthy s') ∧ Follows D s o s' := by
  obtain ⟨hok, hs⟩ := Machine.guard_step hs
  exact ⟨⟨hI.1.step hF hD hs, hI.2.step hI.1.orderly hok hs⟩,
    (hI.1.tracks.step hI.1.orderly hF hD hs).2⟩

/-- A run in which no refused call counts keeps both invariants. -/
theorem Healthy.guarded_run (hF : F.Conventional) (hD : D.length < u64Size)
    (hI : Consistent F D s ∧ Healthy s) {os : List IoObs}
    (hrun : ((machine ι).guard unrefused).run s as = some (t, os)) :
    Consistent F D t ∧ Healthy t :=
  Machine.run_invariant (I := fun s => Consistent F D s ∧ Healthy s)
    (fun hI hs => (Healthy.guarded_step hF hD hI hs).1) hI hrun

/-- A wait in which no refused call counts is answered by the inner bytes. -/
theorem Waits.delivers (h : Waits F D want t) (hF : F.Conventional) (hD : D.length < u64Size)
    (hhealthy : Healthy t) (hrun : ((machine ι).guard unrefused).run t as = some (u, [])) :
    Delivers D want t u as := by
  obtain ⟨hwaits, hresponds⟩ := h.run hF hD (Machine.run_of_guard hrun)
  have hpos : u.pos = t.pos := by
    have htrace := h.consistent.trace hF hD (Machine.run_of_guard hrun)
    generalize u.pos = q at htrace
    cases htrace
    rfl
  refine ⟨hresponds, fun hu seam => ?_⟩
  obtain ⟨notified, hreader⟩ := hwaits.reader
  have hwant := hwaits.consistent.orderly.reader
  rw [hreader] at hwant
  have herr := (Healthy.guarded_run hF hD ⟨h.consistent, hhealthy⟩ hrun).2 hwaits.running
  obtain ⟨r, hcase, hstep⟩ := hwaits.resumes seam
  rw [hstep, ← hpos]
  rcases hwaits.consistent.delivers herr hwant.1 hcase with hbytes | ⟨hun, _⟩
  · exact hbytes
  · exact absurd hun hu

/-- In every run in which the worker does not go on from a call that the inner source has
refused, no read fails but by a timeout, every state reached is recoverable, and a read
that waits there is served. -/
theorem past_end_recoverable (hF : F.Conventional) (hinner : Serves F D inner (some p₀))
    (hp : p₀ < u64Size) (hD : D.length < u64Size) (hb : b.build inner = some (.ok s))
    {os : List IoObs} (hrun : ((machine ι).guard unrefused).run s as = some (t, os)) :
    CursorTrace D (fun e => e.kind = .timedOut) p₀ os t.pos ∧ Recoverable D t ∧
      ∀ want woken, t.reader = .waiting want woken → ∀ later u,
        ((machine ι).guard unrefused).run t later = some (u, []) → Delivers D want t u later := by
  obtain ⟨hstart, hpos⟩ := build_consistent hinner hp hD hb
  have hI : Consistent F D s ∧ Healthy s := ⟨hstart, build_healthy hb⟩
  obtain ⟨hconsistent, hhealthy⟩ := Healthy.guarded_run hF hD hI hrun
  refine ⟨?_, hconsistent.recoverable hhealthy, ?_⟩
  · have htrace : CursorTrace D (fun e => e.kind = .timedOut) s.pos os t.pos := by
      apply Machine.run_trace (I := fun s => Consistent F D s ∧ Healthy s) _ _ _ hI hrun
      · intro s a s' o hI hs
        exact (Healthy.guarded_step hF hD hI hs).1
      · intro s a s' hI hs
        exact (Healthy.guarded_step hF hD hI hs).2.silent
      · intro s a s' o hI hs
        have hrunning := hI.1.orderly.observed (Machine.guard_step hs).2
        apply (Healthy.guarded_step hF hD hI hs).2.observed.mono
        rintro e (herr | ⟨_, rfl⟩)
        · exact absurd (hI.2 hrunning) (RingState.err_ne_none herr)
        · rfl
    rwa [hpos] at htrace
  · intro want woken hwait later u hlater
    have hwaits := reach_waits hF hinner hp hD hb ⟨_, _, Machine.run_of_guard hrun⟩ hwait
    exact hwaits.delivers hF hD hhealthy hlater

end

/-- A source that refuses to seek past its end. -/
theorem Brittle.refusing (D : Bytes) :
    Serves (refusesPastEnd D) D (mk D 0 none (some D.length)) (some 0) := by
  apply serves (mk D 0 none (some D.length))
  · intro k hk
    cases hk
  · intro m q hm hlt
    obtain rfl := Option.some.inj hm
    exact hlt

/-- A refusing source behaves as it should. -/
theorem refusesPastEnd_conventional (D : Bytes) : (refusesPastEnd D).Conventional :=
  ⟨fun _ h => h, nofun⟩

/-- A seek past the end that is taken back before the worker acts does no harm. -/
theorem past_end_recoverable_back : letI := target64
    ∃ t os, runFrom ((machine Brittle).guard unrefused) .default (Brittle.mk [7] 0 none (some 1))
        [.seek (.fromStart 5), .seek (.fromStart 0), .worker, .worker, .worker, .worker, .worker,
          .read 1 0] = some (t, os) ∧
      os = [.seek (.fromStart 5) (.ok 5), .seek (.fromStart 0) (.ok 0), .read 1 (.ok [7])] ∧
      CursorTrace [7] (fun e => e.kind = .timedOut) 0 os t.pos ∧ Recoverable [7] t ∧
      ∀ want woken, t.reader = .waiting want woken → ∀ later u,
        ((machine Brittle).guard unrefused).run t later = some (u, []) →
          Delivers [7] want t u later := by
  let := target64
  have hrun : (runFrom ((machine Brittle).guard unrefused) .default
      (Brittle.mk [7] 0 none (some 1))
      [.seek (.fromStart 5), .seek (.fromStart 0), .worker, .worker, .worker, .worker, .worker,
        .read 1 0]).map (·.2) =
      some [.seek (.fromStart 5) (.ok 5), .seek (.fromStart 0) (.ok 0), .read 1 (.ok [7])] := by
    decide +kernel
  obtain ⟨⟨t, os⟩, hrun, hos⟩ := Option.map_eq_some_iff.mp hrun
  obtain ⟨s, hb, hs⟩ := runFrom_eq_some hrun
  have hrecovers := past_end_recoverable (refusesPastEnd_conventional [7]) (Brittle.refusing [7])
    (by decide) (by decide) hb hs
  exact ⟨t, os, hrun, hos, hrecovers⟩

/-- One refused seek past the end makes every later read fail. -/
theorem past_end_fatal : letI := target64
    Serves (refusesPastEnd [7]) [7] (Brittle.mk [7] 0 none (some 1)) (some 0) ∧
      ¬ ∀ (s t : BufferedSource Brittle) as os,
        BufferedSourceBuilder.default.build (Brittle.mk [7] 0 none (some 1)) = some (.ok s) →
        (machine Brittle).run s as = some (t, os) →
        ∀ want e, .read want (.error e) ∈ os → e.kind = .timedOut := by
  let := target64
  refine ⟨Brittle.refusing [7], fun hall => ?_⟩
  have hrun : (runFrom (machine Brittle) .default (Brittle.mk [7] 0 none (some 1))
      [.seek (.fromStart 5), .worker, .worker, .worker, .seek (.fromStart 0), .read 1 0]).map
      (·.2) = some [.seek (.fromStart 5) (.ok 5), .seek (.fromStart 0) (.ok 0),
        .read 1 (.error Brittle.lost)] := by
    decide +kernel
  obtain ⟨⟨t, os⟩, hrun, rfl⟩ := Option.map_eq_some_iff.mp hrun
  obtain ⟨s, hb, hs⟩ := runFrom_eq_some hrun
  have hkind := hall s t _ _ hb hs 1 Brittle.lost (by simp)
  cases hkind

end OxideSource.BufferedSource
