import OxideSource.Buffered.Wakeups

/-!
# What a run costs the inner source

Seeks inside the ring are served from memory, so the worker calls on the inner source only
for seeks that left the ring and while the ring has room for bytes. Each call is charged
to what it was good for; a restart, that is a seek that left the ring, pays for at most one
inner seek, one read that comes back too late and one read at the end.
-/

namespace OxideSource

/-- Whether the worker is on its way to seek the inner source. -/
@[simp] def WorkerPc.seekDue : WorkerPc → Nat
  | .seeking _ => 1
  | _ => 0

/-- Whether the worker is about to read, or holds what it has read. -/
@[simp] def WorkerPc.busy : WorkerPc → Nat
  | .reading _ => 1
  | .readDone _ => 1
  | _ => 0

/-- Whether the worker holds what it has read. -/
@[simp] def WorkerPc.holds : WorkerPc → Nat
  | .readDone _ => 1
  | _ => 0

/-- Whether the worker thread runs. -/
@[simp] def WorkerPc.alive : WorkerPc → Nat
  | .exited => 0
  | _ => 1

/-- A seek goes one way only. -/
theorem RingState.SeekCase.eq {st : RingState} {pos : Nat} {f : SeekFrom}
    {r : IoResult Nat × Nat × RingState × Bool} (h : st.SeekCase pos f r) :
    st.seekSection pos f = r := by
  cases h with
  | rejects he => simp only [seekSection, he]
  | inside hq hlo hhi => simp only [seekSection, hq, ge_iff_le, hlo, hhi, and_self, ite_true]
  | @restarts q hq hout =>
      have hmiss : ¬ (st.ringStart ≤ q ∧ q ≤ addU64 st.ringStart st.buf.length) := by omega
      simp only [seekSection, hq, ge_iff_le, hmiss, ite_false]

namespace BufferedSource

/-- The calls on the inner source so far, and what its reads were good for. -/
structure Traffic where
  seeks : Nat
  reads : Nat
  /-- Reads that brought bytes into the ring. -/
  deposits : Nat
  interrupted : Nat
  /-- Reads thrown away because a seek or `drop` came first. -/
  stale : Nat
  /-- Reads that found the end. -/
  ended : Nat
  failed : Nat
  /-- Seeks of the reader that left the ring. -/
  restarts : Nat
  deriving DecidableEq

/-- No calls yet. -/
def Traffic.none : Traffic := ⟨0, 0, 0, 0, 0, 0, 0, 0⟩

/-- What phase 3 makes of a read. -/
def Traffic.settle (c : Traffic) (st : RingState) (res : IoResult Bytes) : Traffic :=
  if st.targetPos.isSome || st.stop then { c with stale := c.stale + 1 }
  else
    match res with
    | .ok [] => { c with ended := c.ended + 1 }
    | .ok _ => { c with deposits := c.deposits + 1 }
    | .error e =>
        if e.kind = .interrupted then { c with interrupted := c.interrupted + 1 }
        else { c with failed := c.failed + 1 }

/-- Traffic as a history variable. -/
def charge {ι : Type} (c : Traffic) (s : BufferedSource ι) (a : Action) (_ : BufferedSource ι) :
    Traffic :=
  match a with
  | .worker =>
      match s.worker with
      | .seeking _ => { c with seeks := c.seeks + 1 }
      | .reading _ => { c with reads := c.reads + 1 }
      | .readDone res => c.settle s.st res
      | _ => c
  | .seek f =>
      if (s.st.seekSection s.pos f).2.2.2 then { c with restarts := c.restarts + 1 } else c
  | _ => c

/-- Whether a seek waits for the worker. -/
def pending (st : RingState) : Nat := st.targetPos.isSome.toNat

/-- Whether what the worker reads will be thrown away. -/
def abandoned (st : RingState) : WorkerPc → Nat
  | .reading _ => (st.targetPos.isSome || st.stop).toNat
  | .readDone _ => (st.targetPos.isSome || st.stop).toNat
  | _ => 0

/-- Whether the worker may find the end once more. -/
def endless (st : RingState) : Nat := (st.targetPos.isSome || !st.eof).toNat

/-- Every call is paid for. -/
structure Ledger (st : RingState) (worker : WorkerPc) (c : Traffic) : Prop where
  seeks : c.seeks + worker.seekDue + pending st ≤ c.restarts
  stale : c.stale + abandoned st worker ≤ c.restarts + st.stop.toNat
  ended : c.ended + endless st ≤ c.restarts + 1
  open_ : 0 < worker.busy → endless st = 1
  failed : c.failed + worker.alive ≤ 1
  reads : c.reads ≤ c.deposits + c.interrupted + c.stale + c.ended + c.failed + worker.holds

section

variable {st st' : RingState} {worker worker' : WorkerPc} {c : Traffic} {res : IoResult Bytes}

theorem abandoned_le (st : RingState) (worker : WorkerPc) : abandoned st worker ≤ 1 := by
  cases worker <;> simp [abandoned, Bool.toNat_le]

/-- The way from one section of the worker to the next. -/
theorem Ledger.moves (h : Ledger st worker c) (hseeks : worker'.seekDue ≤ worker.seekDue)
    (hstale : abandoned st worker' ≤ abandoned st worker) (hbusy : worker'.busy ≤ worker.busy)
    (halive : worker'.alive ≤ worker.alive) (hholds : worker.holds ≤ worker'.holds) :
    Ledger st worker' c :=
  ⟨(Nat.add_le_add_right (Nat.add_le_add_left hseeks _) _).trans h.seeks,
    (Nat.add_le_add_left hstale _).trans h.stale, h.ended,
    fun hb => h.open_ (hb.trans_le hbusy), (Nat.add_le_add_left halive _).trans h.failed,
    h.reads.trans (Nat.add_le_add_left hholds _)⟩

theorem Ledger.notify (h : Ledger st worker c) : Ledger st worker.notify c := by
  cases worker <;> exact ⟨h.seeks, h.stale, h.ended, h.open_, h.failed, h.reads⟩

/-- Only the pending seek, the end and `stop` matter. -/
theorem Ledger.congr (h : Ledger st worker c) (htarget : st'.targetPos = st.targetPos)
    (heof : st'.eof = st.eof) (hstop : st'.stop = st.stop) : Ledger st' worker c := by
  have habandoned : abandoned st' worker = abandoned st worker := by
    cases worker <;> simp only [abandoned, htarget, hstop]
  obtain ⟨hseeks, hstale, hended, hopen, hfailed, hreads⟩ := h
  constructor <;> simpa only [pending, habandoned, endless, htarget, heof, hstop]

theorem Ledger.trimmed (h : Ledger st worker c) {n : Nat} {woke : Bool}
    (ht : st.Trimmed n st' woke) : Ledger st' (if woke then worker.notify else worker) c := by
  have hst : Ledger st' worker c := by
    rcases ht with rfl | ⟨k, _, rfl, _⟩
    · exact h
    · exact h.congr rfl rfl rfl
  split
  · exact hst.notify
  · exact hst

/-- A seek that leaves the ring pays for what it causes. -/
theorem Ledger.restart (h : Ledger st worker c) {q : Nat} {err : Option (ErrorKind × Message)} :
    Ledger { st.restart q with targetPos := some q, err } worker.notify
      { c with restarts := c.restarts + 1 } := by
  obtain ⟨hseeks, hstale, hended, hopen, hfailed, hreads⟩ := h.notify
  have hle := abandoned_le { st.restart q with targetPos := some q, err } worker.notify
  have hone : endless { st.restart q with targetPos := some q, err } = 1 := by simp [endless]
  refine ⟨?_, ?_, ?_, fun _ => hone, hfailed, hreads⟩
  · simp only [pending, Option.isSome_some, Bool.toNat_true] at hseeks ⊢
    omega
  · simp only [RingState.restart] at hle ⊢
    omega
  · rw [hone]
    dsimp only
    omega

/-- `drop` pays for a read that comes back after it. -/
theorem Ledger.stopping (h : Ledger st worker c) (hstop : st.stop = false) :
    Ledger { st with stop := true } worker c := by
  have hle := abandoned_le { st with stop := true } worker
  have hstale := h.stale
  refine ⟨h.seeks, ?_, h.ended, h.open_, h.failed, h.reads⟩
  simp only [hstop, Bool.toNat_true, Bool.toNat_false] at hstale ⊢
  omega

/-- Phase 1 takes up a seek. -/
theorem Ledger.restarts (h : Ledger st .phase1 c) {target : Nat}
    (htarget : st.targetPos = some target) :
    Ledger { st.restart target with targetPos := none, err := none } (.seeking target) c := by
  obtain ⟨hseeks, hstale, hended, hopen, hfailed, hreads⟩ := h
  have hone : endless st = 1 := by simp [endless, htarget]
  have hle : endless { st.restart target with targetPos := none, err := none } ≤ 1 :=
    Bool.toNat_le _
  refine ⟨?_, hstale, ?_, nofun, hfailed, hreads⟩
  · simpa [pending, htarget] using hseeks
  · omega

/-- What phase 3 does with a read is what it was good for. -/
theorem Ledger.phase3 (h : Ledger st (.readDone res) c) {r : RingState × WorkerPc × Bool}
    (hcase : st.Phase3Case res r) : Ledger r.1 r.2.1 (c.settle st res) := by
  obtain ⟨hseeks, hstale, hended, hopen, hfailed, hreads⟩ := h
  have hone := hopen Nat.one_pos
  simp only [WorkerPc.holds, WorkerPc.alive] at hreads hfailed
  cases hcase with
  | stale hold =>
      have hlost : (st.targetPos.isSome || st.stop) = true := by
        rcases hold with ht | hstop
        · simp [Option.isSome_iff_ne_none.mpr ht]
        · simp [hstop]
      simp only [abandoned, hlost, Bool.toNat_true] at hstale
      simp only [Traffic.settle, if_pos hlost]
      exact ⟨hseeks, hstale, hended, nofun, hfailed, by dsimp only [WorkerPc.holds]; omega⟩
  | ended htarget hstop hres =>
      have hkeep : ¬ (st.targetPos.isSome || st.stop) = true := by simp [htarget, hstop]
      simp only [Traffic.settle, if_neg hkeep, hres]
      have hnone : endless { st with eof := true } = 0 := by simp [endless, htarget]
      exact ⟨hseeks, (Nat.le_add_right _ _).trans hstale, by dsimp only; omega, nofun, hfailed,
        by dsimp only [WorkerPc.holds]; omega⟩
  | @deposits bs htarget hstop hres hne =>
      have hkeep : ¬ (st.targetPos.isSome || st.stop) = true := by simp [htarget, hstop]
      obtain ⟨b, bs, rfl⟩ := List.exists_cons_of_ne_nil hne
      simp only [Traffic.settle, if_neg hkeep, hres]
      exact ⟨hseeks, (Nat.le_add_right _ _).trans hstale, hended, nofun, hfailed,
        by dsimp only [WorkerPc.holds]; omega⟩
  | retries htarget hstop hres hkind =>
      have hkeep : ¬ (st.targetPos.isSome || st.stop) = true := by simp [htarget, hstop]
      simp only [Traffic.settle, if_neg hkeep, hres, if_pos hkind]
      exact ⟨hseeks, (Nat.le_add_right _ _).trans hstale, hended, nofun, hfailed,
        by dsimp only [WorkerPc.holds]; omega⟩
  | fails htarget hstop hres hkind =>
      have hkeep : ¬ (st.targetPos.isSome || st.stop) = true := by simp [htarget, hstop]
      simp only [Traffic.settle, if_neg hkeep, hres, if_neg hkind]
      exact ⟨hseeks, (Nat.le_add_right _ _).trans hstale, hended, nofun, hfailed,
        by dsimp only [WorkerPc.holds]; omega⟩

end

section

variable [Target] {ι : Type} [ReadSeek ι] {s s' : BufferedSource ι} {c : Traffic}

/-- A step of the worker is paid for. -/
theorem Ledger.workerStep (h : Ledger s.st s.worker c) (ho : Orderly s) (hstep : WorkerCase s s') :
    Ledger s'.st s'.worker (charge c s .worker s') := by
  cases hstep with
  | phase1 hw =>
      have hspec := ho.phase1Case
      generalize s.st.phase1 = r at hspec
      simp only [charge, hw]
      rw [hw] at h
      cases hspec with
      | stops =>
          exact h.moves (Nat.le_refl _) (Nat.le_refl _) (Nat.le_refl _) (Nat.zero_le _)
            (Nat.le_refl _)
      | parks =>
          exact h.moves (Nat.le_refl _) (Nat.le_refl _) (Nat.le_refl _) (Nat.le_refl _)
            (Nat.le_refl _)
      | restarts _ htarget => exact h.restarts htarget
      | reads hstop htarget heof hroom =>
          have hkept : abandoned s.st (.reading 0) = 0 := by simp [abandoned, htarget, hstop]
          refine ⟨h.seeks, ?_, h.ended, fun _ => ?_, h.failed, h.reads⟩
          · exact (Nat.add_le_add_left (hkept.le) _).trans h.stale
          · simp [afterWorker, endless, heof]
  | seeks hw =>
      simp only [charge, hw]
      rw [hw] at h
      have hseeks := h.seeks
      refine ⟨?_, h.stale, h.ended, nofun, h.failed, h.reads⟩
      simp only [WorkerPc.seekDue] at hseeks ⊢
      omega
  | refused hw =>
      simp only [charge, hw]
      rw [hw] at h
      have hseeks := h.seeks
      refine ⟨?_, h.stale, h.ended, nofun, h.failed, h.reads⟩
      simp only [WorkerPc.seekDue] at hseeks ⊢
      omega
  | records hw =>
      simp only [charge, hw]
      rw [hw] at h
      have hexit : Ledger s.st .exited c := h.moves (Nat.le_refl _) (Nat.le_refl _) (Nat.le_refl _)
        (Nat.zero_le _) (Nat.le_refl _)
      exact hexit.congr rfl rfl rfl
  | unparks hw =>
      simp only [charge, hw]
      rw [hw] at h
      exact h.moves (Nat.le_refl _) (Nat.le_refl _) (Nat.le_refl _) (Nat.le_refl _) (Nat.le_refl _)
  | reads hw =>
      simp only [charge, hw]
      rw [hw] at h
      have hreads := h.reads
      refine ⟨h.seeks, h.stale, h.ended, fun _ => h.open_ Nat.one_pos, h.failed, ?_⟩
      simp only [WorkerPc.holds] at hreads ⊢
      omega
  | phase3 hw =>
      simp only [charge, hw]
      rw [hw] at h
      exact h.phase3 (ho.phase3Case hw)

/-- Every step of the system is paid for. -/
theorem Ledger.step (h : Ledger s.st s.worker c) (ho : Orderly s) {a : Action} {o : Option IoObs}
    (hs : s.step a = some (s', o)) : Ledger s'.st s'.worker (charge c s a s') := by
  have hafter : ∀ {want seam : Nat},
      s.afterRead want (s.st.readSection seam want s.pos) = some (s', o) →
        Ledger s'.st s'.worker c := by
    intro want seam hs
    obtain ⟨woke, htrim, _, hworker⟩ := afterRead_trimmed (ho.settled seam want) hs
    rw [hworker]
    exact h.trimmed htrim
  have hreader := ho.reader
  cases step_cases hs with
  | worker hstep => exact h.workerStep ho hstep
  | wakeup hw =>
      rw [hw] at h
      exact h.moves (Nat.le_refl _) (Nat.le_refl _) (Nat.le_refl _) (Nat.le_refl _) (Nat.le_refl _)
  | readEmpty => exact h
  | read _ _ hs => exact hafter hs
  | timeout => exact h
  | resume _ hs => exact hafter hs
  | @seek f res pos st woke hidle hcase =>
      have hsection : s.st.seekSection s.pos f = (res, pos, st, woke) := by
        exact hcase.eq
      simp only [charge, hsection]
      cases hcase with
      | rejects => exact h
      | inside => exact h
      | restarts => exact h.restart
  | drop hidle =>
      rw [hidle] at hreader
      exact h.stopping hreader
  | dropNotify => exact h.notify
  | join => exact h

/-- The inner source is sought only for seeks that left the ring, and every read of it
brings bytes into the ring or was interrupted, but for two for each restart and four. -/
structure Traffic.Frugal (c : Traffic) : Prop where
  seeks : c.seeks ≤ c.restarts
  reads : c.reads ≤ c.deposits + c.interrupted + 2 * c.restarts + 4

omit [Target] in
/-- Books that balance are frugal. -/
theorem Ledger.frugal {st : RingState} {worker : WorkerPc} (h : Ledger st worker c) : c.Frugal := by
  obtain ⟨hseeks, hstale, hended, _, hfailed, hreads⟩ := h
  have hstop : st.stop.toNat ≤ 1 := Bool.toNat_le _
  have hholds : worker.holds ≤ 1 := by cases worker <;> simp
  exact ⟨by omega, by omega⟩

/-- The books balance from construction on. -/
theorem build_ledger {b : BufferedSourceBuilder} {inner : ι} (hb : b.build inner = some (.ok s)) :
    Ledger s.st s.worker .none := by
  obtain ⟨_, _, _, _, _, _, _, _, _, hst, hworker, _⟩ := build_ok hb
  rw [hst, hworker]
  refine ⟨Nat.le_refl _, Nat.le_refl _, ?_, nofun, Nat.le_refl _, Nat.le_refl _⟩
  exact (Nat.zero_add _).le.trans (Bool.toNat_le _)

/-- Along every run from construction on over a source whose reads keep to the requested
count, however the threads interleave, the use of the source is frugal. -/
theorem run_frugal {b : BufferedSourceBuilder} {inner : ι} {t : BufferedSource ι}
    {as : List Action} {os : List IoObs} (hinner : Measured inner)
    (hb : b.build inner = some (.ok s)) (hrun : (machine ι).run s as = some (t, os)) :
    ((machine ι).history charge .none s as).Frugal := by
  have hend : Supplied t ∧ Ledger t.st t.worker ((machine ι).history charge .none s as) :=
    Machine.run_history (I := fun t c => Supplied t ∧ Ledger t.st t.worker c)
      (fun hI hs => ⟨hI.1.step hs, hI.2.step hI.1.orderly hs⟩)
      ⟨build_supplied hinner hb, build_ledger hb⟩ hrun
  exact hend.2.frugal

end

/-- Two seeks out of the ring, then the worker. -/
def coalesced : List Action :=
  [.seek (.fromStart 9), .seek (.fromStart 1), .worker, .worker, .worker, .worker, .worker]

/-- Two seeks that leave the ring before the worker looks cost one inner seek. -/
theorem run_frugal_coalesced : letI := target64
    ∃ s t os, BufferedSourceBuilder.default.build (Cursor.new [1, 2]) = some (.ok s) ∧
      (machine Cursor).run s coalesced = some (t, os) ∧
      (machine Cursor).history charge .none s coalesced = ⟨1, 1, 1, 0, 0, 0, 0, 2⟩ ∧
      Traffic.Frugal ⟨1, 1, 1, 0, 0, 0, 0, 2⟩ := by
  let := target64
  have hrun : (BufferedSourceBuilder.default.build (Cursor.new [1, 2])).map
      (Except.map fun s => (((machine Cursor).run s coalesced).isSome,
        (machine Cursor).history charge .none s coalesced)) =
        some (.ok (true, ⟨1, 1, 1, 0, 0, 0, 0, 2⟩)) := by
    decide +kernel
  obtain ⟨built, hb, hrun⟩ := Option.map_eq_some_iff.mp hrun
  cases built with
  | error e => cases hrun
  | ok s =>
      obtain ⟨hsome, hcost⟩ := Prod.mk.inj (Except.ok.inj hrun)
      obtain ⟨⟨t, os⟩, hrun⟩ := Option.isSome_iff_exists.mp hsome
      have hfrugal := run_frugal (Cursor.measured _) hb hrun
      rw [hcost] at hfrugal
      exact ⟨s, t, os, hb, hrun, hcost, hfrugal⟩

end BufferedSource

end OxideSource
