import OxideSource.Buffered.Retention
import OxideSource.Buffered.Traffic
import OxideSource.Core.Retries

/-!
# How far the worker reads ahead

The ring bounds what is fetched before anybody asks for it. Between two restarts its tail
moves by what the worker deposits, and the reader by what it is given or skips, so a byte
that was fetched has been given or skipped, is still in the ring, or was in it at a restart.
-/

namespace OxideSource.BufferedSource

/-- The bytes that the worker deposits in the ring, as a history variable. -/
def fetch {ι : Type} (n : Nat) (s : BufferedSource ι) (a : Action) (_ : BufferedSource ι) : Nat :=
  match a, s.worker with
  | .worker, .readDone (.ok bs) =>
      if s.st.targetPos.isSome || s.st.stop then n else n + bs.length
  | _, _ => n

/-- The bytes that the reader skips by seeks within the ring, as a history variable. -/
def skip {ι : Type} (n : Nat) (s : BufferedSource ι) (a : Action) (s' : BufferedSource ι) : Nat :=
  match a with
  | .seek f => if setsTarget s.st s.pos f then n else n + (s'.pos - s.pos)
  | _ => n

/-- The histories that bound each other. -/
structure Travel where
  marks : Marks
  traffic : Traffic
  fetched : Nat
  skipped : Nat

/-- Travel as a history variable. -/
def Travel.note {ι : Type} (v : Travel) (s : BufferedSource ι) (a : Action)
    (s' : BufferedSource ι) : Travel :=
  ⟨mark v.marks s a s', charge v.traffic s a s', fetch v.fetched s a s', skip v.skipped s a s'⟩

/-- What was fetched since the last restart lies below the tail, and what the reader was
given or skipped since then leads to its highest position; before, one ring was lost at each
restart. -/
structure Ahead [Target] {ι : Type} [ReadSeek ι] (cap : Nat) (s : BufferedSource ι) (v : Travel)
    (seen : List IoObs) : Prop where
  keeps : Keeps s v.marks
  capacity : s.st.capacity = cap
  fetched : v.fetched + v.marks.high ≤ v.traffic.restarts * cap +
    (seen.flatMap IoObs.delivered).length + v.skipped + s.st.tail

section

variable [Target] {ι : Type} [ReadSeek ι] {s s' t : BufferedSource ι} {v : Travel} {cap : Nat}
  {seen : List IoObs} {o : Option IoObs}

/-- No more than a ring lies between the highest position and the tail. -/
theorem Ahead.lost_le (h : Ahead cap s v seen) :
    v.fetched ≤ (v.traffic.restarts + 1) * cap +
      (seen.flatMap IoObs.delivered).length + v.skipped := by
  have hlen := h.keeps.contained.stationed.orderly.length
  have hlo := h.keeps.contained.ring.lo
  have hpos := h.keeps.pos_le
  have hfetched := h.fetched
  rw [h.capacity] at hlen
  rw [Nat.succ_mul]
  unfold RingState.tail at hfetched
  omega

/-- A step that leaves the tail in place moves the reader by what it shows or skips. -/
theorem Ahead.moves (h : Ahead cap s v seen) {d : Nat}
    (hkeeps : Keeps s' { v.marks with high := max v.marks.high s'.pos })
    (hcap : s'.st.capacity = s.st.capacity) (htail : s'.st.tail = s.st.tail)
    (hpos : s'.pos ≤ s.pos + (o.toList.flatMap IoObs.delivered).length + d) :
    Ahead cap s'
      ⟨{ v.marks with high := max v.marks.high s'.pos }, v.traffic, v.fetched, v.skipped + d⟩
      (seen ++ o.toList) := by
  have hfetched := h.fetched
  have hle := h.keeps.pos_le
  refine ⟨hkeeps, hcap.trans h.capacity, ?_⟩
  simp only [List.flatMap_append, List.length_append, htail]
  omega

omit [Target] [ReadSeek ι] in
/-- A read that comes back too late, or with nothing, deposits nothing. -/
theorem fetch_idle (n : Nat)
    (hidle : ∀ bs, s.worker = .readDone (.ok bs) → bs ≠ [] → ¬ RingState.Live s.st) :
    fetch n s .worker s' = n := by
  unfold fetch
  split
  · rename_i bs _ hw
    by_cases hnil : bs = []
    · subst hnil
      exact ite_self n
    · apply if_pos
      by_contra hlive
      rw [Bool.or_eq_true, not_or, Option.not_isSome_iff_eq_none, Bool.not_eq_true] at hlive
      exact hidle bs hw hnil hlive
  · rfl

omit [Target] [ReadSeek ι] in
/-- A deposit is counted by its bytes. -/
theorem fetch_deposit (n : Nat) {bs : Bytes} (hw : s.worker = .readDone (.ok bs))
    (hlive : RingState.Live s.st) : fetch n s .worker s' = n + bs.length := by
  obtain ⟨htarget, hstop⟩ := hlive
  simp [fetch, hw, htarget, hstop]

omit [Target] [ReadSeek ι] in
/-- No step of the worker is a restart. -/
theorem charge_restarts (c : Traffic) : (charge c s .worker s').restarts = c.restarts := by
  unfold charge
  cases s.worker with
  | readDone res =>
      dsimp only
      unfold Traffic.settle
      split
      · rfl
      · cases res with
        | error e =>
            dsimp only
            split <;> rfl
        | ok bs => cases bs <;> rfl
  | _ => rfl

/-- The worker moves the tail by what it deposits. -/
theorem tail_workerStep (h : Contained s) (n : Nat) (hs : WorkerCase s s') :
    s'.st.tail + n = s.st.tail + fetch n s .worker s' := by
  obtain ⟨_, _, _, _, hring⟩ := h.stationed.orderly.workerMove hs
  unfold RingState.tail
  cases hring with
  | keeps hidle hbuf hstart => rw [hbuf, hstart, fetch_idle n hidle]
  | restarts htarget hbuf hstart =>
      have hpending : s.st.targetPos ≠ none := by simp [htarget]
      have hnil := h.stationed.orderly.pending hpending
      have hat := (h.stationed.placed.target _ htarget).1
      rw [fetch_idle n fun _ _ _ hlive => hpending hlive.1, hbuf, hstart, hat, hnil]
  | deposits hw hne hlive hbuf hstart =>
      rw [fetch_deposit n hw hlive, hbuf, hstart, List.length_append]
      omega

omit [Target] [ReadSeek ι] in
/-- A read moves the reader by the bytes that it shows. -/
theorem afterRead_delivered {want : Nat} {r : Pass × RingState × Bool}
    (hcase : ReadCase s.st want s.pos r) (hin : InRing s.st s.pos)
    (hs : s.afterRead want r = some (s', o)) :
    s'.pos = s.pos + (o.toList.flatMap IoObs.delivered).length := by
  cases hcase with
  | @hit n st' woke hpos hn hst =>
      obtain ⟨rfl, rfl⟩ := Prod.mk.inj (Option.some.inj hs)
      have hlen : (window s.st.buf (s.pos - s.st.ringStart) n).length = n := by
        apply length_window_of_le
        have hlo := hin.lo
        unfold RingState.tail at hpos hn
        omega
      simp [IoObs.delivered, hlen]
  | failed =>
      obtain ⟨rfl, rfl⟩ := Prod.mk.inj (Option.some.inj hs)
      rfl
  | ended =>
      obtain ⟨rfl, rfl⟩ := Prod.mk.inj (Option.some.inj hs)
      rfl
  | waits =>
      obtain ⟨rfl, rfl⟩ := Prod.mk.inj (Option.some.inj hs)
      rfl

/-- A read keeps the worker's lead. -/
theorem Ahead.afterRead (h : Ahead cap s v seen) {want seam : Nat}
    (hkeeps : Keeps s' { v.marks with high := max v.marks.high s'.pos })
    (hs : s.afterRead want (s.st.readSection seam want s.pos) = some (s', o)) :
    Ahead cap s' ⟨{ v.marks with high := max v.marks.high s'.pos }, v.traffic, v.fetched, v.skipped⟩
      (seen ++ o.toList) := by
  have hcontained := h.keeps.contained
  have horderly := hcontained.stationed.orderly
  have hdelivered := afterRead_delivered (hcontained.readCase seam want) hcontained.ring hs
  have hspares := hcontained.ring.readLoop_spares horderly.rear hcontained.stationed.fits seam want
    (s.st.buf.length + 1)
  change Spares s.st s.pos (s.st.readSection seam want s.pos) at hspares
  obtain ⟨woke, htrim, _⟩ := afterRead_trimmed (horderly.settled seam want) hs
  have hcap : s'.st.capacity = s.st.capacity := by
    rcases htrim with heq | ⟨k, _, heq, _⟩
    · rw [heq]
    · rw [heq]
      rfl
  exact h.moves (d := 0) hkeeps hcap ((afterRead_pos hs).1 ▸ hspares.tail) hdelivered.le

/-- A step of the worker keeps its lead. -/
theorem Ahead.workerStep (h : Ahead cap s v seen)
    (hkeeps : Keeps s' { v.marks with high := max v.marks.high s'.pos })
    (hs : WorkerCase s s') : Ahead cap s' (v.note s .worker s') (seen ++ []) := by
  have hcontained := h.keeps.contained
  obtain ⟨hpos, hcap, _⟩ := hcontained.stationed.orderly.workerMove hs
  have htail := tail_workerStep hcontained v.fetched hs
  have hfetched := h.fetched
  have hle := h.keeps.pos_le
  refine ⟨hkeeps, hcap.trans h.capacity, ?_⟩
  simp only [Travel.note, mark, skip, charge_restarts, List.append_nil]
  omega

/-- A seek that leaves the ring loses one ring at most. -/
theorem Ahead.restart (h : Ahead cap s v seen) {q : Nat} {f : SeekFrom}
    {err : Option (ErrorKind × Message)} {worker : WorkerPc}
    (hkeeps : Keeps { s with
      st := { s.st.restart q with targetPos := some q, err }, pos := q, worker } ⟨q, q⟩) :
    Ahead cap { s with st := { s.st.restart q with targetPos := some q, err }, pos := q, worker }
      ⟨⟨q, q⟩, { v.traffic with restarts := v.traffic.restarts + 1 }, v.fetched, v.skipped⟩
      (seen ++ [.seek f (.ok q)]) := by
  have hlost := h.lost_le
  refine ⟨hkeeps, h.capacity, ?_⟩
  have htail : ({ s.st.restart q with targetPos := some q, err } : RingState).tail = q := rfl
  simp only [List.flatMap_append, List.length_append, htail]
  omega

theorem Ahead.step (h : Ahead cap s v seen) {a : Action}
    (hs : ((machine ι).guard depositFits).step s a = some (s', o)) :
    Ahead cap s' (v.note s a s') (seen ++ o.toList) := by
  have hkeeps := h.keeps.step hs
  have hle := h.keeps.pos_le
  obtain ⟨_, hs⟩ := Machine.guard_step hs
  cases step_cases hs with
  | worker hstep => exact h.workerStep hkeeps hstep
  | read _ _ hs => exact h.afterRead hkeeps hs
  | resume _ hs => exact h.afterRead hkeeps hs
  | @seek f res pos st woke hidle hcase =>
      have hsection : s.st.seekSection s.pos f = (res, pos, st, woke) := hcase.eq
      simp only [Travel.note, mark, skip, charge, setsTarget, hsection] at hkeeps ⊢
      cases hcase with
      | rejects => exact h.moves hkeeps rfl rfl (Nat.le_add_right _ _)
      | inside => exact h.moves hkeeps rfl rfl (by dsimp only; omega)
      | restarts => exact h.restart hkeeps
  | _ => exact h.moves (d := 0) hkeeps rfl rfl (Nat.le_add_right _ _)

variable {b : BufferedSourceBuilder} {inner : ι}

/-- Along every run whose deposits leave the end of the ring a `u64`, the bytes that went
into the ring are at most those that reads delivered or seeks skipped, and one ring more for
the start and for each seek that left the ring. -/
theorem prefetch_bounded (hinner : Measured inner) (haddr : Addressed inner)
    (hb : b.build inner = some (.ok s)) {as : List Action} {os : List IoObs}
    (hrun : ((machine ι).guard depositFits).run s as = some (t, os)) :
    (machine ι).history fetch 0 s as ≤
      (((machine ι).history charge .none s as).restarts + 1) * s.st.capacity +
        (os.flatMap IoObs.delivered).length + (machine ι).history skip 0 s as := by
  have hkeeps := build_keeps hinner haddr hb
  have hstart : Ahead s.st.capacity s ⟨.start s, .none, 0, 0⟩ [] := by
    refine ⟨hkeeps, rfl, ?_⟩
    have hhi := hkeeps.hi
    simpa [Traffic.none] using hhi
  have hend : Ahead s.st.capacity t
      (((machine ι).guard depositFits).history .note ⟨.start s, .none, 0, 0⟩ s as) ([] ++ os) :=
    Machine.run_history_shown (fun hI hs => hI.step hs) hstart hrun
  rw [Machine.history_guard hrun] at hend
  have htraffic : ((machine ι).history Travel.note ⟨.start s, .none, 0, 0⟩ s as).traffic =
      (machine ι).history charge .none s as :=
    Machine.history_map (f := Travel.traffic) (fun _ _ _ _ => rfl) _ _ _
  have hskipped : ((machine ι).history Travel.note ⟨.start s, .none, 0, 0⟩ s as).skipped =
      (machine ι).history skip 0 s as :=
    Machine.history_map (f := Travel.skipped) (fun _ _ _ _ => rfl) _ _ _
  have hfetched : ((machine ι).history Travel.note ⟨.start s, .none, 0, 0⟩ s as).fetched =
      (machine ι).history fetch 0 s as :=
    Machine.history_map (f := Travel.fetched) (fun _ _ _ _ => rfl) _ _ _
  have hlost := hend.lost_le
  rwa [htraffic, hfetched, hskipped, List.nil_append] at hlost

end

/-- Three bytes, two of them read and one skipped after a seek back. -/
def skipping : List Action :=
  [.worker, .worker, .worker, .read 2 0, .seek (.fromStart 1), .seek (.fromStart 2)]

theorem prefetch_bounded_skipping : letI := target64
    ∃ s t os, BufferedSourceBuilder.default.build (Cursor.new [1, 2, 3]) = some (.ok s) ∧
      ((machine Cursor).guard depositFits).run s skipping = some (t, os) ∧
      (machine Cursor).history fetch 0 s skipping ≤
        (((machine Cursor).history charge .none s skipping).restarts + 1) * s.st.capacity +
          (os.flatMap IoObs.delivered).length + (machine Cursor).history skip 0 s skipping := by
  let := target64
  have hrun : (runFrom ((machine Cursor).guard depositFits) .default (Cursor.new [1, 2, 3])
      skipping).isSome = true := by
    decide +kernel
  obtain ⟨⟨t, os⟩, hrun⟩ := Option.isSome_iff_exists.mp hrun
  obtain ⟨s, hb, hs⟩ := runFrom_eq_some hrun
  refine ⟨s, t, os, hb, hs, prefetch_bounded (Cursor.measured _) ?_ hb hs⟩
  exact Cursor.addressed (.new [1, 2, 3]) (by decide) (by decide)

end OxideSource.BufferedSource
