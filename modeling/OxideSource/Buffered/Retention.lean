import OxideSource.Buffered.Bounds

/-!
# What the ring retains behind the reader

Since its last restart the ring keeps the lookback allowance behind the highest position
that the reader has had. Both drains respect it: a hit leaves the allowance behind the
position it moves to, and a miss behind the tail, where the reader stands.
-/

namespace OxideSource.BufferedSource

/-- The last restart of the ring, and the highest position of the reader since then. -/
structure Marks where
  restart : Nat
  high : Nat
  deriving DecidableEq

/-- The seek sets `target_pos`; it notifies exactly then. -/
def setsTarget (st : RingState) (pos : Nat) (f : SeekFrom) : Bool := (st.seekSection pos f).2.2.2

/-- The marks as a history variable. -/
def mark {ι : Type} (g : Marks) (s : BufferedSource ι) (a : Action) (s' : BufferedSource ι) :
    Marks :=
  let higher := { g with high := max g.high s'.pos }
  match a with
  | .seek f => if setsTarget s.st s.pos f then ⟨s'.pos, s'.pos⟩ else higher
  | _ => higher

/-- The marks of what `build` returns. -/
def Marks.start {ι : Type} (s : BufferedSource ι) : Marks := ⟨s.pos, s.pos⟩

/-! ### The drains -/

/-- What the reader's passes leave of the ring: the tail, and the allowance behind the
position they lead to. -/
structure Spares [Target] (st : RingState) (pos : Nat) (r : Pass × RingState × Bool) : Prop where
  lo : r.2.1.ringStart ≤ max st.ringStart (posAfter pos r.1 - st.rear)
  tail : r.2.1.tail = st.tail
  rear : r.2.1.rear = st.rear
  forth : pos ≤ posAfter pos r.1

section

variable [Target] {st : RingState} {pos : Nat}

/-- Dropping no more than lies behind the allowance. -/
theorem Spares.discard (h : InRing st pos) {k : Nat} {pass : Pass} {woke : Bool}
    (hforth : pos ≤ posAfter pos pass) (hk : st.ringStart + k ≤ posAfter pos pass - st.rear)
    (htail : posAfter pos pass ≤ st.tail) : Spares st pos (pass, st.discard k, woke) := by
  have hlt := h.tail_lt
  have hlen : (st.discard k).buf.length = st.buf.length - k := RingState.length_discard k
  have hstart : (st.discard k).ringStart = st.ringStart + k := addU64_of_lt (by omega)
  refine ⟨?_, ?_, rfl, hforth⟩
  · change (st.discard k).ringStart ≤ _
    rw [hstart]
    exact hk.trans (Nat.le_max_right _ _)
  · change (st.discard k).tail = st.tail
    unfold RingState.tail at htail ⊢
    rw [hlen, hstart]
    omega

/-- A pass that leaves the ring alone. -/
theorem Spares.same {pass : Pass} {woke : Bool} (hforth : pos ≤ posAfter pos pass) :
    Spares st pos (pass, st, woke) :=
  ⟨Nat.le_max_left _ _, rfl, rfl, hforth⟩

/-- One pass of the reader spares the allowance. -/
theorem InRing.readPass_spares (h : InRing st pos) (hrear : st.rear < st.capacity)
    (hfit : st.buf.length ≤ usizeMax) (seam want : Nat) :
    Spares st pos (st.readPass seam want pos) := by
  have hlo := h.lo
  have hhi := h.hi
  have hlt := h.tail_lt
  have hrel := h.rel hfit
  by_cases hhit : asUsize (pos - st.ringStart) < st.buf.length
  · rw [RingState.readPass_hit hlo rfl hhit rfl, hrel]
    rw [hrel] at hhit
    generalize hn : min (st.buf.length - (pos - st.ringStart)) want = n
    have hend : pos + n ≤ st.tail := by
      unfold RingState.tail at hhi ⊢
      omega
    have hpos : addU64 pos n = pos + n := addU64_of_lt (by omega)
    rw [hpos]
    split
    · refine .discard h ?_ ?_ hend
      · exact Nat.le_add_right _ _
      · change _ ≤ pos + n - st.rear
        omega
    · exact .same (Nat.le_add_right _ _)
  · have hcase := RingState.readPass_spec st hrear seam want pos
    generalize st.readPass seam want pos = r at hcase
    cases hcase with
    | hit _ hrel' hhit' => exact absurd (hrel' ▸ hhit') hhit
    | drains hle hmiss _ _ _ hfull =>
        have htail : pos = st.tail := by
          rw [hrel] at hmiss
          unfold RingState.tail at hhi ⊢
          omega
        refine .discard h (Nat.le_refl _) ?_ hhi
        change _ ≤ pos - st.rear
        unfold RingState.tail at htail
        omega
    | _ => exact .same (Nat.le_refl _)

/-- So does the whole loop. -/
theorem InRing.readLoop_spares (h : InRing st pos) (hrear : st.rear < st.capacity)
    (hfit : st.buf.length ≤ usizeMax) (seam want fuel : Nat) :
    Spares st pos (st.readLoop seam want pos fuel) := by
  induction fuel generalizing st with
  | zero => exact .same (Nat.le_refl _)
  | succ fuel ih =>
      have hpass := h.readPass_spares hrear hfit seam want
      unfold RingState.readLoop
      split
      · rename_i st₁ woke hagain
        obtain ⟨hin, hrear₁, hfit₁⟩ := h.passes hrear hfit (.again .first hagain)
        have hrest := ih hin hrear₁ hfit₁
        rw [hagain] at hpass
        have hlo := hpass.lo
        have hrear' := hpass.rear
        change st₁.rear = st.rear at hrear'
        change st₁.ringStart ≤ max st.ringStart (pos - st.rear) at hlo
        generalize st₁.readLoop seam want pos fuel = r at hrest
        obtain ⟨pass, st₂, woke₂⟩ := r
        refine ⟨?_, hrest.tail.trans hpass.tail, hrest.rear.trans hrear', hrest.forth⟩
        have hlo' := hrest.lo
        have hforth := hrest.forth
        rw [hrear'] at hlo'
        dsimp only at hlo' hforth ⊢
        omega
      · exact hpass

end

/-! ### Along a run -/

/-- The ring keeps the allowance behind the highest position since its restart. -/
structure Keeps [Target] {ι : Type} [ReadSeek ι] (s : BufferedSource ι) (g : Marks) : Prop where
  contained : Contained s
  lo : s.st.ringStart ≤ max g.restart (g.high - s.st.rear)
  hi : g.high ≤ s.st.tail
  pos_le : s.pos ≤ g.high

section

variable [Target] {ι : Type} [ReadSeek ι] {s s' t : BufferedSource ι} {g : Marks} {a : Action}
  {o : Option IoObs}

/-- Between restarts the ring loses only what lies behind the allowance, and no bytes at its
tail. -/
theorem Keeps.higher (h : Keeps s g) (hs' : Contained s')
    (hlo : s'.st.ringStart ≤ max s.st.ringStart (s'.pos - s.st.rear))
    (htail : s.st.tail ≤ s'.st.tail) (hrear : s'.st.rear = s.st.rear) :
    Keeps s' { g with high := max g.high s'.pos } := by
  have hlo' := h.lo
  have hhi := h.hi
  have hpos := hs'.ring.hi
  refine ⟨hs', ?_, ?_, Nat.le_max_right _ _⟩
  · dsimp only
    rw [hrear]
    omega
  · dsimp only
    omega

/-- A step that leaves the ring alone. -/
theorem Keeps.congr (h : Keeps s g) (hs' : Contained s') (hstart : s'.st.ringStart = s.st.ringStart)
    (hbuf : s'.st.buf = s.st.buf) (hrear : s'.st.rear = s.st.rear) :
    Keeps s' { g with high := max g.high s'.pos } := by
  have htail : s'.st.tail = s.st.tail := by rw [RingState.tail, hstart, hbuf, RingState.tail]
  exact h.higher hs' (hstart ▸ Nat.le_max_left _ _) htail.ge hrear

theorem Keeps.afterRead (h : Keeps s g) (hs' : Contained s') {want seam : Nat}
    (hs : s.afterRead want (s.st.readSection seam want s.pos) = some (s', o)) :
    Keeps s' { g with high := max g.high s'.pos } := by
  obtain ⟨hst, hpos⟩ := afterRead_pos hs
  have hspares := h.contained.ring.readLoop_spares h.contained.stationed.orderly.rear
    h.contained.stationed.fits seam want (s.st.buf.length + 1)
  change Spares s.st s.pos (s.st.readSection seam want s.pos) at hspares
  apply h.higher hs'
  · rw [hst, hpos]
    exact hspares.lo
  · rw [hst]
    exact hspares.tail.ge
  · rw [hst]
    exact hspares.rear

/-- The worker adds bytes at the tail, or restarts an empty ring where it stands. -/
theorem Keeps.workerStep (h : Keeps s g) (hs' : Contained s') (hs : WorkerCase s s') :
    Keeps s' { g with high := max g.high s'.pos } := by
  obtain ⟨_, _, hrear, _, hring⟩ := h.contained.stationed.orderly.workerMove hs
  cases hring with
  | keeps _ hbuf hstart => exact h.congr hs' hstart hbuf hrear
  | restarts htarget hbuf hstart =>
      have hat := (h.contained.stationed.placed.target _ htarget).1
      have hnil := h.contained.stationed.orderly.pending (by rw [htarget]; exact nofun)
      exact h.congr hs' (hstart.trans hat) (hbuf.trans hnil.symm) hrear
  | deposits _ _ _ hbuf hstart =>
      apply h.higher hs' (hstart ▸ Nat.le_max_left _ _) _ hrear
      unfold RingState.tail
      rw [hbuf, hstart, List.length_append]
      omega

/-- A seek that sets no target keeps the marks, and one that does sets them anew. -/
theorem Keeps.seek (h : Keeps s g) {f : SeekFrom} (hs' : Contained (s.doSeek f).1) :
    Keeps (s.doSeek f).1 (mark g s (.seek f) (s.doSeek f).1) := by
  have hspec := s.st.seekSection_spec s.pos f
  rcases hseek : s.st.seekSection s.pos f with ⟨res, pos, st, woke⟩
  rw [hseek] at hspec
  simp only [BufferedSource.doSeek, mark, setsTarget, hseek] at hs' ⊢
  cases hspec with
  | rejects => exact h.congr hs' rfl rfl rfl
  | inside => exact h.congr hs' rfl rfl rfl
  | restarts => exact ⟨hs', Nat.le_max_left _ _, Nat.le_refl _, Nat.le_refl _⟩

/-- A seek is one critical section. -/
theorem seek_step {f : SeekFrom} (hs : s.step (.seek f) = some (s', o)) : s' = (s.doSeek f).1 := by
  unfold BufferedSource.step at hs
  split at hs
  · cases hs
  · cases hreader : s.reader with
    | idle =>
        rw [hreader] at hs
        exact (congrArg Prod.fst (Option.some.inj hs)).symm
    | _ =>
        rw [hreader] at hs
        cases hs

/-- Every step keeps the allowance behind the marks it leads to. -/
theorem Keeps.step (h : Keeps s g) (hs : ((machine ι).guard depositFits).step s a = some (s', o)) :
    Keeps s' (mark g s a s') := by
  have hs' := h.contained.step hs
  obtain ⟨_, hs⟩ := Machine.guard_step hs
  cases step_cases hs with
  | worker hstep => exact h.workerStep hs' hstep
  | read _ _ hs => exact h.afterRead hs' hs
  | resume _ hs => exact h.afterRead hs' hs
  | seek =>
      have hmoved := seek_step hs
      rw [hmoved] at hs' ⊢
      exact h.seek hs'
  | _ => exact h.congr hs' rfl rfl rfl

/-- What the allowance promises: the ring holds what lies between the allowance behind the
highest position, or the last restart, and that position, and a seek there, or a call of
`stream_position`, moves the reader only. -/
structure Retained (rear : Nat) (s : BufferedSource ι) (g : Marks) : Prop where
  lo : s.st.ringStart ≤ max g.restart (g.high - rear)
  hi : g.high ≤ s.st.ringStart + s.st.buf.length
  served : s.reader = .idle → ∀ {f q}, s.st.resolve s.pos f = .ok q →
    max g.restart (g.high - rear) ≤ q → q ≤ g.high →
    s.step (.seek f) = some ({ s with pos := q }, some (.seek f (.ok q)))
  position : s.reader = .idle →
    s.step (.seek (.fromCurrent 0)) = some (s, some (.seek (.fromCurrent 0) (.ok s.pos)))

/-- A ring that keeps its allowance retains what the allowance promises. -/
theorem Keeps.retained (h : Keeps s g) : Retained s.st.rear s g := by
  have hring := h.contained.ring
  have horderly := h.contained.stationed.orderly
  refine ⟨h.lo, h.hi, ?_, ?_⟩
  · intro hidle f q hq hlo hhi
    exact hring.seek_inside horderly hidle hq (h.lo.trans hlo) (hhi.trans h.hi)
  · intro hidle
    have hresolve : s.st.resolve s.pos (.fromCurrent 0) = .ok s.pos := by
      have hzero := checkedAddSigned_zero h.contained.stationed.placed.pos_lt
      simp only [RingState.resolve, RingState.addSigned, hzero]
    exact hring.seek_inside horderly hidle hresolve hring.lo hring.hi

variable {b : BufferedSourceBuilder} {inner : ι}

theorem build_keeps (hinner : Measured inner) (haddr : Addressed inner)
    (hb : b.build inner = some (.ok s)) : Keeps s (.start s) := by
  have hcontained := build_contained hinner haddr hb
  refine ⟨hcontained, ?_, hcontained.ring.hi, Nat.le_refl _⟩
  exact hcontained.ring.lo.trans (Nat.le_max_left _ _)

/-- Every ring that is reached keeps the allowance of the settings. -/
theorem reach_rear (hinner : Measured inner) (hb : b.build inner = some (.ok s))
    (hreach : (machine ι).Reach s t) : t.st.rear = b.allowance := by
  have hknobs : t.st.knobs = s.st.knobs :=
    (hreach.invariant (I := fun t => Supplied t ∧ t.st.knobs = s.st.knobs)
      (fun hI hs => ⟨hI.1.step hs, (step_knobs hI.1.orderly hs).trans hI.2⟩)
      ⟨build_supplied hinner hb, rfl⟩).2
  obtain ⟨_, _, _, _, _, _, _, _, _, hst, _⟩ := build_ok hb
  rw [hst] at hknobs
  simp only [RingState.knobs, Prod.mk.injEq] at hknobs
  obtain ⟨hcap, _, hnum, hden⟩ := hknobs
  rw [RingState.rear, hcap, hnum, hden]
  rfl

/-- In every run whose deposits leave the end of the ring a `u64`, the ring retains the
lookback allowance of the settings. -/
theorem lookback_retained (hinner : Measured inner) (haddr : Addressed inner)
    (hb : b.build inner = some (.ok s)) {as : List Action} {os : List IoObs}
    (hrun : ((machine ι).guard depositFits).run s as = some (t, os)) :
    Retained b.allowance t ((machine ι).history mark (.start s) s as) := by
  have hkeeps : Keeps t (((machine ι).guard depositFits).history mark (.start s) s as) :=
    Machine.run_history (fun hI hs => hI.step hs) (build_keeps hinner haddr hb) hrun
  rw [Machine.history_guard hrun] at hkeeps
  rw [← reach_rear hinner hb ⟨as, os, Machine.run_of_guard hrun⟩]
  exact hkeeps.retained

end

/-- After a read of two bytes and a seek back, the ring reaches from the start to there. -/
theorem lookback_retained_back : letI := target64
    ∃ t os, runFrom ((machine Cursor).guard depositFits) .default (Cursor.new [1, 2, 3])
        [.worker, .worker, .worker, .read 2 0, .seek (.fromStart 1)] = some (t, os) ∧
      t.pos = 1 ∧ Retained BufferedSourceBuilder.default.allowance t ⟨0, 2⟩ := by
  let := target64
  have hrun : (runFrom ((machine Cursor).guard depositFits) .default (Cursor.new [1, 2, 3])
      [.worker, .worker, .worker, .read 2 0, .seek (.fromStart 1)]).map (·.1.pos) = some 1 := by
    decide +kernel
  have hmarks : ((BufferedSourceBuilder.default.build (Cursor.new [1, 2, 3])).bind
      Except.toOption).map (fun s => (machine Cursor).history mark (.start s) s
        [.worker, .worker, .worker, .read 2 0, .seek (.fromStart 1)]) = some ⟨0, 2⟩ := by
    decide +kernel
  obtain ⟨⟨t, os⟩, hrun, hpos⟩ := Option.map_eq_some_iff.mp hrun
  obtain ⟨s, hb, hs⟩ := runFrom_eq_some hrun
  rw [hb] at hmarks
  have hretained := lookback_retained (Cursor.measured _)
    (Cursor.addressed (.new [1, 2, 3]) (by decide) (by decide)) hb hs
  rw [show (machine Cursor).history mark (.start s) s _ = ⟨0, 2⟩ from Option.some.inj hmarks]
    at hretained
  exact ⟨t, os, hrun, hpos, hretained⟩

/-- With its end past the last `u64`, `stream_position` restarts the ring. -/
theorem lookback_retained_wraps : letI := target64
    Measured (Boundless.mk 0) ∧ Addressed (Boundless.mk 0) ∧
      ¬ ∀ (s t : BufferedSource Boundless) as os,
        BufferedSourceBuilder.default.build (Boundless.mk 0) = some (.ok s) →
        (machine Boundless).run s as = some (t, os) →
        Retained BufferedSourceBuilder.default.allowance t
          ((machine Boundless).history mark (.start s) s as) := by
  let := target64
  refine ⟨Boundless.measured _, Boundless.addressed _ (by decide), fun hall => ?_⟩
  have hrun : (runFrom (machine Boundless) .default (Boundless.mk 0) Boundless.overrun).map
      (fun r => (r.1.reader, r.1.st.targetPos, (r.1.step (.seek (.fromCurrent 0))).map
        (·.1.st.targetPos))) = some (.idle, none, some (some 18446744073709551614)) := by
    decide +kernel
  obtain ⟨⟨t, os⟩, hrun, hobs⟩ := Option.map_eq_some_iff.mp hrun
  simp only [Prod.mk.injEq] at hobs
  obtain ⟨hidle, htarget, hseek⟩ := hobs
  obtain ⟨s, hb, hs⟩ := runFrom_eq_some hrun
  rw [(hall s t _ _ hb hs).position hidle, Option.map_some, htarget] at hseek
  cases hseek

end OxideSource.BufferedSource
