import OxideSource.Buffered.Brittle
import OxideSource.Buffered.Refines

/-!
# The end of the stream

A read at or past the probed length reports the end at once exactly while no worker
error is recorded: the error is looked at before the length is.
-/

namespace OxideSource.BufferedSource

section

variable [Target] {ι : Type} [ReadSeek ι] {F : Faults} {D : Bytes} {s t : BufferedSource ι}
  {b : BufferedSourceBuilder} {inner : ι} {p₀ : Nat}

/-- A read call shows its result at once, or blocks on a ring that is neither failed nor
at its end. -/
theorem Consistent.read (h : Consistent F D s) (hidle : s.reader = .idle) {want : Nat}
    (hwant : want ≠ 0) (seam : Nat) :
    ∃ r, ReadCase s.st want s.pos r ∧ s.step (.read want seam) = s.afterRead want r := by
  refine ⟨_, h.tracks.readCase h.orderly seam want, ?_⟩
  unfold BufferedSource.step BufferedSource.startRead
  simp only [h.orderly.not_poisoned, Bool.false_eq_true, ite_false, hidle, if_neg hwant]

/-- Past the content the ring has no bytes ahead of the reader. -/
theorem Consistent.at_tail (h : Consistent F D s) (hend : D.length ≤ s.pos) :
    s.pos = s.st.tail := by
  have hhi := h.tracks.ring.hi
  have hlo := h.tracks.ring.lo
  by_contra hne
  have hlen : s.st.buf ≠ [] := by
    intro hnil
    unfold RingState.tail at hhi hne
    rw [hnil, List.length_nil] at hhi hne
    omega
  have hfit := add_length_le_of_prefix_drop h.tracks.bytes hlen
  unfold RingState.tail at hhi hne
  omega

/-- Past the content a read returns `Ok(0)` at once exactly if no worker error is recorded. -/
theorem Consistent.read_end (h : Consistent F D s) (hidle : s.reader = .idle)
    (hend : D.length ≤ s.pos) {want : Nat} (hwant : want ≠ 0) (seam : Nat) :
    (∃ s', s.step (.read want seam) = some (s', some (.read want (.ok [])))) ↔ s.st.err = none := by
  have htail := h.at_tail hend
  obtain ⟨r, hcase, hstep⟩ := h.read hidle hwant seam
  rw [hstep]
  cases hcase with
  | hit hpos => omega
  | failed _ herr =>
      constructor
      · rintro ⟨s', hs'⟩
        cases hs'
      · intro hnone
        exact absurd hnone (RingState.err_ne_none herr)
  | ended _ herr _ => exact ⟨fun _ => herr, fun _ => ⟨_, rfl⟩⟩
  | waits _ _ _ hpast _ =>
      simp only [RingState.pastEnd, h.tracks.total, decide_eq_false_iff_not] at hpast
      exact absurd hend hpast

/-- In every state that the two threads reach, a read at or past the end of the content
returns `Ok(0)` at once exactly if no worker error is recorded. -/
theorem read_at_end (hinner : Serves F D inner (some p₀)) (hF : F.Conventional)
    (hp : p₀ < u64Size) (hD : D.length < u64Size) (hb : b.build inner = some (.ok s))
    (hreach : (machine ι).Reach s t) (hidle : t.reader = .idle) (hend : D.length ≤ t.pos)
    {want : Nat} (hwant : want ≠ 0) (seam : Nat) :
    (∃ t', t.step (.read want seam) = some (t', some (.read want (.ok [])))) ↔ t.st.err = none :=
  ((build_consistent hinner hp hD hb).1.reach hF hD hreach).read_end hidle hend hwant seam

end

/-- After a reader has received every byte of a cursor it sees the end. -/
theorem read_at_end_cursor : letI := target64
    ∃ t os, runFrom (machine Cursor) .default (Cursor.new [7])
        [.worker, .worker, .worker, .read 1 0] = some (t, os) ∧
      ∃ t', t.step (.read 1 0) = some (t', some (.read 1 (.ok []))) := by
  let := target64
  have hrun : (runFrom (machine Cursor) .default (Cursor.new [7])
      [.worker, .worker, .worker, .read 1 0]).map
      (fun r => (r.1.reader, r.1.pos, r.1.st.err)) = some (.idle, 1, none) := by
    decide +kernel
  obtain ⟨⟨t, os⟩, hrun, hobs⟩ := Option.map_eq_some_iff.mp hrun
  simp only [Prod.mk.injEq] at hobs
  obtain ⟨hidle, hpos, herr⟩ := hobs
  obtain ⟨s, hb, hs⟩ := runFrom_eq_some hrun
  have hserves : Serves interrupted [7] (Cursor.new [7]) (some 0) :=
    (Cursor.behaves (fun e => e.kind = .interrupted) (Cursor.new [7])).serves
  have hend := read_at_end hserves interrupted_conventional (by decide) (by decide) hb
    ⟨_, _, hs⟩ hidle hpos.ge Nat.one_ne_zero 0
  exact ⟨t, os, hrun, hend.mpr herr⟩

/-- The extra read after the last byte fails, and the end is reported as that failure. -/
theorem read_at_end_masked : letI := target64
    Serves Brittle.breaks [7] (Brittle.mk [7] 0 (some 1) none) (some 0) ∧
      ¬ ∀ s t : BufferedSource Brittle,
        BufferedSourceBuilder.default.build (Brittle.mk [7] 0 (some 1) none) = some (.ok s) →
        (machine Brittle).Reach s t → t.reader = .idle → [7].length ≤ t.pos →
        ∀ want seam, want ≠ 0 →
          ∃ t', t.step (.read want seam) = some (t', some (.read want (.ok []))) := by
  let := target64
  refine ⟨Brittle.breaking [7] 1, fun hall => ?_⟩
  have hrun : (runFrom (machine Brittle) .default (Brittle.mk [7] 0 (some 1) none)
      [.worker, .worker, .worker, .read 1 0, .worker, .worker, .worker]).map
      (fun r => (r.1.reader, r.1.pos, (r.1.step (.read 1 0)).map (·.2))) =
      some (.idle, 1, some (some (.read 1 (.error Brittle.lost)))) := by
    decide +kernel
  obtain ⟨⟨t, os⟩, hrun, hobs⟩ := Option.map_eq_some_iff.mp hrun
  simp only [Prod.mk.injEq] at hobs
  obtain ⟨hidle, hpos, hread⟩ := hobs
  obtain ⟨s, hb, hs⟩ := runFrom_eq_some hrun
  obtain ⟨t', ht'⟩ := hall s t hb ⟨_, _, hs⟩ hidle hpos.ge 1 0 Nat.one_ne_zero
  rw [ht'] at hread
  cases hread

end OxideSource.BufferedSource
