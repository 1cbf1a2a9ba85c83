import OxideSource.Buffered.Content

/-!
# A buffered source is a cursor

Both invariants hold along every run of what `build` returns, so the observations of
every interleaving form a trace of a cursor over the inner bytes.
-/

namespace OxideSource.BufferedSource

/-- Reads may be interrupted, and nothing else goes wrong. -/
def interrupted : Faults := Faults.transient fun e => e.kind = .interrupted

theorem interrupted_conventional : interrupted.Conventional := ⟨fun _ h => h, nofun⟩

section

variable [Target] {ι : Type} [ReadSeek ι] {F : Faults} {D : Bytes} {b : BufferedSourceBuilder}
  {inner : ι} {p₀ : Nat} {s s' t : BufferedSource ι}

/-- Both invariants together. -/
structure Consistent (F : Faults) (D : Bytes) (s : BufferedSource ι) : Prop where
  orderly : Orderly s
  tracks : Tracks F D s

/-- What `build` returns stands where the inner source stood. -/
theorem build_consistent (hinner : Serves F D inner (some p₀)) (hp : p₀ < u64Size)
    (hD : D.length < u64Size) (hb : b.build inner = some (.ok s)) :
    Consistent F D s ∧ s.pos = p₀ := by
  have horderly := build_orderly hb
  obtain ⟨hring, pos, stop, i₁, i₂, q, h₁, h₂, h₃, hst, hworker, hpos, _⟩ := build_ok hb
  obtain ⟨c₁, ho₁, hi₁⟩ := hinner.seek (f := .fromCurrent 0) (checkedAddSigned_zero hp)
  rw [show ReadSeek.seek inner (.fromCurrent 0) = (.ok pos, i₁) from h₁] at ho₁ hi₁
  cases ho₁ with
  | ok =>
      obtain ⟨c₂, ho₂, hi₂⟩ := hi₁.seek (f := .fromEnd 0) (checkedAddSigned_zero hD)
      rw [h₂] at ho₂ hi₂
      cases ho₂ with
      | ok =>
          rcases hi₂.seekStart hp with ⟨i₃, hs, hi₃⟩ | ⟨e, i₃, hs, _⟩
          · rw [hs] at h₃
            obtain ⟨_, rfl⟩ := Prod.mk.inj h₃
            refine ⟨⟨horderly, ?_⟩, hpos⟩
            have hcap : b.ring ≤ usizeMax := hring.trans isizeMax_le_usizeMax
            refine ⟨?_, ?_, ?_, ?_, ?_, ?_, ?_, ?_, ?_⟩
            · rw [hst]
              exact (ring_pos b).2
            · rw [hst]
              exact hcap
            · rw [hst]
            · rw [hst, hpos]
              exact ⟨Nat.le_refl _, Nat.le_refl _, hp⟩
            · rw [hst]
              exact List.nil_prefix
            · rw [hst]
              exact nofun
            · rw [hst]
              intro heof
              exact (of_decide_eq_true heof).le
            · rw [hst]
              exact nofun
            · rw [hst, hworker]
              exact ⟨_, hi₃, fun _ => rfl⟩
          · rw [hs] at h₃
            cases h₃

/-- The next read of the worker returns no more than it asks for. -/
theorem Tracks.measured (h : Tracks F D s) {n : Nat} {bs : Bytes} (hw : s.worker = .reading n)
    (hread : (ReadSeek.read s.inner n).1 = .ok bs) : bs.length ≤ n := by
  have hinner := h.inner
  rw [hw] at hinner
  obtain ⟨_, p, hp, _⟩ := hinner
  obtain ⟨c, hout, _⟩ := hp.read n
  rw [hread] at hout
  cases hout with
  | ok _ hlen _ => exact hlen

/-- Every step keeps both invariants. -/
theorem Consistent.step (h : Consistent F D s) (hF : F.Conventional) (hD : D.length < u64Size)
    {a : Action} {o : Option IoObs} (hs : s.step a = some (s', o)) : Consistent F D s' :=
  ⟨h.orderly.step (fun _ _ hw hread => h.tracks.measured hw hread) hs,
    (h.tracks.step h.orderly hF hD hs).1⟩

/-- Both invariants hold in every state that the two threads reach. -/
theorem Consistent.reach (h : Consistent F D s) (hF : F.Conventional) (hD : D.length < u64Size)
    (hreach : (machine ι).Reach s t) : Consistent F D t :=
  hreach.invariant (fun hI hs => hI.step hF hD hs) h

/-- The errors a caller may see: those that stop the worker, and timeouts. -/
def Visible (F : Faults) (e : IoError) : Prop := F.fatal e ∨ ∃ t, e = timeoutError t

/-- The observations of every run are those of a cursor over the content. -/
theorem Consistent.trace (h : Consistent F D s) (hF : F.Conventional) (hD : D.length < u64Size)
    {as : List Action} {os : List IoObs} (hrun : (machine ι).run s as = some (t, os)) :
    CursorTrace D (Visible F) s.pos os t.pos := by
  apply Machine.run_trace (I := Consistent F D) (A := CursorStep D (Visible F)) (m := machine ι)
    _ _ _ h hrun
  · intro s a s' o hI hs
    exact hI.step hF hD hs
  · intro s a s' hI hs
    exact (hI.tracks.step hI.orderly hF hD hs).2.silent
  · intro s a s' o hI hs
    have hstep := (hI.tracks.step hI.orderly hF hD hs).2.observed
    exact hstep.mono fun e he => he.imp (hI.tracks.err e) id

/-- Over an inner source that serves `D` and fails only by interrupted reads, every
interleaving of seeks, reads and worker steps is a trace of a cursor over `D` that
starts where the inner source stood, with no error but timeouts. -/
theorem run_refines_cursor (hinner : Serves interrupted D inner (some p₀)) (hp : p₀ < u64Size)
    (hD : D.length < u64Size) (hb : b.build inner = some (.ok s)) {as : List Action}
    {os : List IoObs} (hrun : (machine ι).run s as = some (t, os)) :
    CursorTrace D (fun e => e.kind = .timedOut) p₀ os t.pos := by
  obtain ⟨hconsistent, hpos⟩ := build_consistent hinner hp hD hb
  have htrace := hconsistent.trace interrupted_conventional hD hrun
  rw [hpos] at htrace
  refine htrace.mono fun hstep => hstep.mono ?_
  intro e he
  rcases he with (hf | ⟨_, hf⟩) | ⟨_, rfl⟩
  · exact hf.elim
  · exact hf.elim
  · rfl

end

/-! ### A short run -/

/-- A cursor over three bytes, standing on the second. -/
def sample : Cursor := ⟨[1, 2, 3], 1⟩

/-- Prefetch, read a byte, seek back out of the ring, and read again. -/
def sampleRun : List Action :=
  [.worker, .worker, .worker, .read 1 0, .seek (.fromStart 0), .worker, .worker, .worker,
    .worker, .worker, .worker, .worker, .read 8 0]

theorem run_refines_cursor_sample : letI := target64
    ∃ t os, runFrom (machine Cursor) .default sample sampleRun = some (t, os) ∧
      os = [.read 1 (.ok [2]), .seek (.fromStart 0) (.ok 0), .read 8 (.ok [1, 2, 3])] ∧
      CursorTrace [1, 2, 3] (fun e => e.kind = .timedOut) 1 os t.pos := by
  let := target64
  have hrun : (runFrom (machine Cursor) .default sample sampleRun).map (·.2) =
      some [.read 1 (.ok [2]), .seek (.fromStart 0) (.ok 0), .read 8 (.ok [1, 2, 3])] := by
    decide +kernel
  obtain ⟨⟨t, os⟩, hrun, hos⟩ := Option.map_eq_some_iff.mp hrun
  obtain ⟨s, hb, hs⟩ := runFrom_eq_some hrun
  have hserves : Serves interrupted [1, 2, 3] sample (some 1) :=
    (Cursor.behaves (fun e => e.kind = .interrupted) sample).serves
  exact ⟨t, os, hrun, hos, run_refines_cursor hserves (by decide) (by decide) hb hs⟩

end OxideSource.BufferedSource
