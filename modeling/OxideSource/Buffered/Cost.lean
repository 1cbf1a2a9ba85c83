import OxideSource.Buffered.EndToEnd
import OxideSource.Buffered.Traffic
import OxideSource.Uri.Cost

/-!
# What prefetching a URI costs its files

The worker's calls on the inner source are the only ones after `build`. Where the inner
source is what a URI opens to, they are priced by the tariff of its files, whatever the
nesting and the interleaving.
-/

namespace OxideSource

open Uri

namespace BufferedSource

section

variable [Target] {ι : Type} [ReadSeek ι] {s s' t : BufferedSource ι} {c : Traffic} {T : Tariff}
  {block start : Nat} {o : Option IoObs}

/-- The inner source has been charged for the calls that were counted. -/
structure Priced (m : Meter T ι) (block start : Nat) (s : BufferedSource ι) (c : Traffic) :
    Prop where
  supplied : Supplied s
  ledger : Ledger s.st s.worker c
  blockSize : s.st.blockSize = block
  spent : m.spent s.inner ≤ start + c.seeks * T.seek + c.reads * T.read block

omit [Target] [ReadSeek ι] in
/-- Phase 3 calls nobody. -/
theorem Traffic.settle_calls (c : Traffic) (st : RingState) (res : IoResult Bytes) :
    (c.settle st res).seeks = c.seeks ∧ (c.settle st res).reads = c.reads := by
  unfold Traffic.settle
  split
  · exact ⟨rfl, rfl⟩
  · cases res with
    | error e =>
        dsimp only
        split <;> exact ⟨rfl, rfl⟩
    | ok bs => cases bs <;> exact ⟨rfl, rfl⟩

/-- A step of the worker is charged for what it calls. -/
theorem Priced.workerStep {m : Meter T ι} (h : Priced m block start s c) (hs : WorkerCase s s') :
    m.spent s'.inner ≤ start + (charge c s .worker s').seeks * T.seek +
      (charge c s .worker s').reads * T.read block := by
  have hspent := h.spent
  cases hs with
  | @seeks target _ _ hw hseek =>
      have hle := m.seek_le s.inner (.fromStart (.ofNat target))
      rw [hseek] at hle
      simp only [charge, hw, Nat.succ_mul] at hle ⊢
      omega
  | @refused target _ _ hw hseek =>
      have hle := m.seek_le s.inner (.fromStart (.ofNat target))
      rw [hseek] at hle
      simp only [charge, hw, Nat.succ_mul] at hle ⊢
      omega
  | @reads n _ _ hw hread =>
      have hworker := h.supplied.orderly.worker
      rw [hw] at hworker
      have hmono := T.mono (hworker.1.trans h.blockSize.le)
      have hle := m.read_le s.inner n
      rw [hread] at hle
      simp only [charge, hw, Nat.succ_mul] at hle ⊢
      omega
  | @phase3 res hw =>
      obtain ⟨hseeks, hreads⟩ := c.settle_calls s.st res
      simp only [charge, hw, hseeks, hreads]
      exact hspent
  | phase1 hw =>
      simp only [charge, hw]
      exact hspent
  | records hw =>
      simp only [charge, hw]
      exact hspent
  | unparks hw =>
      simp only [charge, hw]
      exact hspent

/-- A step is charged for what it calls. -/
theorem Priced.step {m : Meter T ι} (h : Priced m block start s c) {a : Action}
    (hs : s.step a = some (s', o)) : Priced m block start s' (charge c s a s') := by
  have horderly := h.supplied.orderly
  have hspent := h.spent
  refine ⟨h.supplied.step hs, h.ledger.step horderly hs,
    (congrArg (fun k => k.2.1) (step_knobs horderly hs)).trans h.blockSize, ?_⟩
  cases step_cases hs with
  | worker hstep => exact h.workerStep hstep
  | read _ _ hs =>
      obtain ⟨_, _, hinner, _⟩ := afterRead_trimmed (horderly.settled _ _) hs
      rw [hinner]
      exact hspent
  | resume _ hs =>
      obtain ⟨_, _, hinner, _⟩ := afterRead_trimmed (horderly.settled _ _) hs
      rw [hinner]
      exact hspent
  | seek =>
      simp only [charge]
      split <;> exact hspent
  | _ => exact hspent

variable {b : BufferedSourceBuilder} {inner : ι}

/-- `build` seeks three times. -/
theorem build_spent (m : Meter T ι) (hb : b.build inner = some (.ok s)) :
    m.spent s.inner ≤ m.spent inner + 3 * T.seek := by
  obtain ⟨_, pos, stop, i₁, i₂, q, h₁, h₂, h₃, _⟩ := build_ok hb
  have hle₁ := m.seek_le inner (.fromCurrent 0)
  have hle₂ := m.seek_le i₁ (.fromEnd 0)
  have hle₃ := m.seek_le i₂ (.fromStart (.ofNat pos))
  rw [show ReadSeek.seek inner (.fromCurrent 0) = (.ok pos, i₁) from h₁] at hle₁
  rw [h₂] at hle₂
  rw [h₃] at hle₃
  dsimp only at hle₁ hle₂ hle₃
  omega

/-- Along every run, the inner source is charged with a seek for each seek that left the
ring and with a block for each read that a frugal worker makes. -/
theorem run_priced (m : Meter T ι) (hinner : Measured inner) (hb : b.build inner = some (.ok s))
    {as : List Action} {os : List IoObs} (hrun : (machine ι).run s as = some (t, os))
    (hc : (machine ι).history charge .none s as = c) :
    m.spent t.inner ≤ m.spent inner + (3 + c.restarts) * T.seek +
      (c.deposits + c.interrupted + 2 * c.restarts + 4) * T.read b.block := by
  have hbuilt := build_spent m hb
  have hstart : Priced m b.block (m.spent s.inner) s .none := by
    obtain ⟨_, _, _, _, _, _, _, _, _, hst, _⟩ := build_ok hb
    refine ⟨build_supplied hinner hb, build_ledger hb, by rw [hst], ?_⟩
    simp [Traffic.none]
  have hend : Priced m b.block (m.spent s.inner) t ((machine ι).history charge .none s as) :=
    Machine.run_history (fun hI hs => hI.step hs) hstart hrun
  rw [hc] at hend
  have hfrugal := hend.ledger.frugal
  calc m.spent t.inner
      ≤ m.spent s.inner + c.seeks * T.seek + c.reads * T.read b.block := hend.spent
    _ ≤ (m.spent inner + 3 * T.seek) + c.restarts * T.seek +
          (c.deposits + c.interrupted + 2 * c.restarts + 4) * T.read b.block := by
        gcongr
        · exact hfrugal.seeks
        · exact hfrugal.reads
    _ = m.spent inner + (3 + c.restarts) * T.seek +
          (c.deposits + c.interrupted + 2 * c.restarts + 4) * T.read b.block := by
        rw [Nat.add_mul 3 c.restarts]
        omega

end

end BufferedSource

/-! ### From a URI -/

section

variable {F : Type} [ReadSeek F] {R : Resources} {allow : IoError → Prop} {T : Tariff}

/-- A source that follows a cursor returns no more than it is asked for. -/
theorem Bounded.measured {D : Bytes} {f : F} {p : Nat} (h : Bounded D allow f p) :
    BufferedSource.Measured f := by
  refine ⟨fun f => ∃ p, Bounded D allow f p, ⟨p, h⟩, ?_, ?_⟩
  · rintro f ⟨p, hf⟩ n
    obtain ⟨q, hstep, hq⟩ := hf.read (r := (ReadSeek.read f n).1) rfl
    refine ⟨fun bs hbs => ?_, q, hq⟩
    rw [hbs] at hstep
    cases hstep with
    | read _ hlen _ => exact hlen
  · rintro f ⟨p, hf⟩ offset
    obtain ⟨q, _, hq⟩ := hf.perform (.seek offset)
    exact ⟨q, hq⟩

variable [Target] {w : World F} {uri : Text} {r : Reader F}

namespace BufferedSource

/-- Prefetching what a URI opens to costs its files four seeks for each leaf, and from then
on a seek and a block for each read that brought bytes into the ring and each interrupted
one, two for each seek that left the ring, and little more. Neither the nesting of the URI nor the
interleaving matters. -/
theorem buffered_frugal (m : Meter T F) (hw : w.Holds R allow uri) (hT : Target.usizeBits = 64)
    (hfit : (utf8 uri).length ≤ isizeMax)
    (hnew : ∀ path f, w.openFile path = .ok f → m.spent f = 0)
    (hr : (openBytes w uri).result = .ok r) {b : BufferedSourceBuilder}
    {s t : BufferedSource (Reader F)} (hb : b.build r = some (.ok s)) {as : List Action}
    {os : List IoObs} (hrun : (machine (Reader F)).run s as = some (t, os)) {c : Traffic}
    (hc : (machine (Reader F)).history charge .none s as = c) :
    t.inner.spent m.spent ≤ 4 * T.seek * (1 + uri.count '|') + (3 + c.restarts) * T.seek +
      (c.deposits + c.interrupted + 2 * c.restarts + 4) * (T.seek + T.read b.block) := by
  obtain ⟨_, _, _, hbounded, _⟩ := openBytes_reads hw hT hfit hr
  have hopen : r.spent m.spent ≤ 4 * T.seek * (1 + uri.count '|') :=
    (Nat.le_add_right _ _).trans (spent_openBytes m hnew hr)
  have hserved : t.inner.spent m.spent ≤ r.spent m.spent + (3 + c.restarts) * T.seek +
      (c.deposits + c.interrupted + 2 * c.restarts + 4) * (T.seek + T.read b.block) :=
    run_priced (Reader.meter m) hbounded.measured hb hrun hc
  omega

end BufferedSource

end

namespace BufferedSource

/-- Three rounds of the worker read a window across a file, in blocks. -/
theorem buffered_frugal_across : letI := target64
    ∃ r s t, (openBytes pair.world.recorded across).result = .ok r ∧
      BufferedSourceBuilder.default.build r = some (.ok s) ∧
      (machine (Reader (Recorder Cursor))).run s threeRounds =
        some (t, [.read 8 (.ok [2, 3, 4]), .read 1 (.ok [])]) ∧
      t.inner.spent (fun f => f.asked.sum) ≤ 6 * (256 * 1024) := by
  let := target64
  have hall : ((openBytes pair.world.recorded across).result.toOption.bind fun r =>
      (BufferedSourceBuilder.default.build r).bind fun built => built.toOption.bind fun s =>
        ((machine (Reader (Recorder Cursor))).run s threeRounds).map fun t =>
          (t.2, (machine (Reader (Recorder Cursor))).history charge .none s threeRounds)) =
      some ([.read 8 (.ok [2, 3, 4]), .read 1 (.ok [])], ⟨0, 3, 2, 0, 0, 1, 0, 0⟩) := by
    decide +kernel
  obtain ⟨r, hr, hall⟩ := Option.bind_eq_some_iff.mp hall
  obtain ⟨built, hb, hall⟩ := Option.bind_eq_some_iff.mp hall
  obtain ⟨s, hs, hall⟩ := Option.bind_eq_some_iff.mp hall
  obtain ⟨⟨t, os⟩, hrun, hshown⟩ := Option.map_eq_some_iff.mp hall
  obtain ⟨rfl, hc⟩ := Prod.mk.inj hshown
  have hopen := eq_ok_of_toOption hr
  rw [eq_ok_of_toOption hs] at hb
  refine ⟨r, s, t, hopen, hb, hrun, ?_⟩
  have hcost := buffered_frugal (Recorder.meter Cursor) (pair_holds across).recorded rfl
    (by decide +kernel)
    (by
      intro path f hf
      obtain ⟨c, _, rfl⟩ := exceptMap_eq_ok.mp hf
      rfl) hopen hb hrun hc
  exact hcost.trans (by decide +kernel)

end BufferedSource

end OxideSource
