import OxideSource.Core.Cursor

/-!
# Retrying after errors

Two contracts of `Read + Seek` objects over a byte string that never changes, for
calls that may fail at any time. A faulty object may leave its cursor anywhere when it
fails. A retryable one stays where it was, so that repeating a failed call continues
where the successful calls ended.
-/

namespace OxideSource

/-- What a retryable object shows: a step of a cursor over `D` whose reads may fail
without moving. Where `stall` holds a read may also deliver nothing. -/
inductive RetryStep (stall : Prop) (D : Bytes) : Nat → IoObs → Nat → Prop where
  | step {p q : Nat} {o : IoObs} (h : CursorStep D (fun _ => True) p o q) : RetryStep stall D p o q
  | stall {p n : Nat} (h : stall) : RetryStep stall D p (.read n (.ok [])) p

/-- What a faulty object shows: a failing call may also move its cursor anywhere. -/
inductive FaultyStep (stall : Prop) (D : Bytes) : Nat → IoObs → Nat → Prop where
  | step {p q : Nat} {o : IoObs} (h : RetryStep stall D p o q) : FaultyStep stall D p o q
  | readError {p q n : Nat} {e : IoError} : FaultyStep stall D p (.read n (.error e)) q
  | seekError {p q : Nat} {f : SeekFrom} {e : IoError} :
      FaultyStep stall D p (.seek f (.error e)) q

/-- Where a call leaves the position, by its result: errors leave it alone. -/
def IoObs.landing (p : Nat) : IoObs → Nat
  | .read _ (.ok bs) => p + bs.length
  | .read _ (.error _) => p
  | .seek _ (.ok q) => q
  | .seek _ (.error _) => p

/-- The bytes that a call delivers. -/
def IoObs.delivered : IoObs → Bytes
  | .read _ (.ok bs) => bs
  | .read _ (.error _) => []
  | .seek _ _ => []

namespace RetryStep

variable {stall : Prop} {D : Bytes} {p q : Nat} {o : IoObs}

/-- The position follows from the results. -/
theorem landing (h : RetryStep stall D p o q) : o.landing p = q := by
  cases h with
  | step h => cases h <;> rfl
  | stall _ => rfl

/-- A successful read, where it may stall. -/
theorem of_read {n : Nat} {bs : Bytes} (hpre : bs <+: D.drop p) (hlen : bs.length ≤ n)
    (hend : bs = [] → n = 0 ∨ D.length ≤ p ∨ stall) :
    RetryStep stall D p (.read n (.ok bs)) (p + bs.length) := by
  by_cases hs : bs = [] ∧ stall
  · obtain ⟨rfl, hs⟩ := hs
    exact .stall hs
  · refine .step (.read hpre hlen fun hnil => ?_)
    exact (hend hnil).imp_right fun h => h.resolve_right fun hstall => hs ⟨hnil, hstall⟩

/-- A read continues the content at the position. -/
theorem read {n : Nat} {r : IoResult Bytes} (h : RetryStep stall D p (.read n r) q) :
    (IoObs.read n r).delivered <+: D.drop p ∧ q = p + (IoObs.read n r).delivered.length := by
  cases h with
  | step h =>
      cases h with
      | read hpre _ _ => exact ⟨hpre, rfl⟩
      | readError _ => exact ⟨List.nil_prefix, rfl⟩
  | stall _ => exact ⟨List.nil_prefix, rfl⟩

end RetryStep

section Traces

variable {stall : Prop} {D : Bytes} {p q : Nat} {os : List IoObs}

/-- The results of a run imply its position. -/
theorem Trace.landing (h : Trace (RetryStep stall D) p os q) : os.foldl IoObs.landing p = q := by
  induction h with
  | nil p => rfl
  | cons hstep _ ih => rw [List.foldl_cons, hstep.landing, ih]

/-- Reads deliver consecutive bytes of the content, however many of them fail. -/
theorem Trace.delivered (h : Trace (RetryStep stall D) p os q)
    (hreads : ∀ o ∈ os, ∃ n r, o = .read n r) :
    os.flatMap IoObs.delivered <+: D.drop p ∧ q = p + (os.flatMap IoObs.delivered).length := by
  induction h with
  | nil p => exact ⟨List.nil_prefix, rfl⟩
  | cons hstep _ ih =>
      obtain ⟨⟨n, r, rfl⟩, hrest⟩ := List.forall_mem_cons.mp hreads
      obtain ⟨hpre, rfl⟩ := hstep.read
      obtain ⟨htail, rfl⟩ := ih hrest
      rw [List.flatMap_cons, List.length_append, Nat.add_assoc]
      exact ⟨append_prefix_drop hpre htail, rfl⟩

end Traces

/-! ### Objects -/

section Objects

variable {σ τ : Type} [ReadSeek σ]

/-- The calls on `s` are steps from `p`: the greatest relation that every call keeps. -/
def Follows (Step : τ → IoObs → τ → Prop) (s : σ) (p : τ) : Prop :=
  ∃ R : σ → τ → Prop, R s p ∧ ∀ s p, R s p → ∀ op,
    ∃ q, Step p (perform s op).1 q ∧ R (perform s op).2 q

theorem Follows.perform {Step : τ → IoObs → τ → Prop} {s : σ} {p : τ} (h : Follows Step s p)
    (op : IoOp) :
    ∃ q, Step p (perform s op).1 q ∧ Follows Step (OxideSource.perform s op).2 q := by
  obtain ⟨R, hs, hR⟩ := h
  obtain ⟨q, hstep, hq⟩ := hR s p hs op
  exact ⟨q, hstep, R, hq, hR⟩

/-- A contract implies every weaker one. -/
theorem Follows.mono {Step Step' : τ → IoObs → τ → Prop} {s : σ} {p : τ}
    (hmono : ∀ p o q, Step p o q → Step' p o q) (h : Follows Step s p) : Follows Step' s p := by
  refine ⟨Follows Step, h, ?_⟩
  intro s p hs op
  obtain ⟨q, hstep, hq⟩ := hs.perform op
  exact ⟨q, hmono _ _ _ hstep, hq⟩

/-- A wrapper that only relays calls keeps the contract of what it wraps. -/
theorem Follows.relay {σ' : Type} [ReadSeek σ'] {Step : τ → IoObs → τ → Prop} {f : σ → σ'}
    (hrelay : ∀ s op, OxideSource.perform (f s) op = (OxideSource.perform s op).map id f) {s : σ}
    {p : τ} (h : Follows Step s p) : Follows Step (f s) p := by
  refine ⟨fun t q => ∃ s, t = f s ∧ Follows Step s q, ⟨s, rfl, h⟩, ?_⟩
  rintro _ p ⟨s, rfl, hs⟩ op
  obtain ⟨q, hstep, hq⟩ := hs.perform op
  rw [hrelay]
  exact ⟨q, hstep, _, rfl, hq⟩

/-- An invariant under which every call is a step from the object's own position makes
every run a trace. -/
theorem trace_of_invariant {Step : τ → IoObs → τ → Prop} {I : σ → Prop} {pos : σ → τ}
    (hstep : ∀ s, I s → ∀ op, Step (pos s) (perform s op).1 (pos (perform s op).2) ∧
      I (perform s op).2) {s : σ} (hs : I s) (ops : List IoOp) :
    Trace Step (pos s) (performAll s ops).1 (pos (performAll s ops).2) ∧ I (performAll s ops).2 := by
  induction ops generalizing s with
  | nil => exact ⟨.nil _, hs⟩
  | cons op ops ih =>
      obtain ⟨hfirst, hnext⟩ := hstep s hs op
      obtain ⟨htrace, hend⟩ := ih hnext
      exact ⟨.cons hfirst htrace, hend⟩

/-- Calls to read are observed as reads. -/
theorem performAll_reads (s : σ) (ns : List Nat) :
    ∀ o ∈ (performAll s (ns.map .read)).1, ∃ n r, o = .read n r := by
  induction ns generalizing s with
  | nil => exact nofun
  | cons n ns ih =>
      rw [List.map_cons, performAll, List.forall_mem_cons]
      exact ⟨⟨n, _, rfl⟩, ih _⟩

/-- `s` is faulty over `D`, with its cursor somewhere. -/
def Faulty (stall : Prop) (D : Bytes) (s : σ) : Prop := ∃ p, Follows (FaultyStep stall D) s p

theorem Follows.faulty {stall : Prop} {D : Bytes} {s : σ} {p : Nat}
    (h : Follows (RetryStep stall D) s p) : Faulty stall D s :=
  ⟨p, h.mono fun _ _ _ => .step⟩

section Faulty

variable {stall : Prop} {D : Bytes} {s s' : σ}

/-- Every call on a faulty object leaves it faulty. -/
theorem Faulty.perform (h : Faulty stall D s) (op : IoOp) :
    Faulty stall D (OxideSource.perform s op).2 := by
  obtain ⟨p, hp⟩ := h
  obtain ⟨q, _, hq⟩ := hp.perform op
  exact ⟨q, hq⟩

theorem Faulty.seek (h : Faulty stall D s) {f : SeekFrom} {r : IoResult Nat}
    (hseek : ReadSeek.seek s f = (r, s')) : Faulty stall D s' := by
  have hafter := h.perform (.seek f)
  change Faulty stall D (ReadSeek.seek s f).2 at hafter
  rwa [hseek] at hafter

theorem Faulty.read (h : Faulty stall D s) {n : Nat} {r : IoResult Bytes}
    (hread : ReadSeek.read s n = (r, s')) : Faulty stall D s' := by
  have hafter := h.perform (.read n)
  change Faulty stall D (ReadSeek.read s n).2 at hafter
  rwa [hread] at hafter

/-- A seek that succeeds lands where it resolves. -/
theorem Follows.seek_ok {p q : Nat} (h : Follows (FaultyStep stall D) s p) {f : SeekFrom}
    (hseek : ReadSeek.seek s f = (.ok q, s')) :
    seekTarget D.length (some p) f = some q ∧ Follows (FaultyStep stall D) s' q := by
  obtain ⟨q', hstep, hq⟩ := h.perform (.seek f)
  change FaultyStep stall D p (.seek f (ReadSeek.seek s f).1) q' at hstep
  change Follows _ (ReadSeek.seek s f).2 q' at hq
  rw [hseek] at hstep hq
  cases hstep with
  | step hstep =>
      cases hstep with
      | step hstep =>
          cases hstep with
          | seek ht => exact ⟨ht, hq⟩

/-- A read that succeeds delivers the bytes at the cursor. -/
theorem Follows.read_ok {p n : Nat} (h : Follows (FaultyStep stall D) s p) {bs : Bytes}
    (hread : ReadSeek.read s n = (.ok bs, s')) :
    bs <+: D.drop p ∧ bs.length ≤ n ∧ (bs = [] → n = 0 ∨ D.length ≤ p ∨ stall) := by
  obtain ⟨q, hstep, _⟩ := h.perform (.read n)
  change FaultyStep stall D p (.read n (ReadSeek.read s n).1) q at hstep
  rw [hread] at hstep
  cases hstep with
  | step hstep =>
      cases hstep with
      | step hstep =>
          cases hstep with
          | read hpre hlen hend => exact ⟨hpre, hlen, fun hnil => (hend hnil).imp_right .inl⟩
      | stall hs => exact ⟨List.nil_prefix, Nat.zero_le _, fun _ => .inr (.inr hs)⟩

/-- An absolute seek that succeeds places the cursor, wherever it was. -/
theorem Faulty.seekStart (h : Faulty stall D s) {p q : Nat} (hp : p < u64Size)
    (hseek : ReadSeek.seek s (.fromStart (.ofNat p)) = (.ok q, s')) :
    Follows (FaultyStep stall D) s' p := by
  obtain ⟨c, hc⟩ := h
  obtain ⟨ht, hq⟩ := hc.seek_ok hseek
  change some _ = some q at ht
  rw [toNat_ofNat_of_lt hp] at ht
  obtain rfl := Option.some.inj ht
  exact hq

/-- A seek to the end that succeeds finds the length. -/
theorem Faulty.seekEnd (h : Faulty stall D s) {q : Nat}
    (hseek : ReadSeek.seek s (.fromEnd 0) = (.ok q, s')) : q = D.length := by
  obtain ⟨c, hc⟩ := h
  obtain ⟨ht, _⟩ := hc.seek_ok hseek
  have h0 : (0 : Int64).toInt = 0 := by decide
  have hadd : checkedAdd D.length 0 = some q := by
    simpa [seekTarget, checkedAddSigned, h0] using ht
  exact (checkedAdd_eq_some.mp hadd).1

end Faulty

end Objects

end OxideSource
