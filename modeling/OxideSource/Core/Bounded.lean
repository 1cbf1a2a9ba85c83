import OxideSource.Core.Retries

/-!
# Sources that may refuse to go past their end

`Seek` allows a seek beyond the end of a stream and leaves what it does there to the
implementation. A bounded source is a cursor over bytes that never change which may refuse
such a seek, and then stays where it was.
-/

namespace OxideSource

/-- A step of a cursor over `D`, or a refused seek past the end. -/
inductive BoundedStep (D : Bytes) (allow : IoError → Prop) : Nat → IoObs → Nat → Prop where
  | step {p q : Nat} {o : IoObs} (h : CursorStep D allow p o q) : BoundedStep D allow p o q
  | refused {p q : Nat} {f : SeekFrom} {e : IoError}
      (ht : seekTarget D.length (some p) f = some q) (hq : D.length < q) :
      BoundedStep D allow p (.seek f (.error e)) p

/-- `s` is at position `p` of a bounded source over `D`. -/
abbrev Bounded {σ : Type} [ReadSeek σ] (D : Bytes) (allow : IoError → Prop) (s : σ) (p : Nat) :
    Prop :=
  Follows (BoundedStep D allow) s p

/-- The error with which a source over `D` refuses, where it stands after some calls, a seek
that resolves to `q` past its end. -/
def Refuses {σ : Type} [ReadSeek σ] (D : Bytes) (allow : IoError → Prop) (s : σ) (q : Nat)
    (e : IoError) : Prop :=
  D.length < q ∧ ∃ ops f p, Bounded D allow (performAll s ops).2 p ∧
    seekTarget D.length (some p) f = some q ∧ (ReadSeek.seek (performAll s ops).2 f).1 = .error e

/-- Reads may fail as `allow` says, without moving, and seeks past the end may be refused as
`s` refuses them. -/
def Faults.pastEnd {σ : Type} [ReadSeek σ] (allow : IoError → Prop) (D : Bytes) (s : σ) : Faults :=
  ⟨allow, fun _ => False, Refuses D allow s⟩

section

variable {σ : Type} [ReadSeek σ] {D : Bytes} {allow : IoError → Prop} {s : σ} {p q : Nat}

/-- One more call after a sequence of calls. -/
theorem performAll_concat (s : σ) (ops : List IoOp) (op : IoOp) :
    (performAll s (ops ++ [op])).2 = (perform (performAll s ops).2 op).2 := by
  induction ops generalizing s with
  | nil => rfl
  | cons first ops ih => exact ih (perform s first).2

/-- A cursor refuses no seek. -/
theorem Behaves.bounded (h : Behaves D allow s p) : Bounded D allow s p := by
  refine ⟨Behaves D allow, h, ?_⟩
  intro s p hs op
  obtain ⟨q, hstep, hq⟩ := (promises_behaves D allow).perform hs op
  exact ⟨q, .step hstep, hq⟩

namespace Bounded

/-- A seek that resolves to a position in the content succeeds. -/
theorem seek (h : Bounded D allow s p) {f : SeekFrom}
    (ht : seekTarget D.length (some p) f = some q) (hq : q ≤ D.length) :
    ∃ s', ReadSeek.seek s f = (.ok q, s') ∧ Bounded D allow s' q := by
  obtain ⟨q', hstep, hafter⟩ := h.perform (.seek f)
  change BoundedStep D allow p (.seek f (ReadSeek.seek s f).1) q' at hstep
  change Bounded D allow (ReadSeek.seek s f).2 q' at hafter
  generalize ReadSeek.seek s f = r at hstep hafter
  obtain ⟨r, s'⟩ := r
  cases hstep with
  | step hstep =>
      cases hstep with
      | seek ht' =>
          obtain rfl := Option.some.inj (ht'.symm.trans ht)
          exact ⟨s', rfl, hafter⟩
      | seekError ht' => rw [ht'] at ht; cases ht
  | refused ht' hlt =>
      obtain rfl := Option.some.inj (ht'.symm.trans ht)
      omega

/-- A read is a step of a cursor. -/
theorem read (h : Bounded D allow s p) {n : Nat} {r : IoResult Bytes} {s' : σ}
    (hread : ReadSeek.read s n = (r, s')) :
    ∃ q, CursorStep D allow p (.read n r) q ∧ Bounded D allow s' q := by
  obtain ⟨q, hstep, hq⟩ := h.perform (.read n)
  change BoundedStep D allow p (.read n (ReadSeek.read s n).1) q at hstep
  change Bounded D allow (ReadSeek.read s n).2 q at hq
  rw [hread] at hstep hq
  cases hstep with
  | step hstep => exact ⟨q, hstep, hq⟩

/-- A bounded source serves a wrapper, and refuses it what it refuses any caller. -/
theorem serves (h : Bounded D allow s p) :
    Serves (Faults.pastEnd allow D s) D s (some p) := by
  refine ⟨fun t c => ∃ ops p, (performAll s ops).2 = t ∧ Bounded D allow t p ∧
    ∀ q, c = some q → q = p, ⟨?_, ?_⟩, [], p, rfl, h, fun _ hc => (Option.some.inj hc).symm⟩
  · rintro t p ⟨ops, p', rfl, ht, hp⟩ n
    obtain rfl := hp p rfl
    obtain ⟨q, hstep, hq⟩ := Bounded.read (r := (ReadSeek.read (performAll s ops).2 n).1) ht rfl
    have hcalls := performAll_concat s ops (.read n)
    generalize (ReadSeek.read (performAll s ops).2 n).1 = r at hstep
    cases hstep with
    | read hpre hlen hend =>
        exact ⟨_, .ok hpre hlen hend, _, _, hcalls, hq, fun _ hc => (Option.some.inj hc).symm⟩
    | readError he =>
        exact ⟨_, .keeps he, _, _, hcalls, hq, fun _ hc => (Option.some.inj hc).symm⟩
  · rintro t c f q ⟨ops, p, rfl, hs, hc⟩ ht
    -- an unknown cursor resolves only seeks that do not depend on it
    have ht' : seekTarget D.length (some p) f = some q := by
      cases c with
      | some p' => rwa [← hc p' rfl]
      | none =>
          cases f with
          | fromCurrent d => cases ht
          | _ => exact ht
    obtain ⟨q', hstep, hq⟩ := hs.perform (.seek f)
    have hcalls := performAll_concat s ops (.seek f)
    change BoundedStep D allow _ (.seek f (ReadSeek.seek (performAll s ops).2 f).1) q' at hstep
    change Bounded D allow (ReadSeek.seek (performAll s ops).2 f).2 q' at hq
    generalize hr : (ReadSeek.seek (performAll s ops).2 f).1 = r at hstep
    cases hstep with
    | step hstep =>
        cases hstep with
        | seek hq' =>
            obtain rfl := Option.some.inj (hq'.symm.trans ht')
            exact ⟨_, .ok, _, _, hcalls, hq, fun _ hc => (Option.some.inj hc).symm⟩
        | seekError hnone => rw [hnone] at ht'; cases ht'
    | refused hq' hlt =>
        obtain rfl := Option.some.inj (hq'.symm.trans ht')
        exact ⟨_, .fails ⟨hlt, ops, f, _, hs, ht', hr⟩, _, _, hcalls, hq, nofun⟩

end Bounded

/-- A source keeps every contract that admits its errors. A failed read that did not move
may count as one that lost the cursor. -/
theorem Serves.weaken {F F' : Faults} {c : Option Nat}
    (hkeeps : ∀ e, F.keeps e → F'.keeps e ∨ F'.reads e) (hreads : ∀ e, F.reads e → F'.reads e)
    (hseeks : ∀ q e, F.seeks q e → F'.seeks q e) (h : Serves F D s c) : Serves F' D s c := by
  refine ⟨fun s c => ∃ c', Serves F D s c' ∧ ∀ q, c = some q → c' = some q, ⟨?_, ?_⟩, c, h,
    fun _ => id⟩
  · rintro s p ⟨c', hs, hc⟩ n
    obtain rfl := hc p rfl
    obtain ⟨d, hout, hd⟩ := hs.read n
    generalize (ReadSeek.read s n).1 = r at hout
    cases hout with
    | ok hpre hlen hend => exact ⟨_, .ok hpre hlen hend, _, hd, fun _ => id⟩
    | keeps he =>
        rcases hkeeps _ he with he | he
        · exact ⟨_, .keeps he, _, hd, fun _ => id⟩
        · exact ⟨_, .fails he, _, hd, nofun⟩
    | fails he => exact ⟨_, .fails (hreads _ he), _, hd, nofun⟩
  · rintro s c f q ⟨c', hs, hc⟩ ht
    -- an unknown cursor resolves only seeks that do not depend on it
    have ht' : seekTarget D.length c' f = some q := by
      cases c with
      | some p => rwa [hc p rfl]
      | none =>
          cases f with
          | fromCurrent d => cases ht
          | _ => exact ht
    obtain ⟨d, hout, hd⟩ := hs.seek ht'
    generalize (ReadSeek.seek s f).1 = r at hout
    cases hout with
    | ok => exact ⟨_, .ok, _, hd, fun _ => id⟩
    | fails he => exact ⟨_, .fails (hseeks _ _ he), _, hd, nofun⟩

/-- Every sequence of calls is a trace of the contract. -/
theorem Follows.trace {τ : Type} {Step : τ → IoObs → τ → Prop} {s : σ} {p : τ}
    (h : Follows Step s p) (ops : List IoOp) :
    ∃ q, Trace Step p (performAll s ops).1 q ∧ Follows Step (performAll s ops).2 q := by
  induction ops generalizing s p with
  | nil => exact ⟨p, .nil p, h⟩
  | cons op ops ih =>
      obtain ⟨q, hstep, hq⟩ := h.perform op
      obtain ⟨r, htrace, hr⟩ := ih hq
      exact ⟨r, .cons hstep htrace, hr⟩

end

end OxideSource
