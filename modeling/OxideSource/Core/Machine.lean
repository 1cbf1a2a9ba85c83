import Mathlib.Tactic.Common

/-!
# Machines that take one step at a time

A machine answers an action with its next state and at most one observation, or
refuses it. Interleavings are lists of actions. The rules below are the only
inductions over runs: an invariant of single steps holds along every run, also one that
speaks of its history, a rank that every step lowers bounds the length of a run, and a
step-by-step abstraction carries every run to a run of another machine, and its
observations to a trace of an abstract relation.
-/

namespace OxideSource

/-- A machine with states `σ`, actions `α` and observations `ω`. -/
structure Machine (σ α ω : Type) where
  step : σ → α → Option (σ × Option ω)

namespace Machine

variable {σ α ω τ : Type} (m : Machine σ α ω)

/-- Run a list of actions, collecting the observations in order. -/
def run : σ → List α → Option (σ × List ω)
  | s, [] => some (s, [])
  | s, a :: as =>
      match m.step s a with
      | none => none
      | some (s', o) =>
          match run s' as with
          | none => none
          | some (t, os) => some (t, o.toList ++ os)

/-- The states reached from `s` by some interleaving. -/
def Reach (s t : σ) : Prop := ∃ as os, m.run s as = some (t, os)

/-- The same machine restricted to steps that meet a condition. -/
def guard (ok : σ → α → Bool) : Machine σ α ω where
  step s a := if ok s a then m.step s a else none

variable {m}

/-- A run of one more action is a step followed by a run. -/
theorem run_cons {s t : σ} {a : α} {as : List α} {os : List ω} :
    m.run s (a :: as) = some (t, os) ↔
      ∃ s' o os', m.step s a = some (s', o) ∧ m.run s' as = some (t, os') ∧
        os = o.toList ++ os' := by
  constructor
  · intro h
    simp only [run] at h
    split at h
    · cases h
    · rename_i s' o hs
      split at h
      · cases h
      · rename_i t' os' hr
        obtain ⟨rfl, rfl⟩ := Prod.mk.inj (Option.some.inj h)
        exact ⟨s', o, os', hs, hr, rfl⟩
  · rintro ⟨s', o, os', hs, hr, rfl⟩
    simp only [run, hs, hr]

/-- Consecutive runs compose. -/
theorem run_append {s t u : σ} {as bs : List α} {os ps : List ω}
    (h : m.run s as = some (t, os)) (h' : m.run t bs = some (u, ps)) :
    m.run s (as ++ bs) = some (u, os ++ ps) := by
  induction as generalizing s os with
  | nil =>
      obtain ⟨rfl, rfl⟩ := Prod.mk.inj (Option.some.inj h)
      exact h'
  | cons a as ih =>
      obtain ⟨s', o, os', hs, hr, rfl⟩ := run_cons.mp h
      exact run_cons.mpr ⟨s', o, os' ++ ps, hs, ih hr, by rw [List.append_assoc]⟩

theorem Reach.refl (s : σ) : m.Reach s s := ⟨[], [], rfl⟩

theorem Reach.trans {s t u : σ} (h : m.Reach s t) (h' : m.Reach t u) : m.Reach s u := by
  obtain ⟨as, os, hr⟩ := h
  obtain ⟨bs, ps, hr'⟩ := h'
  exact ⟨as ++ bs, os ++ ps, run_append hr hr'⟩

/-- What every step preserves holds at the end of every run. -/
theorem run_invariant {I : σ → Prop}
    (hstep : ∀ {s a s' o}, I s → m.step s a = some (s', o) → I s')
    {s t : σ} {as : List α} {os : List ω} (hs : I s) (h : m.run s as = some (t, os)) : I t := by
  induction as generalizing s os with
  | nil =>
      obtain ⟨rfl, _⟩ := Prod.mk.inj (Option.some.inj h)
      exact hs
  | cons a as ih =>
      obtain ⟨s', o, os', hst, hr, _⟩ := run_cons.mp h
      exact ih (hstep hs hst) hr

theorem Reach.invariant {I : σ → Prop}
    (hstep : ∀ {s a s' o}, I s → m.step s a = some (s', o) → I s')
    {s t : σ} (h : m.Reach s t) (hs : I s) : I t := by
  obtain ⟨as, os, hr⟩ := h
  exact run_invariant hstep hs hr

/-- A run whose every step lowers a rank is no longer than the rank it starts from. -/
theorem run_length_le {I : σ → Prop} {rank : σ → Nat}
    (hstep : ∀ {s a s' o}, I s → m.step s a = some (s', o) → I s' ∧ rank s' < rank s)
    {s t : σ} {as : List α} {os : List ω} (hs : I s) (h : m.run s as = some (t, os)) :
    as.length + rank t ≤ rank s := by
  induction as generalizing s os with
  | nil =>
      obtain ⟨rfl, _⟩ := Prod.mk.inj (Option.some.inj h)
      exact Nat.le_of_eq (Nat.zero_add _)
  | cons a as ih =>
      obtain ⟨s', o, os', hst, hr, _⟩ := run_cons.mp h
      obtain ⟨hs', hlt⟩ := hstep hs hst
      have hle := ih hs' hr
      rw [List.length_cons]
      omega

/-- A step of the restricted machine meets the condition. -/
theorem guard_step {ok : σ → α → Bool} {s s' : σ} {a : α} {o : Option ω}
    (h : (m.guard ok).step s a = some (s', o)) : ok s a = true ∧ m.step s a = some (s', o) := by
  simp only [guard] at h
  split at h
  · exact ⟨‹_›, h⟩
  · cases h

/-- A restricted run is a run. -/
theorem run_of_guard {ok : σ → α → Bool} {s t : σ} {as : List α} {os : List ω}
    (h : (m.guard ok).run s as = some (t, os)) : m.run s as = some (t, os) := by
  induction as generalizing s os with
  | nil => exact h
  | cons a as ih =>
      obtain ⟨s', o, os', hst, hr, rfl⟩ := run_cons.mp h
      exact run_cons.mpr ⟨s', o, os', (guard_step hst).2, ih hr, rfl⟩

/-! ### History variables -/

/-- The value at the end of a run of a variable that the run does not read: `note` says
how a step changes it. -/
def history {γ : Type} (m : Machine σ α ω) (note : γ → σ → α → σ → γ) : γ → σ → List α → γ
  | g, _, [] => g
  | g, s, a :: as =>
      match m.step s a with
      | none => g
      | some (s', _) => history m note (note g s a s') s' as

/-- What every step preserves, together with its note, holds at the end of every run. -/
theorem run_history {γ : Type} {note : γ → σ → α → σ → γ} {I : σ → γ → Prop}
    (hstep : ∀ {s g a s' o}, I s g → m.step s a = some (s', o) → I s' (note g s a s'))
    {s t : σ} {g : γ} {as : List α} {os : List ω} (hs : I s g)
    (h : m.run s as = some (t, os)) : I t (m.history note g s as) := by
  induction as generalizing s g os with
  | nil =>
      obtain ⟨rfl, _⟩ := Prod.mk.inj (Option.some.inj h)
      exact hs
  | cons a as ih =>
      obtain ⟨s', o, os', hst, hr, _⟩ := run_cons.mp h
      rw [history, hst]
      exact ih (hstep hs hst) hr

/-- The same with what the run has shown so far. -/
theorem run_history_shown {γ : Type} {note : γ → σ → α → σ → γ} {I : σ → γ → List ω → Prop}
    (hstep : ∀ {s g seen a s' o}, I s g seen → m.step s a = some (s', o) →
      I s' (note g s a s') (seen ++ o.toList))
    {s t : σ} {g : γ} {seen : List ω} {as : List α} {os : List ω} (hs : I s g seen)
    (h : m.run s as = some (t, os)) : I t (m.history note g s as) (seen ++ os) := by
  induction as generalizing s g seen os with
  | nil =>
      obtain ⟨rfl, rfl⟩ := Prod.mk.inj (Option.some.inj h)
      rw [List.append_nil]
      exact hs
  | cons a as ih =>
      obtain ⟨s', o, os', hst, hr, rfl⟩ := run_cons.mp h
      rw [history, hst, ← List.append_assoc]
      exact ih (hstep hs hst) hr

/-- A part of a history is a history. -/
theorem history_map {γ δ : Type} {note : γ → σ → α → σ → γ} {note' : δ → σ → α → σ → δ} {f : γ → δ}
    (hnote : ∀ g s a s', f (note g s a s') = note' (f g) s a s') (g : γ) (s : σ) (as : List α) :
    f (m.history note g s as) = m.history note' (f g) s as := by
  induction as generalizing s g with
  | nil => rfl
  | cons a as ih =>
      rw [history, history]
      cases m.step s a with
      | none => rfl
      | some r => exact (ih _ _).trans (by rw [hnote])

/-- The same of a run that shows nothing, and so takes silent steps only. -/
theorem run_history_silent {γ : Type} {note : γ → σ → α → σ → γ} {I : σ → γ → Prop}
    (hstep : ∀ {s g a s'}, I s g → m.step s a = some (s', none) → I s' (note g s a s'))
    {s t : σ} {g : γ} {as : List α} (hs : I s g) (h : m.run s as = some (t, [])) :
    I t (m.history note g s as) := by
  induction as generalizing s g with
  | nil =>
      obtain ⟨rfl, _⟩ := Prod.mk.inj (Option.some.inj h)
      exact hs
  | cons a as ih =>
      obtain ⟨s', o, os', hst, hr, hos⟩ := run_cons.mp h
      obtain ⟨ho, rfl⟩ := List.append_eq_nil_iff.mp hos.symm
      obtain rfl := Option.toList_eq_nil_iff.mp ho
      rw [history, hst]
      exact ih (hstep hs hst) hr

/-- A variable that some actions overwrite ends as the last of them left it. -/
theorem run_lastWrite {β : Type} {I : σ → Prop} {get : σ → β} {write : α → Option β}
    (hstep : ∀ {s a s' o}, I s → m.step s a = some (s', o) →
      I s' ∧ get s' = (write a).getD (get s))
    {s t : σ} {as : List α} {os : List ω} (hs : I s) (h : m.run s as = some (t, os)) :
    get t = (as.reverse.findSome? write).getD (get s) := by
  induction as generalizing s os with
  | nil =>
      obtain ⟨rfl, _⟩ := Prod.mk.inj (Option.some.inj h)
      rfl
  | cons a as ih =>
      obtain ⟨s', o, os', hst, hr, _⟩ := run_cons.mp h
      obtain ⟨hs', hget⟩ := hstep hs hst
      rw [ih hs' hr, hget, List.reverse_cons, List.findSome?_append]
      cases as.reverse.findSome? write with
      | none => cases hw : write a <;> simp [hw]
      | some b => simp

/-- A restricted run has the history of the same run. -/
theorem history_guard {γ : Type} {note : γ → σ → α → σ → γ} {ok : σ → α → Bool} {s t : σ} {g : γ}
    {as : List α} {os : List ω} (h : (m.guard ok).run s as = some (t, os)) :
    (m.guard ok).history note g s as = m.history note g s as := by
  induction as generalizing s g os with
  | nil => rfl
  | cons a as ih =>
      obtain ⟨s', o, os', hst, hr, _⟩ := run_cons.mp h
      rw [history, history, hst, (guard_step hst).2]
      exact ih hr

/-! ### Simulation -/

/-- A step that another machine matches by the same step, or silently by none: then a
run is matched by a run with the same observations and the same actions, but for silent
ones. -/
theorem run_simulate {m' : Machine τ α ω} {I : σ → Prop} {abs : σ → τ} {silent : α → Bool}
    (hinv : ∀ {s a s' o}, I s → m.step s a = some (s', o) → I s')
    (hstep : ∀ {s a s' o}, I s → m.step s a = some (s', o) →
      m'.step (abs s) a = some (abs s', o) ∨ o = none ∧ silent a = true ∧ abs s' = abs s)
    {s t : σ} {as : List α} {os : List ω} (hs : I s) (h : m.run s as = some (t, os)) :
    ∃ bs, bs.Sublist as ∧ bs.filter (!silent ·) = as.filter (!silent ·) ∧
      m'.run (abs s) bs = some (abs t, os) := by
  induction as generalizing s os with
  | nil =>
      obtain ⟨rfl, rfl⟩ := Prod.mk.inj (Option.some.inj h)
      exact ⟨[], .refl [], rfl, rfl⟩
  | cons a as ih =>
      obtain ⟨s', o, os', hst, hr, rfl⟩ := run_cons.mp h
      obtain ⟨bs, hsub, hfilter, hrun⟩ := ih (hinv hs hst) hr
      rcases hstep hs hst with hmatch | ⟨rfl, hsilent, habs⟩
      · refine ⟨a :: bs, hsub.cons_cons a, ?_, run_cons.mpr ⟨_, o, os', hmatch, hrun, rfl⟩⟩
        rw [List.filter_cons, List.filter_cons, hfilter]
      · refine ⟨bs, hsub.cons a, ?_, habs ▸ hrun⟩
        rw [List.filter_cons, hsilent, hfilter]
        rfl

/-- Every step of an abstract machine is a step of the concrete one, by an action of the
same kind: then every abstract run is the image of a concrete run. -/
theorem run_reflect {κ : Type} {m' : Machine τ α ω} {I : σ → Prop} {abs : σ → τ} {kind : α → κ}
    (hstep : ∀ {s a t o}, I s → m'.step (abs s) a = some (t, o) →
      ∃ a' s', kind a' = kind a ∧ m.step s a' = some (s', o) ∧ I s' ∧ abs s' = t)
    {s : σ} {t : τ} {as : List α} {os : List ω} (hs : I s)
    (h : m'.run (abs s) as = some (t, os)) :
    ∃ as' s', as'.map kind = as.map kind ∧ m.run s as' = some (s', os) ∧ abs s' = t := by
  induction as generalizing s os with
  | nil =>
      obtain ⟨rfl, rfl⟩ := Prod.mk.inj (Option.some.inj h)
      exact ⟨[], s, rfl, rfl, rfl⟩
  | cons a as ih =>
      obtain ⟨t', o, os', hst, hr, rfl⟩ := run_cons.mp h
      obtain ⟨a', s', hkind, hst', hs', rfl⟩ := hstep hs hst
      obtain ⟨as', s'', hkinds, hrun, habs⟩ := ih hs' hr
      refine ⟨a' :: as', s'', ?_, run_cons.mpr ⟨s', o, os', hst', hrun, rfl⟩, habs⟩
      rw [List.map_cons, List.map_cons, hkind, hkinds]

end Machine

/-- Finite traces of a labelled relation. -/
inductive Trace {τ ω : Type} (A : τ → ω → τ → Prop) : τ → List ω → τ → Prop where
  | nil (p : τ) : Trace A p [] p
  | cons {p q r : τ} {o : ω} {os : List ω} : A p o q → Trace A q os r → Trace A p (o :: os) r

theorem Trace.mono {τ ω : Type} {A B : τ → ω → τ → Prop} (hAB : ∀ {p o q}, A p o q → B p o q)
    {p q : τ} {os : List ω} (h : Trace A p os q) : Trace B p os q := by
  induction h with
  | nil p => exact .nil p
  | cons hstep _ ih => exact .cons (hAB hstep) ih

/-- A trace of two parts passes through a state between them. -/
theorem Trace.of_append {τ ω : Type} {A : τ → ω → τ → Prop} {p r : τ} {os ps : List ω}
    (h : Trace A p (os ++ ps) r) : ∃ q, Trace A p os q ∧ Trace A q ps r := by
  induction os generalizing p with
  | nil => exact ⟨p, .nil p, h⟩
  | cons o os ih =>
      cases h with
      | cons hstep hrest =>
          obtain ⟨q, hos, hps⟩ := ih hrest
          exact ⟨q, .cons hstep hos, hps⟩

/-- If silent steps keep the abstract state and observed steps follow the abstract
relation, the observations of a run are one of its traces. -/
theorem Machine.run_trace {σ α ω τ : Type} {m : Machine σ α ω} {A : τ → ω → τ → Prop}
    {I : σ → Prop} {abs : σ → τ}
    (hinv : ∀ {s a s' o}, I s → m.step s a = some (s', o) → I s')
    (hsilent : ∀ {s a s'}, I s → m.step s a = some (s', none) → abs s' = abs s)
    (hobs : ∀ {s a s' o}, I s → m.step s a = some (s', some o) → A (abs s) o (abs s'))
    {s t : σ} {as : List α} {os : List ω} (hs : I s) (h : m.run s as = some (t, os)) :
    Trace A (abs s) os (abs t) := by
  induction as generalizing s os with
  | nil =>
      obtain ⟨rfl, rfl⟩ := Prod.mk.inj (Option.some.inj h)
      exact .nil _
  | cons a as ih =>
      obtain ⟨s', o, os', hst, hr, rfl⟩ := run_cons.mp h
      have htail := ih (hinv hs hst) hr
      cases o with
      | none =>
          rw [hsilent hs hst] at htail
          exact htail
      | some o => exact .cons (hobs hs hst) htail

end OxideSource
