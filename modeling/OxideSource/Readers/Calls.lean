import OxideSource.Readers.Concat

/-!
# What wrappers ask of the readers in them

A window or a concatenation moves the readers in it by calls only: a few seeks while it is
built, then for each read one seek and one read of no more. So what calls keep, and what
they cost, carries over from a reader to the wrappers around it.
-/

namespace OxideSource

variable {ρ : Type} [ReadSeek ρ]

/-- The second reader is the first after at most `k` seeks. -/
inductive Sought : Nat → ρ → ρ → Prop where
  | refl {k : Nat} {r : ρ} : Sought k r r
  | step {k : Nat} {r r₁ r₂ : ρ} {f : SeekFrom} {res : IoResult Nat}
      (hseek : ReadSeek.seek r f = (res, r₁)) (h : Sought k r₁ r₂) : Sought (k + 1) r r₂

/-- The second reader is the first after what a read of `n` bytes asks of it: nothing, a
seek, or a seek and a read of no more. -/
inductive Relayed (n : Nat) (r : ρ) : ρ → Prop where
  | idle : Relayed n r r
  | lost {r₁ : ρ} {f : SeekFrom} {res : IoResult Nat} (hseek : ReadSeek.seek r f = (res, r₁)) :
      Relayed n r r₁
  | read {r₁ r₂ : ρ} {f : SeekFrom} {k : Nat} {q : IoResult Nat} {res : IoResult Bytes}
      (hk : k ≤ n) (hseek : ReadSeek.seek r f = (q, r₁)) (hread : ReadSeek.read r₁ k = (res, r₂)) :
      Relayed n r r₂

/-- A read of `n` bytes asks at most one of the parts. -/
inductive RelayedOnce (n : Nat) : List ρ → List ρ → Prop where
  | idle {parts : List ρ} : RelayedOnce n parts parts
  | part {before after : List ρ} {r r' : ρ} (h : Relayed n r r') :
      RelayedOnce n (before ++ r :: after) (before ++ r' :: after)

/-! ### What calls keep and cost -/

namespace Sought

variable {k l : Nat} {r r₁ r₂ : ρ}

/-- More seeks allowed. -/
theorem weaken (h : Sought k r r₁) : Sought (k + l) r r₁ := by
  induction h with
  | refl => exact .refl
  | @step k _ _ _ _ _ hseek _ ih => exact Nat.add_right_comm k l 1 ▸ .step hseek ih

/-- Seeks after seeks. -/
theorem trans (h : Sought k r r₁) (h' : Sought l r₁ r₂) : Sought (l + k) r r₂ := by
  induction h with
  | refl => exact h'.weaken
  | step hseek _ ih => exact .step hseek (ih h')

/-- What no seek changes stays. -/
theorem keeps {α : Type} {g : ρ → α} (hg : ∀ r f, g (ReadSeek.seek r f).2 = g r)
    (h : Sought k r r₁) : g r₁ = g r := by
  induction h with
  | refl => rfl
  | @step k r _ _ f _ hseek _ ih =>
      have hr := hg r f
      rw [hseek] at hr
      exact ih.trans hr

/-- What no seek changes stays in every part. -/
theorem map_eq {α : Type} {g : ρ → α} (hg : ∀ r f, g (ReadSeek.seek r f).2 = g r)
    {parts parts' : List ρ} (h : List.Forall₂ (Sought k) parts parts') :
    parts'.map g = parts.map g := by
  induction h with
  | nil => rfl
  | cons hpart _ ih => rw [List.map_cons, List.map_cons, hpart.keeps hg, ih]

/-- Seeks that each cost at most `c` cost at most `k` times that. -/
theorem cost_le {g c : ρ → Nat} (hg : ∀ r f, g (ReadSeek.seek r f).2 ≤ g r + c r)
    (hc : ∀ r f, c (ReadSeek.seek r f).2 = c r) (h : Sought k r r₁) :
    g r₁ ≤ g r + k * c r := by
  induction h with
  | refl => exact Nat.le_add_right _ _
  | @step k r _ _ f _ hseek _ ih =>
      have hr := hg r f
      have hcr := hc r f
      rw [hseek] at hr hcr
      dsimp only at hr hcr
      rw [hcr] at ih
      rw [Nat.succ_mul]
      omega

end Sought

namespace Relayed

variable {n : Nat} {r r' : ρ}

/-- What neither seeks nor reads change stays through a relayed read. -/
theorem keeps {α : Type} {g : ρ → α} (hseek : ∀ r f, g (ReadSeek.seek r f).2 = g r)
    (hread : ∀ r k, g (ReadSeek.read r k).2 = g r) (h : Relayed n r r') : g r' = g r := by
  cases h with
  | idle => rfl
  | lost h₁ => exact (congrArg (fun r => g r.2) h₁).symm.trans (hseek _ _)
  | read _ h₁ h₂ =>
      have hs := (congrArg (fun r => g r.2) h₁).symm.trans (hseek _ _)
      exact ((congrArg (fun r => g r.2) h₂).symm.trans (hread _ _)).trans hs

/-- A seek that costs at most `a` and a read of no more than `n` bytes that costs at most
`b` cost at most the sum. -/
theorem cost_le {g : ρ → Nat} {a b : Nat} (hseek : ∀ f, g (ReadSeek.seek r f).2 ≤ g r + a)
    (hread : ∀ f k, k ≤ n → g (ReadSeek.read (ReadSeek.seek r f).2 k).2 ≤
      g (ReadSeek.seek r f).2 + b) (h : Relayed n r r') : g r' ≤ g r + (a + b) := by
  cases h with
  | idle => exact Nat.le_add_right _ _
  | @lost _ f _ h₁ =>
      have hs := hseek f
      rw [h₁] at hs
      dsimp only at hs
      omega
  | @read _ _ f k _ _ hk h₁ h₂ =>
      have hs := hseek f
      have hr := hread f k hk
      rw [h₁] at hs hr
      dsimp only at hs hr
      rw [h₂] at hr
      dsimp only at hr
      omega

end Relayed

/-- What neither seeks nor reads change stays in every part. -/
theorem RelayedOnce.keeps {α : Type} {g : ρ → α} {n : Nat} {parts parts' : List ρ}
    (hseek : ∀ r f, g (ReadSeek.seek r f).2 = g r) (hread : ∀ r k, g (ReadSeek.read r k).2 = g r)
    (h : RelayedOnce n parts parts') : parts'.map g = parts.map g := by
  cases h with
  | idle => rfl
  | part h => simp only [List.map_append, List.map_cons, h.keeps hseek hread]

/-! ### Construction -/

/-- The length is found by three seeks. -/
theorem streamLen_sought (r : ρ) : Sought 3 r (streamLen r).2 := by
  unfold streamLen streamPosition
  generalize h₁ : ReadSeek.seek r (.fromCurrent 0) = r₁
  obtain ⟨_ | saved, r₁⟩ := r₁
  · exact .step h₁ .refl
  dsimp only
  generalize h₂ : ReadSeek.seek r₁ (.fromEnd 0) = r₂
  obtain ⟨_ | stop, r₂⟩ := r₂
  · exact .step h₁ (.step h₂ .refl)
  dsimp only
  split
  · generalize h₃ : ReadSeek.seek r₂ (.fromStart (.ofNat saved)) = r₃
    obtain ⟨_ | _, r₃⟩ := r₃ <;> exact .step h₁ (.step h₂ (.step h₃ .refl))
  · exact .step h₁ (.step h₂ .refl)

/-- A window is built with four seeks. -/
theorem SubSource.new_sought {r : ρ} {base len : UInt64} {s : SubSource ρ}
    (h : SubSource.new r base len = .ok s) : Sought 4 r s.inner := by
  have hlen := streamLen_sought r
  unfold SubSource.new at h
  split at h
  · cases h
  generalize streamLen r = r₁ at hlen h
  obtain ⟨_ | stop, r₁⟩ := r₁
  · cases h
  dsimp only at h
  split at h
  · cases h
  generalize h₂ : ReadSeek.seek r₁ (.fromStart base) = r₂ at h
  obtain ⟨_ | _, r₂⟩ := r₂
  · cases h
  obtain rfl := Except.ok.inj h
  exact hlen.trans (.step (k := 0) h₂ .refl)

/-- Each part is sought once for its length. -/
theorem ConcatSource.probe_sought {parts parts' : List ρ} {acc : Nat} {starts : List Nat}
    (h : probe parts acc = .ok (parts', starts)) : List.Forall₂ (Sought 1) parts parts' := by
  induction parts generalizing acc parts' starts with
  | nil =>
      obtain ⟨rfl, _⟩ := Prod.mk.inj (Except.ok.inj h)
      exact .nil
  | cons part parts ih =>
      unfold probe at h
      generalize hpart : ReadSeek.seek part (.fromEnd 0) = r at h
      obtain ⟨_ | len, part'⟩ := r
      · cases h
      dsimp only at h
      split at h
      · cases h
      split at h
      · cases h
      · rename_i hrest
        obtain ⟨rfl, _⟩ := Prod.mk.inj (Except.ok.inj h)
        exact .cons (.step hpart .refl) (ih hrest)

/-- A concatenation is built with two seeks of each part. -/
theorem ConcatSource.new_sought {parts : List ρ} {s : ConcatSource ρ}
    (h : ConcatSource.new parts = .ok s) : List.Forall₂ (Sought 2) parts s.parts := by
  have hweak {r r' : ρ} (h : Sought 1 r r') : Sought 2 r r' := h.weaken (l := 1)
  unfold ConcatSource.new at h
  split at h
  · cases h
  · rename_i hprobe
    have hparts := probe_sought hprobe
    split at h
    · obtain rfl := Except.ok.inj h
      exact hparts.imp fun _ _ => hweak
    · rename_i first rest
      generalize hfirst : ReadSeek.seek first (.fromStart 0) = r at h
      obtain ⟨_ | _, first'⟩ := r
      · cases h
      obtain rfl := Except.ok.inj h
      cases hparts with
      | cons hhead htail =>
          exact .cons (hhead.trans (.step (k := 0) hfirst .refl)) (htail.imp fun _ _ => hweak)

/-! ### Reads -/

section

variable [Target]

/-- A read of a window makes at most one seek and one read below. -/
theorem SubSource.read_relayed (s : SubSource ρ) (n : Nat) :
    Relayed n s.inner (s.read n).2.inner := by
  have hcase := s.read_cases n
  generalize s.read n = r at hcase ⊢
  cases hcase with
  | done => exact .idle
  | lost _ _ h₁ => exact .lost h₁
  | failed _ _ h₁ h₂ => exact .read (Nat.min_le_left _ _) h₁ h₂
  | served _ _ h₁ h₂ => exact .read (Nat.min_le_left _ _) h₁ h₂

omit [Target] in
/-- One part read, the others left alone. -/
theorem RelayedOnce.set {n : Nat} {parts : List ρ} {idx : Nat} {part part' : ρ}
    (hpart : parts[idx]? = some part) (h : Relayed n part part') :
    RelayedOnce n parts (parts.set idx part') := by
  obtain ⟨hidx, rfl⟩ := List.getElem?_eq_some_iff.mp hpart
  have hparts : parts = parts.take idx ++ parts[idx] :: parts.drop (idx + 1) := by simp
  rw [List.set_eq_take_append_cons_drop, if_pos hidx]
  generalize parts[idx] = part at hparts h
  nth_rewrite 1 [hparts]
  exact .part h

/-- A read of a concatenation goes to one part. -/
theorem ConcatSource.read_relayed (s : ConcatSource ρ) (n : Nat) :
    RelayedOnce n s.parts (s.read n).2.parts := by
  have hcase := s.read_cases n
  generalize s.read n = r at hcase ⊢
  cases hcase with
  | done => exact .idle
  | lost _ _ hpart h₁ => exact .set hpart (.lost h₁)
  | failed _ _ hpart h₁ h₂ => exact .set hpart (.read (Nat.min_le_left _ _) h₁ h₂)
  | served _ _ hpart h₁ h₂ => exact .set hpart (.read (Nat.min_le_left _ _) h₁ h₂)

end

end OxideSource
