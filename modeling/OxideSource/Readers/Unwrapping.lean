import OxideSource.Core.Retries
import OxideSource.Readers.Sub

/-!
# Taking a window off again

A window moves the reader in it only when a read is served: to the end of what the read
delivered, or to where a failed one began. `into_inner` hands the reader back there, with
all its content in reach again.
-/

namespace OxideSource.SubSource

variable {ρ : Type}

/-- `SubSource::into_inner`. -/
def intoInner (s : SubSource ρ) : ρ := s.inner

variable [Target] [ReadSeek ρ]

/-- Where calls leave the reader in a window, from where it stands. -/
def rests (s : SubSource ρ) (at_ : Nat) : List IoOp → Nat
  | [] => at_
  | .read n :: ops =>
      let t := (s.read n).2
      rests t (if n = 0 ∨ s.len ≤ s.pos then at_ else s.base + t.pos) ops
  | .seek f :: ops => rests (s.seek f).2 at_ ops

section

variable {D : Bytes} {allow : IoError → Prop} {s : SubSource ρ} {p : Nat}

omit [Target] in
/-- A read moves a cursor by what it delivers. -/
theorem read_moves {r r' : ρ} {n : Nat} {res : IoResult Bytes} (h : Behaves D allow r p)
    (hread : ReadSeek.read r n = (res, r')) :
    (IoObs.read n res).delivered.length ≤ n ∧
      Behaves D allow r' (p + (IoObs.read n res).delivered.length) := by
  obtain ⟨q, hstep, hq⟩ := (promises_behaves D allow).perform h (.read n)
  change CursorStep D allow p (.read n (ReadSeek.read r n).1) q at hstep
  change Behaves D allow (ReadSeek.read r n).2 q at hq
  rw [hread] at hstep hq
  cases hstep with
  | read _ hlen _ => exact ⟨hlen, hq⟩
  | readError _ => exact ⟨Nat.zero_le _, hq⟩

/-- A read that is served leaves the reader at the end of what it delivers. -/
theorem read_rests (h : Behaves D allow s.inner p) (hfit : s.base + s.len < u64Size) (n : Nat) :
    (s.read n).2.base = s.base ∧ (s.read n).2.len = s.len ∧
      Behaves D allow (s.read n).2.inner
        (if n = 0 ∨ s.len ≤ s.pos then p else s.base + (s.read n).2.pos) := by
  have hcase := s.read_cases n
  generalize s.read n = r at hcase ⊢
  -- The seek before the read lands, since the window is addressable.
  have hsought {q : IoResult Nat} {inner : ρ} (hpos : s.pos < s.len)
      (hseek : ReadSeek.seek s.inner (.fromStart (.ofNat (addU64 s.base s.pos))) = (q, inner)) :
      (∃ k, q = .ok k) ∧ Behaves D allow inner (s.base + s.pos) := by
    have hlt : s.base + s.pos < u64Size := by omega
    obtain ⟨inner', hok, hinner⟩ := h.seek (f := .fromStart (.ofNat (addU64 s.base s.pos))) rfl
    rw [hok] at hseek
    obtain ⟨rfl, rfl⟩ := Prod.mk.inj hseek
    rw [addU64_of_lt hlt, toNat_ofNat_of_lt hlt] at hinner
    exact ⟨⟨_, rfl⟩, hinner⟩
  cases hcase with
  | done hz => exact ⟨rfl, rfl, by rwa [if_pos hz]⟩
  | lost _ hpos hseek =>
      obtain ⟨⟨k, hk⟩, _⟩ := hsought hpos hseek
      cases hk
  | failed hn hpos hseek hread =>
      have hserved : ¬ (n = 0 ∨ s.len ≤ s.pos) := not_or.mpr ⟨hn, Nat.not_le.mpr hpos⟩
      rw [if_neg hserved]
      exact ⟨rfl, rfl, (read_moves (hsought hpos hseek).2 hread).2⟩
  | @served _ _ _ bs hn hpos hseek hread =>
      have hserved : ¬ (n = 0 ∨ s.len ≤ s.pos) := not_or.mpr ⟨hn, Nat.not_le.mpr hpos⟩
      obtain ⟨hlen, hinner⟩ := read_moves (hsought hpos hseek).2 hread
      have hle := asUsize_le (s.len - s.pos)
      change bs.length ≤ _ at hlen
      have hadd : addU64 s.pos bs.length = s.pos + bs.length := addU64_of_lt (by omega)
      rw [if_neg hserved, hadd, ← Nat.add_assoc]
      exact ⟨rfl, rfl, hinner⟩

/-- Calls leave the window where it is and the reader in it where they say. -/
theorem performAll_rests (h : Behaves D allow s.inner p) (hfit : s.base + s.len < u64Size)
    (ops : List IoOp) :
    (performAll s ops).2.base = s.base ∧ (performAll s ops).2.len = s.len ∧
      Behaves D allow (performAll s ops).2.intoInner (s.rests p ops) := by
  induction ops generalizing s p with
  | nil => exact ⟨rfl, rfl, h⟩
  | cons op ops ih =>
      cases op with
      | read n =>
          obtain ⟨hbase, hlen, hinner⟩ := read_rests h hfit n
          obtain ⟨hbase', hlen', hrests⟩ := ih hinner (by omega)
          exact ⟨hbase'.trans hbase, hlen'.trans hlen, hrests⟩
      | seek f =>
          have hsame : (s.seek f).2.base = s.base ∧ (s.seek f).2.len = s.len ∧
              (s.seek f).2.inner = s.inner := by
            unfold SubSource.seek
            split <;> exact ⟨rfl, rfl, rfl⟩
          obtain ⟨hbase, hlen, hinner⟩ := hsame
          obtain ⟨hbase', hlen', hrests⟩ := ih (s := (s.seek f).2) (hinner ▸ h) (by omega)
          exact ⟨hbase'.trans hbase, hlen'.trans hlen, hrests⟩

/-- A window over a cursor keeps its place and length for life, and `into_inner` gives the
cursor back with all its content: at the start of the window, or where the last read that
was served ended. -/
theorem into_inner_rests {r : ρ} {base len : UInt64} (h : Behaves D allow r p)
    (hp : p < u64Size) (hD : D.length < u64Size) (hs : SubSource.new r base len = .ok s)
    (ops : List IoOp) :
    (performAll s ops).2.base = base.toNat ∧ (performAll s ops).2.len = len.toNat ∧
      Behaves D allow (performAll s ops).2.intoInner (s.rests base.toNat ops) := by
  rcases SubSource.new_spec h hp hD base len with ⟨hfit, inner, hnew, hinner⟩ | ⟨_, e, he⟩
  · obtain rfl := Except.ok.inj (hnew.symm.trans hs)
    exact performAll_rests hinner (by dsimp only; omega) ops
  · rw [hs] at he
    cases he

end

omit [Target] in
/-- A window that was read and then sought gives its cursor back behind what was read. -/
theorem into_inner_rests_sought : letI := target64
    ∃ s, SubSource.new (Cursor.new [0, 1, 2, 3, 4]) 1 3 = .ok s ∧
      Behaves [0, 1, 2, 3, 4] (fun _ => False)
        (performAll s [.read 2, .seek (.fromStart 0), .read 0]).2.intoInner 3 := by
  let := target64
  have hcursor := Cursor.behaves (fun _ => False) (.new [0, 1, 2, 3, 4])
  obtain ⟨s, hs⟩ : ∃ s, SubSource.new (Cursor.new [0, 1, 2, 3, 4]) 1 3 = .ok s := ⟨_, rfl⟩
  obtain ⟨_, _, hrests⟩ := into_inner_rests hcursor (by decide) (by decide) hs
    [.read 2, .seek (.fromStart 0), .read 0]
  obtain rfl := Except.ok.inj hs
  exact ⟨_, rfl, hrests⟩

end OxideSource.SubSource
