import OxideSource.Readers.Mem

/-!
# Windowed readers

`SubSource` re-projects `[base, base + len)` of an inner reader onto `[0, len)`.
Its own cursor is the only state a caller sees: the inner reader is repositioned
before every read, so a lost inner cursor is never observable.
-/

namespace OxideSource

/-- `SubSource`: the inner reader, the window, and the position inside the window. -/
structure SubSource (ρ : Type) where
  inner : ρ
  base : Nat
  len : Nat
  pos : Nat

variable {ρ : Type} [ReadSeek ρ]

/-- `stream_len`: probe the length and restore the position. -/
def streamLen (src : ρ) : IoResult Nat × ρ :=
  match streamPosition src with
  | (.error e, src) => (.error e, src)
  | (.ok saved, src) =>
      match ReadSeek.seek src (.fromEnd 0) with
      | (.error e, src) => (.error e, src)
      | (.ok stop, src) =>
          if saved ≠ stop then
            match ReadSeek.seek src (.fromStart (.ofNat saved)) with
            | (.error e, src) => (.error e, src)
            | (.ok _, src) => (.ok stop, src)
          else (.ok stop, src)

namespace SubSource

/-- `SubSource::new`. -/
def new (inner : ρ) (base len : UInt64) : Except Error (SubSource ρ) :=
  match checkedAdd base.toNat len.toNat with
  | none => .error (.invalid ["SubSource: base + len overflows u64"])
  | some stop =>
      match streamLen inner with
      | (.error e, _) => .error (.invalid ("SubSource: cannot probe inner length: " :: e.msg))
      | (.ok innerLen, inner) =>
          if stop > innerLen then
            .error (.invalid ["SubSource: window [", .num base.toNat, ", ", .num stop,
              ") extends past inner length ", .num innerLen])
          else
            match ReadSeek.seek inner (.fromStart base) with
            | (.error e, _) => .error (.invalid
                ("SubSource: cannot seek inner to " :: .num base.toNat :: ": " :: e.msg))
            | (.ok _, inner) => .ok ⟨inner, base.toNat, len.toNat, 0⟩

/-- `impl Read for SubSource`. -/
def read [Target] (s : SubSource ρ) (want : Nat) : IoResult Bytes × SubSource ρ :=
  if want = 0 ∨ s.pos ≥ s.len then (.ok [], s)
  else
    let remaining := asUsize (s.len - s.pos)
    let want := min want remaining
    let innerOff := addU64 s.base s.pos
    match ReadSeek.seek s.inner (.fromStart (.ofNat innerOff)) with
    | (.error e, inner) => (.error e, { s with inner })
    | (.ok _, inner) =>
        match ReadSeek.read inner want with
        | (.error e, inner) => (.error e, { s with inner })
        | (.ok bs, inner) => (.ok bs, { s with inner, pos := addU64 s.pos bs.length })

/-- The message of `add_signed` in `sub.rs`. -/
def seekMessage : Message := ["SubSource: seek resolves to a negative or overflowing position"]

/-- `impl Seek for SubSource`: the inner seek is deferred to the next read. -/
def seek (s : SubSource ρ) (f : SeekFrom) : IoResult Nat × SubSource ρ :=
  match resolveSeek seekMessage s.len s.pos f with
  | .ok q => (.ok q, { s with pos := q })
  | .error e => (.error e, s)

instance [Target] : ReadSeek (SubSource ρ) := ⟨read, seek⟩

end SubSource

/-! ### Construction -/

section

variable {D : Bytes} {allow : IoError → Prop} {r : ρ} {p : Nat}

/-- Probing the length of a cursor finds it and leaves the cursor where it was. -/
theorem streamLen_ok (h : Behaves D allow r p) (hp : p < u64Size) (hD : D.length < u64Size) :
    ∃ r', streamLen r = (.ok D.length, r') ∧ Behaves D allow r' p := by
  obtain ⟨r₁, hpos, h₁⟩ := h.seek (f := .fromCurrent 0) (checkedAddSigned_zero hp)
  obtain ⟨r₂, hend, h₂⟩ := h₁.seek (f := .fromEnd 0) (checkedAddSigned_zero hD)
  by_cases hback : p = D.length
  · refine ⟨r₂, ?_, hback ▸ h₂⟩
    simp only [streamLen, streamPosition, hpos, hend, hback, ne_eq, not_true_eq_false, ite_false]
  · obtain ⟨r₃, hstart, h₃⟩ := h₂.seek (f := .fromStart (.ofNat p))
      (congrArg some (toNat_ofNat_of_lt hp))
    refine ⟨r₃, ?_, h₃⟩
    simp only [streamLen, streamPosition, hpos, hend, hstart, ne_eq, hback, not_false_eq_true,
      ite_true]

/-- A window over a cursor can be built exactly when it lies inside the content. -/
theorem SubSource.new_spec (h : Behaves D allow r p) (hp : p < u64Size) (hD : D.length < u64Size)
    (base len : UInt64) :
    (base.toNat + len.toNat ≤ D.length ∧ ∃ inner,
      new r base len = .ok ⟨inner, base.toNat, len.toNat, 0⟩ ∧ Behaves D allow inner base.toNat) ∨
    (D.length < base.toNat + len.toNat ∧ ∃ e, new r base len = .error e) := by
  obtain ⟨r₁, hlen, h₁⟩ := streamLen_ok h hp hD
  obtain ⟨r₂, hseek, h₂⟩ := h₁.seek (f := .fromStart base) rfl
  by_cases hfit : base.toNat + len.toNat ≤ D.length
  · have hadd : checkedAdd base.toNat len.toNat = some (base.toNat + len.toNat) :=
      checkedAdd_eq_some.mpr ⟨rfl, by omega⟩
    refine .inl ⟨hfit, r₂, ?_, h₂⟩
    simp only [new, hadd, hlen, Nat.not_lt.mpr hfit, ite_false, hseek]
  · refine .inr ⟨Nat.not_le.mp hfit, ?_⟩
    cases hadd : checkedAdd base.toNat len.toNat with
    | none => exact ⟨_, by simp only [new, hadd]; rfl⟩
    | some stop =>
        obtain ⟨rfl, _⟩ := checkedAdd_eq_some.mp hadd
        exact ⟨_, by simp only [new, hadd, hlen, Nat.not_le.mp hfit, ite_true]; rfl⟩

end

/-! ### Reading through a window -/

/-- How a read of a window ends: without asking the inner reader, at a failed
repositioning, at a failed read, or with what the inner reader returned. -/
inductive SubSource.ReadCase [Target] (s : SubSource ρ) (n : Nat) :
    IoResult Bytes × SubSource ρ → Prop where
  | done (h : n = 0 ∨ s.len ≤ s.pos) : ReadCase s n (.ok [], s)
  | lost {e : IoError} {inner : ρ} (hn : n ≠ 0) (hpos : s.pos < s.len)
      (hseek : ReadSeek.seek s.inner (.fromStart (.ofNat (addU64 s.base s.pos))) =
        (.error e, inner)) :
      ReadCase s n (.error e, { s with inner })
  | failed {q : Nat} {i₁ i₂ : ρ} {e : IoError} (hn : n ≠ 0) (hpos : s.pos < s.len)
      (hseek : ReadSeek.seek s.inner (.fromStart (.ofNat (addU64 s.base s.pos))) = (.ok q, i₁))
      (hread : ReadSeek.read i₁ (min n (asUsize (s.len - s.pos))) = (.error e, i₂)) :
      ReadCase s n (.error e, { s with inner := i₂ })
  | served {q : Nat} {i₁ i₂ : ρ} {bs : Bytes} (hn : n ≠ 0) (hpos : s.pos < s.len)
      (hseek : ReadSeek.seek s.inner (.fromStart (.ofNat (addU64 s.base s.pos))) = (.ok q, i₁))
      (hread : ReadSeek.read i₁ (min n (asUsize (s.len - s.pos))) = (.ok bs, i₂)) :
      ReadCase s n (.ok bs, { s with inner := i₂, pos := addU64 s.pos bs.length })

theorem SubSource.read_cases [Target] (s : SubSource ρ) (n : Nat) : s.ReadCase n (s.read n) := by
  unfold read
  split
  · exact .done ‹_›
  · rename_i hz
    obtain ⟨hn, hpos⟩ := not_or.mp hz
    have hlt := Nat.not_le.mp hpos
    dsimp only
    split
    · exact .lost hn hlt ‹_›
    · split
      · exact .failed hn hlt ‹_› ‹_›
      · exact .served hn hlt ‹_› ‹_›

section

variable {F : Faults} {D : Bytes}

/-- A read of an addressable window is a step of a cursor over it, whatever happens to
the inner cursor. -/
theorem SubSource.read_step [Target] {s : SubSource ρ} {c : Option Nat}
    (hs : Serves F D s.inner c) (hD : D.length < u64Size) (hwin : s.base + s.len ≤ D.length)
    (hfit : s.len ≤ usizeMax) (n : Nat) :
    ∃ q, CursorStep (window D s.base s.len) F.any s.pos (.read n (s.read n).1) q ∧
      ∃ inner c, (s.read n).2 = { s with inner, pos := q } ∧ Serves F D inner c := by
  have hcase := s.read_cases n
  generalize s.read n = r at hcase ⊢
  cases hcase with
  | done hz =>
      refine ⟨_, .read List.nil_prefix (Nat.zero_le _) fun _ => ?_, s.inner, c, rfl, hs⟩
      rw [length_window_of_le hwin]
      exact hz
  | lost _ hpos hseek =>
      rw [addU64_of_lt (by omega)] at hseek
      obtain ⟨hf, hc⟩ := hs.seekStart_error (by omega) hseek
      exact ⟨_, .readError (.inr (.inr ⟨_, hf⟩)), _, none, rfl, hc⟩
  | failed _ hpos hseek hread =>
      rw [addU64_of_lt (by omega)] at hseek
      obtain ⟨hf, c', hc⟩ := (hs.seekStart_ok (by omega) hseek).read_error hread
      exact ⟨_, .readError hf, _, c', rfl, hc⟩
  | @served _ _ _ bs hn hpos hseek hread =>
      rw [addU64_of_lt (by omega)] at hseek
      rw [asUsize_of_lt (by omega)] at hread
      obtain ⟨hp, hl, he, hc⟩ := (hs.seekStart_ok (by omega) hseek).read_ok hread
      have hadd : addU64 s.pos bs.length = s.pos + bs.length := addU64_of_lt (by omega)
      rw [hadd]
      refine ⟨_, .read (prefix_drop_window hp (by omega)) (by omega) ?_, _, _, rfl, hc⟩
      intro hnil
      rcases he hnil with h0 | hend <;> omega

omit [ReadSeek ρ] in
/-- A seek is a step of a cursor over the window, and leaves the inner reader alone. -/
theorem SubSource.seek_step (allow : IoError → Prop) {s : SubSource ρ}
    (hwin : s.base + s.len ≤ D.length) (f : SeekFrom) :
    ∃ q, CursorStep (window D s.base s.len) allow s.pos (.seek f (s.seek f).1) q ∧
      (s.seek f).2 = { s with pos := q } := by
  have hW : (window D s.base s.len).length = s.len := length_window_of_le hwin
  unfold seek
  rcases resolveSeek_step (window D s.base s.len) allow seekMessage s.pos f with
    ⟨q, hq, hstep⟩ | ⟨e, he, hstep⟩
  · rw [hW] at hq
    rw [hq]
    exact ⟨q, hstep, rfl⟩
  · rw [hW] at he
    rw [he]
    exact ⟨_, hstep, rfl⟩

/-- An addressable window over a source that serves `D` behaves as a cursor over the
window of `D`. -/
theorem SubSource.behaves [Target] {s : SubSource ρ} {c : Option Nat}
    (hs : Serves F D s.inner c) (hD : D.length < u64Size)
    (hwin : s.base + s.len ≤ D.length) (hfit : s.len ≤ usizeMax) :
    Behaves (window D s.base s.len) F.any s s.pos := by
  refine ⟨fun t p => ∃ inner c, t = { s with inner, pos := p } ∧ Serves F D inner c, ⟨?_⟩,
    s.inner, c, rfl, hs⟩
  rintro _ p ⟨inner, c, rfl, ht⟩ op
  cases op with
  | read n =>
      obtain ⟨q, hstep, inner', c', hr, h'⟩ :=
        read_step (s := { s with inner, pos := p }) ht hD hwin hfit n
      exact ⟨q, hstep, inner', c', hr, h'⟩
  | seek f =>
      obtain ⟨q, hstep, hr⟩ := seek_step (s := { s with inner, pos := p }) F.any hwin f
      exact ⟨q, hstep, inner, c, hr, ht⟩

end

end OxideSource
