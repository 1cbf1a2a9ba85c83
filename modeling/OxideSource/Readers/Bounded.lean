import OxideSource.Core.Bounded
import OxideSource.Readers.Reader

/-!
# Composites over sources that may refuse to go past their end

A window or a concatenation repositions what it reads from only inside the content, also
while it is being built. It is a cursor, whatever its parts do past their ends.
-/

namespace OxideSource

section

variable {ρ : Type} [ReadSeek ρ] {D : Bytes} {allow : IoError → Prop}

/-! ### Construction -/

/-- Probing the length of a bounded source finds it and leaves the position alone. -/
theorem Bounded.streamLen {r : ρ} {p : Nat} (h : Bounded D allow r p) (hp : p ≤ D.length)
    (hD : D.length < u64Size) :
    ∃ r', OxideSource.streamLen r = (.ok D.length, r') ∧ Bounded D allow r' p := by
  obtain ⟨r₁, hpos, h₁⟩ := h.seek (f := .fromCurrent 0)
    (checkedAddSigned_zero (hp.trans_lt hD)) hp
  obtain ⟨r₂, hend, h₂⟩ := h₁.seek (f := .fromEnd 0) (checkedAddSigned_zero hD) (Nat.le_refl _)
  by_cases hback : p = D.length
  · refine ⟨r₂, ?_, hback ▸ h₂⟩
    simp only [OxideSource.streamLen, streamPosition, hpos, hend, hback, ne_eq,
      not_true_eq_false, ite_false]
  · obtain ⟨r₃, hstart, h₃⟩ := h₂.seek (f := .fromStart (.ofNat p))
      (congrArg some (toNat_ofNat_of_lt (hp.trans_lt hD))) hp
    refine ⟨r₃, ?_, h₃⟩
    simp only [OxideSource.streamLen, streamPosition, hpos, hend, hstart, ne_eq, hback,
      not_false_eq_true, ite_true]

/-- A window can be built exactly when it lies inside the content. -/
theorem SubSource.new_bounded {r : ρ} {p : Nat} (h : Bounded D allow r p) (hp : p ≤ D.length)
    (hD : D.length < u64Size) (base len : UInt64) :
    (base.toNat + len.toNat ≤ D.length ∧ ∃ inner,
      new r base len = .ok ⟨inner, base.toNat, len.toNat, 0⟩ ∧
        Bounded D allow inner base.toNat) ∨
    (D.length < base.toNat + len.toNat ∧ ∃ e, new r base len = .error e) := by
  obtain ⟨r₁, hlen, h₁⟩ := h.streamLen hp hD
  by_cases hfit : base.toNat + len.toNat ≤ D.length
  · obtain ⟨r₂, hseek, h₂⟩ := h₁.seek (f := .fromStart base) rfl (by omega)
    have hadd : checkedAdd base.toNat len.toNat = some (base.toNat + len.toNat) :=
      checkedAdd_eq_some.mpr ⟨rfl, by omega⟩
    refine .inl ⟨hfit, r₂, ?_, h₂⟩
    simp only [new, hadd, hlen, Nat.not_lt.mpr hfit, ite_false, hseek]
  · refine .inr ⟨Nat.not_le.mp hfit, ?_⟩
    cases hadd : checkedAdd base.toNat len.toNat with
    | none => exact ⟨_, by simp only [new, hadd]; rfl⟩
    | some stop =>
        obtain ⟨rfl, _⟩ := checkedAdd_eq_some.mp hadd
        exact ⟨_, by simp only [new, hadd, hlen, Nat.not_le.mp hfit, ite_true]; rfl⟩

namespace ConcatSource

/-- The parts are bounded sources over the blocks, each at a position of its own. -/
def Placed (allow : IoError → Prop) (parts : List ρ) (Ds : List Bytes) : Prop :=
  List.Forall₂ (fun part D => ∃ p, Bounded D allow part p) parts Ds

/-- The probing loop treats bounded sources as it treats cursors over the same blocks. -/
theorem probe_bounded {parts : List ρ} {Ds : List Bytes} (h : Placed allow parts Ds)
    (hDs : ∀ D ∈ Ds, D.length < u64Size) (acc : Nat) :
    (∃ parts' starts cursors, probe parts acc = .ok (parts', starts) ∧
      probe (Ds.map Cursor.new) acc = .ok (cursors, starts) ∧ Placed allow parts' Ds) ∨
    ((∃ e, probe parts acc = .error e) ∧ ∃ e, probe (Ds.map Cursor.new) acc = .error e) := by
  induction h generalizing acc with
  | nil => exact .inl ⟨[], [acc], [], rfl, rfl, .nil⟩
  | @cons part D parts Ds hhead htail ih =>
      obtain ⟨p, hp⟩ := hhead
      obtain ⟨hD, hDs⟩ := List.forall_mem_cons.mp hDs
      have hzero (p : Nat) : seekTarget D.length (some p) (.fromEnd 0) = some D.length :=
        checkedAddSigned_zero hD
      obtain ⟨part', hend, hpart'⟩ := hp.seek (hzero p) (Nat.le_refl _)
      obtain ⟨cursor', hcursor⟩ : ∃ cursor', ReadSeek.seek (Cursor.new D) (.fromEnd 0) =
          (.ok D.length, cursor') := by
        obtain ⟨cursor', hcursor, _⟩ := (Cursor.behaves allow (.new D)).seek (hzero 0)
        exact ⟨cursor', hcursor⟩
      cases hadd : checkedAdd acc D.length with
      | none =>
          refine .inr ⟨⟨_, by simp only [probe, hend, hadd]; rfl⟩, ?_⟩
          exact ⟨_, by simp only [List.map_cons, probe, hcursor, hadd]; rfl⟩
      | some acc' =>
          rcases ih hDs acc' with ⟨parts', starts, cursors, hprobe, hmodel, hparts'⟩ |
            ⟨⟨e, hprobe⟩, e', hmodel⟩
          · refine .inl ⟨part' :: parts', acc :: starts, cursor' :: cursors, ?_, ?_,
              .cons ⟨_, hpart'⟩ hparts'⟩
            · simp only [probe, hend, hadd, hprobe]
            · simp only [List.map_cons, probe, hcursor, hadd, hmodel]
          · refine .inr ⟨⟨e, by simp only [probe, hend, hadd, hprobe]⟩, e', ?_⟩
            simp only [List.map_cons, probe, hcursor, hadd, hmodel]

/-- A concatenation can be built exactly when the total length fits. -/
theorem new_bounded {parts : List ρ} {Ds : List Bytes} (h : Placed allow parts Ds)
    (hDs : ∀ D ∈ Ds, D.length < u64Size) :
    (Ds.flatten.length < u64Size ∧ ∃ parts' starts, new parts = .ok ⟨parts', starts, 0⟩ ∧
      Placed allow parts' Ds ∧ Table starts Ds) ∨
    (u64Size ≤ Ds.flatten.length ∧ ∃ e, new parts = .error e) := by
  have hcursors : Moving allow (Ds.map Cursor.new) Ds := by
    rw [Moving, List.forall₂_map_left_iff]
    exact List.forall₂_same.mpr fun D _ => ⟨0, Cursor.behaves allow (.new D)⟩
  rcases probe_bounded h hDs 0 with ⟨parts', starts, cursors, hprobe, hmodel, hparts⟩ |
    ⟨⟨e, hprobe⟩, e', hmodel⟩
  · rcases probe_spec hcursors hDs 0 with ⟨hfit, _, _, hok, _, hcount, hstarts⟩ | ⟨_, herr⟩
    · obtain ⟨_, rfl⟩ := Prod.mk.inj (Except.ok.inj (hmodel.symm.trans hok))
      have htable : Table starts Ds := ⟨hcount, fun i hi => (hstarts i hi).trans (Nat.zero_add _)⟩
      rw [Nat.zero_add] at hfit
      refine .inl ⟨hfit, ?_⟩
      cases hparts with
      | nil => exact ⟨[], starts, by simp only [new, hprobe], .nil, htable⟩
      | cons hhead htail =>
          obtain ⟨p, hp⟩ := hhead
          obtain ⟨first, hseek, hfirst⟩ := hp.seek (f := .fromStart 0) rfl (Nat.zero_le _)
          exact ⟨_, starts, by simp only [new, hprobe, hseek], .cons ⟨_, hfirst⟩ htail, htable⟩
    · obtain ⟨e, he⟩ := herr (by decide)
      rw [hmodel] at he
      cases he
  · refine .inr ⟨?_, e, by simp only [new, hprobe]⟩
    rcases probe_spec hcursors hDs 0 with ⟨_, _, _, hok, _⟩ | ⟨hover, _⟩
    · rw [hmodel] at hok
      cases hok
    · rwa [Nat.zero_add] at hover

/-- Replacing a part by one over the same block keeps the others. -/
theorem Placed.set {parts : List ρ} {Ds : List Bytes} (h : Placed allow parts Ds) {i p : Nat}
    {part : ρ} {D : Bytes} (hD : Ds[i]? = some D) (hpart : Bounded D allow part p) :
    Placed allow (parts.set i part) Ds := by
  induction h generalizing i with
  | nil => exact .nil
  | cons hhead htail ih =>
      cases i with
      | zero =>
          obtain rfl := Option.some.inj hD
          exact .cons ⟨p, hpart⟩ htail
      | succ i => exact .cons hhead (ih hD)

theorem Placed.lookup {parts : List ρ} {Ds : List Bytes} (h : Placed allow parts Ds) {i : Nat}
    {part : ρ} (hpart : parts[i]? = some part) :
    ∃ D p, Ds[i]? = some D ∧ Bounded D allow part p := by
  obtain ⟨hi, rfl⟩ := List.getElem?_eq_some_iff.mp hpart
  have hi' : i < Ds.length := (List.Forall₂.length_eq h) ▸ hi
  obtain ⟨p, hp⟩ := List.Forall₂.get h hi hi'
  exact ⟨Ds[i], p, List.getElem?_eq_getElem hi', hp⟩

/-- The part that holds the position is sought inside its own block. -/
theorem Placed.sought {s : ConcatSource ρ} {Ds : List Bytes} (h : Placed allow s.parts Ds)
    (htable : Table s.starts Ds) (hDs : Ds.flatten.length < u64Size) {idx : Nat}
    {part part' : ρ} {res : IoResult Nat} (hseg : s.segmentFor s.pos = some idx)
    (hpart : s.parts[idx]? = some part)
    (hseek : ReadSeek.seek part (.fromStart (.ofNat (s.pos - s.starts.getD idx 0))) =
      (res, part')) :
    ∃ D, Ds[idx]? = some D ∧ blockStart Ds idx ≤ s.pos ∧ s.pos < blockStart Ds (idx + 1) ∧
      s.starts.getD (idx + 1) 0 = blockStart Ds (idx + 1) ∧
      res = .ok (s.pos - blockStart Ds idx) ∧ Bounded D allow part' (s.pos - blockStart Ds idx) := by
  have hpos : s.pos < Ds.flatten.length := by
    by_contra hend
    rw [segmentFor_eq_none htable (Nat.not_lt.mp hend)] at hseg
    cases hseg
  obtain ⟨_, hfound, _, h0, h1, hle, hlt⟩ :=
    segmentFor_eq_some htable (List.Forall₂.length_eq h) hpos
  obtain rfl := Option.some.inj (hseg.symm.trans hfound)
  obtain ⟨D, p, hD, hp⟩ := h.lookup hpart
  have hnext := blockStart_succ hD
  have hblock := blockStart_le Ds (idx + 1)
  rw [h0] at hseek
  obtain ⟨part₁, hok, hpart₁⟩ := hp.seek (f := .fromStart (.ofNat (s.pos - blockStart Ds idx)))
    (congrArg some (toNat_ofNat_of_lt (by omega))) (by omega)
  obtain ⟨rfl, rfl⟩ := Prod.mk.inj (hok.symm.trans hseek)
  exact ⟨D, hD, hle, hlt, h1, rfl, hpart₁⟩

/-- A read of an addressable concatenation is a step of a cursor over the joined blocks. -/
theorem read_bounded [Target] {s : ConcatSource ρ} {Ds : List Bytes}
    (htable : Table s.starts Ds) (hparts : Placed allow s.parts Ds)
    (hDs : Ds.flatten.length ≤ usizeMax) (n : Nat) :
    ∃ q, CursorStep Ds.flatten allow s.pos (.read n (s.read n).1) q ∧
      ∃ parts, (s.read n).2 = { s with parts, pos := q } ∧ Placed allow parts Ds := by
  have hmax := usizeMax_lt
  have hcase := s.read_cases n
  generalize s.read n = r at hcase ⊢
  cases hcase with
  | done h =>
      refine ⟨_, .read List.nil_prefix (Nat.zero_le _) fun _ => ?_, _, rfl, hparts⟩
      refine h.imp_right fun hnone => ?_
      by_contra hend
      obtain ⟨_, hfound, _⟩ :=
        segmentFor_eq_some htable (List.Forall₂.length_eq hparts) (Nat.not_le.mp hend)
      rw [hnone] at hfound
      cases hfound
  | lost _ hseg hpart hseek =>
      obtain ⟨_, _, _, _, _, hok, _⟩ := hparts.sought htable (by omega) hseg hpart hseek
      cases hok
  | failed _ hseg hpart hseek hread =>
      obtain ⟨D, hD, _, _, _, _, hp⟩ := hparts.sought htable (by omega) hseg hpart hseek
      obtain ⟨q, hstep, hq⟩ := Bounded.read hp hread
      cases hstep with
      | readError he => exact ⟨_, .readError he, _, rfl, hparts.set hD hq⟩
  | @served idx _ _ _ _ bs hn hseg hpart hseek hread =>
      obtain ⟨D, hD, hle, hlt, h1, _, hp⟩ := hparts.sought htable (by omega) hseg hpart hseek
      have hnext := blockStart_succ hD
      have hblock := blockStart_le Ds (idx + 1)
      rw [h1, asUsize_of_lt (by omega)] at hread
      obtain ⟨q, hstep, hq⟩ := Bounded.read hp hread
      cases hstep with
      | read hpre hlen hend =>
          have hadd : addU64 s.pos bs.length = s.pos + bs.length := addU64_of_lt (by omega)
          rw [hadd]
          refine ⟨_, .read (prefix_drop_flatten hD hle hlt hpre) (by omega) ?_, _, rfl,
            hparts.set hD hq⟩
          intro hnil
          rcases hend hnil with h | h <;> omega

/-- An addressable concatenation of bounded sources behaves as a cursor over the joined
blocks. -/
theorem behaves_bounded [Target] {s : ConcatSource ρ} {Ds : List Bytes}
    (htable : Table s.starts Ds) (hparts : Placed allow s.parts Ds)
    (hDs : Ds.flatten.length ≤ usizeMax) : Behaves Ds.flatten allow s s.pos := by
  refine ⟨fun t p => ∃ parts, t = { s with parts, pos := p } ∧ Placed allow parts Ds, ⟨?_⟩,
    s.parts, rfl, hparts⟩
  rintro _ p ⟨parts, rfl, ht⟩ op
  cases op with
  | read n =>
      obtain ⟨q, hstep, parts', hr, h'⟩ :=
        read_bounded (s := { s with parts, pos := p }) htable ht hDs n
      exact ⟨q, hstep, parts', hr, h'⟩
  | seek f =>
      obtain ⟨q, hstep, hr⟩ := seek_step (s := { s with parts, pos := p }) allow htable f
      exact ⟨q, hstep, parts, hr, ht⟩

end ConcatSource

/-! ### Windows -/

/-- A read of an addressable window is a step of a cursor over it. -/
theorem SubSource.read_bounded [Target] {s : SubSource ρ} {p : Nat}
    (hs : Bounded D allow s.inner p) (hD : D.length < u64Size)
    (hwin : s.base + s.len ≤ D.length) (hfit : s.len ≤ usizeMax) (n : Nat) :
    ∃ q, CursorStep (window D s.base s.len) allow s.pos (.read n (s.read n).1) q ∧
      ∃ inner p, (s.read n).2 = { s with inner, pos := q } ∧ Bounded D allow inner p := by
  have hcase := s.read_cases n
  generalize s.read n = r at hcase ⊢
  -- the inner source is sought inside the window
  have hsought : s.pos < s.len → ∃ inner,
      ReadSeek.seek s.inner (.fromStart (.ofNat (addU64 s.base s.pos))) =
        (.ok (s.base + s.pos), inner) ∧ Bounded D allow inner (s.base + s.pos) := by
    intro hpos
    rw [addU64_of_lt (by omega)]
    exact hs.seek (congrArg some (toNat_ofNat_of_lt (by omega))) (by omega)
  cases hcase with
  | done hz =>
      refine ⟨_, .read List.nil_prefix (Nat.zero_le _) fun _ => ?_, s.inner, p, rfl, hs⟩
      rwa [length_window_of_le hwin]
  | lost _ hpos hseek =>
      obtain ⟨_, hok, _⟩ := hsought hpos
      rw [hok] at hseek
      cases hseek
  | failed _ hpos hseek hread =>
      obtain ⟨inner, hok, hp⟩ := hsought hpos
      obtain ⟨_, rfl⟩ := Prod.mk.inj (hok.symm.trans hseek)
      obtain ⟨q, hstep, hq⟩ := Bounded.read hp hread
      cases hstep with
      | readError he => exact ⟨_, .readError he, _, _, rfl, hq⟩
  | @served _ _ _ bs hn hpos hseek hread =>
      obtain ⟨inner, hok, hp⟩ := hsought hpos
      obtain ⟨_, rfl⟩ := Prod.mk.inj (hok.symm.trans hseek)
      rw [asUsize_of_lt (by omega)] at hread
      obtain ⟨q, hstep, hq⟩ := Bounded.read hp hread
      cases hstep with
      | read hpre hlen hend =>
          have hadd : addU64 s.pos bs.length = s.pos + bs.length := addU64_of_lt (by omega)
          rw [hadd]
          refine ⟨_, .read (prefix_drop_window hpre (by omega)) (by omega) ?_, _, _, rfl, hq⟩
          intro hnil
          rcases hend hnil with h0 | hend <;> omega

/-- An addressable window over a bounded source behaves as a cursor over the window of its
content. -/
theorem SubSource.behaves_bounded [Target] {s : SubSource ρ} {p : Nat}
    (hs : Bounded D allow s.inner p) (hD : D.length < u64Size)
    (hwin : s.base + s.len ≤ D.length) (hfit : s.len ≤ usizeMax) :
    Behaves (window D s.base s.len) allow s s.pos := by
  refine ⟨fun t q => ∃ inner p, t = { s with inner, pos := q } ∧ Bounded D allow inner p, ⟨?_⟩,
    s.inner, p, rfl, hs⟩
  rintro _ q ⟨inner, p, rfl, ht⟩ op
  cases op with
  | read n =>
      obtain ⟨q, hstep, inner', p', hr, h'⟩ :=
        read_bounded (s := { s with inner, pos := q }) ht hD hwin hfit n
      exact ⟨q, hstep, inner', p', hr, h'⟩
  | seek f =>
      obtain ⟨q, hstep, hr⟩ := seek_step (s := { s with inner, pos := q }) allow hwin f
      exact ⟨q, hstep, inner, p, hr, ht⟩

end

end OxideSource
