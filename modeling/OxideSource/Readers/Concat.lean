import OxideSource.Readers.Sub
import Mathlib.Data.List.Forall2

/-!
# Concatenated readers

`ConcatSource` walks its parts with a table of cumulative offsets. As for windows,
the composite position is the only state a caller sees: the part that holds the
position is repositioned before every read.
-/

namespace OxideSource

/-- `ConcatSource`: the parts, the cumulative offsets with the trailing total, and
the absolute position. -/
structure ConcatSource (ρ : Type) where
  parts : List ρ
  starts : List Nat
  pos : Nat

namespace ConcatSource

variable {ρ : Type} [ReadSeek ρ]

/-- The loop of `ConcatSource::new`: seek each part to its end and push the running
offset, with the total pushed last. -/
def probe : List ρ → Nat → Except Error (List ρ × List Nat)
  | [], acc => .ok ([], [acc])
  | part :: rest, acc =>
      match ReadSeek.seek part (.fromEnd 0) with
      | (.error e, _) => .error (.io e)
      | (.ok len, part) =>
          match checkedAdd acc len with
          | none => .error (.invalid ["concat: total length overflows u64"])
          | some acc' =>
              match probe rest acc' with
              | .error e => .error e
              | .ok (parts, starts) => .ok (part :: parts, acc :: starts)

/-- `ConcatSource::new`. -/
def new (parts : List ρ) : Except Error (ConcatSource ρ) :=
  match probe parts 0 with
  | .error e => .error e
  | .ok (parts, starts) =>
      match parts with
      | [] => .ok ⟨[], starts, 0⟩
      | first :: rest =>
          match ReadSeek.seek first (.fromStart 0) with
          | (.error e, _) => .error (.io e)
          | (.ok _, first) => .ok ⟨first :: rest, starts, 0⟩

/-- `ConcatSource::total_len`. -/
def totalLen (s : ConcatSource ρ) : Nat := s.starts.getLast?.getD 0

/-- `ConcatSource::segment_for`. -/
def segmentFor (s : ConcatSource ρ) (pos : Nat) : Option Nat :=
  if pos ≥ s.totalLen then none
  else (List.range s.parts.length).find? fun i =>
    decide (pos ≥ s.starts.getD i 0 ∧ pos < s.starts.getD (i + 1) 0)

/-- `impl Read for ConcatSource`. -/
def read [Target] (s : ConcatSource ρ) (want : Nat) : IoResult Bytes × ConcatSource ρ :=
  if want = 0 then (.ok [], s)
  else
    match s.segmentFor s.pos with
    | none => (.ok [], s)
    | some idx =>
        let segStart := s.starts.getD idx 0
        let segEnd := s.starts.getD (idx + 1) 0
        let intra := s.pos - segStart
        let remainingInSeg := asUsize (segEnd - s.pos)
        let want := min want remainingInSeg
        match s.parts[idx]? with
        | none => (.ok [], s)
        | some part =>
            match ReadSeek.seek part (.fromStart (.ofNat intra)) with
            | (.error e, part) => (.error e, { s with parts := s.parts.set idx part })
            | (.ok _, part) =>
                match ReadSeek.read part want with
                | (.error e, part) => (.error e, { s with parts := s.parts.set idx part })
                | (.ok bs, part) =>
                    (.ok bs, { s with
                      parts := s.parts.set idx part, pos := addU64 s.pos bs.length })

/-- The message of `add_signed` in `concat.rs`. -/
def seekMessage : Message := ["concat: seek resolves to a negative or overflowing position"]

/-- `impl Seek for ConcatSource`. -/
def seek (s : ConcatSource ρ) (f : SeekFrom) : IoResult Nat × ConcatSource ρ :=
  match resolveSeek seekMessage s.totalLen s.pos f with
  | .ok q => (.ok q, { s with pos := q })
  | .error e => (.error e, s)

instance [Target] : ReadSeek (ConcatSource ρ) := ⟨read, seek⟩

/-! ### The offset table -/

/-- The table lists where each block of the content begins, and its total. -/
def Table (starts : List Nat) (Ds : List Bytes) : Prop :=
  starts.length = Ds.length + 1 ∧ ∀ i, i ≤ Ds.length → starts.getD i 0 = blockStart Ds i

theorem Table.last {starts : List Nat} {Ds : List Bytes} (h : Table starts Ds) :
    starts.getLast?.getD 0 = Ds.flatten.length := by
  have hi := h.2 Ds.length (Nat.le_refl _)
  rw [blockStart_length, List.getD_eq_getElem?_getD] at hi
  rw [List.getLast?_eq_getElem?, h.1, Nat.add_sub_cancel]
  exact hi

/-! ### Construction -/

/-- The parts behave as cursors over the blocks, each at a position of its own. -/
def Moving (allow : IoError → Prop) (parts : List ρ) (Ds : List Bytes) : Prop :=
  List.Forall₂ (fun part D => ∃ p, Behaves D allow part p) parts Ds

/-- The probing loop finds the offset of every block, unless the total overflows. -/
theorem probe_spec {allow : IoError → Prop} {parts : List ρ} {Ds : List Bytes}
    (h : Moving allow parts Ds) (hDs : ∀ D ∈ Ds, D.length < u64Size) (acc : Nat) :
    (acc + Ds.flatten.length < u64Size ∧ ∃ parts' starts, probe parts acc = .ok (parts', starts) ∧
      Moving allow parts' Ds ∧ starts.length = Ds.length + 1 ∧
      ∀ i, i ≤ Ds.length → starts.getD i 0 = acc + blockStart Ds i) ∨
    (u64Size ≤ acc + Ds.flatten.length ∧ (acc < u64Size → ∃ e, probe parts acc = .error e)) := by
  induction h generalizing acc with
  | nil =>
      by_cases hacc : acc < u64Size
      · refine .inl ⟨hacc, [], [acc], rfl, .nil, rfl, ?_⟩
        intro i hi
        obtain rfl : i = 0 := Nat.le_zero.mp hi
        rfl
      · exact .inr ⟨Nat.not_lt.mp hacc, fun h => absurd h hacc⟩
  | @cons part D parts Ds hhead htail ih =>
      obtain ⟨p, hp⟩ := hhead
      have hD : D.length < u64Size := hDs D List.mem_cons_self
      obtain ⟨part', hend, hpart'⟩ := hp.seek (f := .fromEnd 0) (checkedAddSigned_zero hD)
      have hlen : (D :: Ds).flatten.length = D.length + Ds.flatten.length := by
        rw [List.flatten_cons, List.length_append]
      have htail := ih (fun E hE => hDs E (List.mem_cons_of_mem _ hE)) (acc + D.length)
      rw [hlen, ← Nat.add_assoc]
      rcases htail with ⟨hfit, parts', starts, hprobe, hmoving, hcount, hstarts⟩ | ⟨hover, herr⟩
      · have hadd : checkedAdd acc D.length = some (acc + D.length) :=
          checkedAdd_eq_some.mpr ⟨rfl, by omega⟩
        refine .inl ⟨hfit, part' :: parts', acc :: starts, ?_, .cons ⟨_, hpart'⟩ hmoving, ?_, ?_⟩
        · simp only [probe, hend, hadd, hprobe]
        · rw [List.length_cons, hcount, List.length_cons]
        · intro i hi
          cases i with
          | zero => rfl
          | succ i =>
              rw [List.getD_cons_succ, hstarts i (Nat.le_of_succ_le_succ hi), blockStart_cons_succ,
                Nat.add_assoc]
      · refine .inr ⟨hover, fun _ => ?_⟩
        cases hadd : checkedAdd acc D.length with
        | none => exact ⟨_, by simp only [probe, hend, hadd]; rfl⟩
        | some acc' =>
            obtain ⟨rfl, hacc⟩ := checkedAdd_eq_some.mp hadd
            obtain ⟨e, he⟩ := herr hacc
            exact ⟨e, by simp only [probe, hend, hadd, he]⟩

/-- A concatenation of cursors can be built exactly when the total length fits. -/
theorem new_spec {allow : IoError → Prop} {parts : List ρ} {Ds : List Bytes}
    (h : Moving allow parts Ds) (hDs : ∀ D ∈ Ds, D.length < u64Size) :
    (Ds.flatten.length < u64Size ∧ ∃ parts' starts, new parts = .ok ⟨parts', starts, 0⟩ ∧
      Moving allow parts' Ds ∧ Table starts Ds) ∨
    (u64Size ≤ Ds.flatten.length ∧ ∃ e, new parts = .error e) := by
  rcases probe_spec h hDs 0 with ⟨hfit, parts', starts, hprobe, hmoving, hcount, hstarts⟩ |
    ⟨hover, herr⟩
  · have htable : Table starts Ds := ⟨hcount, fun i hi => (hstarts i hi).trans (Nat.zero_add _)⟩
    rw [Nat.zero_add] at hfit
    refine .inl ⟨hfit, ?_⟩
    cases hmoving with
    | nil => exact ⟨[], starts, by simp only [new, hprobe], .nil, htable⟩
    | cons hhead htail =>
        obtain ⟨p, hp⟩ := hhead
        obtain ⟨first, hseek, hfirst⟩ := hp.seek (f := .fromStart 0) rfl
        exact ⟨_, starts, by simp only [new, hprobe, hseek], .cons ⟨_, hfirst⟩ htail, htable⟩
  · obtain ⟨e, he⟩ := herr (by decide)
    rw [Nat.zero_add] at hover
    exact .inr ⟨hover, e, by simp only [new, he]⟩

/-- The parts serve the blocks one by one. -/
def Serving (F : Faults) (parts : List ρ) (Ds : List Bytes) : Prop :=
  List.Forall₂ (fun part D => ∃ c, Serves F D part c) parts Ds

theorem Moving.serving {allow : IoError → Prop} {parts : List ρ} {Ds : List Bytes}
    (h : Moving allow parts Ds) : Serving (Faults.transient allow) parts Ds :=
  List.Forall₂.imp (fun _ _ ⟨p, hp⟩ => ⟨some p, hp.serves⟩) h

theorem Serving.lookup {F : Faults} {parts : List ρ} {Ds : List Bytes}
    (h : Serving F parts Ds) {i : Nat} (hi : i < parts.length) :
    ∃ part D c, parts[i]? = some part ∧ Ds[i]? = some D ∧ Serves F D part c := by
  have hlen := List.Forall₂.length_eq h
  have hi' : i < Ds.length := by omega
  obtain ⟨c, hc⟩ := List.Forall₂.get h hi hi'
  exact ⟨parts[i], Ds[i], c, List.getElem?_eq_getElem hi, List.getElem?_eq_getElem hi', hc⟩

/-- Replacing a part by one that serves the same block keeps the others. -/
theorem Serving.set {F : Faults} {parts : List ρ} {Ds : List Bytes} (h : Serving F parts Ds)
    {i : Nat} {part : ρ} {D : Bytes} {c : Option Nat} (hD : Ds[i]? = some D)
    (hpart : Serves F D part c) : Serving F (parts.set i part) Ds := by
  induction h generalizing i with
  | nil => exact .nil
  | cons hhead htail ih =>
      cases i with
      | zero =>
          obtain rfl := Option.some.inj hD
          exact .cons ⟨c, hpart⟩ htail
      | succ i => exact .cons hhead (ih hD)

omit [ReadSeek ρ] in
/-- Below the total, the segment search finds the block that holds the position. -/
theorem segmentFor_eq_some {s : ConcatSource ρ} {Ds : List Bytes} (htable : Table s.starts Ds)
    (hlen : s.parts.length = Ds.length) {pos : Nat} (hpos : pos < Ds.flatten.length) :
    ∃ idx, s.segmentFor pos = some idx ∧ idx < s.parts.length ∧
      s.starts.getD idx 0 = blockStart Ds idx ∧
      s.starts.getD (idx + 1) 0 = blockStart Ds (idx + 1) ∧
      blockStart Ds idx ≤ pos ∧ pos < blockStart Ds (idx + 1) := by
  have htotal : s.totalLen = Ds.flatten.length := htable.last
  have hseg : s.segmentFor pos = (List.range s.parts.length).find? fun i =>
      decide (pos ≥ s.starts.getD i 0 ∧ pos < s.starts.getD (i + 1) 0) := by
    unfold segmentFor
    rw [htotal, if_neg (Nat.not_le.mpr hpos)]
  rw [hseg]
  have hstarts : ∀ i, i < s.parts.length →
      s.starts.getD i 0 = blockStart Ds i ∧ s.starts.getD (i + 1) 0 = blockStart Ds (i + 1) :=
    fun i hi => ⟨htable.2 i (by omega), htable.2 (i + 1) (by omega)⟩
  obtain ⟨i, hi, hle, hlt⟩ := exists_block hpos
  have hsome : ((List.range s.parts.length).find? fun i =>
      decide (pos ≥ s.starts.getD i 0 ∧ pos < s.starts.getD (i + 1) 0)).isSome := by
    rw [List.find?_isSome]
    refine ⟨i, List.mem_range.mpr (by omega), ?_⟩
    rw [(hstarts i (by omega)).1, (hstarts i (by omega)).2]
    exact decide_eq_true ⟨hle, hlt⟩
  obtain ⟨idx, hidx⟩ := Option.isSome_iff_exists.mp hsome
  have hmem : idx < s.parts.length := List.mem_range.mp (List.mem_of_find?_eq_some hidx)
  have hfound := List.find?_some hidx
  have hp := of_decide_eq_true hfound
  obtain ⟨h0, h1⟩ := hstarts idx hmem
  exact ⟨idx, hidx, hmem, h0, h1, h0 ▸ hp.1, h1 ▸ hp.2⟩

omit [ReadSeek ρ] in
/-- At or past the total there is no segment. -/
theorem segmentFor_eq_none {s : ConcatSource ρ} {Ds : List Bytes} (htable : Table s.starts Ds)
    {pos : Nat} (hpos : Ds.flatten.length ≤ pos) : s.segmentFor pos = none := by
  have htotal : s.totalLen = Ds.flatten.length := htable.last
  unfold segmentFor
  rw [htotal, if_pos hpos]

/-! ### Reading through the parts -/

/-- How a read of a concatenation ends: without asking a part, or at the part that holds the
position, at a failed repositioning, at a failed read, or with what the part returned. -/
inductive ReadCase [Target] (s : ConcatSource ρ) (n : Nat) :
    IoResult Bytes × ConcatSource ρ → Prop where
  | done (h : n = 0 ∨ s.segmentFor s.pos = none) : ReadCase s n (.ok [], s)
  | lost {idx : Nat} {part part' : ρ} {e : IoError} (hn : n ≠ 0)
      (hseg : s.segmentFor s.pos = some idx) (hpart : s.parts[idx]? = some part)
      (hseek : ReadSeek.seek part (.fromStart (.ofNat (s.pos - s.starts.getD idx 0))) =
        (.error e, part')) :
      ReadCase s n (.error e, { s with parts := s.parts.set idx part' })
  | failed {idx q : Nat} {part part₁ part₂ : ρ} {e : IoError} (hn : n ≠ 0)
      (hseg : s.segmentFor s.pos = some idx) (hpart : s.parts[idx]? = some part)
      (hseek : ReadSeek.seek part (.fromStart (.ofNat (s.pos - s.starts.getD idx 0))) =
        (.ok q, part₁))
      (hread : ReadSeek.read part₁ (min n (asUsize (s.starts.getD (idx + 1) 0 - s.pos))) =
        (.error e, part₂)) :
      ReadCase s n (.error e, { s with parts := s.parts.set idx part₂ })
  | served {idx q : Nat} {part part₁ part₂ : ρ} {bs : Bytes} (hn : n ≠ 0)
      (hseg : s.segmentFor s.pos = some idx) (hpart : s.parts[idx]? = some part)
      (hseek : ReadSeek.seek part (.fromStart (.ofNat (s.pos - s.starts.getD idx 0))) =
        (.ok q, part₁))
      (hread : ReadSeek.read part₁ (min n (asUsize (s.starts.getD (idx + 1) 0 - s.pos))) =
        (.ok bs, part₂)) :
      ReadCase s n (.ok bs, { s with
        parts := s.parts.set idx part₂, pos := addU64 s.pos bs.length })

omit [ReadSeek ρ] in
/-- The segment search finds a part. -/
theorem lt_of_segmentFor {s : ConcatSource ρ} {pos idx : Nat} (h : s.segmentFor pos = some idx) :
    idx < s.parts.length := by
  unfold segmentFor at h
  split at h
  · cases h
  · exact List.mem_range.mp (List.mem_of_find?_eq_some h)

theorem read_cases [Target] (s : ConcatSource ρ) (n : Nat) : s.ReadCase n (s.read n) := by
  unfold read
  split
  · exact .done (.inl ‹_›)
  · rename_i hn
    split
    · exact .done (.inr ‹_›)
    · rename_i idx hseg
      dsimp only
      split
      · -- the index comes from the search, so it is in range
        rename_i hnone
        exact absurd (lt_of_segmentFor hseg) (Nat.not_lt.mpr (List.getElem?_eq_none_iff.mp hnone))
      · split
        · exact .lost hn hseg ‹_› ‹_›
        · split
          · exact .failed hn hseg ‹_› ‹_› ‹_›
          · exact .served hn hseg ‹_› ‹_› ‹_›

/-- A read of an addressable concatenation is a step of a cursor over the joined blocks,
whatever happens to the cursors of the parts. -/
theorem read_step [Target] {F : Faults} {s : ConcatSource ρ} {Ds : List Bytes}
    (htable : Table s.starts Ds) (hserve : Serving F s.parts Ds)
    (hDs : Ds.flatten.length ≤ usizeMax) (n : Nat) :
    ∃ q, CursorStep Ds.flatten F.any s.pos (.read n (s.read n).1) q ∧
      ∃ parts, (s.read n).2 = { s with parts, pos := q } ∧ Serving F parts Ds := by
  have hmax := usizeMax_lt
  have hcase := s.read_cases n
  generalize s.read n = r at hcase ⊢
  by_cases hend : Ds.flatten.length ≤ s.pos
  · have hnone := segmentFor_eq_none htable hend
    cases hcase with
    | done _ => exact ⟨_, .read List.nil_prefix (Nat.zero_le _) fun _ => .inr hend, _, rfl, hserve⟩
    | lost _ hseg => rw [hnone] at hseg; cases hseg
    | failed _ hseg => rw [hnone] at hseg; cases hseg
    | served _ hseg => rw [hnone] at hseg; cases hseg
  · obtain ⟨idx, hfound, hidx, h0, h1, hle, hlt⟩ :=
      segmentFor_eq_some htable (List.Forall₂.length_eq hserve) (Nat.not_le.mp hend)
    obtain ⟨part, D, c, hpart, hD, hc⟩ := hserve.lookup hidx
    have hnext := blockStart_succ hD
    have hblock := blockStart_le Ds (idx + 1)
    have hintra : s.pos - blockStart Ds idx < D.length := by omega
    rw [← h0] at hintra
    cases hcase with
    | done h =>
        rw [hfound] at h
        exact ⟨_, .read List.nil_prefix (Nat.zero_le _) fun _ => .inl (h.resolve_right nofun), _,
          rfl, hserve⟩
    | lost _ hseg hpart' hseek =>
        obtain rfl := Option.some.inj (hfound.symm.trans hseg)
        obtain rfl := Option.some.inj (hpart.symm.trans hpart')
        obtain ⟨hf, hc⟩ := hc.seekStart_error (by omega) hseek
        exact ⟨_, .readError (.inr (.inr ⟨_, hf⟩)), _, rfl, hserve.set hD hc⟩
    | failed _ hseg hpart' hseek hread =>
        obtain rfl := Option.some.inj (hfound.symm.trans hseg)
        obtain rfl := Option.some.inj (hpart.symm.trans hpart')
        obtain ⟨hf, c', hc⟩ := (hc.seekStart_ok (by omega) hseek).read_error hread
        exact ⟨_, .readError hf, _, rfl, hserve.set hD hc⟩
    | @served _ _ _ _ _ bs hn hseg hpart' hseek hread =>
        obtain rfl := Option.some.inj (hfound.symm.trans hseg)
        obtain rfl := Option.some.inj (hpart.symm.trans hpart')
        rw [h1, asUsize_of_lt (by omega)] at hread
        obtain ⟨hp, hl, he, hc⟩ := (hc.seekStart_ok (by omega) hseek).read_ok hread
        have hadd : addU64 s.pos bs.length = s.pos + bs.length := addU64_of_lt (by omega)
        rw [hadd]
        refine ⟨_, .read ?_ (by omega) ?_, _, rfl, hserve.set hD hc⟩
        · rw [h0] at hp
          exact prefix_drop_flatten hD hle hlt hp
        · intro hnil
          rcases he hnil with h | h <;> omega

omit [ReadSeek ρ] in
/-- A seek is a step of a cursor over the joined blocks, and leaves the parts alone. -/
theorem seek_step (allow : IoError → Prop) {s : ConcatSource ρ} {Ds : List Bytes}
    (htable : Table s.starts Ds) (f : SeekFrom) :
    ∃ q, CursorStep Ds.flatten allow s.pos (.seek f (s.seek f).1) q ∧
      (s.seek f).2 = { s with pos := q } := by
  have htotal : s.totalLen = Ds.flatten.length := htable.last
  unfold seek
  rw [htotal]
  rcases resolveSeek_step Ds.flatten allow seekMessage s.pos f with
    ⟨q, hq, hstep⟩ | ⟨e, he, hstep⟩
  · rw [hq]
    exact ⟨q, hstep, rfl⟩
  · rw [he]
    exact ⟨_, hstep, rfl⟩

/-- An addressable concatenation of parts that serve blocks behaves as a cursor over
the joined blocks. -/
theorem behaves [Target] {F : Faults} {s : ConcatSource ρ} {Ds : List Bytes}
    (htable : Table s.starts Ds) (hserve : Serving F s.parts Ds)
    (hDs : Ds.flatten.length ≤ usizeMax) : Behaves Ds.flatten F.any s s.pos := by
  refine ⟨fun t p => ∃ parts, t = { s with parts, pos := p } ∧ Serving F parts Ds, ⟨?_⟩,
    s.parts, rfl, hserve⟩
  rintro _ p ⟨parts, rfl, ht⟩ op
  cases op with
  | read n =>
      obtain ⟨q, hstep, parts', hr, h'⟩ :=
        read_step (s := { s with parts, pos := p }) htable ht hDs n
      exact ⟨q, hstep, parts', hr, h'⟩
  | seek f =>
      obtain ⟨q, hstep, hr⟩ := seek_step (s := { s with parts, pos := p }) F.any htable f
      exact ⟨q, hstep, parts, hr, ht⟩

end ConcatSource

end OxideSource
