import OxideSource.Core.Retries
import OxideSource.Readers.Reader

/-!
# Composites of failing readers

A window or a concatenation commits its position only after the inner read, and seeks
before every read. So it is retryable however its inner readers fail, and a tree of them
is, to any depth.
-/

namespace OxideSource

variable {ρ : Type} [ReadSeek ρ] {stall : Prop}

/-! ### Windows -/

/-- The window shows `W`, part of the content of a faulty inner reader. -/
def SubSource.Shows (stall : Prop) (W : Bytes) (s : SubSource ρ) : Prop :=
  ∃ D, Faulty stall D s.inner ∧ s.base + s.len < u64Size ∧ s.base + s.len ≤ D.length ∧
    W = window D s.base s.len

/-- `stream_len` finds the length if it succeeds, and leaves the reader faulty. -/
theorem streamLen_faulty {D : Bytes} {r r' : ρ} {n : Nat} (h : Faulty stall D r)
    (hlen : streamLen r = (.ok n, r')) : n = D.length ∧ Faulty stall D r' := by
  unfold streamLen at hlen
  split at hlen
  · cases hlen
  rename_i saved r₁ hpos
  have h₁ := h.seek hpos
  split at hlen
  · cases hlen
  rename_i stop r₂ hend
  have h₂ := h₁.seek hend
  have hstop := h₁.seekEnd hend
  split at hlen
  · split at hlen
    · cases hlen
    rename_i q r₃ hback
    cases hlen
    exact ⟨hstop, h₂.seek hback⟩
  · cases hlen
    exact ⟨hstop, h₂⟩

/-- A window that could be built lies inside the content. -/
theorem SubSource.new_shows {D : Bytes} {r : ρ} {base len : UInt64} {s : SubSource ρ}
    (h : Faulty stall D r) (hnew : SubSource.new r base len = .ok s) :
    s.Shows stall (window D base.toNat len.toNat) ∧ s.pos = 0 := by
  unfold SubSource.new at hnew
  split at hnew
  · cases hnew
  rename_i stop hadd
  obtain ⟨rfl, hfit⟩ := checkedAdd_eq_some.mp hadd
  split at hnew
  · cases hnew
  rename_i n r₁ hlen
  obtain ⟨rfl, h₁⟩ := streamLen_faulty h hlen
  split at hnew
  · cases hnew
  rename_i hin
  split at hnew
  · cases hnew
  rename_i q r₂ hseek
  cases hnew
  exact ⟨⟨D, h₁.seek hseek, hfit, Nat.not_lt.mp hin, rfl⟩, rfl⟩

section

variable [Target] (hstall : Target.usizeBits ≠ 64 → stall)

include hstall in
/-- A read that asks the inner reader for the narrowed remainder is retryable: it delivers
nothing only if it was asked for nothing, or where reads may stall. -/
theorem RetryStep.of_narrowed {W bs : Bytes} {p n rest : Nat} (hpos : 0 < rest)
    (hrest : rest < u64Size) (hpre : bs <+: W.drop p) (hlen : bs.length ≤ min n (asUsize rest))
    (hend : bs = [] → min n (asUsize rest) = 0 ∨ stall) :
    RetryStep stall W p (.read n (.ok bs)) (p + bs.length) := by
  apply RetryStep.of_read hpre (hlen.trans (Nat.min_le_left _ _))
  intro hnil
  rcases hend hnil with hz | hs
  · by_cases hT : Target.usizeBits = 64
    · rw [asUsize_of_lt (le_usizeMax_of_bits hT hrest)] at hz
      omega
    · exact .inr (.inr (hstall hT))
  · exact .inr (.inr hs)

omit [ReadSeek ρ] [Target] in
/-- A seek of a window is retryable and leaves the inner reader alone. -/
theorem SubSource.seek_retry {D : Bytes} {s : SubSource ρ} (hin : s.base + s.len ≤ D.length)
    (f : SeekFrom) :
    RetryStep stall (window D s.base s.len) s.pos (.seek f (s.seek f).1) (s.seek f).2.pos ∧
      (s.seek f).2 = { s with pos := (s.seek f).2.pos } := by
  obtain ⟨q, hstep, hsame⟩ := seek_step (fun _ => True) hin f
  rw [hsame]
  exact ⟨.step hstep, rfl⟩

include hstall in
/-- A read of a window is retryable, wherever the inner reader was left. -/
theorem SubSource.read_retry {W : Bytes} {s : SubSource ρ} (h : s.Shows stall W) (n : Nat) :
    RetryStep stall W s.pos (.read n (s.read n).1) (s.read n).2.pos ∧
      (s.read n).2.Shows stall W := by
  obtain ⟨D, hinner, hfit, hin, rfl⟩ := h
  have hW : (window D s.base s.len).length = s.len := length_window_of_le hin
  have hcase := s.read_cases n
  generalize s.read n = r at hcase ⊢
  cases hcase with
  | done hz =>
      rw [← hW] at hz
      exact ⟨.step (.read List.nil_prefix (Nat.zero_le _) fun _ => hz), D, hinner, hfit, hin, rfl⟩
  | lost _ _ hseek =>
      exact ⟨.step (.readError trivial), D, hinner.seek hseek, hfit, hin, rfl⟩
  | failed _ _ hseek hread =>
      exact ⟨.step (.readError trivial), D, (hinner.seek hseek).read hread, hfit, hin, rfl⟩
  | @served q i₁ i₂ bs hn hpos hseek hread =>
      rw [addU64_of_lt (by omega)] at hseek
      have hplaced := hinner.seekStart (by omega) hseek
      obtain ⟨hpre, hlen, hend⟩ := hplaced.read_ok hread
      have hrest : bs.length ≤ s.len - s.pos :=
        hlen.trans ((Nat.min_le_right _ _).trans (asUsize_le _))
      have hadd : addU64 s.pos bs.length = s.pos + bs.length := addU64_of_lt (by omega)
      refine ⟨?_, D, (hinner.seek hseek).read hread, hfit, hin, rfl⟩
      rw [hadd]
      apply RetryStep.of_narrowed hstall (by omega) (by omega) (prefix_drop_window hpre hrest) hlen
      intro hnil
      exact (hend hnil).imp_right fun h => h.resolve_left (by omega)

include hstall in
/-- Every call on a window is retryable. -/
theorem SubSource.perform_retry {W : Bytes} {s : SubSource ρ} (h : s.Shows stall W) (op : IoOp) :
    RetryStep stall W s.pos (perform s op).1 (perform s op).2.pos ∧
      (perform s op).2.Shows stall W := by
  cases op with
  | read n => exact read_retry hstall h n
  | seek f =>
      obtain ⟨D, hinner, hfit, hin, rfl⟩ := h
      obtain ⟨hstep, hsame⟩ := seek_retry hin f
      refine ⟨hstep, ?_⟩
      change (s.seek f).2.Shows stall _
      rw [hsame]
      exact ⟨D, hinner, hfit, hin, rfl⟩

/-! ### Concatenations -/

/-- The parts are faulty over the blocks one by one. -/
def ConcatSource.AllFaulty (stall : Prop) (parts : List ρ) (Ds : List Bytes) : Prop :=
  List.Forall₂ (fun part D => Faulty stall D part) parts Ds

/-- The concatenation shows `W`, the joined blocks of its faulty parts. -/
def ConcatSource.Shows (stall : Prop) (W : Bytes) (s : ConcatSource ρ) : Prop :=
  ∃ Ds, AllFaulty stall s.parts Ds ∧ Table s.starts Ds ∧ Ds.flatten.length < u64Size ∧
    W = Ds.flatten

namespace ConcatSource

omit [Target] in
/-- The probing loop finds the offsets of the blocks if it succeeds. -/
theorem probe_faulty {parts parts' : List ρ} {Ds : List Bytes} {acc : Nat} {starts : List Nat}
    (h : AllFaulty stall parts Ds) (hacc : acc < u64Size)
    (hprobe : probe parts acc = .ok (parts', starts)) :
    AllFaulty stall parts' Ds ∧ starts.length = Ds.length + 1 ∧
      (∀ i, i ≤ Ds.length → starts.getD i 0 = acc + blockStart Ds i) ∧
      acc + Ds.flatten.length < u64Size := by
  induction h generalizing acc parts' starts with
  | nil =>
      cases hprobe
      refine ⟨.nil, rfl, fun i hi => ?_, hacc⟩
      obtain rfl : i = 0 := Nat.le_zero.mp hi
      rfl
  | @cons part D parts Ds hhead htail ih =>
      rw [probe] at hprobe
      split at hprobe
      · cases hprobe
      rename_i len part' hend
      obtain rfl := hhead.seekEnd hend
      split at hprobe
      · cases hprobe
      rename_i acc' hadd
      obtain ⟨rfl, hacc'⟩ := checkedAdd_eq_some.mp hadd
      split at hprobe
      · cases hprobe
      rename_i rest starts' hrest
      cases hprobe
      obtain ⟨hfaulty, hcount, hstarts, htotal⟩ := ih hacc' hrest
      refine ⟨.cons (hhead.seek hend) hfaulty, ?_, ?_, ?_⟩
      · rw [List.length_cons, hcount, List.length_cons]
      · intro i hi
        cases i with
        | zero => rfl
        | succ i =>
            rw [List.getD_cons_succ, hstarts i (Nat.le_of_succ_le_succ hi), blockStart_cons_succ,
              Nat.add_assoc]
      · rw [List.flatten_cons, List.length_append]
        omega

omit [Target] in
/-- A concatenation that could be built joins the contents of its parts. -/
theorem new_shows {parts : List ρ} {Ds : List Bytes} {s : ConcatSource ρ}
    (h : AllFaulty stall parts Ds) (hnew : ConcatSource.new parts = .ok s) :
    s.Shows stall Ds.flatten ∧ s.pos = 0 := by
  unfold ConcatSource.new at hnew
  split at hnew
  · cases hnew
  rename_i parts' starts hprobe
  obtain ⟨hfaulty, hcount, hstarts, htotal⟩ := probe_faulty h (by decide) hprobe
  rw [Nat.zero_add] at htotal
  have htable : Table starts Ds := ⟨hcount, fun i hi => (hstarts i hi).trans (Nat.zero_add _)⟩
  split at hnew
  · cases hnew
    exact ⟨⟨Ds, hfaulty, htable, htotal, rfl⟩, rfl⟩
  · split at hnew
    · cases hnew
    rename_i q first' hseek
    cases hnew
    cases hfaulty with
    | cons hfirst hrest =>
        exact ⟨⟨_, .cons (hfirst.seek hseek) hrest, htable, htotal, rfl⟩, rfl⟩

omit [Target] in
theorem AllFaulty.lookup {parts : List ρ} {Ds : List Bytes} (h : AllFaulty stall parts Ds)
    {i : Nat} {part : ρ} (hi : parts[i]? = some part) :
    ∃ D, Ds[i]? = some D ∧ Faulty stall D part := by
  obtain ⟨hlt, rfl⟩ := List.getElem?_eq_some_iff.mp hi
  have hlt' : i < Ds.length := by
    rw [← List.Forall₂.length_eq h]
    exact hlt
  exact ⟨Ds[i], List.getElem?_eq_getElem hlt', List.Forall₂.get h hlt hlt'⟩

omit [Target] in
/-- Replacing a part by one with the same content keeps the others. -/
theorem AllFaulty.set {parts : List ρ} {Ds : List Bytes} (h : AllFaulty stall parts Ds) {i : Nat}
    {part : ρ} {D : Bytes} (hD : Ds[i]? = some D) (hpart : Faulty stall D part) :
    AllFaulty stall (parts.set i part) Ds := by
  induction h generalizing i with
  | nil => exact .nil
  | cons hhead htail ih =>
      cases i with
      | zero =>
          obtain rfl := Option.some.inj hD
          exact .cons hpart htail
      | succ i => exact .cons hhead (ih hD)

omit [ReadSeek ρ] [Target] in
/-- A seek of a concatenation is retryable and leaves the parts alone. -/
theorem seek_retry {s : ConcatSource ρ} {Ds : List Bytes} (htable : Table s.starts Ds)
    (f : SeekFrom) :
    RetryStep stall Ds.flatten s.pos (.seek f (s.seek f).1) (s.seek f).2.pos ∧
      (s.seek f).2 = { s with pos := (s.seek f).2.pos } := by
  obtain ⟨q, hstep, hsame⟩ := seek_step (fun _ => True) htable f
  rw [hsame]
  exact ⟨.step hstep, rfl⟩

include hstall in
/-- A read of a concatenation is retryable, wherever the parts were left. -/
theorem read_retry {W : Bytes} {s : ConcatSource ρ} (h : s.Shows stall W) (n : Nat) :
    RetryStep stall W s.pos (.read n (s.read n).1) (s.read n).2.pos ∧
      (s.read n).2.Shows stall W := by
  obtain ⟨Ds, hparts, htable, htotal, rfl⟩ := h
  have hlength := List.Forall₂.length_eq hparts
  have hcase := s.read_cases n
  generalize s.read n = r at hcase ⊢
  cases hcase with
  | done hz =>
      have hend : n = 0 ∨ Ds.flatten.length ≤ s.pos := by
        refine hz.imp_right fun hnone => ?_
        by_contra hpos
        obtain ⟨idx, hsome, _⟩ := segmentFor_eq_some htable hlength (Nat.not_le.mp hpos)
        rw [hnone] at hsome
        cases hsome
      exact ⟨.step (.read List.nil_prefix (Nat.zero_le _) fun _ => hend), Ds, hparts, htable,
        htotal, rfl⟩
  | lost _ _ hpart hseek =>
      obtain ⟨D, hD, hfaulty⟩ := hparts.lookup hpart
      exact ⟨.step (.readError trivial), Ds, hparts.set hD (hfaulty.seek hseek), htable, htotal,
        rfl⟩
  | failed _ _ hpart hseek hread =>
      obtain ⟨D, hD, hfaulty⟩ := hparts.lookup hpart
      exact ⟨.step (.readError trivial), Ds, hparts.set hD ((hfaulty.seek hseek).read hread),
        htable, htotal, rfl⟩
  | @served idx q part part₁ part₂ bs hn hseg hpart hseek hread =>
      obtain ⟨D, hD, hfaulty⟩ := hparts.lookup hpart
      have hpos : s.pos < Ds.flatten.length := by
        by_contra hpos
        rw [segmentFor_eq_none htable (Nat.not_lt.mp hpos)] at hseg
        cases hseg
      obtain ⟨idx', hseg', _, h0, h1, hle, hlt⟩ := segmentFor_eq_some htable hlength hpos
      obtain rfl := Option.some.inj (hseg.symm.trans hseg')
      have hnext := blockStart_succ hD
      rw [h0] at hseek
      rw [h1] at hread
      obtain ⟨hpre, hlen, hend⟩ := (hfaulty.seekStart (by omega) hseek).read_ok hread
      have hrest : bs.length ≤ blockStart Ds (idx + 1) - s.pos :=
        hlen.trans ((Nat.min_le_right _ _).trans (asUsize_le _))
      have hblock := blockStart_le Ds (idx + 1)
      have hadd : addU64 s.pos bs.length = s.pos + bs.length := addU64_of_lt (by omega)
      refine ⟨?_, Ds, hparts.set hD ((hfaulty.seek hseek).read hread), htable, htotal, rfl⟩
      rw [hadd]
      apply RetryStep.of_narrowed hstall (by omega) (by omega)
        (prefix_drop_flatten hD hle hlt hpre) hlen
      intro hnil
      exact (hend hnil).imp_right fun h => h.resolve_left (by omega)

include hstall in
/-- Every call on a concatenation is retryable. -/
theorem perform_retry {W : Bytes} {s : ConcatSource ρ} (h : s.Shows stall W) (op : IoOp) :
    RetryStep stall W s.pos (perform s op).1 (perform s op).2.pos ∧
      (perform s op).2.Shows stall W := by
  cases op with
  | read n => exact read_retry hstall h n
  | seek f =>
      obtain ⟨Ds, hparts, htable, htotal, rfl⟩ := h
      obtain ⟨hstep, hsame⟩ := seek_retry htable f
      refine ⟨hstep, ?_⟩
      change (s.seek f).2.Shows stall _
      rw [hsame]
      exact ⟨Ds, hparts, htable, htotal, rfl⟩

end ConcatSource

end

/-! ### Trees -/

/-- Lengths are truncated to fewer than 64 bits, so that a read may stall. -/
def Stalls [Target] : Prop := Target.usizeBits ≠ 64

section

variable {F : Type}

/-- The position that a boxed reader keeps. An open file keeps its own. -/
def Reader.pos : Reader F → Nat
  | .mem r => r.pos
  | .cursor c => c.pos
  | .file _ => 0
  | .sub s => s.pos
  | .concat s => s.pos

variable [Target] [ReadSeek F]

/-- The boxed composite shows `W`. -/
def Reader.Shows (W : Bytes) : Reader F → Prop
  | .mem _ => False
  | .cursor _ => False
  | .file _ => False
  | .sub s => s.Shows Stalls W
  | .concat s => s.Shows Stalls W

/-- Every call on a composite is retryable. -/
theorem Reader.perform_retry {W : Bytes} {r : Reader F} (h : r.Shows W) (op : IoOp) :
    RetryStep Stalls W r.pos (perform r op).1 (perform r op).2.pos ∧ (perform r op).2.Shows W := by
  cases r with
  | mem r => exact h.elim
  | cursor c => exact h.elim
  | file f => exact h.elim
  | sub s =>
      rw [relay_sub]
      exact SubSource.perform_retry id h op
  | concat s =>
      rw [relay_concat]
      exact ConcatSource.perform_retry id h op

/-- So a composite may itself be the inner reader of a composite. -/
theorem Reader.Shows.faulty {W : Bytes} {r : Reader F} (h : r.Shows W) : Faulty Stalls W r := by
  have hfollows : Follows (RetryStep Stalls W) r r.pos := by
    refine ⟨fun r p => r.Shows W ∧ p = r.pos, ⟨h, rfl⟩, ?_⟩
    rintro r _ ⟨h, rfl⟩ op
    obtain ⟨hstep, hnext⟩ := perform_retry h op
    exact ⟨_, hstep, hnext, rfl⟩
  exact hfollows.faulty

/-- A reader over fixed contents whose calls may fail. -/
structure FaultyLeaf (F : Type) [Target] [ReadSeek F] where
  reader : Reader F
  bytes : Bytes
  faulty : Faulty Stalls bytes reader

/-- A tree of windows and concatenations over such leaves. -/
inductive FaultyTree (F : Type) [Target] [ReadSeek F] where
  | leaf (l : FaultyLeaf F)
  | sub (inner : FaultyTree F) (base len : UInt64)
  | concat (parts : List (FaultyTree F))

namespace FaultyTree

/-- The root is a composite. -/
def IsComposite : FaultyTree F → Prop
  | leaf _ => False
  | sub _ _ _ => True
  | concat _ => True

mutual

/-- Construct the readers of a tree from the leaves up. -/
def build : FaultyTree F → Except Error (Reader F)
  | .leaf l => .ok l.reader
  | .sub t base len =>
      match build t with
      | .error e => .error e
      | .ok inner => (SubSource.new inner base len).map .sub
  | .concat ts =>
      match buildAll ts with
      | .error e => .error e
      | .ok parts => (ConcatSource.new parts).map .concat

/-- Construct the parts in order, stopping at the first failure. -/
def buildAll : List (FaultyTree F) → Except Error (List (Reader F))
  | [] => .ok []
  | t :: ts =>
      match build t with
      | .error e => .error e
      | .ok r =>
          match buildAll ts with
          | .error e => .error e
          | .ok rs => .ok (r :: rs)

end

mutual

/-- The bytes a tree denotes. -/
def content : FaultyTree F → Bytes
  | .leaf l => l.bytes
  | .sub t base len => window (content t) base.toNat len.toNat
  | .concat ts => (contents ts).flatten

/-- The bytes that each tree of a list denotes. -/
def contents : List (FaultyTree F) → List Bytes
  | [] => []
  | t :: ts => content t :: contents ts

end

mutual

/-- What could be built is faulty at worst; at a composite root it is retryable. -/
theorem build_shows : ∀ {t : FaultyTree F} {r : Reader F}, build t = .ok r →
    Faulty Stalls (content t) r ∧ (t.IsComposite → r.Shows (content t) ∧ r.pos = 0)
  | .leaf l, r, h => by
      cases h
      exact ⟨l.faulty, False.elim⟩
  | .sub t base len, r, h => by
      rw [build] at h
      split at h
      · cases h
      rename_i inner hinner
      obtain ⟨s, hs, rfl⟩ := exceptMap_eq_ok.mp h
      obtain ⟨hshows, hpos⟩ := SubSource.new_shows (build_shows hinner).1 hs
      have hroot : (Reader.sub s).Shows (content (.sub t base len)) := hshows
      exact ⟨hroot.faulty, fun _ => ⟨hroot, hpos⟩⟩
  | .concat ts, r, h => by
      rw [build] at h
      split at h
      · cases h
      rename_i parts hparts
      obtain ⟨s, hs, rfl⟩ := exceptMap_eq_ok.mp h
      obtain ⟨hshows, hpos⟩ := ConcatSource.new_shows (buildAll_faulty hparts) hs
      have hroot : (Reader.concat s).Shows (content (.concat ts)) := hshows
      exact ⟨hroot.faulty, fun _ => ⟨hroot, hpos⟩⟩

theorem buildAll_faulty : ∀ {ts : List (FaultyTree F)} {rs : List (Reader F)},
    buildAll ts = .ok rs → ConcatSource.AllFaulty Stalls rs (contents ts)
  | [], rs, h => by
      cases h
      exact .nil
  | t :: ts, rs, h => by
      rw [buildAll] at h
      split at h
      · cases h
      rename_i r hr
      split at h
      · cases h
      rename_i rs' hrs
      cases h
      exact .cons (build_shows hr).1 (buildAll_faulty hrs)

end

/-- After any calls on a composite, however many of them failed, the position is the one
that their results imply; the next call is retryable there, so an error leaves the
position unchanged and a read that succeeds continues the content; and repeated reads
deliver consecutive bytes of the content from there. -/
theorem retry {t : FaultyTree F} (hroot : t.IsComposite) {r : Reader F} (hbuild : t.build = .ok r)
    (ops : List IoOp) :
    (performAll r ops).2.pos = (performAll r ops).1.foldl IoObs.landing 0 ∧
      (∀ op, RetryStep Stalls t.content (performAll r ops).2.pos
        (perform (performAll r ops).2 op).1 (perform (performAll r ops).2 op).2.pos) ∧
      ∀ ns : List Nat,
        (performAll (performAll r ops).2 (ns.map .read)).1.flatMap IoObs.delivered <+:
            t.content.drop (performAll r ops).2.pos ∧
          (performAll (performAll r ops).2 (ns.map .read)).2.pos = (performAll r ops).2.pos +
            ((performAll (performAll r ops).2 (ns.map .read)).1.flatMap IoObs.delivered).length := by
  obtain ⟨hshows, hpos⟩ := (build_shows hbuild).2 hroot
  have hstep (r : Reader F) (h : r.Shows t.content) := Reader.perform_retry h
  obtain ⟨htrace, hafter⟩ := trace_of_invariant hstep hshows ops
  rw [hpos] at htrace
  refine ⟨htrace.landing.symm, fun op => (hstep _ hafter op).1, fun ns => ?_⟩
  obtain ⟨hreads, _⟩ := trace_of_invariant hstep hafter (ns.map .read)
  exact hreads.delivered (performAll_reads _ ns)

end FaultyTree

end

/-! ### A schedule of failures -/

/-- A cursor that fails where its schedule says so, and is left at the given position. -/
structure Scheduled where
  bytes : Bytes
  pos : Nat
  schedule : List (Option Nat)
  deriving DecidableEq

namespace Scheduled

/-- The error of a scheduled failure. -/
def failure : IoError := ⟨.connectionReset, ["scheduled"]⟩

/-- One call: fail as scheduled, or do as a cursor does. -/
def call {α : Type} (s : Scheduled) (op : Cursor → IoResult α × Cursor) : IoResult α × Scheduled :=
  match s.schedule with
  | some q :: rest => (.error failure, ⟨s.bytes, q, rest⟩)
  | rest => ((op ⟨s.bytes, s.pos⟩).1, ⟨s.bytes, (op ⟨s.bytes, s.pos⟩).2.pos, rest.tail⟩)

instance : ReadSeek Scheduled where
  read s n := s.call fun c => c.read n
  seek s f := s.call fun c => c.seek f

/-- It is faulty over its bytes, whatever the schedule. -/
theorem faulty {stall : Prop} (s : Scheduled) : Faulty stall s.bytes s := by
  refine ⟨s.pos, fun t p => t.bytes = s.bytes ∧ p = t.pos, ⟨rfl, rfl⟩, ?_⟩
  rintro t _ ⟨hbytes, rfl⟩ op
  obtain ⟨hstep, _⟩ := (Cursor.mk t.bytes t.pos).step (fun _ => True) op
  rw [← hbytes]
  obtain ⟨bytes, pos, schedule⟩ := t
  match schedule with
  | some q :: rest =>
      cases op with
      | read n => exact ⟨q, .readError, rfl, rfl⟩
      | seek f => exact ⟨q, .seekError, rfl, rfl⟩
  | none :: rest =>
      cases op with
      | read n => exact ⟨_, .step (.step hstep), rfl, rfl⟩
      | seek f => exact ⟨_, .step (.step hstep), rfl, rfl⟩
  | [] =>
      cases op with
      | read n => exact ⟨_, .step (.step hstep), rfl, rfl⟩
      | seek f => exact ⟨_, .step (.step hstep), rfl, rfl⟩

end Scheduled

namespace FaultyTree

/-- A file that fails on a schedule, as a leaf. -/
def scheduled [Target] (s : Scheduled) : FaultyTree Scheduled :=
  .leaf ⟨.file s, s.bytes, by
    obtain ⟨p, hp⟩ : Faulty Stalls s.bytes s := s.faulty
    exact ⟨p, hp.relay fun _ op => by cases op <;> rfl⟩⟩

/-- A window across two files. The first fails at its first read and the second at its
first repositioning, both after the tree was built. -/
def shaky [Target] : FaultyTree Scheduled :=
  .sub (.concat [scheduled ⟨[1, 2], 0, [none, none, none, some 7]⟩,
    scheduled ⟨[3, 4], 0, [none, some 9]⟩]) 1 2

theorem retry_shaky : letI := target64
    ∃ r : Reader Scheduled, shaky.build = .ok r ∧
      (performAll r (List.replicate 4 (.read 5))).1.map IoObs.delivered = [[], [2], [], [3]] ∧
      (performAll r (List.replicate 4 (.read 5))).2.pos =
        (performAll r (List.replicate 4 (.read 5))).1.foldl IoObs.landing 0 := by
  let := target64
  refine ⟨_, rfl, by decide, ?_⟩
  exact (retry (t := shaky) trivial rfl _).1

end FaultyTree

end OxideSource
