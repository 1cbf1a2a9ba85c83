import OxideSource.Core.Io
import OxideSource.Core.Machine
import OxideSource.Core.Window

/-!
# Cursors over fixed content

Two specifications of `Read + Seek` objects over a byte string that never changes.
`Serves` is the contract of an underlying source: it may return short reads and
may fail, after which its cursor is anywhere until the next successful absolute
seek. `Behaves` is the contract promised to a caller: `io::Cursor` itself, except
that reads may be short and may fail without moving. Both are greatest relations,
so a proof supplies a relation closed under the operations.
-/

namespace OxideSource

/-- Where a seek lands on content of length `len`, from a possibly unknown position. -/
def seekTarget (len : Nat) (pos : Option Nat) : SeekFrom → Option Nat
  | .fromStart n => some n.toNat
  | .fromEnd d => checkedAddSigned len d
  | .fromCurrent d => pos.bind fun p => checkedAddSigned p d

/-- A seek lands on a `u64`. -/
theorem seekTarget_lt {len p q : Nat} {f : SeekFrom} (hlen : len < u64Size) (hp : p < u64Size)
    (h : seekTarget len (some p) f = some q) : q < u64Size := by
  cases f with
  | fromStart n =>
      obtain rfl := Option.some.inj h
      exact n.toNat_lt
  | fromEnd d => exact checkedAddSigned_lt hlen h
  | fromCurrent d => exact checkedAddSigned_lt hp h

/-- `io::Cursor<Vec<u8>>`. -/
structure Cursor where
  bytes : Bytes
  pos : Nat
  deriving DecidableEq, Repr

namespace Cursor

/-- `Cursor::new`. -/
def new (bytes : Bytes) : Cursor := ⟨bytes, 0⟩

/-- `impl Read for Cursor`. -/
def read (c : Cursor) (want : Nat) : IoResult Bytes × Cursor :=
  let bs := (c.bytes.drop (min c.pos c.bytes.length)).take want
  (.ok bs, { c with pos := c.pos + bs.length })

/-- `impl Seek for Cursor`. -/
def seek (c : Cursor) (from_ : SeekFrom) : IoResult Nat × Cursor :=
  match seekTarget c.bytes.length (some c.pos) from_ with
  | some q => (.ok q, { c with pos := q })
  | none => (.error ⟨.invalidInput,
      ["invalid seek to a negative or overflowing position"]⟩, c)

instance : ReadSeek Cursor := ⟨read, seek⟩

end Cursor

/-! ### Observations -/

/-- One call on a `Read + Seek` object. -/
inductive IoOp where
  | read (want : Nat)
  | seek (from_ : SeekFrom)

/-- A call together with its result. -/
inductive IoObs where
  | read (want : Nat) (res : IoResult Bytes)
  | seek (from_ : SeekFrom) (res : IoResult Nat)
  deriving DecidableEq

/-- What a caller may observe of a cursor over `D`: seeks resolve as those of
`io::Cursor` and fail without moving; a read delivers a prefix of the remaining
bytes, empty only for an empty buffer or at the end, or fails without moving with
an error that `allow` admits. -/
inductive CursorStep (D : Bytes) (allow : IoError → Prop) : Nat → IoObs → Nat → Prop where
  | read {p n : Nat} {bs : Bytes} (hpre : bs <+: D.drop p) (hlen : bs.length ≤ n)
      (hend : bs = [] → n = 0 ∨ D.length ≤ p) :
      CursorStep D allow p (.read n (.ok bs)) (p + bs.length)
  | readError {p n : Nat} {e : IoError} (h : allow e) :
      CursorStep D allow p (.read n (.error e)) p
  | seek {p q : Nat} {f : SeekFrom} (h : seekTarget D.length (some p) f = some q) :
      CursorStep D allow p (.seek f (.ok q)) q
  | seekError {p : Nat} {f : SeekFrom} {e : IoError}
      (h : seekTarget D.length (some p) f = none) (hkind : e.kind = .invalidInput) :
      CursorStep D allow p (.seek f (.error e)) p

/-- More errors allowed. -/
theorem CursorStep.mono {D : Bytes} {allow allow' : IoError → Prop} {p q : Nat} {o : IoObs}
    (hallow : ∀ e, allow e → allow' e) (h : CursorStep D allow p o q) :
    CursorStep D allow' p o q := by
  cases h with
  | read hp hl he => exact .read hp hl he
  | readError he => exact .readError (hallow _ he)
  | seek ht => exact .seek ht
  | seekError ht hk => exact .seekError ht hk

/-- Traces of a cursor over `D`. -/
abbrev CursorTrace (D : Bytes) (allow : IoError → Prop) : Nat → List IoObs → Nat → Prop :=
  Trace (CursorStep D allow)

section Objects

variable {σ τ : Type} [ReadSeek σ] [ReadSeek τ]

/-- Perform one call. -/
def perform (s : σ) : IoOp → IoObs × σ
  | .read n => ((ReadSeek.read s n).map (.read n) id)
  | .seek f => ((ReadSeek.seek s f).map (.seek f) id)

/-- Perform a sequence of calls. -/
def performAll : σ → List IoOp → List IoObs × σ
  | s, [] => ([], s)
  | s, op :: ops =>
      let (o, s') := perform s op
      let (os, t) := performAll s' ops
      (o :: os, t)

/-! ### What every call returns -/

/-- Every call of `s`, now or later, returns what the two predicates admit. -/
def Returns (reads : Nat → IoResult Bytes → Prop) (seeks : IoResult Nat → Prop) (s : σ) : Prop :=
  ∃ P : σ → Prop, P s ∧ (∀ s, P s → ∀ n, reads n (ReadSeek.read s n).1 ∧ P (ReadSeek.read s n).2) ∧
    ∀ s, P s → ∀ f, seeks (ReadSeek.seek s f).1 ∧ P (ReadSeek.seek s f).2

theorem Returns.read {reads : Nat → IoResult Bytes → Prop} {seeks : IoResult Nat → Prop} {s : σ}
    (h : Returns reads seeks s) (n : Nat) :
    reads n (ReadSeek.read s n).1 ∧ Returns reads seeks (ReadSeek.read s n).2 := by
  obtain ⟨P, hs, hread, hseek⟩ := h
  exact ⟨(hread s hs n).1, P, (hread s hs n).2, hread, hseek⟩

theorem Returns.seek {reads : Nat → IoResult Bytes → Prop} {seeks : IoResult Nat → Prop} {s : σ}
    (h : Returns reads seeks s) (f : SeekFrom) :
    seeks (ReadSeek.seek s f).1 ∧ Returns reads seeks (ReadSeek.seek s f).2 := by
  obtain ⟨P, hs, hread, hseek⟩ := h
  exact ⟨(hseek s hs f).1, P, (hseek s hs f).2, hread, hseek⟩

/-! ### The contract promised to callers -/

/-- A relation between objects and cursor positions over `D` that every call keeps. -/
structure Promises (D : Bytes) (allow : IoError → Prop) (R : σ → Nat → Prop) : Prop where
  perform : ∀ {s p}, R s p → ∀ op, ∃ q, CursorStep D allow p (perform s op).1 q ∧
    R (perform s op).2 q

/-- `s` behaves as a cursor over `D` at position `p`. -/
def Behaves (D : Bytes) (allow : IoError → Prop) (s : σ) (p : Nat) : Prop :=
  ∃ R, Promises D allow R ∧ R s p

theorem promises_behaves (D : Bytes) (allow : IoError → Prop) :
    Promises D allow (Behaves (σ := σ) D allow) where
  perform := by
    rintro s p ⟨R, hR, hs⟩ op
    obtain ⟨q, hstep, hq⟩ := hR.perform hs op
    exact ⟨q, hstep, R, hR, hq⟩

/-- Every sequence of calls on an object that behaves is a cursor trace, and the
object left behind still behaves. -/
theorem Behaves.trace {D : Bytes} {allow : IoError → Prop} {s : σ} {p : Nat}
    (h : Behaves D allow s p) (ops : List IoOp) :
    ∃ q, CursorTrace D allow p (performAll s ops).1 q ∧ Behaves D allow (performAll s ops).2 q := by
  induction ops generalizing s p with
  | nil => exact ⟨p, .nil p, h⟩
  | cons op ops ih =>
      obtain ⟨q, hstep, hq⟩ := (promises_behaves D allow).perform h op
      obtain ⟨r, htrace, hr⟩ := ih hq
      exact ⟨r, .cons hstep htrace, hr⟩

/-- Fewer admitted errors promise more. -/
theorem Behaves.mono {D : Bytes} {allow allow' : IoError → Prop} {s : σ} {p : Nat}
    (hallow : ∀ e, allow e → allow' e) (h : Behaves D allow s p) : Behaves D allow' s p := by
  refine ⟨Behaves D allow, ⟨?_⟩, h⟩
  intro s p hs op
  obtain ⟨q, hstep, hq⟩ := (promises_behaves D allow).perform hs op
  exact ⟨q, hstep.mono hallow, hq⟩

/-- A wrapper that only relays calls behaves as what it wraps. -/
theorem Behaves.relay {D : Bytes} {allow : IoError → Prop} {f : σ → τ}
    (hrelay : ∀ s op, perform (f s) op = (perform s op).map id f) {s : σ} {p : Nat}
    (h : Behaves D allow s p) : Behaves D allow (f s) p := by
  refine ⟨fun t q => ∃ s, t = f s ∧ Behaves D allow s q, ⟨?_⟩, s, rfl, h⟩
  rintro _ p ⟨s, rfl, hs⟩ op
  obtain ⟨q, hstep, hq⟩ := (promises_behaves D allow).perform hs op
  rw [hrelay]
  exact ⟨q, hstep, _, rfl, hq⟩

/-- A seek that resolves succeeds and moves there. -/
theorem Behaves.seek {D : Bytes} {allow : IoError → Prop} {s : σ} {p q : Nat} {f : SeekFrom}
    (h : Behaves D allow s p) (ht : seekTarget D.length (some p) f = some q) :
    ∃ s', ReadSeek.seek s f = (.ok q, s') ∧ Behaves D allow s' q := by
  obtain ⟨q', hstep, hq⟩ := (promises_behaves D allow).perform h (.seek f)
  change CursorStep D allow p (.seek f (ReadSeek.seek s f).1) q' at hstep
  change Behaves D allow (ReadSeek.seek s f).2 q' at hq
  generalize ReadSeek.seek s f = r at hstep hq
  obtain ⟨r, s'⟩ := r
  cases hstep with
  | seek ht' =>
      obtain rfl := Option.some.inj (ht'.symm.trans ht)
      exact ⟨s', rfl, hq⟩
  | seekError ht' => rw [ht'] at ht; cases ht

/-- A cursor over `D` without any error but those of seeks. -/
abbrev Exact (D : Bytes) (s : σ) (p : Nat) : Prop := Behaves D (fun _ => False) s p

/-- A read that cannot fail delivers the next bytes. -/
theorem Exact.read {D : Bytes} {s : σ} {p : Nat} (h : Exact D s p) (n : Nat) :
    ∃ bs s', ReadSeek.read s n = (.ok bs, s') ∧ bs <+: D.drop p ∧
      (bs = [] → n = 0 ∨ D.length ≤ p) ∧ Exact D s' (p + bs.length) := by
  obtain ⟨q, hstep, hq⟩ := (promises_behaves D _).perform h (.read n)
  change CursorStep D _ p (.read n (ReadSeek.read s n).1) q at hstep
  change Behaves D _ (ReadSeek.read s n).2 q at hq
  generalize ReadSeek.read s n = r at hstep hq
  obtain ⟨r, s'⟩ := r
  cases hstep with
  | read hpre _ hend => exact ⟨_, s', rfl, hpre, hend, hq⟩
  | readError he => exact he.elim

/-- `read_to_end` with a buffer of the given size and at most `k` calls. -/
def readToEnd (size : Nat) : Nat → σ → Option (IoResult Bytes)
  | 0, _ => none
  | k + 1, s =>
      match ReadSeek.read s size with
      | (.error e, _) => some (.error e)
      | (.ok [], _) => some (.ok [])
      | (.ok bs, s) => (readToEnd size k s).map (.map (bs ++ ·))

/-- Reading to the end delivers all that remains. -/
theorem Exact.readToEnd {D : Bytes} {s : σ} {p size k : Nat} (h : Exact D s p) (hsize : 0 < size)
    (hk : D.length - p < k) : readToEnd size k s = some (.ok (D.drop p)) := by
  induction k generalizing s p with
  | zero => exact absurd hk (Nat.not_lt_zero _)
  | succ k ih =>
      obtain ⟨bs, s', hread, hpre, hend, h'⟩ := h.read size
      cases bs with
      | nil =>
          have hdone : D.length ≤ p := (hend rfl).resolve_left (by omega)
          rw [OxideSource.readToEnd, hread, List.drop_of_length_le hdone]
      | cons b bs =>
          have hle := add_length_le_of_prefix_drop hpre (List.cons_ne_nil b bs)
          have hpos : 0 < (b :: bs).length := Nat.zero_lt_succ _
          have hrest := ih h' (by omega)
          have hjoin : b :: bs ++ D.drop (p + (b :: bs).length) = D.drop p := by
            obtain ⟨tail, ht⟩ := hpre
            rw [← List.drop_drop, ← ht, List.drop_left]
          rw [OxideSource.readToEnd, hread]
          simp only [hrest, Option.map_some, Except.map, hjoin]

/-! ### The contract expected of underlying sources -/

end Objects

/-- The errors an underlying source may return: reads that fail without moving,
reads that lose the cursor, and seeks to a given position that lose it. -/
structure Faults where
  keeps : IoError → Prop
  reads : IoError → Prop
  seeks : Nat → IoError → Prop

/-- A source without errors. -/
def Faults.none : Faults := ⟨fun _ => False, fun _ => False, fun _ _ => False⟩

/-- Reads may fail without moving, nothing else. -/
def Faults.transient (allow : IoError → Prop) : Faults := ⟨allow, fun _ => False, fun _ _ => False⟩

/-- Every error a source may return from a call. -/
def Faults.any (F : Faults) (e : IoError) : Prop :=
  F.keeps e ∨ F.reads e ∨ ∃ q, F.seeks q e

theorem Faults.any_transient {allow : IoError → Prop} {e : IoError}
    (h : (Faults.transient allow).any e) : allow e := by
  rcases h with h | h | ⟨_, h⟩
  · exact h
  · exact h.elim
  · exact h.elim

/-- The outcome of a read of `n` bytes at position `p` of `D`. -/
inductive ReadOutcome (F : Faults) (D : Bytes) (p n : Nat) :
    IoResult Bytes → Option Nat → Prop where
  | ok {bs : Bytes} (hpre : bs <+: D.drop p) (hlen : bs.length ≤ n)
      (hend : bs = [] → n = 0 ∨ D.length ≤ p) : ReadOutcome F D p n (.ok bs) (some (p + bs.length))
  | keeps {e : IoError} (h : F.keeps e) : ReadOutcome F D p n (.error e) (some p)
  | fails {e : IoError} (h : F.reads e) : ReadOutcome F D p n (.error e) Option.none

/-- The outcome of a seek that resolves to `q`. -/
inductive SeekOutcome (F : Faults) (q : Nat) : IoResult Nat → Option Nat → Prop where
  | ok : SeekOutcome F q (.ok q) (some q)
  | fails {e : IoError} (h : F.seeks q e) : SeekOutcome F q (.error e) Option.none

/-- A relation between source states and possibly unknown cursors into `D` that
reads and resolved seeks keep. -/
structure Provides {σ : Type} [ReadSeek σ] (F : Faults) (D : Bytes)
    (At : σ → Option Nat → Prop) : Prop where
  read : ∀ {s p}, At s (some p) → ∀ n, ∃ c,
    ReadOutcome F D p n (ReadSeek.read s n).1 c ∧ At (ReadSeek.read s n).2 c
  seek : ∀ {s c f q}, At s c → seekTarget D.length c f = some q → ∃ c',
    SeekOutcome F q (ReadSeek.seek s f).1 c' ∧ At (ReadSeek.seek s f).2 c'

/-- `s` serves the bytes `D`, with cursor `c` when that is known. -/
def Serves {σ : Type} [ReadSeek σ] (F : Faults) (D : Bytes) (s : σ) (c : Option Nat) : Prop :=
  ∃ At, Provides F D At ∧ At s c

section Sources

variable {σ : Type} [ReadSeek σ] {F : Faults} {D : Bytes} {s : σ} {c : Option Nat} {p n q : Nat}

theorem provides_serves : Provides (σ := σ) F D (Serves F D) where
  read := by
    rintro s p ⟨At, hAt, hs⟩ n
    obtain ⟨c, ho, hc⟩ := hAt.read hs n
    exact ⟨c, ho, At, hAt, hc⟩
  seek := by
    rintro s c f q ⟨At, hAt, hs⟩ ht
    obtain ⟨c', ho, hc⟩ := hAt.seek hs ht
    exact ⟨c', ho, At, hAt, hc⟩

/-- A read, where the cursor is known. -/
theorem Serves.read (h : Serves F D s (some p)) (n : Nat) : ∃ c,
    ReadOutcome F D p n (ReadSeek.read s n).1 c ∧ Serves F D (ReadSeek.read s n).2 c :=
  provides_serves.read h n

/-- A seek to a target that is known. -/
theorem Serves.seek (h : Serves F D s c) {f : SeekFrom} (ht : seekTarget D.length c f = some q) :
    ∃ c', SeekOutcome F q (ReadSeek.seek s f).1 c' ∧ Serves F D (ReadSeek.seek s f).2 c' :=
  provides_serves.seek h ht

/-- An absolute seek on a serving source either places its cursor or loses it. -/
theorem Serves.seekStart (h : Serves F D s c) (hq : q < u64Size) :
    (∃ s', ReadSeek.seek s (.fromStart (.ofNat q)) = (.ok q, s') ∧ Serves F D s' (some q)) ∨
    ∃ e s', ReadSeek.seek s (.fromStart (.ofNat q)) = (.error e, s') ∧ F.seeks q e ∧
      Serves F D s' none := by
  have ht : seekTarget D.length c (.fromStart (.ofNat q)) = some q :=
    congrArg some (toNat_ofNat_of_lt hq)
  obtain ⟨c', ho, hc⟩ := h.seek ht
  generalize he : ReadSeek.seek s (.fromStart (.ofNat q)) = r at ho hc
  obtain ⟨r, s'⟩ := r
  cases ho with
  | ok => exact .inl ⟨s', rfl, hc⟩
  | fails hf => exact .inr ⟨_, s', rfl, hf, hc⟩

/-- An absolute seek that succeeds places the cursor of a serving source. -/
theorem Serves.seekStart_ok (h : Serves F D s c) (hq : q < u64Size) {r : Nat} {s' : σ}
    (hseek : ReadSeek.seek s (.fromStart (.ofNat q)) = (.ok r, s')) : Serves F D s' (some q) := by
  rcases h.seekStart hq with ⟨t, hok, ht⟩ | ⟨e, t, herr, _, _⟩
  · rw [hseek] at hok
    cases hok
    exact ht
  · rw [hseek] at herr
    cases herr

/-- An absolute seek that fails loses the cursor of a serving source. -/
theorem Serves.seekStart_error (h : Serves F D s c) (hq : q < u64Size) {e : IoError} {s' : σ}
    (hseek : ReadSeek.seek s (.fromStart (.ofNat q)) = (.error e, s')) :
    F.seeks q e ∧ Serves F D s' none := by
  rcases h.seekStart hq with ⟨t, hok, _⟩ | ⟨e', t, herr, hf, ht⟩
  · rw [hseek] at hok
    cases hok
  · rw [hseek] at herr
    cases herr
    exact ⟨hf, ht⟩

/-- A read that succeeds delivers the bytes at the cursor and moves it behind them. -/
theorem Serves.read_ok (h : Serves F D s (some p)) {bs : Bytes} {s' : σ}
    (hread : ReadSeek.read s n = (.ok bs, s')) :
    bs <+: D.drop p ∧ bs.length ≤ n ∧ (bs = [] → n = 0 ∨ D.length ≤ p) ∧
      Serves F D s' (some (p + bs.length)) := by
  obtain ⟨c', ho, hc⟩ := h.read n
  rw [hread] at ho hc
  cases ho with
  | ok hp hl he => exact ⟨hp, hl, he, hc⟩

/-- A read that fails leaves the cursor of a serving source somewhere. -/
theorem Serves.read_error (h : Serves F D s (some p)) {e : IoError} {s' : σ}
    (hread : ReadSeek.read s n = (.error e, s')) : F.any e ∧ ∃ c', Serves F D s' c' := by
  obtain ⟨c', ho, hc⟩ := h.read n
  rw [hread] at ho hc
  cases ho with
  | keeps hk => exact ⟨.inl hk, _, hc⟩
  | fails hf => exact ⟨.inr (.inl hf), _, hc⟩

/-- What behaves for its callers serves a wrapper: its cursor is never lost. -/
theorem Behaves.serves {allow : IoError → Prop} (h : Behaves D allow s p) :
    Serves (Faults.transient allow) D s (some p) := by
  refine ⟨fun s c => ∃ p, c = some p ∧ Behaves D allow s p, ⟨?_, ?_⟩, p, rfl, h⟩
  · rintro s p ⟨p', hp, hs⟩ n
    obtain rfl := Option.some.inj hp
    obtain ⟨q, hstep, hq⟩ := (promises_behaves D allow).perform hs (.read n)
    change CursorStep D allow _ (.read n (ReadSeek.read s n).1) q at hstep
    generalize (ReadSeek.read s n).1 = r at hstep
    cases hstep with
    | read hp hl he => exact ⟨_, .ok hp hl he, _, rfl, hq⟩
    | readError he => exact ⟨_, .keeps he, _, rfl, hq⟩
  · rintro s _ f q ⟨p, rfl, hs⟩ ht
    obtain ⟨q', hstep, hq⟩ := (promises_behaves D allow).perform hs (.seek f)
    change CursorStep D allow _ (.seek f (ReadSeek.seek s f).1) q' at hstep
    generalize (ReadSeek.seek s f).1 = r at hstep
    cases hstep with
    | seek ht' =>
        obtain rfl := Option.some.inj (ht'.symm.trans ht)
        exact ⟨_, .ok, _, rfl, hq⟩
    | seekError ht' => rw [ht'] at ht; cases ht

end Sources

/-- Every call on `io::Cursor` is a step from its own position and keeps its bytes. -/
theorem Cursor.step (allow : IoError → Prop) (c : Cursor) (op : IoOp) :
    CursorStep c.bytes allow c.pos (perform c op).1 (perform c op).2.pos ∧
      (perform c op).2.bytes = c.bytes := by
  cases op with
  | read n =>
      refine ⟨CursorStep.read (n := n) ?_ ?_ ?_, rfl⟩
      · refine (List.take_prefix _ _).trans ?_
        rcases Nat.le_total c.pos c.bytes.length with h | h
        · rw [Nat.min_eq_left h]
        · rw [Nat.min_eq_right h, List.drop_length]
          exact List.nil_prefix
      · exact List.length_take_le _ _
      · intro h
        rw [List.take_eq_nil_iff, List.drop_eq_nil_iff] at h
        omega
  | seek f =>
      cases ht : seekTarget c.bytes.length (some c.pos) f with
      | some q =>
          have hseek : c.seek f = (.ok q, { c with pos := q }) := by
            simp only [Cursor.seek, ht]
          simp only [perform, ReadSeek.seek, hseek]
          exact ⟨.seek ht, rfl⟩
      | none =>
          have hseek : ∃ e : IoError, e.kind = .invalidInput ∧ c.seek f = (.error e, c) := by
            simp only [Cursor.seek, ht]
            exact ⟨_, rfl, rfl⟩
          obtain ⟨e, hk, hseek⟩ := hseek
          simp only [perform, ReadSeek.seek, hseek]
          exact ⟨.seekError ht hk, rfl⟩

/-- `io::Cursor` behaves as a cursor over its bytes at its own position. -/
theorem Cursor.behaves (allow : IoError → Prop) (c : Cursor) : Behaves c.bytes allow c c.pos := by
  refine ⟨fun s p => s.bytes = c.bytes ∧ s.pos = p, ⟨?_⟩, rfl, rfl⟩
  rintro s p ⟨hbytes, rfl⟩ op
  obtain ⟨hstep, hkeep⟩ := s.step allow op
  rw [hbytes] at hstep hkeep
  exact ⟨_, hstep, hkeep, rfl⟩

end OxideSource
