import OxideSource.Core.Retries

/-!
# What callers get

A caller that loops over short reads, or seeks and asks for the position in between, sees
nothing of how an object splits its reads: two exact cursors over the same bytes answer
every sequence of such calls alike. So does whatever shows a trace of a cursor, as far as a
caller that repeats its failed reads has come. A caller that reads until a read delivers
nothing has everything that was left.
-/

namespace OxideSource

section

variable {σ τ : Type} [ReadSeek σ] [ReadSeek τ]

/-- The loop of `read_upto` within at most `k` reads, for `n` more bytes. -/
def fillWithin : Nat → σ → Nat → IoResult Bytes × σ
  | 0, s, _ => (.ok [], s)
  | k + 1, s, n =>
      if n = 0 then (.ok [], s)
      else
        match ReadSeek.read s n with
        | (.error e, s) => (.error e, s)
        | (.ok [], s) => (.ok [], s)
        | (.ok bs, s) => (fillWithin k s (n - bs.length)).map (.map (bs ++ ·)) id

/-- `read_upto`: read until `n` bytes have arrived or a read delivers nothing. Every other
read delivers a byte, so `n` reads suffice. -/
def readUpto (s : σ) (n : Nat) : IoResult Bytes × σ := fillWithin n s n

/-- One call of a caller that does not look at single reads. -/
inductive Call where
  | readUpto (n : Nat)
  | seek (f : SeekFrom)
  | streamPosition

/-- What the caller compares: the bytes or the position, or the kind of the error. -/
inductive Answer where
  | bytes (bs : Bytes)
  | position (p : Nat)
  | refused (kind : ErrorKind)
  deriving DecidableEq

/-- The answer for a result. -/
def Answer.of {α : Type} (f : α → Answer) : IoResult α → Answer
  | .ok a => f a
  | .error e => .refused e.kind

/-- The answer to a call. -/
def ask (s : σ) : Call → Answer × σ
  | .readUpto n => (readUpto s n).map (.of .bytes) id
  | .seek f => (ReadSeek.seek s f).map (.of .position) id
  | .streamPosition => (streamPosition s).map (.of .position) id

/-- The answers to a sequence of calls. -/
def askAll : σ → List Call → List Answer
  | _, [] => []
  | s, c :: cs => (ask s c).1 :: askAll (ask s c).2 cs

variable {D : Bytes} {s : σ} {t : τ} {p q : Nat}

/-- A read delivers no more than was asked for. -/
theorem Exact.length_read (h : Exact D s p) {n : Nat} {bs : Bytes} {s' : σ}
    (hread : ReadSeek.read s n = (.ok bs, s')) : bs.length ≤ n := by
  obtain ⟨q, hstep, _⟩ := (promises_behaves D _).perform h (.read n)
  change CursorStep D _ p (.read n (ReadSeek.read s n).1) q at hstep
  rw [hread] at hstep
  cases hstep with
  | read _ hlen _ => exact hlen

/-- The loop delivers what is left, up to what was asked for. -/
theorem Exact.fillWithin {k n : Nat} (h : Exact D s p) (hk : n ≤ k) :
    ∃ s', OxideSource.fillWithin k s n = (.ok ((D.drop p).take n), s') ∧
      Exact D s' (p + ((D.drop p).take n).length) := by
  induction k generalizing s p n with
  | zero =>
      obtain rfl := Nat.le_zero.mp hk
      exact ⟨s, rfl, h⟩
  | succ k ih =>
      by_cases hn : n = 0
      · subst hn
        exact ⟨s, if_pos rfl, h⟩
      obtain ⟨bs, s', hread, ⟨tail, htail⟩, hend, h'⟩ := h.read n
      rw [OxideSource.fillWithin, if_neg hn, hread]
      cases bs with
      | nil =>
          have hdone : D.drop p = [] := List.drop_of_length_le ((hend rfl).resolve_left hn)
          rw [hdone, List.take_nil]
          exact ⟨s', rfl, h'⟩
      | cons b bs =>
          have hlen := h.length_read hread
          obtain ⟨s'', hfill, h''⟩ := ih (n := n - (b :: bs).length) h' (by simp; omega)
          have hjoin : b :: bs ++ (D.drop (p + (b :: bs).length)).take (n - (b :: bs).length) =
              (D.drop p).take n := by
            rw [← List.drop_drop, ← htail, List.drop_left, List.take_append,
              List.take_of_length_le hlen]
          refine ⟨s'', ?_, ?_⟩
          · simp only [hfill, Prod.map, Except.map, hjoin, id]
          · rw [← hjoin, List.length_append, ← Nat.add_assoc]
            exact h''

/-- A seek lands where it resolves, or is refused and moves nothing. -/
theorem Exact.seek_cases (h : Exact D s p) (f : SeekFrom) :
    (∃ q s', seekTarget D.length (some p) f = some q ∧ ReadSeek.seek s f = (.ok q, s') ∧
      Exact D s' q) ∨
    ∃ e s', seekTarget D.length (some p) f = none ∧ e.kind = .invalidInput ∧
      ReadSeek.seek s f = (.error e, s') ∧ Exact D s' p := by
  cases ht : seekTarget D.length (some p) f with
  | some q =>
      obtain ⟨s', hseek, h'⟩ := h.seek ht
      exact .inl ⟨q, s', rfl, hseek, h'⟩
  | none =>
      obtain ⟨q, hstep, hq⟩ := (promises_behaves D _).perform h (.seek f)
      change CursorStep D _ p (.seek f (ReadSeek.seek s f).1) q at hstep
      change Exact D (ReadSeek.seek s f).2 q at hq
      generalize ReadSeek.seek s f = r at hstep hq
      obtain ⟨r, s'⟩ := r
      cases hstep with
      | seek ht' => rw [ht] at ht'; cases ht'
      | seekError _ hkind => exact .inr ⟨_, s', rfl, hkind, rfl, hq⟩

/-- Two exact cursors seek alike. -/
theorem Exact.seek_alike (hs : Exact D s p) (ht : Exact D t p) (f : SeekFrom) :
    ∃ q, Answer.of .position (ReadSeek.seek s f).1 = Answer.of .position (ReadSeek.seek t f).1 ∧
      Exact D (ReadSeek.seek s f).2 q ∧ Exact D (ReadSeek.seek t f).2 q := by
  rcases hs.seek_cases f with ⟨q, s', htarget, hseek, hs'⟩ | ⟨e, s', htarget, hkind, hseek, hs'⟩
  · obtain ⟨t', hseek', ht'⟩ := ht.seek htarget
    rw [hseek, hseek']
    exact ⟨q, rfl, hs', ht'⟩
  · rcases ht.seek_cases f with ⟨_, _, hsome, _⟩ | ⟨e', t', _, hkind', hseek', ht'⟩
    · rw [htarget] at hsome
      cases hsome
    · rw [hseek, hseek']
      exact ⟨p, by simp only [Answer.of, hkind, hkind'], hs', ht'⟩

/-- Two exact cursors answer a call alike, and stay together. -/
theorem Exact.ask_alike (hs : Exact D s p) (ht : Exact D t p) (c : Call) :
    ∃ q, (ask s c).1 = (ask t c).1 ∧ Exact D (ask s c).2 q ∧ Exact D (ask t c).2 q := by
  cases c with
  | readUpto n =>
      obtain ⟨s', hfill, hs'⟩ := hs.fillWithin (Nat.le_refl n)
      obtain ⟨t', hfill', ht'⟩ := ht.fillWithin (Nat.le_refl n)
      exact ⟨_, by simp only [ask, readUpto, hfill, hfill', Prod.map], by
        simpa only [ask, readUpto, hfill, Prod.map, id] using hs', by
        simpa only [ask, readUpto, hfill', Prod.map, id] using ht'⟩
  | seek f => exact hs.seek_alike ht f
  | streamPosition => exact hs.seek_alike ht (.fromCurrent 0)

/-- Two exact cursors over the same bytes answer every sequence of calls alike. -/
theorem Exact.askAll_eq (hs : Exact D s p) (ht : Exact D t p) (cs : List Call) :
    askAll s cs = askAll t cs := by
  induction cs generalizing s t p with
  | nil => rfl
  | cons c cs ih =>
      obtain ⟨q, hsame, hs', ht'⟩ := hs.ask_alike ht c
      rw [askAll, askAll, hsame, ih hs' ht']

/-- One read for all that is left. -/
theorem Exact.askAll_readUpto (h : Exact D s p) (n : Nat) :
    askAll s [.readUpto n] = [.bytes ((D.drop p).take n)] := by
  obtain ⟨s', hfill, _⟩ := h.fillWithin (Nat.le_refl n)
  simp only [askAll, ask, readUpto, hfill, Prod.map, Answer.of]

/-- Exact cursors that answer alike from their fronts stand over the same bytes. -/
theorem Exact.bytes_eq {E : Bytes} (hs : Exact D s 0) (ht : Exact E t 0)
    (h : ∀ calls, askAll s calls = askAll t calls) : D = E := by
  have hboth := h [.readUpto (max D.length E.length)]
  rw [hs.askAll_readUpto, ht.askAll_readUpto, List.drop_zero, List.drop_zero,
    List.take_of_length_le (Nat.le_max_left _ _),
    List.take_of_length_le (Nat.le_max_right _ _)] at hboth
  exact Answer.bytes.inj (List.cons.inj hboth).1

/-! ### Calls in a trace -/

/-- The reads of a caller that wants `n` more bytes and repeats failed reads, with what
they deliver. -/
inductive Fills : Nat → List IoObs → Bytes → Prop where
  | full : Fills 0 [] []
  | atEnd {n : Nat} (hn : n ≠ 0) : Fills n [.read n (.ok [])] []
  | more {n : Nat} {bs cs : Bytes} {os : List IoObs} (hn : n ≠ 0) (hbs : bs ≠ [])
      (h : Fills (n - bs.length) os cs) : Fills n (.read n (.ok bs) :: os) (bs ++ cs)
  | again {n : Nat} {e : IoError} {os : List IoObs} {bs : Bytes} (hn : n ≠ 0)
      (h : Fills n os bs) : Fills n (.read n (.error e) :: os) bs

/-- The observations of one call, and its answer. -/
inductive Answers : Call → List IoObs → Answer → Prop where
  | readUpto {n : Nat} {os : List IoObs} {bs : Bytes} (h : Fills n os bs) :
      Answers (.readUpto n) os (.bytes bs)
  | seek (f : SeekFrom) (r : IoResult Nat) : Answers (.seek f) [.seek f r] (.of .position r)
  | streamPosition (r : IoResult Nat) :
      Answers .streamPosition [.seek (.fromCurrent 0) r] (.of .position r)

/-- The reads so far of such a caller, whose loop need not be done. -/
inductive Filling : Nat → List IoObs → Bytes → Prop where
  | nil {n : Nat} : Filling n [] []
  | more {n : Nat} {bs cs : Bytes} {os : List IoObs} (h : Filling (n - bs.length) os cs) :
      Filling n (.read n (.ok bs) :: os) (bs ++ cs)
  | again {n : Nat} {e : IoError} {os : List IoObs} {bs : Bytes} (h : Filling n os bs) :
      Filling n (.read n (.error e) :: os) bs

/-- The observations of a caller that makes a sequence of calls, at any time: the answers
to the calls that are done, and the bytes that the loop of the next one has so far. -/
inductive Script : List Call → List IoObs → List Answer → Bytes → Prop where
  | rest (cs : List Call) : Script cs [] [] []
  | filling {n : Nat} {cs : List Call} {os : List IoObs} {bs : Bytes} (h : Filling n os bs) :
      Script (.readUpto n :: cs) os [] bs
  | cons {c : Call} {os ps : List IoObs} {x : Answer} {cs : List Call} {xs : List Answer}
      {bs : Bytes} (h : Answers c os x) (hs : Script cs ps xs bs) :
      Script (c :: cs) (os ++ ps) (x :: xs) bs

/-- The answers and the bytes so far begin the given answers: the bytes are the first of the
next answer. -/
def Begins (xs : List Answer) (bs : Bytes) (all : List Answer) : Prop :=
  ∃ rest, all = xs ++ rest ∧ (bs ≠ [] → ∃ next, rest.head? = some (.bytes next) ∧ bs <+: next)

/-- Every call gets one answer. -/
theorem length_askAll (s : σ) (cs : List Call) : (askAll s cs).length = cs.length := by
  induction cs generalizing s with
  | nil => rfl
  | cons c cs ih => rw [askAll, List.length_cons, ih, List.length_cons]

/-- When every call is answered, the answers are all of them. -/
theorem Begins.eq_askAll {xs : List Answer} {bs : Bytes} {cs : List Call}
    (h : Begins xs bs (askAll s cs)) (hlen : xs.length = cs.length) : xs = askAll s cs := by
  have hcount := length_askAll s cs
  obtain ⟨rest, hall, _⟩ := h
  rw [hall, List.length_append] at hcount
  rw [hall, List.eq_nil_of_length_eq_zero (show rest.length = 0 by omega), List.append_nil]

/-- The reads deliver what is left, up to what was asked for, and move past it. -/
theorem CursorTrace.fills {allow : IoError → Prop} {n : Nat} {os : List IoObs} {bs : Bytes}
    (h : CursorTrace D allow p os q) (hfills : Fills n os bs) :
    (D.drop p).take n = bs ∧ q = p + bs.length := by
  induction hfills generalizing p with
  | full =>
      cases h with
      | nil => exact ⟨List.take_zero, rfl⟩
  | @atEnd n hn =>
      cases h with
      | cons hstep hrest =>
          cases hrest with
          | nil =>
              cases hstep with
              | read _ _ hend =>
                  have hdone : D.drop p = [] :=
                    List.drop_of_length_le ((hend rfl).resolve_left hn)
                  rw [hdone]
                  exact ⟨List.take_nil, rfl⟩
  | @more n bs cs os hn hbs _ ih =>
      cases h with
      | cons hstep hrest =>
          cases hstep with
          | read hpre hlen _ =>
              obtain ⟨tail, htail⟩ := hpre
              obtain ⟨hcs, rfl⟩ := ih hrest
              rw [← List.drop_drop, ← htail, List.drop_left] at hcs
              rw [← htail, List.take_append, List.take_of_length_le hlen, hcs, List.length_append]
              exact ⟨rfl, by omega⟩
  | again _ _ ih =>
      cases h with
      | cons hstep hrest =>
          cases hstep with
          | readError _ => exact ih hrest

/-- A loop that is not done has a part of what is left, and no more than was asked for. -/
theorem CursorTrace.filling {allow : IoError → Prop} {n : Nat} {os : List IoObs} {bs : Bytes}
    (h : CursorTrace D allow p os q) (hfilling : Filling n os bs) :
    bs <+: (D.drop p).take n := by
  induction hfilling generalizing p with
  | nil => exact List.nil_prefix
  | @more n bs cs os _ ih =>
      cases h with
      | cons hstep hrest =>
          cases hstep with
          | read hpre hlen _ =>
              obtain ⟨tail, htail⟩ := hpre
              have hcs := ih hrest
              rw [← List.drop_drop, ← htail, List.drop_left] at hcs
              rw [← htail, List.take_append, List.take_of_length_le hlen]
              exact (List.prefix_append_right_inj bs).mpr hcs
  | again _ ih =>
      cases h with
      | cons hstep hrest =>
          cases hstep with
          | readError _ => exact ih hrest

/-- An exact cursor gives the answer that a trace shows, and ends where the trace ends. -/
theorem CursorTrace.answer_eq {allow : IoError → Prop} {c : Call} {os : List IoObs} {x : Answer}
    (h : CursorTrace D allow p os q) (hx : Answers c os x) (hs : Exact D s p) :
    (ask s c).1 = x ∧ Exact D (ask s c).2 q := by
  have hseek (f : SeekFrom) (r : IoResult Nat) (h : CursorTrace D allow p [.seek f r] q) :
      Answer.of .position (ReadSeek.seek s f).1 = Answer.of .position r ∧
        Exact D (ReadSeek.seek s f).2 q := by
    cases h with
    | cons hstep hrest =>
        cases hrest with
        | nil =>
            cases hstep with
            | seek ht =>
                obtain ⟨s', hseek, hs'⟩ := hs.seek ht
                rw [hseek]
                exact ⟨rfl, hs'⟩
            | seekError ht hkind =>
                rcases hs.seek_cases f with ⟨_, _, hsome, _⟩ | ⟨e', s', _, hkind', hseek, hs'⟩
                · rw [ht] at hsome
                  cases hsome
                · rw [hseek]
                  exact ⟨by simp only [Answer.of, hkind, hkind'], hs'⟩
  cases hx with
  | @readUpto n os bs hfills =>
      obtain ⟨rfl, rfl⟩ := h.fills hfills
      obtain ⟨s', hfill, hs'⟩ := hs.fillWithin (Nat.le_refl n)
      simp only [ask, readUpto, hfill, Prod.map, id]
      exact ⟨rfl, hs'⟩
  | seek f r => exact hseek f r h
  | streamPosition r => exact hseek _ r h

/-- The answers that a trace shows, and the bytes of a loop that is not done, begin the
answers of an exact cursor over the same bytes. -/
theorem CursorTrace.answers_begin {allow : IoError → Prop} {cs : List Call} {os : List IoObs}
    {xs : List Answer} {bs : Bytes} (h : CursorTrace D allow p os q)
    (hscript : Script cs os xs bs) (hs : Exact D s p) : Begins xs bs (askAll s cs) := by
  induction hscript generalizing s p with
  | rest cs => exact ⟨askAll s cs, rfl, fun hne => absurd rfl hne⟩
  | @filling n cs os bs hfilling =>
      obtain ⟨s', hfill, _⟩ := hs.fillWithin (Nat.le_refl n)
      have hanswer : (ask s (.readUpto n)).1 = .bytes ((D.drop p).take n) := by
        simp only [ask, readUpto, hfill, Prod.map, Answer.of]
      refine ⟨askAll s (.readUpto n :: cs), rfl, fun _ => ?_⟩
      refine ⟨(D.drop p).take n, ?_, CursorTrace.filling h hfilling⟩
      rw [askAll, List.head?_cons, hanswer]
  | cons hx _ ih =>
      obtain ⟨r, hfirst, hrest⟩ := Trace.of_append h
      obtain ⟨rfl, hs'⟩ := CursorTrace.answer_eq hfirst hx hs
      obtain ⟨rest, hall, hnext⟩ := ih hrest hs'
      refine ⟨rest, ?_, hnext⟩
      rw [askAll, hall, List.cons_append]

/-! ### Reading to the end -/

/-- A caller that only reads, until a read into a buffer delivers nothing, has all that
was left, however many of its reads were short or failed. -/
theorem CursorTrace.read_to_end {allow : IoError → Prop} {os : List IoObs} {n : Nat}
    (h : CursorTrace D allow p (os ++ [.read n (.ok [])]) q)
    (hreads : ∀ o ∈ os, ∃ n r, o = .read n r) (hn : 0 < n) :
    os.flatMap IoObs.delivered = D.drop p := by
  induction os generalizing p with
  | nil =>
      cases h with
      | cons hlast _ =>
          cases hlast with
          | read _ _ hend =>
              have hdone : D.length ≤ p := (hend rfl).resolve_left (by omega)
              exact (List.drop_of_length_le hdone).symm
  | cons o os ih =>
      obtain ⟨⟨m, r, rfl⟩, hrest⟩ := List.forall_mem_cons.mp hreads
      cases h with
      | cons hstep htrace =>
          have hretry : RetryStep False D p (.read m r) _ := .step (hstep.mono fun _ _ => trivial)
          obtain ⟨⟨tail, htail⟩, rfl⟩ := hretry.read
          rw [List.flatMap_cons, ih htrace hrest, ← List.drop_drop, ← htail, List.drop_left]

end

end OxideSource
