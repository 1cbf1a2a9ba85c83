import OxideSource.Buffered.Content

/-!
# Where the reader stands

The position invariant over an inner source of unknown content. A reader that is not
behind the ring is inside it; it can fall behind only when its position wraps past the
last `u64`, and it never does as long as the end of the ring stays a `u64`.
-/

namespace OxideSource.BufferedSource

section

variable {ι : Type} [ReadSeek ι] {inner : ι}

/-- Every position that the source reports, now or later, is a `u64`. -/
def Addressed (inner : ι) : Prop :=
  Returns (fun _ _ => True) (fun res => ∀ q, res = .ok q → q < u64Size) inner

/-- A reported position is a `u64`. -/
theorem Addressed.lt (h : Addressed inner) {f : SeekFrom} {q : Nat}
    (hseek : (ReadSeek.seek inner f).1 = .ok q) : q < u64Size :=
  (Returns.seek h f).1 q hseek

/-- It stays so after a seek. -/
theorem Addressed.seek (h : Addressed inner) (f : SeekFrom) :
    Addressed (ReadSeek.seek inner f).2 :=
  (Returns.seek h f).2

end

/-! ### What the worker does to the ring -/

/-- The ring after a step of the worker: as it was, empty at the pending target, or with
the bytes that were read at its tail. -/
inductive RingMove {ι : Type} (s : BufferedSource ι) (st : RingState) : Prop where
  | keeps (hidle : ∀ bs, s.worker = .readDone (.ok bs) → bs ≠ [] → ¬ RingState.Live s.st)
      (hbuf : st.buf = s.st.buf) (hstart : st.ringStart = s.st.ringStart)
      (htarget : st.targetPos = s.st.targetPos) : RingMove s st
  | restarts {target : Nat} (htarget : s.st.targetPos = some target) (hbuf : st.buf = [])
      (hstart : st.ringStart = target) (hnone : st.targetPos = none) : RingMove s st
  | deposits {bs : Bytes} (hw : s.worker = .readDone (.ok bs)) (hne : bs ≠ [])
      (hlive : RingState.Live s.st) (hbuf : st.buf = s.st.buf ++ bs)
      (hstart : st.ringStart = s.st.ringStart) (htarget : st.targetPos = s.st.targetPos) :
      RingMove s st

/-- What a step of the worker does to the ring, and what it leaves alone. -/
structure WorkerMove [Target] {ι : Type} (s s' : BufferedSource ι) : Prop where
  pos : s'.pos = s.pos
  capacity : s'.st.capacity = s.st.capacity
  rear : s'.st.rear = s.st.rear
  totalLen : s'.st.totalLen = s.st.totalLen
  ring : RingMove s s'.st

section

variable [Target] {ι : Type} [ReadSeek ι] {s s' : BufferedSource ι}

omit [Target] [ReadSeek ι] in
/-- A step that takes no bytes over leaves the ring where it is. -/
theorem RingMove.unread {st : RingState} (hw : ∀ bs, s.worker ≠ .readDone (.ok bs))
    (hbuf : st.buf = s.st.buf) (hstart : st.ringStart = s.st.ringStart)
    (htarget : st.targetPos = s.st.targetPos) : RingMove s st :=
  .keeps (fun bs he => absurd he (hw bs)) hbuf hstart htarget

/-- The moves of the worker, case by case. -/
theorem Orderly.workerMove (h : Orderly s) (hs : WorkerCase s s') : WorkerMove s s' := by
  cases hs with
  | phase1 hw =>
      have hspec := h.phase1Case
      generalize s.st.phase1 = r at hspec
      cases hspec with
      | restarts _ htarget => exact ⟨rfl, rfl, rfl, rfl, .restarts htarget rfl rfl rfl⟩
      | _ => exact ⟨rfl, rfl, rfl, rfl, .unread (by rw [hw]; exact nofun) rfl rfl rfl⟩
  | @phase3 res hw =>
      have hspec := h.phase3Case hw
      generalize s.st.phase3 res = r at hspec
      cases hspec with
      | stale hstale =>
          refine ⟨rfl, rfl, rfl, rfl, .keeps (fun _ _ _ hlive => ?_) rfl rfl rfl⟩
          rcases hstale with ht | ht
          · exact ht hlive.1
          · rw [hlive.2] at ht
            cases ht
      | ended _ _ hres =>
          refine ⟨rfl, rfl, rfl, rfl, .keeps (fun bs he hne => ?_) rfl rfl rfl⟩
          rw [hw, hres] at he
          cases he
          exact absurd rfl hne
      | deposits htarget hstop hres hne =>
          exact ⟨rfl, rfl, rfl, rfl, .deposits (hres ▸ hw) hne ⟨htarget, hstop⟩ rfl rfl rfl⟩
      | retries _ _ hres =>
          exact ⟨rfl, rfl, rfl, rfl, .unread (by rw [hw, hres]; exact nofun) rfl rfl rfl⟩
      | fails _ _ hres =>
          exact ⟨rfl, rfl, rfl, rfl, .unread (by rw [hw, hres]; exact nofun) rfl rfl rfl⟩
  | seeks hw => exact ⟨rfl, rfl, rfl, rfl, .unread (by rw [hw]; exact nofun) rfl rfl rfl⟩
  | refused hw => exact ⟨rfl, rfl, rfl, rfl, .unread (by rw [hw]; exact nofun) rfl rfl rfl⟩
  | records hw => exact ⟨rfl, rfl, rfl, rfl, .unread (by rw [hw]; exact nofun) rfl rfl rfl⟩
  | unparks hw => exact ⟨rfl, rfl, rfl, rfl, .unread (by rw [hw]; exact nofun) rfl rfl rfl⟩
  | reads hw => exact ⟨rfl, rfl, rfl, rfl, .unread (by rw [hw]; exact nofun) rfl rfl rfl⟩

end

/-! ### The reader -/

/-- The reader's position after a pass. -/
def posAfter (pos : Nat) : Pass → Nat
  | .returns _ pos' => pos'
  | .waits => pos
  | .again => pos
  | .panics => pos

/-- A reader that is not behind the ring is not past it. -/
def Within (st : RingState) (pos : Nat) : Prop := st.ringStart ≤ pos → pos ≤ st.tail

section

variable [Target] {st : RingState} {pos want : Nat}

/-- A reader that misses stands at the tail. -/
theorem Within.tail_eq (h : Within st pos) (hfit : st.buf.length ≤ usizeMax)
    (hlo : st.ringStart ≤ pos) (hmiss : st.buf.length ≤ asUsize (pos - st.ringStart)) :
    pos = st.tail := by
  have hhi := h hlo
  have hrel : asUsize (pos - st.ringStart) = pos - st.ringStart := by
    apply asUsize_of_lt
    unfold RingState.tail at hhi
    omega
  unfold RingState.tail at hhi ⊢
  omega

omit [Target] in
/-- A hit moves the reader by `n` and drops `k` old bytes behind it. Where one of the two
sums wraps and the other does not, the reader is behind the ring. -/
theorem Within.hit {k n : Nat} (hn : pos + n ≤ st.tail) (hk : st.ringStart + k ≤ pos + n)
    (hfit : st.buf.length < u64Size) :
    Within (st.discard k) (addU64 pos n) := by
  have hlen : (st.discard k).buf.length = st.buf.length - k := RingState.length_discard k
  unfold RingState.tail at hn
  intro hle
  unfold RingState.tail
  rw [hlen]
  change addU64 st.ringStart k ≤ addU64 pos n at hle
  change addU64 pos n ≤ addU64 st.ringStart k + _
  unfold addU64 u64Size at *
  omega

/-- A pass keeps the reader within the ring, wherever its position wraps to. -/
theorem Within.pass (h : Within st pos) (hfit : st.buf.length ≤ usizeMax) (hpos : pos < u64Size)
    {r : Pass × RingState × Bool} (hcase : st.PassCase want pos r) (hr : r.1 ≠ .again) :
    Within r.2.1 (posAfter pos r.1) ∧ posAfter pos r.1 < u64Size ∧
      (st.buf = [] → posAfter pos r.1 = pos) := by
  cases hcase with
  | @hit rel n st' woke hle hrel hhit hn hst =>
      have hmax := usizeMax_lt
      have hhi := h hle
      rw [asUsize_of_lt (by unfold RingState.tail at hhi; omega)] at hrel
      have hend : pos + n ≤ st.tail := by
        unfold RingState.tail at hhi ⊢
        omega
      refine ⟨?_, Nat.mod_lt _ (by decide), ?_⟩
      · rcases hst with rfl | ⟨k, hk, rfl, _⟩
        · intro _
          exact (Nat.mod_le _ _).trans hend
        · exact .hit hend (by omega) (by omega)
      · intro hnil
        rw [hnil] at hhit
        exact absurd hhit (Nat.not_lt_zero _)
  | drains => exact absurd rfl hr
  | _ => exact ⟨h, hpos, fun _ => rfl⟩

/-- A reader that misses stays in the ring whatever is drained. -/
theorem Within.drained (h : Within st pos) (hfit : st.buf.length ≤ usizeMax)
    (hpos : pos < u64Size) (hlo : st.ringStart ≤ pos)
    (hmiss : st.buf.length ≤ asUsize (pos - st.ringStart)) {k : Nat} (hk : k ≤ st.buf.length) :
    InRing (st.discard k) pos ∧ pos = (st.discard k).tail := by
  have htail := h.tail_eq hfit hlo hmiss
  have hin : InRing st pos := ⟨hlo, htail.le, htail ▸ hpos⟩
  obtain ⟨hdrained, hsame⟩ := hin.drained htail hk
  exact ⟨hdrained, htail.trans hsame.symm⟩

/-- The critical section of a read keeps the reader within the ring. -/
theorem Within.readSection (h : Within st pos) (hrear : st.rear < st.capacity)
    (hfit : st.buf.length ≤ usizeMax) (hpos : pos < u64Size) (seam want : Nat) :
    Within (st.readSection seam want pos).2.1 (posAfter pos (st.readSection seam want pos).1) ∧
      posAfter pos (st.readSection seam want pos).1 < u64Size ∧
      (st.buf = [] → posAfter pos (st.readSection seam want pos).1 = pos) := by
  rcases RingState.readSection_spec hrear seam want pos with
    ⟨r, hcase, hr, heq⟩ | ⟨r, hfirst, hcase, hr, heq⟩
  · rw [heq]
    exact h.pass hfit hpos hcase hr
  · rw [heq]
    cases hfirst with
    | drains hle hmiss =>
        have hdrained := (h.drained hfit hpos hle hmiss (Nat.sub_le st.buf.length st.rear)).1
        obtain ⟨hwithin, hlt, hnil⟩ := Within.pass (fun _ => hdrained.hi)
          (by rw [RingState.length_discard]; omega) hpos hcase hr
        refine ⟨hwithin, hlt, fun hbuf => hnil ?_⟩
        simp only [RingState.discard, hbuf, List.drop_nil]

/-- The positions of the two threads: the reader stands within the ring or behind it, and
a pending seek leads to the start of the ring, where the reader is. -/
structure Placed {ι : Type} (s : BufferedSource ι) : Prop where
  addressable : s.st.capacity ≤ usizeMax
  pos_lt : s.pos < u64Size
  total : ∀ L, s.st.totalLen = some L → L < u64Size
  within : Within s.st s.pos
  target : ∀ t, s.st.targetPos = some t → t = s.st.ringStart ∧ s.pos = t

end

section

variable [Target] {ι : Type} {s s' : BufferedSource ι} {o : Option IoObs}

/-- A resolved seek leads to a `u64`. -/
theorem Placed.resolve_lt (h : Placed s) {f : SeekFrom} {q : Nat}
    (hq : s.st.resolve s.pos f = .ok q) : q < u64Size := by
  have hadd {base : Nat} {d : Int64} (hbase : base < u64Size)
      (h : RingState.addSigned base d = .ok q) : q < u64Size := by
    rcases RingState.addSigned_eq base d with ⟨q', hq', hsome⟩ | ⟨e, he, _⟩
    · obtain rfl := Except.ok.inj (h.symm.trans hq')
      exact checkedAddSigned_lt hbase hsome
    · rw [h] at he
      cases he
  cases f with
  | fromStart n =>
      obtain rfl := Except.ok.inj hq
      exact n.toNat_lt
  | fromCurrent d => exact hadd h.pos_lt hq
  | fromEnd d =>
      cases htotal : s.st.totalLen with
      | none =>
          simp only [RingState.resolve, htotal] at hq
          cases hq
      | some L =>
          simp only [RingState.resolve, htotal] at hq
          exact hadd (h.total L htotal) hq

omit [Target] in
/-- Where a read leaves the position. -/
theorem afterRead_pos {want : Nat} {r : Pass × RingState × Bool}
    (hs : s.afterRead want r = some (s', o)) : s'.st = r.2.1 ∧ s'.pos = posAfter s.pos r.1 := by
  obtain ⟨pass, st', woke⟩ := r
  cases pass <;> cases hs <;> exact ⟨rfl, rfl⟩

/-- The critical section of a read keeps the positions in place. -/
theorem Placed.afterRead (h : Placed s) (ho : Orderly s) {want seam : Nat}
    (hs : s.afterRead want (s.st.readSection seam want s.pos) = some (s', o)) : Placed s' := by
  have hfit := ho.length.trans h.addressable
  have hread := h.within.readSection ho.rear hfit h.pos_lt seam want
  have hsettled := ho.settled seam want
  generalize s.st.readSection seam want s.pos = r at hread hsettled hs
  obtain ⟨pass, st', woke⟩ := r
  obtain ⟨hwithin, hlt, hnil⟩ := hread
  have htrim := hsettled.1
  obtain ⟨hst, hpos⟩ := afterRead_pos hs
  dsimp only at hwithin hlt hnil hst hpos
  rw [← hst] at hwithin htrim
  rw [← hpos] at hwithin hlt hnil
  have hsame : s'.st.capacity = s.st.capacity ∧ s'.st.totalLen = s.st.totalLen ∧
      s'.st.targetPos = s.st.targetPos := by
    rcases htrim with heq | ⟨k, _, heq, _⟩ <;> rw [heq] <;> exact ⟨rfl, rfl, rfl⟩
  obtain ⟨hcap, htotal, htarget⟩ := hsame
  refine ⟨hcap ▸ h.addressable, hlt, htotal ▸ h.total, hwithin, ?_⟩
  intro t ht
  rw [htarget] at ht
  obtain ⟨hstart, hat⟩ := h.target t ht
  have hbuf := ho.pending (by rw [ht]; exact nofun)
  rw [hnil hbuf]
  refine ⟨?_, hat⟩
  rcases htrim with heq | ⟨k, hk, heq, _⟩
  · rw [heq]
    exact hstart
  · -- an empty ring loses nothing
    have hpos := h.pos_lt
    rw [hbuf, List.length_nil, Nat.le_zero] at hk
    rw [heq, hk]
    change t = addU64 s.st.ringStart 0
    rw [addU64_of_lt (by omega)]
    exact hstart

/-- A seek keeps the positions in place. -/
theorem Placed.seek (h : Placed s) (ho : Orderly s) {f : SeekFrom} {res : IoResult Nat}
    {pos : Nat} {st : RingState} {woke : Bool}
    (hcase : s.st.SeekCase s.pos f (res, pos, st, woke)) (worker : WorkerPc) :
    Placed { s with st, pos, worker } := by
  cases hcase with
  | rejects => exact ⟨h.addressable, h.pos_lt, h.total, h.within, h.target⟩
  | inside hq hlo hhi =>
      have hle : pos ≤ s.st.tail := hhi.trans (Nat.mod_le _ _)
      refine ⟨h.addressable, h.resolve_lt hq, h.total, fun _ => hle, ?_⟩
      intro t ht
      have hbuf := ho.pending (by rw [show s.st.targetPos = some t from ht]; exact nofun)
      have hstart := (h.target t ht).1
      unfold RingState.tail at hle
      rw [hbuf, List.length_nil] at hle
      exact ⟨hstart, show pos = t by omega⟩
  | restarts hq =>
      refine ⟨h.addressable, h.resolve_lt hq, h.total, fun _ => Nat.le_refl _, ?_⟩
      intro t ht
      obtain rfl := Option.some.inj ht
      exact ⟨rfl, rfl⟩

variable [ReadSeek ι]

/-- The worker leaves the positions in place: what it deposits is behind the tail. -/
theorem Placed.workerStep (h : Placed s) (ho : Orderly s) (hs : WorkerCase s s') : Placed s' := by
  obtain ⟨hpos, hcap, _, htotal, hring⟩ := ho.workerMove hs
  have hwithin := h.within
  refine ⟨hcap ▸ h.addressable, hpos ▸ h.pos_lt, htotal ▸ h.total, ?_, ?_⟩
  · rw [hpos]
    cases hring with
    | keeps _ hbuf hstart =>
        unfold Within RingState.tail at hwithin ⊢
        rwa [hbuf, hstart]
    | restarts htarget _ hstart =>
        intro _
        rw [(h.target _ htarget).2, RingState.tail, hstart]
        exact Nat.le_add_right _ _
    | deposits _ _ _ hbuf hstart =>
        unfold Within RingState.tail at hwithin ⊢
        rw [hbuf, hstart, List.length_append]
        omega
  · cases hring with
    | keeps _ _ hstart htarget =>
        rw [hstart, hpos, htarget]
        exact h.target
    | restarts _ _ _ hnone => simp [hnone]
    | deposits _ _ hlive _ _ htarget => simp [htarget, hlive.1]

/-- Every step keeps the positions in place. -/
theorem Placed.step (h : Placed s) (ho : Orderly s) {a : Action}
    (hs : s.step a = some (s', o)) : Placed s' := by
  cases step_cases hs with
  | worker hstep => exact h.workerStep ho hstep
  | readEmpty => exact h
  | read _ _ hs => exact h.afterRead ho hs
  | resume _ hs => exact h.afterRead ho hs
  | seek _ hcase => exact h.seek ho hcase _
  | _ => exact ⟨h.addressable, h.pos_lt, h.total, h.within, h.target⟩

end

/-! ### From construction on -/

section

variable [Target] {ι : Type} [ReadSeek ι] {b : BufferedSourceBuilder} {inner : ι}
  {s s' t : BufferedSource ι} {o : Option IoObs}

/-- A source that was built has its position in place. -/
theorem build_placed (haddr : Addressed inner) (hb : b.build inner = some (.ok s)) : Placed s := by
  obtain ⟨hring, pos, stop, i₁, i₂, q, h₁, h₂, _, hst, _, hpos, _⟩ := build_ok hb
  have haddr₁ := haddr.seek (.fromCurrent 0)
  rw [show ReadSeek.seek inner (.fromCurrent 0) = (.ok pos, i₁) from h₁] at haddr₁
  have hpos_lt : pos < u64Size := haddr.lt (congrArg Prod.fst h₁)
  have hstop_lt : stop < u64Size := haddr₁.lt (congrArg Prod.fst h₂)
  refine ⟨?_, hpos ▸ hpos_lt, ?_, ?_, ?_⟩
  · rw [hst]
    exact hring.trans isizeMax_le_usizeMax
  · intro L hL
    rw [hst] at hL
    exact Option.some.inj hL ▸ hstop_lt
  · rw [hst, hpos]
    exact fun _ => Nat.le_refl _
  · rw [hst]
    exact nofun

/-- Both content-free invariants. -/
structure Stationed (s : BufferedSource ι) : Prop where
  supplied : Supplied s
  placed : Placed s

/-- A stationed source is orderly. -/
theorem Stationed.orderly (h : Stationed s) : Orderly s := h.supplied.orderly

/-- A source that was built is stationed. -/
theorem build_stationed (hinner : Measured inner) (haddr : Addressed inner)
    (hb : b.build inner = some (.ok s)) : Stationed s :=
  ⟨build_supplied hinner hb, build_placed haddr hb⟩

/-- Every step keeps it stationed. -/
theorem Stationed.step (h : Stationed s) {a : Action} (hs : s.step a = some (s', o)) :
    Stationed s' :=
  ⟨h.supplied.step hs, h.placed.step h.orderly hs⟩

/-- The ring fits an allocation. -/
theorem Stationed.fits (h : Stationed s) : s.st.buf.length ≤ usizeMax :=
  h.orderly.length.trans h.placed.addressable

end

/-! ### Rings that end at a `u64` -/

/-- The bytes that the worker is about to deposit, if it does not throw them away, leave the
end of the ring a `u64`. -/
def depositFits {ι : Type} (s : BufferedSource ι) (a : Action) : Bool :=
  match a, s.worker with
  | .worker, .readDone (.ok bs) =>
      s.st.targetPos.isSome || s.st.stop || decide (s.st.tail + bs.length < u64Size)
  | _, _ => true

section

variable {st : RingState} {pos want : Nat}

/-- The critical section of a reader inside the ring leaves it inside. -/
theorem InRing.afterSection (h : InRing st pos) {r : Pass × RingState × Bool}
    (hcase : ReadCase st want pos r) : InRing r.2.1 (posAfter pos r.1) := by
  have hlo := h.lo
  have htail := h.tail_lt
  cases hcase with
  | @hit n _ _ hpos hn hst =>
      have hle : st.ringStart + (pos - st.ringStart + n) ≤ pos + n := by omega
      exact (Trimmed.tail hst hle (by omega) htail).1
  | failed => exact h
  | ended => exact h
  | waits hpos _ _ _ hst =>
      exact (Trimmed.tail hst (by unfold RingState.tail at hpos; omega) h.hi htail).1

end

section

variable [Target] {ι : Type} [ReadSeek ι] {b : BufferedSourceBuilder} {inner : ι}
  {s s' t : BufferedSource ι} {o : Option IoObs}

/-- The reader is inside an addressable ring. -/
structure Contained (s : BufferedSource ι) : Prop where
  stationed : Stationed s
  ring : InRing s.st s.pos

/-- A source that was built has its reader in the ring. -/
theorem build_contained (hinner : Measured inner) (haddr : Addressed inner)
    (hb : b.build inner = some (.ok s)) : Contained s := by
  have hstationed := build_stationed hinner haddr hb
  obtain ⟨_, _, _, _, _, _, _, _, _, hst, _, hpos, _⟩ := build_ok hb
  have hlt := hstationed.placed.pos_lt
  refine ⟨hstationed, ?_⟩
  rw [hpos] at hlt ⊢
  rw [hst]
  exact ⟨Nat.le_refl _, Nat.le_refl _, hlt⟩

/-- A read of such a source finds its position in the ring. -/
theorem Contained.readCase (h : Contained s) (seam want : Nat) :
    ReadCase s.st want s.pos (s.st.readSection seam want s.pos) :=
  h.ring.readSection h.stationed.orderly.rear h.stationed.fits seam want

/-- A read leaves its position in the ring. -/
theorem Contained.afterRead (h : Contained s) {want seam : Nat}
    (hs : s.afterRead want (s.st.readSection seam want s.pos) = some (s', o)) :
    InRing s'.st s'.pos := by
  obtain ⟨hst, hpos⟩ := afterRead_pos hs
  rw [hst, hpos]
  exact h.ring.afterSection (h.readCase seam want)

/-- A deposit that fits keeps the ring addressable. -/
theorem Contained.workerStep (h : Contained s) (hfit : depositFits s .worker = true)
    (hs : WorkerCase s s') : InRing s'.st s'.pos := by
  obtain ⟨hpos, _, _, _, hring⟩ := h.stationed.orderly.workerMove hs
  have hin := h.ring
  rw [hpos]
  cases hring with
  | keeps _ hbuf hstart => exact hin.congr hstart hbuf
  | restarts htarget hbuf hstart =>
      have hat := (h.stationed.placed.target _ htarget).2
      have hlt := h.stationed.placed.pos_lt
      have htail : s'.st.tail = s.pos := by rw [RingState.tail, hbuf, hstart, hat]; rfl
      exact ⟨(hstart.trans hat.symm).le, htail.ge, htail ▸ hlt⟩
  | @deposits bs hw _ hlive hbuf hstart =>
      obtain ⟨htarget, hstop⟩ := hlive
      simp only [depositFits, hw, htarget, hstop, Option.isSome_none, Bool.or_self, Bool.false_or,
        decide_eq_true_eq] at hfit
      have htail : s'.st.tail = s.st.tail + bs.length := by
        rw [RingState.tail, hbuf, hstart, List.length_append, ← Nat.add_assoc, RingState.tail]
      have hhi := hin.hi
      exact ⟨hstart ▸ hin.lo, by omega, by omega⟩

/-- A step whose deposit fits leaves the reader inside the ring. -/
theorem Contained.step (h : Contained s) {a : Action}
    (hs : ((machine ι).guard depositFits).step s a = some (s', o)) : Contained s' := by
  obtain ⟨hfit, hs⟩ := Machine.guard_step hs
  refine ⟨h.stationed.step hs, ?_⟩
  cases step_cases hs with
  | worker hstep => exact h.workerStep hfit hstep
  | read _ _ hs => exact h.afterRead hs
  | resume _ hs => exact h.afterRead hs
  | seek _ hcase =>
      cases hcase with
      | rejects => exact h.ring
      | inside _ hlo hhi =>
          rw [h.ring.ringEnd] at hhi
          exact ⟨hlo, hhi, h.ring.tail_lt⟩
      | restarts hq =>
          exact ⟨Nat.le_refl _, Nat.le_refl _, h.stationed.placed.resolve_lt hq⟩
  | drop => exact h.ring.congr rfl rfl
  | _ => exact h.ring

/-- Both content-free invariants hold in every state that the two threads reach. -/
theorem reach_stationed (hinner : Measured inner) (haddr : Addressed inner)
    (hb : b.build inner = some (.ok s)) (hreach : (machine ι).Reach s t) : Stationed t :=
  hreach.invariant (fun hI hs => hI.step hs) (build_stationed hinner haddr hb)

/-- The reader is inside the ring in every state that is reached by steps whose deposits
fit. -/
theorem reach_contained (hinner : Measured inner) (haddr : Addressed inner)
    (hb : b.build inner = some (.ok s)) (hreach : ((machine ι).guard depositFits).Reach s t) :
    Contained t :=
  hreach.invariant (fun hI hs => hI.step hs) (build_contained hinner haddr hb)

end

/-- A cursor over fewer than `2 ^ 64` bytes stays at a `u64`: a read does not pass the end. -/
theorem Cursor.addressed (c : Cursor) (hlen : c.bytes.length < u64Size) (hpos : c.pos < u64Size) :
    Addressed c := by
  refine ⟨fun c => c.bytes.length < u64Size ∧ c.pos < u64Size, ⟨hlen, hpos⟩, ?_, ?_⟩
  · rintro c ⟨hlen, hpos⟩ n
    refine ⟨trivial, hlen, ?_⟩
    change c.pos + ((c.bytes.drop (min c.pos c.bytes.length)).take n).length < u64Size
    rw [List.length_take, List.length_drop]
    omega
  · rintro c ⟨hlen, hpos⟩ f
    change (∀ q, (c.seek f).1 = .ok q → q < u64Size) ∧
      (c.seek f).2.bytes.length < u64Size ∧ (c.seek f).2.pos < u64Size
    unfold Cursor.seek
    cases ht : seekTarget c.bytes.length (some c.pos) f with
    | none => exact ⟨nofun, hlen, hpos⟩
    | some q =>
        have hlt := seekTarget_lt hlen hpos ht
        refine ⟨fun q' hq => ?_, hlen, hlt⟩
        obtain rfl := Except.ok.inj hq
        exact hlt

end OxideSource.BufferedSource
