import OxideSource.Buffered.Refines
import OxideSource.Uri.Denotation

/-!
# Prefetching from end to end

Whatever the two threads do, what a caller that loops over short reads has got so far from a
prefetcher begins the answers of `io::Cursor`. Where the inner source is what a URI opens
to, these are answers about the bytes that the URI denotes.
-/

namespace OxideSource

open Uri

/-! ### Callers that loop -/

namespace BufferedSource

/-- Under every interleaving, what a caller that loops over short reads and repeats failed
ones has got begins the answers of `io::Cursor` over the inner bytes, whatever goes wrong
inside; when every call is answered, it has got those answers. -/
theorem answers_of_script [Target] {ι : Type} [ReadSeek ι] {G : Faults} {D : Bytes} {p₀ : Nat}
    {inner : ι} {b : BufferedSourceBuilder} {s t : BufferedSource ι} {as : List Action}
    {os : List IoObs} {calls : List Call} {answers : List Answer} {sofar : Bytes}
    (hinner : Serves G D inner (some p₀)) (hG : G.Conventional) (hp : p₀ < u64Size)
    (hD : D.length < u64Size) (hb : b.build inner = some (.ok s))
    (hrun : (machine ι).run s as = some (t, os)) (hscript : Script calls os answers sofar) :
    Begins answers sofar (askAll (⟨D, p₀⟩ : Cursor) calls) ∧
      (answers.length = calls.length → answers = askAll (⟨D, p₀⟩ : Cursor) calls) := by
  obtain ⟨hconsistent, hpos⟩ := build_consistent hinner hp hD hb
  have htrace := hconsistent.trace hG hD hrun
  rw [hpos] at htrace
  have hbegins := htrace.answers_begin hscript (Cursor.behaves _ ⟨D, p₀⟩)
  exact ⟨hbegins, hbegins.eq_askAll⟩

/-- A read of one byte, a seek to the front, and a read of more than there is. -/
def scripted : List Call := [.readUpto 1, .seek (.fromStart 0), .readUpto 8]

/-- The last read of the script is still on its way. -/
theorem answers_of_script_sample : letI := target64
    ∃ t os, runFrom (machine Cursor) .default sample sampleRun = some (t, os) ∧
      Script scripted os [.bytes [2], .position 0] [1, 2, 3] ∧
      Begins [.bytes [2], .position 0] [1, 2, 3] (askAll sample scripted) := by
  let := target64
  have hrun : (runFrom (machine Cursor) .default sample sampleRun).map (·.2) =
      some [.read 1 (.ok [2]), .seek (.fromStart 0) (.ok 0), .read 8 (.ok [1, 2, 3])] := by
    decide +kernel
  obtain ⟨⟨t, os⟩, hrun, rfl⟩ := Option.map_eq_some_iff.mp hrun
  obtain ⟨s, hb, hs⟩ := runFrom_eq_some hrun
  have hserves : Serves interrupted [1, 2, 3] sample (some 1) :=
    (Cursor.behaves (fun e => e.kind = .interrupted) sample).serves
  have hone : Answers (.readUpto 1) [.read 1 (.ok [2])] (.bytes [2]) :=
    .readUpto (.more (by decide) (by decide) .full)
  have hscript : Script scripted [.read 1 (.ok [2]), .seek (.fromStart 0) (.ok 0),
      .read 8 (.ok [1, 2, 3])] [.bytes [2], .position 0] [1, 2, 3] :=
    .cons hone (.cons (.seek _ _) (.filling (.more .nil)))
  refine ⟨t, _, hrun, hscript, ?_⟩
  exact (answers_of_script hserves interrupted_conventional (by decide) (by decide) hb hs
    hscript).1

end BufferedSource

/-! ### A URI, prefetched -/

/-- What a caller may see go wrong: a read of a leaf that failed for good, a wait that was
given up, and for a file alone also its refusal of a seek past its end. -/
def Surfaces {σ : Type} [ReadSeek σ] (allow : IoError → Prop) (uri : Text) (D : Bytes) (r : σ)
    (e : IoError) : Prop :=
  (allow e ∧ e.kind ≠ .interrupted) ∨ (∃ t, e = BufferedSource.timeoutError t) ∨
    schemeIs (split uri).1 "file".toList = true ∧ ∃ q, Refuses D allow r q e

/-- The faults of a reader as the prefetcher sorts them. -/
def Faults.sorted (allow : IoError → Prop) (refuses : Nat → IoError → Prop) : Faults :=
  ⟨fun e => allow e ∧ e.kind = .interrupted, fun e => allow e ∧ e.kind ≠ .interrupted, refuses⟩

/-- Sorted by kind, the faults are conventional. -/
theorem Faults.sorted_conventional (allow : IoError → Prop) (refuses : Nat → IoError → Prop) :
    (Faults.sorted allow refuses).Conventional :=
  ⟨fun _ he => he.2, fun _ he => he.2⟩

/-- No fault is left out. -/
theorem Faults.sorted_keeps {allow : IoError → Prop} {refuses : Nat → IoError → Prop} (e : IoError)
    (he : allow e) :
    (Faults.sorted allow refuses).keeps e ∨ (Faults.sorted allow refuses).reads e := by
  by_cases hkind : e.kind = .interrupted
  · exact .inl ⟨he, hkind⟩
  · exact .inr ⟨he, hkind⟩

section

variable {F : Type} [Target] [ReadSeek F] {w : World F} {R : Resources} {allow : IoError → Prop}
  {uri : Text} {r : Reader F}

/-- A bounded source is wrapped wherever the settings do not overflow. -/
theorem Bounded.build_eq_ok {D : Bytes} (h : Bounded D allow r 0) (hD : D.length < u64Size)
    {b : BufferedSourceBuilder} (hblock : 4 * b.block ≤ usizeMax) (hring : b.ring ≤ isizeMax) :
    ∃ s, b.build r = some (.ok s) := by
  have hfront : seekTarget D.length (some 0) (.fromCurrent 0) = some 0 :=
    checkedAddSigned_zero (Nat.two_pow_pos 64)
  obtain ⟨r₁, hpos, h₁⟩ := h.seek hfront (Nat.zero_le _)
  obtain ⟨r₂, hend, h₂⟩ := h₁.seek (f := .fromEnd 0) (checkedAddSigned_zero hD) (Nat.le_refl _)
  obtain ⟨r₃, hstart, _⟩ := h₂.seek (f := .fromStart (.ofNat 0))
    (congrArg some (toNat_ofNat_of_lt (by decide))) (Nat.zero_le _)
  have hfits : ¬ (4 * b.block > usizeMax ∨ b.ring > isizeMax) := by omega
  unfold BufferedSourceBuilder.build
  simp only [if_neg hfits, streamPosition, hpos, hend, hstart]
  exact ⟨_, rfl⟩

/-- Under every interleaving the caller of a prefetcher sees a cursor over the bytes that the
reader serves. -/
theorem reads_shown {D : Bytes} {b : BufferedSourceBuilder} {s t : BufferedSource (Reader F)}
    {as : List BufferedSource.Action} {os : List IoObs} (hlen : D.length < u64Size)
    (hbounded : Bounded D allow r 0)
    (hcursor : schemeIs (split uri).1 "file".toList = false → Behaves D allow r 0)
    (hb : b.build r = some (.ok s))
    (hrun : (BufferedSource.machine (Reader F)).run s as = some (t, os)) :
    CursorTrace D (Surfaces allow uri D r) 0 os t.pos := by
  have hserves : Serves (Faults.sorted allow fun q e =>
      schemeIs (split uri).1 "file".toList = true ∧ Refuses D allow r q e) D r (some 0) := by
    by_cases hfile : schemeIs (split uri).1 "file".toList = true
    · exact hbounded.serves.weaken Faults.sorted_keeps (fun _ => False.elim)
        fun _ _ hrefuses => ⟨hfile, hrefuses⟩
    · have hcursor := hcursor ((Bool.not_eq_true _).mp hfile)
      exact hcursor.serves.weaken Faults.sorted_keeps (fun _ => False.elim) fun _ _ => False.elim
  obtain ⟨hconsistent, hpos⟩ := BufferedSource.build_consistent hserves (by decide) hlen hb
  have htrace := hconsistent.trace (Faults.sorted_conventional _ _) hlen hrun
  rw [hpos] at htrace
  refine htrace.mono fun hstep => hstep.mono ?_
  rintro e ((he | ⟨q, hfile, he⟩) | he)
  · exact .inl he
  · exact .inr (.inr ⟨hfile, q, he⟩)
  · exact .inr (.inl he)

/-- A prefetcher over whatever a URI opens to is built wherever its settings do not overflow,
and under every interleaving its caller sees a cursor over the denoted bytes: one that reads
until a read delivers nothing has got them all. -/
theorem buffered_denotes (hw : w.Holds R allow uri) (hT : Target.usizeBits = 64)
    (hfit : (utf8 uri).length ≤ isizeMax) (hr : (openBytes w uri).result = .ok r)
    (b : BufferedSourceBuilder) :
    (4 * b.block ≤ usizeMax → b.ring ≤ isizeMax → ∃ s, b.build r = some (.ok s)) ∧
      ∃ D, Denotes R uri D ∧
      ∀ s as t os, b.build r = some (.ok s) →
        (BufferedSource.machine (Reader F)).run s as = some (t, os) →
        CursorTrace D (Surfaces allow uri D r) 0 os t.pos ∧
          ∀ before n, os = before ++ [.read n (.ok [])] →
            (∀ o ∈ before, ∃ n res, o = .read n res) → 0 < n →
              before.flatMap IoObs.delivered = D := by
  obtain ⟨D, hD, hlen, hbounded, hcursor⟩ := openBytes_reads hw hT hfit hr
  refine ⟨hbounded.build_eq_ok hlen, D, hD, fun s as t os hb hrun => ?_⟩
  have hshown := reads_shown hlen hbounded hcursor hb hrun
  refine ⟨hshown, ?_⟩
  rintro before n rfl hreads hn
  exact CursorTrace.read_to_end hshown hreads hn

/-- Prefetching is invisible: what a caller that repeats failed reads has got from a
prefetcher over what a URI opens to, whatever goes wrong in its files, begins the answers of
a plain reader of any URI with the same meaning in a world where nothing goes wrong, and is
all of them when every call is answered. -/
theorem prefetch_transparent {G : Type} [ReadSeek G] {w' : World G} {R' : Resources} {v : Text}
    {r' : Reader G} {D : Bytes} (hT : Target.usizeBits = 64) (hw : w.Holds R allow uri)
    (hw' : w'.Holds R' (fun _ => False) v) (hu : (utf8 uri).length ≤ isizeMax)
    (hv : (utf8 v).length ≤ isizeMax) (hfile : schemeIs (split v).1 "file".toList = false)
    (hr : (openBytes w uri).result = .ok r) (hr' : (openBytes w' v).result = .ok r')
    (hD : Denotes R uri D) (hE : Denotes R' v D) {b : BufferedSourceBuilder}
    {s t : BufferedSource (Reader F)} {as : List BufferedSource.Action} {os : List IoObs}
    (hb : b.build r = some (.ok s))
    (hrun : (BufferedSource.machine (Reader F)).run s as = some (t, os)) {calls : List Call}
    {answers : List Answer} {sofar : Bytes} (hscript : Script calls os answers sofar) :
    Begins answers sofar (askAll r' calls) ∧
      (answers.length = calls.length → answers = askAll r' calls) := by
  obtain ⟨D', hD', hlen, hbounded, hcursor⟩ := openBytes_reads hw hT hu hr
  obtain ⟨E, hE', _, _, hexact⟩ := openBytes_reads hw' hT hv hr'
  obtain rfl := hD'.unique hD
  obtain rfl := hE'.unique hE
  have htrace := reads_shown hlen hbounded hcursor hb hrun
  have hbegins := htrace.answers_begin hscript (hexact hfile)
  exact ⟨hbegins, hbegins.eq_askAll⟩

end

/-- Three rounds of the worker, a read and a read at the end. -/
def threeRounds : List BufferedSource.Action :=
  List.replicate 9 .worker ++ [.read 8 0, .read 1 0]

/-- A result that has a value is that value. -/
theorem eq_ok_of_toOption {ε α : Type} {x : Except ε α} {a : α} (h : x.toOption = some a) :
    x = .ok a := by
  cases x with
  | error e => cases h
  | ok b => rw [Option.some.inj h]

/-- A prefetched window across a file and a buffer is read to its end. -/
theorem buffered_denotes_across : letI := target64
    ∃ r s t D, (openBytes pair.world across).result = .ok r ∧
      BufferedSourceBuilder.default.build r = some (.ok s) ∧
      (BufferedSource.machine (Reader Cursor)).run s threeRounds =
        some (t, [.read 8 (.ok [2, 3, 4]), .read 1 (.ok [])]) ∧
      Denotes pair across D ∧ [2, 3, 4] = D := by
  let := target64
  have hall : ((openBytes pair.world across).result.toOption.bind fun r =>
      (BufferedSourceBuilder.default.build r).bind fun built => built.toOption.bind fun s =>
        ((BufferedSource.machine (Reader Cursor)).run s threeRounds).map Prod.snd) =
      some [.read 8 (.ok [2, 3, 4]), .read 1 (.ok [])] := by
    decide +kernel
  obtain ⟨r, hr, hall⟩ := Option.bind_eq_some_iff.mp hall
  obtain ⟨built, hb, hall⟩ := Option.bind_eq_some_iff.mp hall
  obtain ⟨s, hs, hall⟩ := Option.bind_eq_some_iff.mp hall
  obtain ⟨⟨t, os⟩, hrun, rfl⟩ := Option.map_eq_some_iff.mp hall
  have hopen := eq_ok_of_toOption hr
  rw [eq_ok_of_toOption hs] at hb
  obtain ⟨_, D, hD, hruns⟩ := buffered_denotes (pair_holds across) rfl (by decide +kernel) hopen
    .default
  have hread := (hruns s _ t _ hb hrun).2 [.read 8 (.ok [2, 3, 4])] 1 rfl (by simp) Nat.one_pos
  exact ⟨r, s, t, D, hopen, hb, hrun, hD, hread⟩

/-- Three rounds of the worker, and the reads of a loop for eight bytes. -/
def loopedReads : List BufferedSource.Action :=
  List.replicate 9 .worker ++ [.read 8 0, .read 5 0]

/-- A prefetched window across a file and a buffer reads like a literal. -/
theorem prefetch_transparent_across : letI := target64
    ∃ r r' s t, (openBytes pair.world across).result = .ok r ∧
      (openBytes pair.world "data:,%02%03%04".toList).result = .ok r' ∧
      BufferedSourceBuilder.default.build r = some (.ok s) ∧
      (BufferedSource.machine (Reader Cursor)).run s loopedReads =
        some (t, [.read 8 (.ok [2, 3, 4]), .read 5 (.ok [])]) ∧
      [.bytes [2, 3, 4]] = askAll r' [.readUpto 8] := by
  let := target64
  have hall : ((openBytes pair.world across).result.toOption.bind fun r =>
      (BufferedSourceBuilder.default.build r).bind fun built => built.toOption.bind fun s =>
        ((BufferedSource.machine (Reader Cursor)).run s loopedReads).map Prod.snd) =
      some [.read 8 (.ok [2, 3, 4]), .read 5 (.ok [])] := by
    decide +kernel
  obtain ⟨r, hr, hall⟩ := Option.bind_eq_some_iff.mp hall
  obtain ⟨built, hb, hall⟩ := Option.bind_eq_some_iff.mp hall
  obtain ⟨s, hs, hall⟩ := Option.bind_eq_some_iff.mp hall
  obtain ⟨⟨t, os⟩, hrun, rfl⟩ := Option.map_eq_some_iff.mp hall
  have hopen := eq_ok_of_toOption hr
  rw [eq_ok_of_toOption hs] at hb
  have hfit : (utf8 "data:,%02%03%04".toList).length ≤ isizeMax := by decide +kernel
  have hparse : DataUri.parse "data:,%02%03%04".toList = .ok ⟨[], false, [2, 3, 4]⟩ := by
    decide +kernel
  have hliteral : Denotes pair "data:,%02%03%04".toList [2, 3, 4] := .data hparse
  obtain ⟨r', hr', _⟩ := hliteral.opens (pair_holds _) rfl hfit
  have hscript : Script [.readUpto 8] [.read 8 (.ok [2, 3, 4]), .read 5 (.ok [])]
      [.bytes [2, 3, 4]] [] :=
    .cons (.readUpto (.more (by decide) (by decide) (.atEnd (by decide)))) (.rest [])
  refine ⟨r, r', s, t, hopen, hr', hb, hrun, ?_⟩
  exact (prefetch_transparent rfl (pair_holds _) (pair_holds _) (by decide +kernel) hfit
    (by decide +kernel) hopen hr' denotes_across hliteral hb hrun hscript).2 rfl

end OxideSource
