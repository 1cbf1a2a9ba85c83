import OxideSource.Readers.Cost
import OxideSource.Readers.Requests
import OxideSource.Uri.Denotation
import OxideSource.Uri.Sizes

/-!
# What a URI costs its files

Opening a URI costs each of its leaves a few seeks and reads nothing. From then on a call on
the reader costs its files at most one seek and one read of no more than was asked for,
however deep the URI is nested.
-/

namespace OxideSource

open Uri

/-! ### Induction over what opens -/

section

variable {F : Type} {w : World F} {uri : Text} {r : Reader F}

/-- What `open_file` gives is a file of the world. -/
theorem openFile_eq_ok (h : (openFile w uri).result = .ok r) :
    ∃ path f, w.openFile path = .ok f ∧ r = .file f := by
  unfold openFile at h
  dsimp only at h
  split at h
  · cases h
  · obtain ⟨path, _, h⟩ := Opening.bind_eq_ok.mp h
    obtain ⟨f, hf, h⟩ := Opening.bind_eq_ok.mp h
    exact ⟨_, f, World.open_eq_ok.mp hf, (Except.ok.inj h).symm⟩

/-- What `open_mem` gives is a new reader. -/
theorem openMem_eq_new (h : (openMem w uri).result = .ok r) : ∃ buf, r = .mem (.new buf) := by
  unfold openMem Opening.of at h
  dsimp only at h
  split at h
  · cases h
  split at h
  · cases h
  split at h
  · cases h
  split at h
  · cases h
  · exact ⟨_, (Except.ok.inj h).symm⟩

variable [Target] [ReadSeek F]

/-- What holds of the leaves, and of wrappers whose parts it holds of, holds of every reader
that opens. -/
theorem openBytes_induction {P : Text → Reader F → Prop}
    (hfile : ∀ uri path f, w.openFile path = .ok f → P uri (.file f))
    (hmem : ∀ uri buf, P uri (.mem (.new buf)))
    (hdata : ∀ uri data, P uri (.cursor (.new data)))
    (hslice : ∀ uri x inner s, SliceUri.parse uri = .ok x → P x.inner inner →
      SubSource.new inner x.offset x.length = .ok s → P uri (.sub s))
    (hconcat : ∀ uri x parts s, ConcatUri.parse uri = .ok x → List.Forall₂ P x.segments parts →
      ConcatSource.new parts = .ok s → P uri (.concat s))
    (h : (openBytes w uri).result = .ok r) : P uri r := by
  induction hn : uri.length using Nat.strong_induction_on generalizing uri r with
  | _ n ih =>
      have hparts : ∀ ref, Part uri ref → ∀ r, (openBytes w ref).result = .ok r → P ref r :=
        fun ref href r hr => ih ref.length (hn ▸ href.length_lt) hr rfl
      rw [openBytes_eq, openScheme] at h
      dsimp only at h
      split at h
      · obtain ⟨path, f, hf, rfl⟩ := openFile_eq_ok h
        exact hfile _ _ _ hf
      split at h
      · obtain ⟨buf, rfl⟩ := openMem_eq_new h
        exact hmem _ _
      split at h
      · obtain ⟨x, _, h⟩ := Opening.bind_eq_ok.mp h
        obtain rfl := Except.ok.inj h
        exact hdata _ _
      split at h
      · obtain ⟨x, inner, s, hx, hinner, hs, rfl⟩ := openSlice_eq_ok.mp h
        exact hslice _ _ _ _ hx (hparts _ (.inner hx) _ hinner) hs
      split at h
      · obtain ⟨x, parts, s, hx, hsegs, hs, rfl⟩ := openConcat_eq_ok.mp h
        refine hconcat _ _ _ _ hx ?_ hs
        refine ((List.forall₂_and_left _ _).mpr ⟨fun _ hseg => hseg,
          openSegments_eq_ok.mp hsegs⟩).imp ?_
        rintro seg part ⟨hseg, _, hpart⟩
        exact hparts seg (.segment hx hseg) part hpart
      · cases h

end

/-! ### Costs -/

section

variable {F : Type} [Target] [ReadSeek F] {w : World F} {uri : Text} {r : Reader F} {T : Tariff}

/-- Building a window over a reader costs at most four seeks. -/
theorem spent_new_sub (m : Meter T F) {inner : Reader F} {base len : UInt64}
    {s : SubSource (Reader F)} (h : SubSource.new inner base len = .ok s) :
    s.inner.spent m.spent ≤ inner.spent m.spent + 4 * (inner.fare T).seek :=
  (SubSource.new_sought h).cost_le (c := fun r => (r.fare T).seek) (Reader.spent_seek m)
    fun r f => congrArg Tariff.seek (r.fare_seek f)

/-- Building a concatenation costs at most two seeks for each part. -/
theorem spents_new_concat (m : Meter T F) {segs : List Text} {parts : List (Reader F)}
    {c : Nat} {k : Text → Nat} {s : ConcatSource (Reader F)}
    (hparts : List.Forall₂
      (fun seg part => part.spent m.spent + 4 * (part.fare T).seek ≤ c * k seg) segs parts)
    (h : ConcatSource.new parts = .ok s) :
    Reader.spents m.spent s.parts ≤ c * (segs.map k).sum := by
  have hsought := ConcatSource.new_sought h
  generalize s.parts = parts' at hsought ⊢
  clear h
  induction hparts generalizing parts' with
  | nil =>
      cases hsought
      exact Nat.le_refl _
  | @cons seg part segs parts hpart _ ih =>
      cases hsought with
      | @cons _ part' _ _ hhead htail =>
          have hcost : part'.spent m.spent ≤ part.spent m.spent + 2 * (part.fare T).seek :=
            hhead.cost_le (c := fun r => (r.fare T).seek) (Reader.spent_seek m)
              fun r f => congrArg Tariff.seek (r.fare_seek f)
          have hrest := ih _ htail
          rw [Reader.spents, List.map_cons, List.sum_cons, Nat.mul_add]
          omega

/-- A leaf costs the seeks of the wrapper around it; a wrapper costs nothing more. -/
theorem spent_openBytes (m : Meter T F)
    (hnew : ∀ path f, w.openFile path = .ok f → m.spent f = 0)
    (h : (openBytes w uri).result = .ok r) :
    r.spent m.spent + 4 * (r.fare T).seek ≤ 4 * T.seek * (1 + uri.count '|') := by
  have hleaf (uri : Text) : 4 * T.seek ≤ 4 * T.seek * (1 + uri.count '|') :=
    Nat.le_mul_of_pos_right _ (by omega)
  refine openBytes_induction (w := w) (P := fun uri r => r.spent m.spent + 4 * (r.fare T).seek ≤
    4 * T.seek * (1 + uri.count '|')) ?_ ?_ ?_ ?_ ?_ h
  · intro uri path f hf
    rw [Reader.spent, hnew path f hf, Nat.zero_add]
    exact hleaf uri
  · intro uri buf
    exact Nat.zero_le _
  · intro uri data
    exact Nat.zero_le _
  · intro uri x inner s hx hinner hs
    have hbar := ((List.suffix_cons '!' _).trans (SliceUri.suffix_inner hx)).sublist.count_le '|'
    have hgrow : 4 * T.seek * (1 + x.inner.count '|') ≤ 4 * T.seek * (1 + uri.count '|') :=
      Nat.mul_le_mul_left _ (Nat.add_le_add_left hbar _)
    have hcost := spent_new_sub m hs
    have hfree : ((Reader.sub s).fare T).seek = 0 := rfl
    rw [Reader.spent_sub, hfree]
    omega
  · intro uri x parts s hx hparts hs
    have hbar := (ConcatUri.suffix_join hx).sublist.count_le '|'
    have hgrow : 4 * T.seek * (1 + (['|'].intercalate x.segments).count '|') ≤
        4 * T.seek * (1 + uri.count '|') :=
      Nat.mul_le_mul_left _ (Nat.add_le_add_left hbar _)
    have hcost := spents_new_concat m hparts hs
    have hcount := count_join '|' (ConcatUri.parse_iff.mp hx).2.2.nonempty
    have hfree : ((Reader.concat s).fare T).seek = 0 := rfl
    rw [Reader.spent_concat, hfree]
    rw [hcount] at hcost
    omega

/-- Opening a URI costs at most four seeks for each of its leaves, and from then on every call
on the reader, whatever calls came before, at most one seek and a read of no more than it
asks for. -/
theorem open_frugal (m : Meter T F)
    (hnew : ∀ path f, w.openFile path = .ok f → m.spent f = 0)
    (hr : (openBytes w uri).result = .ok r) :
    r.spent m.spent ≤ 4 * T.seek * (1 + uri.count '|') ∧
      ∀ ops op, (perform (performAll r ops).2 op).2.spent m.spent ≤
        (performAll r ops).2.spent m.spent + T.repositioned.price op := by
  have hopen := spent_openBytes m hnew hr
  refine ⟨(Nat.le_add_right _ _).trans hopen, fun ops op => ?_⟩
  exact (Reader.meter m).perform_le (performAll r ops).2 op

end

/-! ### Recorded files -/

/-- A world whose files record what they are asked for. -/
def World.recorded {F : Type} (w : World F) : World (Recorder F) where
  openFile path := (w.openFile path).map .new
  mem := w.mem

section

variable {F : Type} [ReadSeek F]

/-- Recording does not change which contract is kept. -/
theorem Recorder.follows {τ : Type} {Step : τ → IoObs → τ → Prop} {r : Recorder F} {p : τ}
    (h : Follows Step r.inner p) : Follows Step r p := by
  refine ⟨fun r p => Follows Step r.inner p, h, ?_⟩
  intro r p hr op
  obtain ⟨q, hstep, hq⟩ := hr.perform op
  cases op with
  | _ => exact ⟨q, hstep, hq⟩

variable [Target] {w : World F} {R : Resources} {allow : IoError → Prop}

/-- Recording does not change what a world holds. -/
theorem World.Holds.recorded {uri : Text} (hw : w.Holds R allow uri) :
    w.recorded.Holds R allow uri where
  file hpath hD := by
    obtain ⟨hlen, f, hf, hbounded⟩ := hw.file hpath hD
    exact ⟨hlen, .new f, by simp [World.recorded, hf, Except.map], Recorder.follows hbounded⟩
  missing hpath hD := by
    obtain ⟨e, he⟩ := hw.missing hpath hD
    exact ⟨e, by simp [World.recorded, he, Except.map]⟩
  mem := hw.mem
  buffer := hw.buffer

end

/-- The bytes that a recorder was asked for. -/
def Recorder.meter (ρ : Type) [ReadSeek ρ] : Meter .bytes (Recorder ρ) where
  spent r := r.asked.sum
  seek_le r f := by simp
  read_le r n := by simp [Tariff.bytes]

/-- Opening a window across a file asks the file for no byte, and a read through it, after
another read and a seek, for no more than the window was asked for. -/
theorem open_frugal_across : letI := target64
    ∃ r, (openBytes pair.world.recorded across).result = .ok r ∧
      r.spent (fun f => f.asked.sum) ≤ 0 ∧
      (perform (performAll r [.read 2, .seek (.fromStart 1)]).2 (.read 5)).2.spent
        (fun f => f.asked.sum) ≤
          (performAll r [.read 2, .seek (.fromStart 1)]).2.spent (fun f => f.asked.sum) + 5 := by
  let := target64
  have hopens : (openBytes pair.world.recorded across).result.isOk = true := by decide +kernel
  cases hr : (openBytes pair.world.recorded across).result with
  | error e =>
      rw [hr] at hopens
      cases hopens
  | ok r =>
      obtain ⟨hopen, hcalls⟩ := open_frugal (Recorder.meter Cursor) (by
        intro path f hf
        obtain ⟨c, _, rfl⟩ := exceptMap_eq_ok.mp hf
        rfl) hr
      have hread := hcalls [.read 2, .seek (.fromStart 1)] (.read 5)
      simp only [Tariff.bytes, Tariff.repositioned, Tariff.price, Nat.mul_zero, Nat.zero_mul,
        Nat.zero_add, id] at hopen hread
      exact ⟨r, rfl, hopen, hread⟩

end OxideSource
