import OxideSource.Readers.Reader
import OxideSource.Uri.Concat
import OxideSource.Uri.Data
import OxideSource.Uri.Slice

/-!
# Opening URIs

The drivers and the dispatcher they share. Opening a URI may open files on the way,
also when it fails later, so the paths of the files that were opened are kept beside the
result. A composite driver calls back into the dispatcher on shorter text; the
dispatcher takes itself as a parameter, and its unfolding equation closes the knot.
-/

namespace OxideSource

open Uri

/-- A computation that may open files and fail: the paths opened and the result. -/
structure Opening (α : Type) where
  opened : List Bytes
  result : Except Error α
  deriving DecidableEq

namespace Opening

variable {α β : Type}

/-- A result without effect. -/
def of (result : Except Error α) : Opening α := ⟨[], result⟩

/-- The operator `?`: go on with the value, or stop at the error. -/
def bind (m : Opening α) (f : α → Opening β) : Opening β :=
  match m.result with
  | .error e => ⟨m.opened, .error e⟩
  | .ok a => ⟨m.opened ++ (f a).opened, (f a).result⟩

instance : Monad Opening where
  pure a := of (.ok a)
  bind := bind

/-- A sequence after a value: both open their files, and the second gives the result. -/
theorem bind_of_ok {m : Opening α} {a : α} (h : m.result = .ok a) (f : α → Opening β) :
    m >>= f = ⟨m.opened ++ (f a).opened, (f a).result⟩ := by
  change bind m f = _
  rw [bind, h]

/-- A sequence stops at an error. -/
theorem bind_of_error {m : Opening α} {e : Error} (h : m.result = .error e)
    (f : α → Opening β) : m >>= f = ⟨m.opened, .error e⟩ := by
  change bind m f = _
  rw [bind, h]

/-- A sequence succeeds when both its parts do. -/
theorem bind_eq_ok {m : Opening α} {f : α → Opening β} {b : β} :
    (m >>= f).result = .ok b ↔ ∃ a, m.result = .ok a ∧ (f a).result = .ok b := by
  cases h : m.result with
  | error e => simp [bind_of_error h]
  | ok a => simp [bind_of_ok h]

/-- A sequence fails when one of its parts does. -/
theorem bind_eq_error {m : Opening α} {f : α → Opening β} {e : Error} :
    (m >>= f).result = .error e ↔
      m.result = .error e ∨ ∃ a, m.result = .ok a ∧ (f a).result = .error e := by
  cases h : m.result with
  | error e => simp [bind_of_error h]
  | ok a => simp [bind_of_ok h]

/-- A value without effect goes straight to what follows. -/
@[simp] theorem of_ok_bind (a : α) (f : α → Opening β) : of (.ok a) >>= f = f a := rfl

end Opening

/-- What the drivers reach outside the URI: the file system and the `mem://` table. -/
structure World (F : Type) where
  /-- `File::open`. -/
  openFile : Bytes → IoResult F
  /-- The table of registered buffers. -/
  mem : Text → Option Bytes

section Drivers

variable {F : Type} (w : World F)

/-- `File::open` with the `?` of its callers. A path that does not open leaves no file open. -/
def World.open (path : Bytes) : Opening F :=
  match w.openFile path with
  | .ok f => ⟨[path], .ok f⟩
  | .error e => ⟨[], .error (.io e)⟩

/-- A path opens as the file system says. -/
theorem World.open_eq_ok {w : World F} {path : Bytes} {f : F} :
    (w.open path).result = .ok f ↔ w.openFile path = .ok f := by
  unfold World.open
  cases w.openFile path <;> simp

/-- A failed `File::open` is passed on as it is. -/
theorem World.open_eq_error {w : World F} {path : Bytes} {x : Error} :
    (w.open path).result = .error x ↔ ∃ e, w.openFile path = .error e ∧ x = .io e := by
  unfold World.open
  cases w.openFile path <;> simp [eq_comm]

/-- `open_file`. -/
def openFile (uri : Text) : Opening (Reader F) :=
  let (scheme, rest) := split uri
  if !schemeIs scheme "file".toList then
    .of (.error (.invalid ["file driver invoked on non-file URI: ", .text uri]))
  else do
    let path ← .of (if hasFileScheme uri then percentDecodePath rest else .ok rest)
    let f ← w.open (utf8 path)
    pure (.file f)

/-- `open_mem`. -/
def openMem (uri : Text) : Opening (Reader F) :=
  let (scheme, id) := split uri
  .of <|
    if !schemeIs scheme "mem".toList then
      .error (.invalid ["mem driver invoked on non-mem URI: ", .text uri])
    else if id = [] then .error (.invalid ["mem:// URI requires a non-empty id"])
    else if '/' ∈ id then .error (.invalid ["mem:// id must not contain '/': ", .text id])
    else
      match w.mem id with
      | none => .error (.io ⟨.notFound, ["mem:// id '", .text id, "' is not registered"]⟩)
      | some buf => .ok (.mem (.new buf))

/-- `open_data`. -/
def openData (uri : Text) : Opening (Reader F) := do
  let parsed ← .of (DataUri.parse uri)
  pure (.cursor (.new parsed.data))

variable [Target] [ReadSeek F] (dispatch : Text → Opening (Reader F))

/-- `SliceUri::open`. -/
def SliceUri.open (x : SliceUri) : Opening (Reader F) := do
  let inner ← dispatch x.inner
  let sub ← .of (SubSource.new inner x.offset x.length)
  pure (.sub sub)

/-- `open_slice`. -/
def openSlice (uri : Text) : Opening (Reader F) := do
  let x ← .of (SliceUri.parse uri)
  x.open dispatch

/-- `open_segment`. -/
def openSegment (seg : Text) : Opening (Reader F) :=
  if schemeIs (split seg).1 "concat".toList then
    .of (.error (.invalid ["concat: segment ", .debug seg, " is itself a concat: URI; nesting ",
      "concat is not supported because the outer '|' split would shred the inner segment list"]))
  else dispatch seg

/-- The loop of `ConcatUri::open`. -/
def openSegments : List Text → Opening (List (Reader F))
  | [] => pure []
  | seg :: segs => do
      let part ← openSegment dispatch seg
      let parts ← openSegments segs
      pure (part :: parts)

/-- `ConcatUri::open`. -/
def ConcatUri.open (x : ConcatUri) : Opening (Reader F) := do
  let parts ← openSegments dispatch x.segments
  let joined ← .of (ConcatSource.new parts)
  pure (.concat joined)

/-- `open_concat`. -/
def openConcat (uri : Text) : Opening (Reader F) := do
  let x ← .of (ConcatUri.parse uri)
  x.open dispatch

/-- The body of `open_bytes`, with `dispatch` for its calls from inside a composite. -/
def openScheme (uri : Text) : Opening (Reader F) :=
  let (scheme, _) := split uri
  if schemeIs scheme "file".toList then openFile w uri
  else if schemeIs scheme "mem".toList then openMem w uri
  else if schemeIs scheme "data".toList then openData uri
  else if schemeIs scheme "slice".toList then openSlice dispatch uri
  else if schemeIs scheme "concat".toList then openConcat dispatch uri
  else
    .of (.error (.unsupported ["no bundled in-process driver for scheme ", .debug scheme, " (URI: ",
      .text uri, "); only file/mem/data/slice/concat are dispatchable without a registry"]))

/-- `open_bytes` through at most a given number of nested URIs. -/
def openWithin : Nat → Text → Opening (Reader F)
  | 0, _ => .of (.error (.invalid []))
  | k + 1, uri => openScheme w (openWithin k) uri

/-- `open_bytes`. -/
def openBytes (uri : Text) : Opening (Reader F) := openWithin w (uri.length + 1) uri

end Drivers

/-! ### The unfolding equation -/

section

variable {F : Type} [Target] [ReadSeek F] {w : World F}

omit [Target] [ReadSeek F] in
/-- The loop goes by what the dispatcher gives for its segments. -/
theorem openSegments_congr {d d' : Text → Opening (Reader F)} {segs : List Text}
    (h : ∀ seg ∈ segs, d seg = d' seg) : openSegments d segs = openSegments d' segs := by
  induction segs with
  | nil => rfl
  | cons seg segs ih =>
      obtain ⟨hseg, hsegs⟩ := List.forall_mem_cons.mp h
      simp only [openSegments, openSegment, hseg, ih hsegs]

/-- A composite driver calls back on shorter text only. -/
theorem openScheme_congr {d d' : Text → Opening (Reader F)} {uri : Text}
    (h : ∀ t : Text, t.length < uri.length → d t = d' t) :
    openScheme w d uri = openScheme w d' uri := by
  have hslice : openSlice d uri = openSlice d' uri := by
    unfold openSlice
    cases hx : SliceUri.parse uri with
    | error e => rfl
    | ok x => simp only [Opening.of_ok_bind, SliceUri.open, h _ (SliceUri.length_inner_lt hx)]
  have hconcat : openConcat d uri = openConcat d' uri := by
    unfold openConcat
    cases hx : ConcatUri.parse uri with
    | error e => rfl
    | ok x =>
        have hsegs : openSegments d x.segments = openSegments d' x.segments :=
          openSegments_congr fun seg hseg => h seg (ConcatUri.length_segment_lt hx hseg)
        simp only [Opening.of_ok_bind, ConcatUri.open, hsegs]
  simp only [openScheme, hslice, hconcat]

/-- Any sufficient nesting bound opens alike. -/
theorem openWithin_congr {k k' : Nat} {uri : Text} (hk : uri.length < k) (hk' : uri.length < k') :
    openWithin w k uri = openWithin w k' uri := by
  induction k generalizing k' uri with
  | zero => exact absurd hk (Nat.not_lt_zero _)
  | succ k ih =>
      obtain ⟨k', rfl⟩ : ∃ n, k' = n + 1 := ⟨k' - 1, by omega⟩
      apply openScheme_congr
      intro t ht
      exact ih (by omega) (by omega)

/-- `open_bytes` is its body with itself for the nested calls. -/
theorem openBytes_eq (uri : Text) : openBytes w uri = openScheme w (openBytes w) uri := by
  apply openScheme_congr
  intro t ht
  exact openWithin_congr ht (Nat.lt_succ_self _)

/-! ### Dispatch on a scheme -/

/-- `file` goes to the file driver. -/
theorem openBytes_file {uri : Text} (h : schemeIs (split uri).1 "file".toList = true) :
    openBytes w uri = openFile w uri := by
  simp only [openBytes_eq uri, openScheme, h, ite_true]

/-- `mem` goes to the memory driver. -/
theorem openBytes_mem {uri : Text} (h : schemeIs (split uri).1 "mem".toList = true) :
    openBytes w uri = openMem w uri := by
  have hfile := schemeIs_unique h (b := "file".toList) (by decide)
  simp only [openBytes_eq uri, openScheme, hfile, h, Bool.false_eq_true, ite_false, ite_true]

/-- `data` goes to the data driver. -/
theorem openBytes_data {uri : Text} (h : schemeIs (split uri).1 "data".toList = true) :
    openBytes w uri = openData uri := by
  have hfile := schemeIs_unique h (b := "file".toList) (by decide)
  have hmem := schemeIs_unique h (b := "mem".toList) (by decide)
  simp only [openBytes_eq uri, openScheme, hfile, hmem, h, Bool.false_eq_true, ite_false, ite_true]

/-- `slice` goes to its driver, with `open_bytes` for the inner URI. -/
theorem openBytes_slice {uri : Text} (h : schemeIs (split uri).1 "slice".toList = true) :
    openBytes w uri = openSlice (openBytes w) uri := by
  have hfile := schemeIs_unique h (b := "file".toList) (by decide)
  have hmem := schemeIs_unique h (b := "mem".toList) (by decide)
  have hdata := schemeIs_unique h (b := "data".toList) (by decide)
  rw [openBytes_eq uri]
  simp only [openScheme, hfile, hmem, hdata, h, Bool.false_eq_true, ite_false, ite_true]

/-- `concat` goes to its driver, with `open_bytes` for the segments. -/
theorem openBytes_concat {uri : Text} (h : schemeIs (split uri).1 "concat".toList = true) :
    openBytes w uri = openConcat (openBytes w) uri := by
  have hfile := schemeIs_unique h (b := "file".toList) (by decide)
  have hmem := schemeIs_unique h (b := "mem".toList) (by decide)
  have hdata := schemeIs_unique h (b := "data".toList) (by decide)
  have hslice := schemeIs_unique h (b := "slice".toList) (by decide)
  rw [openBytes_eq uri]
  simp only [openScheme, hfile, hmem, hdata, hslice, h, Bool.false_eq_true, ite_false, ite_true]

end

end OxideSource
