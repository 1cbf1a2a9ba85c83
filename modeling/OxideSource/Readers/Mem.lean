import OxideSource.Core.Cursor

/-!
# In-memory readers

The `Read + Seek` view onto a shared `mem://` buffer. A buffer is shared without
copying, so its contents never change under a reader.
-/

namespace OxideSource

/-- The signed-offset helper that `mem.rs`, `sub.rs` and `concat.rs` each carry
with their own message. -/
def addSigned (msg : Message) (base : Nat) (delta : Int64) : IoResult Nat :=
  match checkedAddSigned base delta with
  | some q => .ok q
  | none => .error ⟨.invalidInput, msg⟩

/-- Resolve a seek request against a length and a position with `addSigned`. -/
def resolveSeek (msg : Message) (len pos : Nat) : SeekFrom → IoResult Nat
  | .fromStart n => .ok n.toNat
  | .fromEnd d => addSigned msg len d
  | .fromCurrent d => addSigned msg pos d

/-- `resolveSeek` is `seekTarget` with an error in place of `none`. -/
theorem resolveSeek_eq (msg : Message) (len pos : Nat) (f : SeekFrom) :
    resolveSeek msg len pos f =
      match seekTarget len (some pos) f with
      | some q => .ok q
      | none => .error ⟨.invalidInput, msg⟩ := by
  cases f <;> rfl

/-- A seek that only moves a position follows the cursor specification. -/
theorem resolveSeek_step (D : Bytes) (allow : IoError → Prop) (msg : Message) (pos : Nat)
    (f : SeekFrom) :
    (∃ q, resolveSeek msg D.length pos f = .ok q ∧ CursorStep D allow pos (.seek f (.ok q)) q) ∨
    ∃ e, resolveSeek msg D.length pos f = .error e ∧
      CursorStep D allow pos (.seek f (.error e)) pos := by
  rw [resolveSeek_eq]
  cases ht : seekTarget D.length (some pos) f with
  | some q => exact .inl ⟨q, rfl, .seek ht⟩
  | none => exact .inr ⟨_, rfl, .seekError ht rfl⟩

/-- `MemReader`: a shared buffer and a position of its own. -/
structure MemReader where
  buf : Bytes
  pos : Nat
  deriving DecidableEq, Repr

namespace MemReader

/-- `MemReader::new`. -/
def new (buf : Bytes) : MemReader := ⟨buf, 0⟩

/-- `impl Read for MemReader`. -/
def read [Target] (r : MemReader) (want : Nat) : IoResult Bytes × MemReader :=
  if want = 0 then (.ok [], r)
  else
    let len := r.buf.length
    if r.pos ≥ len then (.ok [], r)
    else
      let avail := asUsize (len - r.pos)
      let n := min want avail
      let start := asUsize r.pos
      (.ok (window r.buf start n), { r with pos := addU64 r.pos n })

/-- The message of `add_signed` in `mem.rs`. -/
def seekMessage : Message :=
  ["mem:// reader: seek resolves to a negative or overflowing position"]

/-- `impl Seek for MemReader`. -/
def seek (r : MemReader) (f : SeekFrom) : IoResult Nat × MemReader :=
  match resolveSeek seekMessage r.buf.length r.pos f with
  | .ok q => (.ok q, { r with pos := q })
  | .error e => (.error e, r)

instance [Target] : ReadSeek MemReader := ⟨read, seek⟩

/-- A read within an addressable buffer copies the bytes at the position. -/
theorem read_ok [Target] {r : MemReader} (hbuf : r.buf.length ≤ usizeMax) {want : Nat}
    (hw : want ≠ 0) (hp : r.pos < r.buf.length) :
    r.read want = (.ok ((r.buf.drop r.pos).take want),
      { r with pos := r.pos + ((r.buf.drop r.pos).take want).length }) := by
  have hu := usizeMax_lt
  have havail : asUsize (r.buf.length - r.pos) = r.buf.length - r.pos := asUsize_of_lt (by omega)
  have hstart : asUsize r.pos = r.pos := asUsize_of_lt (by omega)
  have hn : ((r.buf.drop r.pos).take want).length = min want (r.buf.length - r.pos) := by
    rw [List.length_take, List.length_drop]
  have hadd : addU64 r.pos (min want (r.buf.length - r.pos)) =
      r.pos + min want (r.buf.length - r.pos) := addU64_of_lt (by omega)
  have htake : window r.buf r.pos (min want (r.buf.length - r.pos)) =
      (r.buf.drop r.pos).take want := by
    have h := (List.take_eq_take_min (l := r.buf.drop r.pos) (i := want)).symm
    rwa [List.length_drop] at h
  simp only [read, hw, ite_false, Nat.not_le.mpr hp, havail, hstart, hadd, htake, hn]

/-- A read of an addressable buffer is a step of a cursor over its bytes. -/
theorem read_step [Target] (allow : IoError → Prop) {r : MemReader}
    (hbuf : r.buf.length ≤ usizeMax) (n : Nat) :
    ∃ q, CursorStep r.buf allow r.pos (.read n (r.read n).1) q ∧
      (r.read n).2 = { r with pos := q } := by
  by_cases hn : n = 0
  · have hr : r.read n = (.ok [], r) := by simp only [read, hn, ite_true]
    rw [hr]
    exact ⟨_, .read List.nil_prefix (Nat.zero_le _) fun _ => .inl hn, rfl⟩
  · by_cases hp : r.pos < r.buf.length
    · rw [read_ok hbuf hn hp]
      refine ⟨_, .read (List.take_prefix _ _) (List.length_take_le _ _) ?_, rfl⟩
      intro h
      rw [List.take_eq_nil_iff, List.drop_eq_nil_iff] at h
      omega
    · have hend : r.buf.length ≤ r.pos := Nat.not_lt.mp hp
      have hr : r.read n = (.ok [], r) := by simp only [read, hn, ite_false, hend, ite_true]
      rw [hr]
      exact ⟨_, .read List.nil_prefix (Nat.zero_le _) fun _ => .inr hend, rfl⟩

/-- A seek is a step of a cursor, and moves nothing but the position. -/
theorem seek_step (allow : IoError → Prop) (r : MemReader) (f : SeekFrom) :
    ∃ q, CursorStep r.buf allow r.pos (.seek f (r.seek f).1) q ∧
      (r.seek f).2 = { r with pos := q } := by
  unfold seek
  rcases resolveSeek_step r.buf allow seekMessage r.pos f with ⟨q, hq, hstep⟩ | ⟨e, he, hstep⟩
  · rw [hq]
    exact ⟨q, hstep, rfl⟩
  · rw [he]
    exact ⟨_, hstep, rfl⟩

/-- A reader over an addressable buffer behaves as a cursor over its bytes. -/
theorem behaves [Target] (allow : IoError → Prop) (r : MemReader)
    (hbuf : r.buf.length ≤ usizeMax) : Behaves r.buf allow r r.pos := by
  refine ⟨fun s p => s = { r with pos := p }, ⟨?_⟩, rfl⟩
  rintro _ p rfl op
  cases op with
  | read n => exact read_step (r := { r with pos := p }) allow hbuf n
  | seek f => exact seek_step allow { r with pos := p } f

end MemReader

end OxideSource
