import Mathlib.Algebra.Group.Nat.Defs
import Mathlib.Data.List.Infix
import Mathlib.Tactic.Common

/-!
# Byte streams and their errors

The vocabulary of `std::io` that every reader shares: error kinds, messages kept
as pieces so that no formatting is lost, seek requests at machine width, and the
object interface `Read + Seek`. A read is described by the bytes it wrote into
the caller's buffer, whose length is the returned count.
-/

namespace OxideSource

/-- A byte string: `Vec<u8>`, `&[u8]`, or the written part of a buffer. -/
abbrev Bytes := List UInt8

/-- Text as its sequence of Unicode scalar values. -/
abbrev Text := List Char

/-- `io::ErrorKind`. -/
inductive ErrorKind where
  | notFound | permissionDenied | connectionRefused | connectionReset | hostUnreachable
  | networkUnreachable | connectionAborted | notConnected | addrInUse | addrNotAvailable
  | networkDown | brokenPipe | alreadyExists | wouldBlock | notADirectory | isADirectory
  | directoryNotEmpty | readOnlyFilesystem | staleNetworkFileHandle | invalidInput
  | invalidData | timedOut | writeZero | storageFull | notSeekable | quotaExceeded
  | fileTooLarge | resourceBusy | executableFileBusy | deadlock | crossesDevices
  | tooManyLinks | invalidFilename | argumentListTooLong | interrupted | unsupported
  | unexpectedEof | outOfMemory | other | uncategorized
  deriving DecidableEq, Repr

/-- One argument or literal of a `format!` string. -/
inductive Piece where
  | lit (s : String)
  /-- `{s}` on text. -/
  | text (s : Text)
  /-- `{s:?}` on text. -/
  | debug (s : Text)
  /-- `{n}` on an integer. -/
  | num (n : Nat)
  /-- `{c:?}` on a byte read as a character. -/
  | byte (b : UInt8)
  /-- `{}` on `Path::display`. -/
  | path (p : Bytes)
  /-- `{}` on the `Utf8Error` of a byte string. -/
  | utf8Error (bytes : Bytes)
  deriving DecidableEq, Repr

/-- A formatted message, unrendered. -/
abbrev Message := List Piece

instance : Coe String Piece := ⟨Piece.lit⟩

/-- `io::Error` as the kind and text that survive `e.kind()` and `e.to_string()`. -/
structure IoError where
  kind : ErrorKind
  msg : Message
  deriving DecidableEq, Repr

/-- `io::Result`. -/
abbrev IoResult := Except IoError

instance decidableEqExcept {ε α : Type} [DecidableEq ε] [DecidableEq α] : DecidableEq (Except ε α)
  | .ok a, .ok b => if h : a = b then isTrue (h ▸ rfl) else isFalse fun he => h (Except.ok.inj he)
  | .error a, .error b =>
      if h : a = b then isTrue (h ▸ rfl) else isFalse fun he => h (Except.error.inj he)
  | .ok _, .error _ => isFalse nofun
  | .error _, .ok _ => isFalse nofun

/-- A mapped result is a value when the result is one. -/
theorem exceptMap_eq_ok {ε α β : Type} {f : α → β} {x : Except ε α} {b : β} :
    x.map f = .ok b ↔ ∃ a, x = .ok a ∧ f a = b := by
  cases x <;> simp [Except.map]

/-- `oxideav_core::Error`, as far as the drivers build it. -/
inductive Error where
  /-- `Error::invalid`, malformed input. -/
  | invalidData (msg : Message)
  | unsupported (msg : Message)
  | io (e : IoError)
  deriving DecidableEq, Repr

/-- `Error::invalid`. -/
def Error.invalid (msg : Message) : Error := .invalidData msg

/-- `SeekFrom`, with its arguments at their machine width. -/
inductive SeekFrom where
  | fromStart (n : UInt64)
  | fromEnd (d : Int64)
  | fromCurrent (d : Int64)
  deriving DecidableEq

/-- The object interface `Read + Seek`. -/
class ReadSeek (σ : Type) where
  /-- `read` into a buffer of the given length: the bytes written, or the error. -/
  read : σ → Nat → IoResult Bytes × σ
  seek : σ → SeekFrom → IoResult Nat × σ

/-- `Seek::stream_position`. -/
def streamPosition {σ : Type} [ReadSeek σ] (s : σ) : IoResult Nat × σ :=
  ReadSeek.seek s (.fromCurrent 0)

/-! ### Machine integers -/

/-- The width of `usize`. -/
class Target where
  usizeBits : Nat
  usizeBits_mem : usizeBits = 32 ∨ usizeBits = 64

/-- A 64-bit target. -/
@[reducible] def target64 : Target := ⟨64, .inr rfl⟩

/-- `x as usize` on an unsigned value. -/
def asUsize [Target] (n : Nat) : Nat := n % 2 ^ Target.usizeBits

/-- `usize::MAX`. -/
def usizeMax [Target] : Nat := 2 ^ Target.usizeBits - 1

/-- `isize::MAX`. -/
def isizeMax [Target] : Nat := 2 ^ (Target.usizeBits - 1) - 1

/-- One past `u64::MAX`. -/
abbrev u64Size : Nat := 2 ^ 64

/-- `u64` addition, wrapping on overflow. -/
def addU64 (a b : Nat) : Nat := (a + b) % u64Size

/-- `u64::checked_add`. -/
def checkedAdd (a b : Nat) : Option Nat := if a + b < u64Size then some (a + b) else none

/-- `checked_sub` on unsigned values. -/
def checkedSub (a b : Nat) : Option Nat := if b ≤ a then some (a - b) else none

/-- `u64::saturating_mul`. -/
def saturatingMul (a b : Nat) : Nat := min (a * b) (u64Size - 1)

/-- `u64::checked_div`. -/
def checkedDiv (a b : Nat) : Option Nat := if b = 0 then none else some (a / b)

/-- `u64::checked_add_signed`. -/
def checkedAddSigned (base : Nat) (d : Int64) : Option Nat :=
  if 0 ≤ d.toInt then checkedAdd base d.toInt.toNat else checkedSub base d.toInt.natAbs

/-- A `usize` fits a `u64` on every target. -/
theorem usizeMax_lt [Target] : usizeMax < u64Size := by
  have h := Target.usizeBits_mem
  rcases h with h | h <;> simp [usizeMax, u64Size, h]

/-- An allocation is addressed by a `usize`. -/
theorem isizeMax_le_usizeMax [Target] : isizeMax ≤ usizeMax := by
  have h := Nat.pow_le_pow_right (n := 2) (by decide) (Nat.sub_le Target.usizeBits 1)
  unfold isizeMax usizeMax
  omega

/-- The cast keeps what fits. -/
theorem asUsize_of_lt [Target] {n : Nat} (h : n ≤ usizeMax) : asUsize n = n := by
  have hp : 0 < 2 ^ Target.usizeBits := Nat.two_pow_pos _
  exact Nat.mod_eq_of_lt (by unfold usizeMax at h; omega)

/-- On a 64-bit target every `u64` is a `usize`. -/
theorem le_usizeMax_of_bits [Target] (hT : Target.usizeBits = 64) {n : Nat} (h : n < u64Size) :
    n ≤ usizeMax := by
  rw [usizeMax, hT]
  exact Nat.le_sub_one_of_lt h

/-- The cast never enlarges. -/
theorem asUsize_le [Target] (n : Nat) : asUsize n ≤ n := Nat.mod_le _ _

/-- A number below `2 ^ 64` is itself as a `u64`. -/
theorem toNat_ofNat_of_lt {n : Nat} (h : n < u64Size) : (UInt64.ofNat n).toNat = n := by
  rw [UInt64.toNat_ofNat']
  exact Nat.mod_eq_of_lt h

/-- A sum that fits does not wrap. -/
theorem addU64_of_lt {a b : Nat} (h : a + b < u64Size) : addU64 a b = a + b :=
  Nat.mod_eq_of_lt h

/-- `checked_add` gives the sum when it fits. -/
theorem checkedAdd_eq_some {a b c : Nat} :
    checkedAdd a b = some c ↔ c = a + b ∧ a + b < u64Size := by
  unfold checkedAdd
  split <;> simp_all [eq_comm]

/-- `checked_add` fails exactly for a sum that does not fit. -/
theorem checkedAdd_eq_none {a b : Nat} : checkedAdd a b = none ↔ u64Size ≤ a + b := by
  unfold checkedAdd
  split <;> simp_all

/-- `checked_sub` gives the difference when it is not negative. -/
theorem checkedSub_eq_some {a b c : Nat} : checkedSub a b = some c ↔ b ≤ a ∧ c = a - b := by
  unfold checkedSub
  split
  · simp_all [eq_comm]
  · simp only [reduceCtorEq, false_iff, not_and]
    intro hle
    omega

/-- A difference that is not negative is given. -/
theorem checkedSub_of_le {a b : Nat} (h : b ≤ a) : checkedSub a b = some (a - b) :=
  checkedSub_eq_some.mpr ⟨h, rfl⟩

/-- A resolved signed offset stays in the range of `u64`. -/
theorem checkedAddSigned_lt {base q : Nat} {d : Int64} (hb : base < u64Size)
    (h : checkedAddSigned base d = some q) : q < u64Size := by
  unfold checkedAddSigned at h
  split at h
  · obtain ⟨rfl, hlt⟩ := checkedAdd_eq_some.mp h
    exact hlt
  · obtain ⟨_, rfl⟩ := checkedSub_eq_some.mp h
    omega

/-- Adding nothing to a `u64` is defined. -/
@[simp] theorem checkedAddSigned_zero {base : Nat} (hb : base < u64Size) :
    checkedAddSigned base 0 = some base := by
  have h0 : (0 : Int64).toInt = 0 := by decide
  have hadd : checkedAdd base 0 = some base := checkedAdd_eq_some.mpr ⟨rfl, hb⟩
  simpa [checkedAddSigned, h0] using hadd

end OxideSource
