import OxideSource.Core.Cursor

/-!
# What calls cost

A tariff prices the calls of a source. A meter is an account in the state of a source that
no call charges with more than its price.
-/

namespace OxideSource

/-- Prices of seeks and reads. A read for more costs no less. -/
structure Tariff where
  seek : Nat
  read : Nat → Nat
  mono : ∀ {m n : Nat}, m ≤ n → read m ≤ read n

namespace Tariff

/-- Nothing costs anything. -/
def free : Tariff := ⟨0, fun _ => 0, fun _ => Nat.le_refl _⟩

/-- Reads cost what they ask for. -/
def bytes : Tariff := ⟨0, id, id⟩

variable (T : Tariff)

/-- Each read comes after a seek of its own. -/
def repositioned : Tariff :=
  ⟨T.seek, fun n => T.seek + T.read n, fun h => Nat.add_le_add_left (T.mono h) _⟩

/-- The price of a call. -/
def price : IoOp → Nat
  | .read n => T.read n
  | .seek _ => T.seek

end Tariff

/-- An account that no call charges with more than its price. -/
structure Meter (T : Tariff) (σ : Type) [ReadSeek σ] where
  spent : σ → Nat
  seek_le : ∀ s f, spent (ReadSeek.seek s f).2 ≤ spent s + T.seek
  read_le : ∀ s n, spent (ReadSeek.read s n).2 ≤ spent s + T.read n

namespace Meter

variable {T : Tariff} {σ : Type} [ReadSeek σ]

/-- No call costs more than its price. -/
theorem perform_le (m : Meter T σ) (s : σ) (op : IoOp) :
    m.spent (perform s op).2 ≤ m.spent s + T.price op := by
  cases op with
  | read n => exact m.read_le s n
  | seek f => exact m.seek_le s f

end Meter

end OxideSource
