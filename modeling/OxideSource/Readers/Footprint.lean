import OxideSource.Readers.Calls
import OxideSource.Readers.Reader

/-!
# What a reader holds

A boxed reader is a tree that is built once. Calls move positions in it, but they add no
reader to it and copy no data into it.
-/

namespace OxideSource

/-! ### What a reader holds -/

/-- The size of a tree of readers. -/
structure Footprint where
  leaves : Nat
  height : Nat
  /-- Bytes of decoded data. -/
  decoded : Nat
  deriving DecidableEq

namespace Footprint

/-- A window over a reader. -/
def sub (f : Footprint) : Footprint := { f with height := f.height + 1 }

/-- A concatenation of readers. -/
def concat : List Footprint → Footprint
  | [] => ⟨0, 1, 0⟩
  | f :: fs => ⟨f.leaves + (concat fs).leaves, max (f.height + 1) (concat fs).height,
      f.decoded + (concat fs).decoded⟩

end Footprint

namespace Reader

variable {F : Type}

mutual

/-- The footprint of a reader, by its construction. -/
def footprint : Reader F → Footprint
  | .mem _ => ⟨1, 0, 0⟩
  | .cursor c => ⟨1, 0, c.bytes.length⟩
  | .file _ => ⟨1, 0, 0⟩
  | .sub ⟨inner, _, _, _⟩ => (footprint inner).sub
  | .concat ⟨parts, _, _⟩ => .concat (footprints parts)

/-- The footprints of the parts. -/
def footprints : List (Reader F) → List Footprint
  | [] => []
  | r :: rs => footprint r :: footprints rs

end

/-- The footprints of the parts, one by one. -/
theorem footprints_eq (rs : List (Reader F)) : footprints rs = rs.map footprint := by
  induction rs with
  | nil => rfl
  | cons r rs ih => rw [footprints, ih, List.map_cons]

/-- A window has the footprint of its inner reader, wrapped. -/
theorem footprint_sub (s : SubSource (Reader F)) :
    footprint (.sub s) = (footprint s.inner).sub := by
  cases s
  rfl

/-- A concatenation has the footprints of its parts, joined. -/
theorem footprint_concat (s : ConcatSource (Reader F)) :
    footprint (.concat s) = .concat (s.parts.map footprint) := by
  cases s
  rw [footprint, footprints_eq]

variable [Target] [ReadSeek F]

/-- Seeks move no bytes. -/
theorem footprint_seek (r : Reader F) (f : SeekFrom) : footprint (seek r f).2 = footprint r := by
  cases r with
  | mem r => rfl
  | cursor c =>
      simp only [seek, Prod.map_snd, footprint, ReadSeek.seek, Cursor.seek]
      split <;> rfl
  | file g => rfl
  | sub s =>
      have hinner : (s.seek f).2.inner = s.inner := by
        unfold SubSource.seek
        split <;> rfl
      simp only [seek, Prod.map_snd, footprint_sub, hinner]
  | concat s =>
      have hparts : (s.seek f).2.parts = s.parts := by
        unfold ConcatSource.seek
        split <;> rfl
      simp only [seek, Prod.map_snd, footprint_concat, hparts]

/-- A read changes no footprint. -/
theorem footprint_readWithin (k : Nat) (r : Reader F) (n : Nat) :
    footprint (readWithin k r n).2 = footprint r := by
  induction k generalizing r n with
  | zero =>
      cases r <;> rfl
  | succ k ih =>
      cases r with
      | sub s =>
          let : ReadSeek (Reader F) := ⟨readWithin k, seek⟩
          simp only [readWithin, Prod.map_snd, footprint_sub]
          exact congrArg Footprint.sub ((SubSource.read_relayed s n).keeps footprint_seek ih)
      | concat s =>
          let : ReadSeek (Reader F) := ⟨readWithin k, seek⟩
          simp only [readWithin, Prod.map_snd, footprint_concat]
          exact congrArg Footprint.concat ((ConcatSource.read_relayed s n).keeps footprint_seek ih)
      | _ => rfl

/-- Calls neither open nor decode anything. -/
theorem footprint_performAll (r : Reader F) (ops : List IoOp) :
    footprint (performAll r ops).2 = footprint r := by
  induction ops generalizing r with
  | nil => rfl
  | cons op ops ih =>
      rw [performAll]
      refine (ih _).trans ?_
      cases op with
      | read n => exact footprint_readWithin _ r n
      | seek f => exact footprint_seek r f

end Reader

end OxideSource
