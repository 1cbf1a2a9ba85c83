import OxideSource.Core.Cost
import OxideSource.Readers.Calls
import OxideSource.Readers.Reader

/-!
# What calls on a reader cost its files

No wrapper passes a seek on, and each read asks one inner reader after one seek. A chain
of wrappers therefore costs a file no more than a single one does.
-/

namespace OxideSource

namespace Reader

variable {F : Type}

mutual

/-- The accounts of all files in a reader together. -/
def spent (account : F → Nat) : Reader F → Nat
  | .mem _ => 0
  | .cursor _ => 0
  | .file f => account f
  | .sub ⟨inner, _, _, _⟩ => spent account inner
  | .concat ⟨parts, _, _⟩ => spents account parts

/-- The accounts of all files in a list of readers together. -/
def spents (account : F → Nat) : List (Reader F) → Nat
  | [] => 0
  | r :: rs => spent account r + spents account rs

end

/-- What calls on a reader cost the files in it, at most. -/
def fare (T : Tariff) : Reader F → Tariff
  | .mem _ => .free
  | .cursor _ => .free
  | .file _ => T
  | .sub _ => { T.repositioned with seek := 0 }
  | .concat _ => { T.repositioned with seek := 0 }

section

variable {account : F → Nat}

/-- A window has no account of its own. -/
theorem spent_sub (s : SubSource (Reader F)) : spent account (.sub s) = spent account s.inner := by
  cases s
  rfl

/-- A concatenation has the accounts of its parts. -/
theorem spent_concat (s : ConcatSource (Reader F)) :
    spent account (.concat s) = spents account s.parts := by
  cases s
  rfl

/-- The accounts of two lists of readers add up. -/
theorem spents_append (rs rs' : List (Reader F)) :
    spents account (rs ++ rs') = spents account rs + spents account rs' := by
  induction rs with
  | nil => simp [spents]
  | cons r rs ih =>
      simp only [List.cons_append, spents, ih]
      omega

end

variable {T : Tariff}

/-- No reader pays more for a seek than a file does. -/
theorem seek_fare_le (r : Reader F) : (r.fare T).seek ≤ T.seek := by
  cases r with
  | file f => exact Nat.le_refl _
  | _ => exact Nat.zero_le _

/-- A seek and a read cost a wrapper no more than they cost a file. -/
theorem fare_le (r : Reader F) (n : Nat) :
    (r.fare T).seek + (r.fare T).read n ≤ T.seek + T.read n := by
  cases r with
  | mem r => exact Nat.zero_le _
  | cursor c => exact Nat.zero_le _
  | file f => exact Nat.le_refl _
  | sub s => simp [fare, Tariff.repositioned]
  | concat s => simp [fare, Tariff.repositioned]

variable [Target] [ReadSeek F]

/-- A seek does not change what calls cost. -/
theorem fare_seek (r : Reader F) (f : SeekFrom) : (seek r f).2.fare T = r.fare T := by
  cases r <;> rfl

variable (m : Meter T F)

/-- A seek on a reader costs its files the fare. -/
theorem spent_seek (r : Reader F) (f : SeekFrom) :
    (seek r f).2.spent m.spent ≤ r.spent m.spent + (r.fare T).seek := by
  cases r with
  | mem r => exact Nat.le_refl _
  | cursor c => exact Nat.le_refl _
  | file g => exact m.seek_le g f
  | sub s =>
      have hinner : (s.seek f).2.inner = s.inner := by
        unfold SubSource.seek
        split <;> rfl
      simp [seek, spent_sub, hinner]
  | concat s =>
      have hparts : (s.seek f).2.parts = s.parts := by
        unfold ConcatSource.seek
        split <;> rfl
      simp [seek, spent_concat, hparts]

/-- What a wrapper asks of a reader for one read costs a seek and a read, where reads cost
the reader its fare. -/
theorem relayed_le {k n : Nat} {r r' : Reader F}
    (hread : ∀ r n, (readWithin k r n).2.spent m.spent ≤ r.spent m.spent + (r.fare T).read n)
    (h : letI : ReadSeek (Reader F) := ⟨readWithin k, seek⟩
      Relayed n r r') : r'.spent m.spent ≤ r.spent m.spent + (T.seek + T.read n) := by
  let : ReadSeek (Reader F) := ⟨readWithin k, seek⟩
  have hle : r'.spent m.spent ≤
      r.spent m.spent + ((r.fare T).seek + (r.fare T).read n) := by
    apply h.cost_le (spent_seek m r)
    intro f j hj
    have hstep := hread (seek r f).2 j
    rw [fare_seek] at hstep
    exact hstep.trans (Nat.add_le_add_left ((r.fare T).mono hj) _)
  exact hle.trans (Nat.add_le_add_left (fare_le r n) _)

/-- A read through any number of boxes costs one seek and one read of one file. -/
theorem spent_readWithin (k : Nat) (r : Reader F) (n : Nat) :
    (readWithin k r n).2.spent m.spent ≤ r.spent m.spent + (r.fare T).read n := by
  induction k generalizing r n with
  | zero =>
      cases r with
      | file f => exact m.read_le f n
      | _ => exact Nat.le_add_right _ _
  | succ k ih =>
      let : ReadSeek (Reader F) := ⟨readWithin k, seek⟩
      cases r with
      | mem r => exact Nat.le_refl _
      | cursor c => exact Nat.le_refl _
      | file f => exact m.read_le f n
      | sub s =>
          simp only [readWithin, Prod.map_snd, spent_sub]
          exact relayed_le m ih (SubSource.read_relayed s n)
      | concat s =>
          simp only [readWithin, Prod.map_snd, spent_concat]
          have hcase := ConcatSource.read_relayed s n
          generalize (s.read n).2.parts = parts' at hcase ⊢
          generalize s.parts = parts at hcase ⊢
          cases hcase with
          | idle => exact Nat.le_add_right _ _
          | part hpart =>
              have hle := relayed_le m ih hpart
              simp only [spents_append, spents, fare, Tariff.repositioned]
              omega

/-- The account of a reader. Each of its reads may cost a seek more than a read of a file. -/
def meter : Meter T.repositioned (Reader F) where
  spent := spent m.spent
  seek_le r f := (spent_seek m r f).trans (Nat.add_le_add_left r.seek_fare_le _)
  read_le r n := by
    have hread := spent_readWithin m r.height r n
    have hfare := fare_le (T := T) r n
    exact hread.trans (Nat.add_le_add_left ((Nat.le_add_left _ _).trans hfare) _)

end Reader

end OxideSource
