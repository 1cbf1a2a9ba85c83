import OxideSource.Readers.Concat

/-!
# Boxed readers

`Reader` is the closed set of objects behind `Box<dyn BytesSource>`: a leaf, or a
window or concatenation of other boxed readers. Dynamic dispatch reaches a read of
an inner reader that was just repositioned, which is not a subterm, so dispatch
recurses on the height of the nesting; the relay theorems show that no height is
ever missing.
-/

namespace OxideSource

/-- `Box<dyn BytesSource>`, with `F` the type of open files. -/
inductive Reader (F : Type) where
  | mem (r : MemReader)
  | cursor (c : Cursor)
  | file (f : F)
  | sub (s : SubSource (Reader F))
  | concat (s : ConcatSource (Reader F))

namespace Reader

variable {F : Type}

mutual

/-- The nesting depth of wrappers. -/
def height : Reader F → Nat
  | .mem _ => 0
  | .cursor _ => 0
  | .file _ => 0
  | .sub ⟨inner, _, _, _⟩ => height inner + 1
  | .concat ⟨parts, _, _⟩ => heights parts + 1

/-- The largest nesting depth in a list of readers. -/
def heights : List (Reader F) → Nat
  | [] => 0
  | r :: rs => max (height r) (heights rs)

end

/-- A window is one higher than its inner reader. -/
theorem height_sub (s : SubSource (Reader F)) : height (.sub s) = height s.inner + 1 := by
  cases s
  rfl

/-- A concatenation is one higher than its parts. -/
theorem height_concat (s : ConcatSource (Reader F)) :
    height (.concat s) = heights s.parts + 1 := by
  cases s
  rfl

/-- No part is higher than all of them. -/
theorem height_le_heights {r : Reader F} {rs : List (Reader F)} (h : r ∈ rs) :
    height r ≤ heights rs := by
  induction rs with
  | nil => cases h
  | cons s rs ih =>
      rcases List.mem_cons.mp h with rfl | h
      · exact Nat.le_max_left _ _
      · exact (ih h).trans (Nat.le_max_right _ _)

variable [Target] [ReadSeek F]

/-- `Seek` through the box. No wrapper forwards a seek. -/
def seek (r : Reader F) (f : SeekFrom) : IoResult Nat × Reader F :=
  match r with
  | .mem r => (ReadSeek.seek r f).map id .mem
  | .cursor c => (ReadSeek.seek c f).map id .cursor
  | .file g => (ReadSeek.seek g f).map id .file
  | .sub s => (s.seek f).map id .sub
  | .concat s => (s.seek f).map id .concat

/-- `Read` through at most `height` boxes. -/
def readWithin : Nat → Reader F → Nat → IoResult Bytes × Reader F
  | _, .mem r, n => (ReadSeek.read r n).map id .mem
  | _, .cursor c, n => (ReadSeek.read c n).map id .cursor
  | _, .file g, n => (ReadSeek.read g n).map id .file
  | 0, r, _ => (.ok [], r)
  | k + 1, .sub s, n =>
      letI : ReadSeek (Reader F) := ⟨readWithin k, seek⟩
      (s.read n).map id .sub
  | k + 1, .concat s, n =>
      letI : ReadSeek (Reader F) := ⟨readWithin k, seek⟩
      (s.read n).map id .concat

/-- `Read` through the box. -/
def read (r : Reader F) (n : Nat) : IoResult Bytes × Reader F := readWithin r.height r n

instance : ReadSeek (Reader F) := ⟨read, seek⟩

/-- A seek leaves the height alone. -/
@[simp] theorem height_seek (r : Reader F) (f : SeekFrom) : height (seek r f).2 = height r := by
  cases r with
  | mem r => rfl
  | cursor c => rfl
  | file g => rfl
  | sub s =>
      have hinner : (s.seek f).2.inner = s.inner := by
        unfold SubSource.seek
        split <;> rfl
      simp only [seek, Prod.map_snd, height_sub, hinner]
  | concat s =>
      have hparts : (s.seek f).2.parts = s.parts := by
        unfold ConcatSource.seek
        split <;> rfl
      simp only [seek, Prod.map_snd, height_concat, hparts]

end Reader

/-- A window read uses the inner operations only at the repositioned inner reader. -/
theorem SubSource.read_congr [Target] {ρ : Type} (A B : ReadSeek ρ) (hseek : A.seek = B.seek)
    (s : SubSource ρ)
    (hread : ∀ f n, A.read (A.seek s.inner f).2 n = B.read (A.seek s.inner f).2 n) (n : Nat) :
    @SubSource.read ρ A _ s n = @SubSource.read ρ B _ s n := by
  obtain ⟨readA, seekA⟩ := A
  obtain ⟨readB, seekB⟩ := B
  obtain rfl : seekA = seekB := hseek
  have hread' := hread (.fromStart (.ofNat (addU64 s.base s.pos)))
  dsimp only [SubSource.read, ReadSeek.seek, ReadSeek.read] at hread' ⊢
  generalize seekA s.inner (.fromStart (.ofNat (addU64 s.base s.pos))) = r at hread' ⊢
  obtain ⟨r, inner⟩ := r
  cases r with
  | ok q => simp only [hread']
  | error e => rfl

/-- A composite read uses the operations of a part only at that part repositioned. -/
theorem ConcatSource.read_congr [Target] {ρ : Type} (A B : ReadSeek ρ)
    (hseek : A.seek = B.seek) (s : ConcatSource ρ)
    (hread : ∀ part, part ∈ s.parts →
      ∀ f n, A.read (A.seek part f).2 n = B.read (A.seek part f).2 n) (n : Nat) :
    @ConcatSource.read ρ A _ s n = @ConcatSource.read ρ B _ s n := by
  obtain ⟨readA, seekA⟩ := A
  obtain ⟨readB, seekB⟩ := B
  obtain rfl : seekA = seekB := hseek
  dsimp only [ConcatSource.read, ReadSeek.seek, ReadSeek.read] at hread ⊢
  cases hseg : s.segmentFor s.pos with
  | none => rfl
  | some idx =>
      cases hpart : s.parts[idx]? with
      | none => simp only [hpart]
      | some part =>
          have hread' := hread part (List.mem_of_getElem? hpart)
            (.fromStart (.ofNat (s.pos - s.starts.getD idx 0)))
          simp only [hpart]
          generalize seekA part (.fromStart (.ofNat (s.pos - s.starts.getD idx 0))) = r at hread' ⊢
          obtain ⟨r, inner⟩ := r
          cases r with
          | ok q => simp only [hread']
          | error e => rfl

namespace Reader

variable {F : Type} [Target] [ReadSeek F]

/-- Any sufficient height dispatches like the exact one. -/
theorem readWithin_eq_read {k : Nat} {r : Reader F} (h : height r ≤ k) (n : Nat) :
    readWithin k r n = read r n := by
  induction k using Nat.strong_induction_on generalizing r n with
  | _ k ih =>
      have hsub (k' : Nat) (hk' : k' < k) (s : SubSource (Reader F)) (hs : height s.inner ≤ k') :
          readWithin (k' + 1) (.sub s) n = (s.read n).map id .sub := by
        have hcongr := SubSource.read_congr ⟨readWithin k', seek⟩ ⟨read, seek⟩ rfl s
          (fun f m => ih k' hk' (r := (seek s.inner f).2) (by rw [height_seek]; exact hs) m) n
        exact congrArg (Prod.map id Reader.sub) hcongr
      have hconcat (k' : Nat) (hk' : k' < k) (s : ConcatSource (Reader F))
          (hs : heights s.parts ≤ k') :
          readWithin (k' + 1) (.concat s) n = (s.read n).map id .concat := by
        have hcongr := ConcatSource.read_congr ⟨readWithin k', seek⟩ ⟨read, seek⟩ rfl s
          (fun part hp f m => ih k' hk' (r := (seek part f).2)
            (by rw [height_seek]; exact (height_le_heights hp).trans hs) m) n
        exact congrArg (Prod.map id Reader.concat) hcongr
      cases r with
      | mem r => cases k <;> rfl
      | cursor c => cases k <;> rfl
      | file g => cases k <;> rfl
      | sub s =>
          rw [height_sub] at h
          obtain ⟨k', rfl⟩ : ∃ k', k = k' + 1 := ⟨k - 1, by omega⟩
          rw [read, height_sub, hsub k' (by omega) s (by omega),
            hsub (height s.inner) (by omega) s (Nat.le_refl _)]
      | concat s =>
          rw [height_concat] at h
          obtain ⟨k', rfl⟩ : ∃ k', k = k' + 1 := ⟨k - 1, by omega⟩
          rw [read, height_concat, hconcat k' (by omega) s (by omega),
            hconcat (heights s.parts) (by omega) s (Nat.le_refl _)]

/-- Reading a boxed window is the window's own read. -/
theorem read_sub (s : SubSource (Reader F)) (n : Nat) :
    read (.sub s) n = (s.read n).map id .sub := by
  have h := readWithin_eq_read (k := height s.inner + 1) (r := .sub s)
    (by rw [height_sub]) n
  rw [← h]
  have hcongr := SubSource.read_congr ⟨readWithin (height s.inner), seek⟩ ⟨read, seek⟩ rfl s
    (fun f m => readWithin_eq_read (r := (seek s.inner f).2) (by rw [height_seek]) m) n
  exact congrArg (Prod.map id Reader.sub) hcongr

/-- Reading a boxed concatenation is the concatenation's own read. -/
theorem read_concat (s : ConcatSource (Reader F)) (n : Nat) :
    read (.concat s) n = (s.read n).map id .concat := by
  have h := readWithin_eq_read (k := heights s.parts + 1) (r := .concat s)
    (by rw [height_concat]) n
  rw [← h]
  have hcongr := ConcatSource.read_congr ⟨readWithin (heights s.parts), seek⟩ ⟨read, seek⟩ rfl s
    (fun part hp f m => readWithin_eq_read (r := (seek part f).2)
      (by rw [height_seek]; exact height_le_heights hp) m) n
  exact congrArg (Prod.map id Reader.concat) hcongr

/-- A memory reader answers as itself. -/
theorem relay_mem (r : MemReader) (op : IoOp) :
    perform (Reader.mem r : Reader F) op = (perform r op).map id .mem := by
  cases op with
  | read n => rfl
  | seek f => rfl

/-- A cursor answers as itself. -/
theorem relay_cursor (c : Cursor) (op : IoOp) :
    perform (Reader.cursor c : Reader F) op = (perform c op).map id .cursor := by
  cases op with
  | read n => rfl
  | seek f => rfl

/-- A window answers as itself, over the inner reader. -/
theorem relay_sub (s : SubSource (Reader F)) (op : IoOp) :
    perform (Reader.sub s) op = (perform s op).map id .sub := by
  cases op with
  | read n =>
      change ((read (.sub s) n).map (IoObs.read n) id) = _
      rw [read_sub]
      rfl
  | seek f => rfl

/-- A concatenation answers as itself, over its parts. -/
theorem relay_concat (s : ConcatSource (Reader F)) (op : IoOp) :
    perform (Reader.concat s) op = (perform s op).map id .concat := by
  cases op with
  | read n =>
      change ((read (.concat s) n).map (IoObs.read n) id) = _
      rw [read_concat]
      rfl
  | seek f => rfl

end Reader

end OxideSource
