import OxideSource.Buffered.Ring

/-!
# Copying a hit into the caller's buffer

The hit path of `BufferedSource::read` writes into the caller's buffer from the two
contiguous slices of the deque. Here the buffer is explicit: every slice expression
is checked, and what the copy does not write stays.
-/

namespace OxideSource

namespace RingState

/-- `out[lo..hi].copy_from_slice(src)` with its bounds and length checks. -/
def copyFromSlice (out : Bytes) (lo hi : Nat) (src : Bytes) : Option Bytes :=
  if lo ≤ hi ∧ hi ≤ out.length ∧ src.length = hi - lo then
    some (out.take lo ++ src ++ out.drop hi)
  else none

/-- The hit copy of `BufferedSource::read`: the count, and the buffer after it. -/
def hitCopyInto (front back : Bytes) (rel : Nat) (out : Bytes) : Option (Nat × Bytes) :=
  let avail := front.length + back.length - rel
  let n := min avail out.length
  if rel < front.length then
    let fOff := rel
    let fTake := min (front.length - fOff) n
    match (slice front fOff (fOff + fTake)).bind (copyFromSlice out 0 fTake) with
    | none => none
    | some out =>
        if fTake < n then
          let bTake := n - fTake
          ((slice back 0 bTake).bind (copyFromSlice out fTake n)).map (n, ·)
        else some (n, out)
  else
    let bOff := rel - front.length
    ((slice back bOff (bOff + n)).bind (copyFromSlice out 0 n)).map (n, ·)

/-! ### The pieces in range -/

/-- A copy to the front of the buffer. -/
theorem copyFromSlice_zero (out src : Bytes) (h : src.length ≤ out.length) :
    copyFromSlice out 0 src.length src = some (src ++ out.drop src.length) := by
  rw [copyFromSlice, if_pos ⟨Nat.zero_le _, h, (Nat.sub_zero _).symm⟩, List.take_zero,
    List.nil_append]

/-- A copy right behind what is already written. -/
theorem copyFromSlice_behind (done rest src : Bytes) (h : src.length ≤ rest.length) :
    copyFromSlice (done ++ rest) done.length (done.length + src.length) src =
      some (done ++ src ++ rest.drop src.length) := by
  have hlen : (done ++ rest).length = done.length + rest.length := List.length_append
  have hbounds : done.length ≤ done.length + src.length ∧
      done.length + src.length ≤ (done ++ rest).length ∧
      src.length = done.length + src.length - done.length := by omega
  rw [copyFromSlice, if_pos hbounds, List.take_left, List.drop_append, List.drop_of_length_le
    (Nat.le_add_right _ _), List.nil_append, Nat.add_sub_cancel_left]

/-! ### The copy as a whole -/

/-- The hit copy writes the window of the joined slices to the front of the buffer. -/
theorem hitCopyInto_eq {front back : Bytes} {rel : Nat} (out : Bytes)
    (hrel : rel < front.length + back.length) :
    hitCopyInto front back rel out =
      some (min (front.length + back.length - rel) out.length,
        window (front ++ back) rel (min (front.length + back.length - rel) out.length) ++
          out.drop (min (front.length + back.length - rel) out.length)) := by
  unfold hitCopyInto
  dsimp only
  generalize hn : min (front.length + back.length - rel) out.length = n
  by_cases hfront : rel < front.length
  · simp only [hfront, ite_true]
    by_cases hcross : front.length - rel < n
    · -- The copy crosses the seam: two slices, one behind the other.
      have hmin : min (front.length - rel) n = front.length - rel := by omega
      have hslice : slice front rel (rel + (front.length - rel)) = some (window front rel _) :=
        slice_eq_some (by omega)
      have hback : slice back 0 (0 + (n - (front.length - rel))) = some (window back 0 _) :=
        slice_eq_some (by omega)
      have hlen : (window front rel (front.length - rel)).length = front.length - rel :=
        length_window_of_le (by omega)
      have hlenBack : (window back 0 (n - (front.length - rel))).length =
          n - (front.length - rel) := length_window_of_le (by omega)
      have hfirst := copyFromSlice_zero out (window front rel (front.length - rel)) (by omega)
      have hsecond := copyFromSlice_behind (window front rel (front.length - rel))
        (out.drop (front.length - rel)) (window back 0 (n - (front.length - rel)))
        (by rw [List.length_drop]; omega)
      have hsum : front.length - rel + (n - (front.length - rel)) = n := by omega
      rw [hlen] at hfirst
      rw [hlen, hlenBack, List.drop_drop, hsum] at hsecond
      rw [Nat.zero_add] at hback
      simp only [hmin, hslice, Option.bind_some, hfirst, hcross, ite_true, hback, hsecond,
        Option.map_some, window_append_across (Nat.le_of_lt hfront) (Nat.le_of_lt hcross)]
    · have hmin : min (front.length - rel) n = n := by omega
      have hslice : slice front rel (rel + n) = some (window front rel n) :=
        slice_eq_some (by omega)
      have hlen : (window front rel n).length = n := length_window_of_le (by omega)
      have hcopy := copyFromSlice_zero out (window front rel n) (by omega)
      rw [hlen] at hcopy
      simp only [hmin, hslice, Option.bind_some, hcopy, Nat.lt_irrefl, ite_false,
        window_append_left back (show rel + n ≤ front.length by omega)]
  · simp only [hfront, ite_false]
    have hslice : slice back (rel - front.length) (rel - front.length + n) =
        some (window back (rel - front.length) n) := slice_eq_some (by omega)
    have hlen : (window back (rel - front.length) n).length = n := length_window_of_le (by omega)
    have hcopy := copyFromSlice_zero out (window back (rel - front.length) n) (by omega)
    rw [hlen] at hcopy
    simp only [hslice, Option.bind_some, hcopy, Option.map_some,
      window_append_right back n (Nat.not_lt.mp hfront)]

/-- The hit copy stays in range, returns the count, writes the bytes of the joined slices
and leaves the rest of the buffer alone, wherever the slices meet. -/
theorem hitCopyInto_plain (front back : Bytes) (rel : Nat) (out : Bytes)
    (hrel : rel < front.length + back.length) (hout : out ≠ []) :
    ∃ n out', hitCopyInto front back rel out = some (n, out') ∧
      n = min (front.length + back.length - rel) out.length ∧ 0 < n ∧
      out'.length = out.length ∧ out'.take n = window (front ++ back) rel n ∧
      out'.drop n = out.drop n := by
  have hpos := List.length_pos_of_ne_nil hout
  have hlen : (window (front ++ back) rel
      (min (front.length + back.length - rel) out.length)).length =
        min (front.length + back.length - rel) out.length :=
    length_window_of_le (by rw [List.length_append]; omega)
  refine ⟨_, _, hitCopyInto_eq out hrel, rfl, by omega, ?_, ?_, ?_⟩
  · rw [List.length_append, hlen, List.length_drop]
    omega
  · rw [List.take_append_of_le_length (Nat.le_of_eq hlen.symm),
      List.take_of_length_le (Nat.le_of_eq hlen)]
  · rw [List.drop_append, List.drop_of_length_le (Nat.le_of_eq hlen), List.nil_append, hlen,
      Nat.sub_self, List.drop_zero]

/-- A copy of three bytes across the seam into a buffer of four. -/
theorem hitCopyInto_plain_seam :
    ∃ n out', hitCopyInto [1, 2] [3, 4] 1 [9, 9, 9, 9] = some (n, out') ∧
      n = 3 ∧ 0 < n ∧ out'.length = 4 ∧ out'.take n = [2, 3, 4] ∧ out'.drop n = [9] := by
  obtain ⟨n, out', hcopy, hn, hpos, hlen, htake, hdrop⟩ :=
    hitCopyInto_plain [1, 2] [3, 4] 1 [9, 9, 9, 9] (by decide) (by decide)
  have hthree : n = 3 := hn
  subst hthree
  exact ⟨3, out', hcopy, rfl, hpos, hlen, htake, hdrop⟩

/-- The pass of the read loop returns what the copy writes. -/
theorem hitCopy_eq_hitCopyInto {seam rel : Nat} {buf : Bytes} (out : Bytes)
    (hrel : rel < buf.length) :
    (hitCopyInto (buf.take seam) (buf.drop seam) rel out).map (fun r => r.2.take r.1) =
      hitCopy seam buf rel (min (buf.length - rel) out.length) := by
  have hsum : (buf.take seam).length + (buf.drop seam).length = buf.length := by
    rw [← List.length_append, List.take_append_drop]
  have hlen : (window buf rel (min (buf.length - rel) out.length)).length =
      min (buf.length - rel) out.length := length_window_of_le (by omega)
  rw [hitCopyInto_eq out (hsum ▸ hrel), hsum, List.take_append_drop, hitCopy_eq (by omega)]
  simp only [Option.map_some]
  rw [List.take_append_of_le_length (Nat.le_of_eq hlen.symm),
    List.take_of_length_le (Nat.le_of_eq hlen)]

end RingState

end OxideSource
