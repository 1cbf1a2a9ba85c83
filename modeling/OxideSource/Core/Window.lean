import Mathlib.Data.List.Infix
import Mathlib.Tactic.Common

/-!
# Windows of lists

A window is what remains of a list after dropping a prefix and keeping a bounded
number of elements. Prefixes of windows and of tails are what readers return, so
their behaviour under nesting and concatenation is collected once.
-/

namespace OxideSource

variable {α : Type}

/-- The elements `[base, base + len)` of a list. -/
def window (l : List α) (base len : Nat) : List α := (l.drop base).take len

theorem length_window (l : List α) (base len : Nat) :
    (window l base len).length = min len (l.length - base) := by
  simp only [window, List.length_take, List.length_drop]

theorem length_window_of_le {l : List α} {base len : Nat} (h : base + len ≤ l.length) :
    (window l base len).length = len := by
  rw [length_window]
  omega

/-- The tail of a window is the beginning of a tail. -/
theorem drop_window (l : List α) (base len p : Nat) :
    (window l base len).drop p = (l.drop (base + p)).take (len - p) := by
  rw [window, List.drop_take, List.drop_drop]

/-- Within the first list a window does not see the second. -/
theorem window_append_left {l : List α} (l' : List α) {base len : Nat}
    (h : base + len ≤ l.length) : window (l ++ l') base len = window l base len := by
  rw [window, window, List.drop_append_of_le_length (by omega),
    List.take_append_of_le_length (by rw [List.length_drop]; omega)]

/-- Behind the first list a window does not see it. -/
theorem window_append_right {l : List α} (l' : List α) {base : Nat} (len : Nat)
    (h : l.length ≤ base) : window (l ++ l') base len = window l' (base - l.length) len := by
  rw [window, window, List.drop_append, List.drop_of_length_le h, List.nil_append]

/-- A window across the seam is the end of the first list and the beginning of the second. -/
theorem window_append_across {l l' : List α} {base len : Nat} (hbase : base ≤ l.length)
    (hlen : l.length - base ≤ len) :
    window (l ++ l') base len =
      window l base (l.length - base) ++ window l' 0 (len - (l.length - base)) := by
  have hdrop : (l.drop base).length = l.length - base := List.length_drop
  rw [window, window, window, List.drop_append_of_le_length hbase, List.take_append, hdrop,
    List.take_of_length_le (hdrop.trans_le hlen), List.take_of_length_le (Nat.le_of_eq hdrop),
    List.drop_zero]

/-- A window inside a window is a window. -/
theorem window_window (l : List α) {a n b m : Nat} (h : b + m ≤ n) :
    window (window l a n) b m = window l (a + b) m := by
  rw [window, drop_window, List.take_take, Nat.min_eq_left (by omega)]
  rfl

/-- Two windows next to each other are one. -/
theorem window_append_window (l : List α) (a n m : Nat) :
    window l a n ++ window l (a + n) m = window l a (n + m) := by
  rw [window, window, window, List.take_add, List.drop_drop]

/-- A short prefix of a tail stays inside the window. -/
theorem prefix_drop_window {l bs : List α} {base len p : Nat}
    (h : bs <+: l.drop (base + p)) (hlen : bs.length ≤ len - p) :
    bs <+: (window l base len).drop p := by
  rw [drop_window, List.prefix_take_iff]
  exact ⟨h, hlen⟩

/-- Consecutive prefixes of a tail join. -/
theorem append_prefix_drop {l bs cs : List α} {p : Nat} (h : bs <+: l.drop p)
    (h' : cs <+: l.drop (p + bs.length)) : bs ++ cs <+: l.drop p := by
  obtain ⟨tail, ht⟩ := h
  have hdrop : l.drop (p + bs.length) = tail := by
    rw [← List.drop_drop, ← ht, List.drop_left]
  rw [hdrop] at h'
  rw [← ht]
  exact (List.prefix_append_right_inj bs).mpr h'

/-- Dropping from a prefix of a tail gives a prefix of the later tail. -/
theorem drop_prefix_drop {l bs : List α} {p k : Nat} (h : bs <+: l.drop p) :
    bs.drop k <+: l.drop (p + k) := by
  rw [← List.drop_drop]
  exact h.drop k

/-- A prefix of a tail cannot reach past the end. -/
theorem add_length_le_of_prefix_drop {l bs : List α} {p : Nat} (h : bs <+: l.drop p)
    (hne : bs ≠ []) : p + bs.length ≤ l.length := by
  have hle := h.length_le
  rw [List.length_drop] at hle
  have hpos := List.length_pos_of_ne_nil hne
  omega

/-! ### Blocks of a concatenation -/

/-- Where block `i` begins in the concatenation of all blocks. -/
def blockStart (Ds : List (List α)) (i : Nat) : Nat := (Ds.take i).flatten.length

@[simp] theorem blockStart_length (Ds : List (List α)) :
    blockStart Ds Ds.length = Ds.flatten.length := by
  rw [blockStart, List.take_length]

theorem blockStart_cons_succ (D : List α) (Ds : List (List α)) (i : Nat) :
    blockStart (D :: Ds) (i + 1) = D.length + blockStart Ds i := by
  rw [blockStart, List.take_succ_cons, List.flatten_cons, List.length_append, blockStart]

theorem blockStart_le (Ds : List (List α)) (i : Nat) : blockStart Ds i ≤ Ds.flatten.length := by
  have h := congrArg (fun l => l.flatten.length) (List.take_append_drop i Ds)
  simp only [List.flatten_append, List.length_append] at h
  rw [blockStart]
  omega

/-- The next block begins where this one ends. -/
theorem blockStart_succ {Ds : List (List α)} {i : Nat} {D : List α} (h : Ds[i]? = some D) :
    blockStart Ds (i + 1) = blockStart Ds i + D.length := by
  rw [blockStart, List.take_add_one, h, Option.toList_some, List.flatten_append,
    List.length_append, blockStart]
  simp only [List.flatten_cons, List.flatten_nil, List.append_nil]

/-- Later blocks begin later. -/
theorem blockStart_mono (Ds : List (List α)) {i j : Nat} (h : i ≤ j) :
    blockStart Ds i ≤ blockStart Ds j := by
  obtain ⟨k, rfl⟩ := Nat.exists_eq_add_of_le h
  rw [blockStart, blockStart, List.take_add, List.flatten_append, List.length_append]
  exact Nat.le_add_right _ _

/-- A position lies in one block only. -/
theorem block_unique {Ds : List (List α)} {i j pos : Nat} (hi : blockStart Ds i ≤ pos)
    (hi' : pos < blockStart Ds (i + 1)) (hj : blockStart Ds j ≤ pos)
    (hj' : pos < blockStart Ds (j + 1)) : i = j := by
  rcases Nat.lt_trichotomy i j with h | h | h
  · have hmono := blockStart_mono Ds (show i + 1 ≤ j from h)
    omega
  · exact h
  · have hmono := blockStart_mono Ds (show j + 1 ≤ i from h)
    omega

/-- Every position of the concatenation lies in some block. -/
theorem exists_block {Ds : List (List α)} {pos : Nat} (h : pos < Ds.flatten.length) :
    ∃ i, i < Ds.length ∧ blockStart Ds i ≤ pos ∧ pos < blockStart Ds (i + 1) := by
  rw [← blockStart_length] at h
  generalize Ds.length = n at h
  induction n with
  | zero => exact absurd h (Nat.not_lt_zero pos)
  | succ n ih =>
      by_cases hn : pos < blockStart Ds n
      · obtain ⟨i, hi, hle, hlt⟩ := ih hn
        exact ⟨i, Nat.lt_succ_of_lt hi, hle, hlt⟩
      · exact ⟨n, Nat.lt_succ_self n, Nat.not_lt.mp hn, h⟩

/-- From inside block `i`, the concatenation continues with the rest of the block. -/
theorem drop_flatten_block {Ds : List (List α)} {i : Nat} {D : List α} (h : Ds[i]? = some D)
    {j : Nat} (hj : j ≤ D.length) :
    Ds.flatten.drop (blockStart Ds i + j) = D.drop j ++ (Ds.drop (i + 1)).flatten := by
  obtain ⟨hi, rfl⟩ := List.getElem?_eq_some_iff.mp h
  have hsplit : Ds.flatten = (Ds.take i).flatten ++ (Ds[i] ++ (Ds.drop (i + 1)).flatten) := by
    rw [← List.flatten_cons, ← List.drop_eq_getElem_cons hi, ← List.flatten_append,
      List.take_append_drop]
  rw [hsplit, blockStart, ← List.drop_drop, List.drop_left, List.drop_append_of_le_length hj]

/-- What a block holds at a position, the concatenation holds there. -/
theorem prefix_drop_flatten {Ds : List (List α)} {i pos : Nat} {D bs : List α}
    (hD : Ds[i]? = some D) (hle : blockStart Ds i ≤ pos) (hlt : pos < blockStart Ds (i + 1))
    (h : bs <+: D.drop (pos - blockStart Ds i)) : bs <+: Ds.flatten.drop pos := by
  rw [blockStart_succ hD] at hlt
  have hdrop := drop_flatten_block hD (j := pos - blockStart Ds i) (by omega)
  rw [Nat.add_sub_cancel' hle] at hdrop
  rw [hdrop]
  exact h.trans (List.prefix_append _ _)

end OxideSource
