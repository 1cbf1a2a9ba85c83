import Mathlib.Algebra.Group.Nat.Defs
import Mathlib.Data.List.Basic
import Mathlib.Tactic.Common

/-!
# Bits, most significant first

Numbers of a fixed width as lists of bits. Writing numbers one behind the other
concatenates their bits, so a value read at one width can be compared with the same
bits read at another.
-/

namespace OxideSource

/-- The low `k` bits of `n`, most significant first. -/
def bitsOf : Nat → Nat → List Bool
  | 0, _ => []
  | k + 1, n => n.testBit k :: bitsOf k n

/-- The bits of a sequence of numbers of width `k`. -/
def bits (k : Nat) (ns : List Nat) : List Bool := ns.flatMap (bitsOf k)

/-- The whole bytes at the front of a bit string. -/
def wholeBytes (l : List Bool) : List Bool := l.take (l.length / 8 * 8)

/-- What does not fill a byte. -/
def looseBits (l : List Bool) : List Bool := l.drop (l.length / 8 * 8)

/-- A number is written in the given number of bits. -/
@[simp] theorem length_bitsOf (k n : Nat) : (bitsOf k n).length = k := by
  induction k with
  | zero => rfl
  | succ k ih => rw [bitsOf, List.length_cons, ih]

/-- The bits of the first number come first. -/
@[simp] theorem bits_cons (k n : Nat) (ns : List Nat) :
    bits k (n :: ns) = bitsOf k n ++ bits k ns := rfl

/-- No number has no bits. -/
@[simp] theorem bits_nil (k : Nat) : bits k [] = [] := rfl

/-- A number in two parts has the bits of both. -/
theorem bitsOf_add {a b k : Nat} (h : b < 2 ^ k) (j : Nat) :
    bitsOf (j + k) (a * 2 ^ k + b) = bitsOf j a ++ bitsOf k b := by
  have hbit (i : Nat) : (a * 2 ^ k + b).testBit i =
      if i < k then b.testBit i else a.testBit (i - k) := by
    rw [Nat.mul_comm]
    exact Nat.testBit_two_pow_mul_add a h i
  induction j with
  | zero =>
      -- The low part alone: its bits are below `k`.
      have hlow : ∀ i ≤ k, bitsOf i (a * 2 ^ k + b) = bitsOf i b := by
        intro i hi
        induction i with
        | zero => rfl
        | succ i ih => rw [bitsOf, bitsOf, hbit, if_pos (Nat.lt_of_succ_le hi), ih (by omega)]
      rw [Nat.zero_add, hlow k (Nat.le_refl k)]
      rfl
  | succ j ih =>
      have hj : ¬ j + k < k := by omega
      rw [Nat.succ_add, bitsOf, bitsOf, ih, hbit, if_neg hj, Nat.add_sub_cancel]
      rfl

/-- A number is determined by its bits. -/
theorem eq_of_bitsOf {k n m : Nat} (hn : n < 2 ^ k) (hm : m < 2 ^ k)
    (h : bitsOf k n = bitsOf k m) : n = m := by
  induction k generalizing n m with
  | zero => omega
  | succ k ih =>
      have hpow : 2 ^ (k + 1) = 2 * 2 ^ k := by omega
      have hk : 0 < 2 ^ k := Nat.two_pow_pos k
      have hsplit (x : Nat) (hx : x < 2 ^ (k + 1)) :
          bitsOf (k + 1) x = bitsOf 1 (x / 2 ^ k) ++ bitsOf k (x % 2 ^ k) := by
        rw [← bitsOf_add (Nat.mod_lt x hk), Nat.add_comm 1 k, Nat.div_add_mod']
      rw [hsplit n hn, hsplit m hm] at h
      obtain ⟨htop, hlow⟩ := List.append_inj h (by simp)
      have hmod := ih (Nat.mod_lt n hk) (Nat.mod_lt m hk) hlow
      have hdivn : n / 2 ^ k < 2 := Nat.div_lt_of_lt_mul (by omega)
      have hdivm : m / 2 ^ k < 2 := Nat.div_lt_of_lt_mul (by omega)
      have hdiv : n / 2 ^ k = m / 2 ^ k := by
        have hall : ∀ x < 2, ∀ y < 2, bitsOf 1 x = bitsOf 1 y → x = y := by decide
        exact hall _ hdivn _ hdivm htop
      rw [← Nat.div_add_mod' n (2 ^ k), ← Nat.div_add_mod' m (2 ^ k), hdiv, hmod]

/-- Sequences of numbers of one width are determined by their bits. -/
theorem eq_of_bits {k : Nat} (hk : 0 < k) {ns ms : List Nat} (hns : ∀ n ∈ ns, n < 2 ^ k)
    (hms : ∀ m ∈ ms, m < 2 ^ k) (h : bits k ns = bits k ms) : ns = ms := by
  have hne (n : Nat) (l : List Bool) : bitsOf k n ++ l ≠ [] := by
    intro hnil
    have hlen := congrArg List.length hnil
    rw [List.length_append, length_bitsOf, List.length_nil] at hlen
    omega
  induction ns generalizing ms with
  | nil =>
      cases ms with
      | nil => rfl
      | cons m ms => exact absurd h.symm (hne m _)
  | cons n ns ih =>
      cases ms with
      | nil => exact absurd h (hne n _)
      | cons m ms =>
          rw [List.forall_mem_cons] at hns hms
          obtain ⟨hhead, htail⟩ := List.append_inj h (by simp)
          rw [eq_of_bitsOf hns.1 hms.1 hhead, ih hns.2 hms.2 htail]

/-- Only zero has no bit set. -/
theorem bitsOf_eq_false {k n : Nat} (h : n < 2 ^ k) : (∀ b ∈ bitsOf k n, b = false) ↔ n = 0 := by
  have hzero (k : Nat) : ∀ b ∈ bitsOf k 0, b = false := by
    induction k with
    | zero => simp [bitsOf]
    | succ k ih => simpa [bitsOf] using ih
  constructor
  · intro hall
    have hn := List.eq_replicate_iff.mpr ⟨length_bitsOf k n, hall⟩
    have h0 := List.eq_replicate_iff.mpr ⟨length_bitsOf k 0, hzero k⟩
    exact eq_of_bitsOf h (Nat.two_pow_pos k) (hn.trans h0.symm)
  · rintro rfl
    exact hzero k

/-- Whole bytes in front stay whole. -/
theorem wholeBytes_append {x : List Bool} (h : 8 ∣ x.length) (l : List Bool) :
    wholeBytes (x ++ l) = x ++ wholeBytes l := by
  have hlen : (x ++ l).length / 8 * 8 = x.length + l.length / 8 * 8 := by
    rw [List.length_append]
    omega
  rw [wholeBytes, hlen, List.take_length_add_append, wholeBytes]

/-- Whole bytes in front change no loose bit. -/
theorem looseBits_append {x : List Bool} (h : 8 ∣ x.length) (l : List Bool) :
    looseBits (x ++ l) = looseBits l := by
  have hlen : (x ++ l).length / 8 * 8 = x.length + l.length / 8 * 8 := by
    rw [List.length_append]
    omega
  rw [looseBits, hlen, List.drop_length_add_append, looseBits]

end OxideSource
