/-
# Fractions as doubles

A binary64 number without its sign is a word of 63 bits, the exponent above the 52 bits of the
fraction.  `units` counts the number that a word stands for in units of `2 ^ -1074`, the smallest
one; `nearest` rounds a quotient of two natural numbers to the nearest word, ties to even.

* `isWhole_nearest`: a whole number is rounded to a whole number.
-/
import Mathlib.Algebra.GroupWithZero.Nat
import Mathlib.Logic.Basic

namespace Zgdb.Lib.Binary64

/-! ## 1. Words

The words are in the order of their numbers, and `units` is defined for all of them, with infinity
as the next power of two would be. -/

/-- The exponent of the number 1 in units. -/
def scale : Nat := 1074

/-- The number 1 in units. -/
def one : Nat := 2 ^ scale

/-- The word of infinity; the words above it are not numbers. -/
def infinity : Nat := 2047 * 2 ^ 52

/-- The word without its sign. -/
def magnitude (word : Nat) : Nat := word % 2 ^ 63

/-- The digits of a word: the leading one is left out unless the exponent is 0. -/
def significand (word : Nat) : Nat :=
  if word / 2 ^ 52 = 0 then word % 2 ^ 52 else 2 ^ 52 + word % 2 ^ 52

def units (word : Nat) : Nat := significand word * 2 ^ (word / 2 ^ 52 - 1)

/-- The number is its own ceiling: it is infinite, or a multiple of 1. -/
def isWhole (word : Nat) : Bool :=
  magnitude word = infinity ∨ magnitude word < infinity ∧ one ∣ units (magnitude word)

/-! ## 2. Rounding

The quotient of two numbers is scaled so that it has the digits a significand has, divided with a
remainder, and rounded by comparing the remainder with one half. -/

/-- The quotient, rounded to the nearest number, ties to even. -/
def roundEven (a b : Nat) : Nat :=
  if 2 * (a % b) < b ∨ 2 * (a % b) = b ∧ a / b % 2 = 0 then a / b else a / b + 1

/-- The word nearest to `num / den`.  The exponent is the one that leaves 53 digits, and a quotient
that is rounded up to one more carries over into the exponent. -/
def nearest (num den : Nat) : Nat :=
  let shift := (num * one / den).log2 - 52
  min infinity (shift * 2 ^ 52 + roundEven (num * one) (den * 2 ^ shift))

theorem roundEven_mul {b : Nat} (hb : 0 < b) (q : Nat) : roundEven (b * q) b = q := by
  simp [roundEven, hb]

/-! ## 3. Whole numbers

From `2 ^ 52` on every word stands for a whole number, and below a whole number has at most 53
digits, so that rounding leaves it as it is. -/

theorem magnitude_of_le {word : Nat} (h : word ≤ infinity) : magnitude word = word := by
  refine Nat.mod_eq_of_lt (Nat.lt_of_le_of_lt h ?_)
  decide

/-- From `2 ^ 52` on every number is whole. -/
theorem isWhole_of_large {word : Nat} (h : 1075 * 2 ^ 52 ≤ word) (hle : word ≤ infinity) :
    isWhole word = true := by
  have hexponent : scale ≤ word / 2 ^ 52 - 1 := by
    unfold scale
    omega
  rw [isWhole, magnitude_of_le hle, decide_eq_true_eq]
  rcases Nat.eq_or_lt_of_le hle with heq | hlt
  · exact .inl heq
  · have hpow : one ∣ 2 ^ (word / 2 ^ 52 - 1) := Nat.pow_dvd_pow 2 hexponent
    exact .inr ⟨hlt, Nat.dvd_mul_left_of_dvd hpow _⟩

/-- A word from an exponent and 53 digits. -/
theorem units_of_digits {shift q : Nat} (hlo : 2 ^ 52 ≤ q) (hhi : q < 2 ^ 53) :
    units (shift * 2 ^ 52 + q) = q * 2 ^ shift := by
  have hdiv : (shift * 2 ^ 52 + q) / 2 ^ 52 = shift + 1 := by omega
  have hmod : (shift * 2 ^ 52 + q) % 2 ^ 52 = q - 2 ^ 52 := by omega
  rw [units, significand, hdiv, hmod, if_neg (Nat.succ_ne_zero shift), Nat.add_sub_cancel,
    Nat.add_sub_cancel' hlo]

theorem log2_mul_pow {n : Nat} (hn : n ≠ 0) (k : Nat) : (n * 2 ^ k).log2 = n.log2 + k := by
  induction k with
  | zero => simp
  | succ k ih =>
    have hne : n * 2 ^ k ≠ 0 := Nat.mul_ne_zero hn (Nat.ne_of_gt (Nat.two_pow_pos k))
    rw [Nat.pow_succ, ← Nat.mul_assoc, Nat.mul_comm _ 2, Nat.log2_two_mul hne, ih, Nat.add_assoc]

/-- **A whole number is rounded to a whole number**: up to 53 digits it is not rounded at all, and
from there on there is nothing but whole numbers. -/
theorem isWhole_nearest {num den : Nat} (hden : 0 < den) (h : den ∣ num) :
    isWhole (nearest num den) = true := by
  obtain ⟨n, rfl⟩ := h
  have hquot : den * n * one / den = n * one := by
    rw [Nat.mul_assoc, Nat.mul_div_cancel_left _ hden]
  rw [nearest, hquot]
  rcases Nat.eq_zero_or_pos n with rfl | hn
  · simp [roundEven, isWhole, magnitude, units, significand, infinity, hden]
  have hlog : (n * one).log2 = n.log2 + scale := log2_mul_pow (Nat.ne_of_gt hn) scale
  have hshift : n.log2 + scale - 52 = n.log2 + 1022 := by
    unfold scale
    omega
  rw [hlog, hshift]
  have hle : 2 ^ n.log2 ≤ n := Nat.log2_self_le (Nat.ne_of_gt hn)
  have hlt : n < 2 ^ (n.log2 + 1) := Nat.lt_log2_self
  rcases Nat.lt_or_ge 52 n.log2 with hbig | hsmall
  · refine isWhole_of_large ?_ (Nat.min_le_left _ _)
    refine Nat.le_min.mpr ⟨by decide, ?_⟩
    omega
  · have hone : (2 : Nat) ^ (52 - n.log2) * 2 ^ (n.log2 + 1022) = one := by
      have hsum : 52 - n.log2 + (n.log2 + 1022) = scale := by
        unfold scale
        omega
      rw [← Nat.pow_add, hsum, one]
    have hexact : den * n * one = den * 2 ^ (n.log2 + 1022) * (n * 2 ^ (52 - n.log2)) := by
      rw [← hone, Nat.mul_comm (2 ^ (52 - n.log2)), Nat.mul_mul_mul_comm]
    have hlo : 2 ^ 52 ≤ n * 2 ^ (52 - n.log2) := by
      calc 2 ^ 52 = 2 ^ n.log2 * 2 ^ (52 - n.log2) := by
            rw [← Nat.pow_add, Nat.add_sub_cancel' hsmall]
        _ ≤ n * 2 ^ (52 - n.log2) := Nat.mul_le_mul_right _ hle
    have hhi : n * 2 ^ (52 - n.log2) < 2 ^ 53 := by
      have hsum : n.log2 + 1 + (52 - n.log2) = 53 := by omega
      calc n * 2 ^ (52 - n.log2) < 2 ^ (n.log2 + 1) * 2 ^ (52 - n.log2) :=
            Nat.mul_lt_mul_of_pos_right hlt (Nat.two_pow_pos _)
        _ = 2 ^ 53 := by rw [← Nat.pow_add, hsum]
    rw [hexact, roundEven_mul (Nat.mul_pos hden (Nat.two_pow_pos _))]
    have hword : (n.log2 + 1022) * 2 ^ 52 + n * 2 ^ (52 - n.log2) < infinity := by
      unfold infinity
      omega
    rw [Nat.min_eq_right (Nat.le_of_lt hword), isWhole, magnitude_of_le (Nat.le_of_lt hword),
      decide_eq_true_eq,
      units_of_digits hlo hhi]
    refine .inr ⟨hword, n, ?_⟩
    rw [Nat.mul_assoc, hone, Nat.mul_comm]

end Zgdb.Lib.Binary64
