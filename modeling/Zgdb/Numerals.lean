/-
# Printed numbers and their conversion back

The client prints sizes with `%zu` and integers with `%d`, the server reads them with `str2long` and
`str2int`.  What is printed comes back when it fits into 32 bits (`str2long_sprintfZu`,
`str2int_sprintfD`); a larger number is an overflow (`str2long_overflow`).
-/
import Zgdb.Convert

namespace Zgdb

/-! ## 1. Printing

Decimal digits without leading zeros, and a sign in front of a negative number. -/

/-- The decimal digits of a number. -/
def decimal (n : Nat) : List UInt8 :=
  if n < 10 then [UInt8.ofNat (48 + n)] else decimal (n / 10) ++ [UInt8.ofNat (48 + n % 10)]
termination_by n
decreasing_by omega

theorem toNat_digit {d : Nat} (h : d < 10) : (UInt8.ofNat (48 + d)).toNat = 48 + d := by
  rw [UInt8.toNat_ofNat']
  omega

theorem isDigit_digit {d : Nat} (h : d < 10) : isDigit (UInt8.ofNat (48 + d)) = true := by
  have hnat := toNat_digit h
  simp only [isDigit, decide_eq_true_eq, UInt8.le_iff_toNat_le, hnat]
  exact ⟨Nat.le_add_right 48 d, show 48 + d ≤ 57 by omega⟩

theorem isDigit_of_mem_decimal {n : Nat} {c : UInt8} (h : c ∈ decimal n) : isDigit c = true := by
  induction n using Nat.strong_induction_on with
  | _ n ih =>
    rw [decimal] at h
    split at h
    · rename_i hn
      rw [List.mem_singleton.mp h]
      exact isDigit_digit hn
    · rcases List.mem_append.mp h with h | h
      · exact ih _ (by omega) h
      · rw [List.mem_singleton.mp h]
        exact isDigit_digit (Nat.mod_lt _ (by decide))

theorem decimal_ne_nil (n : Nat) : decimal n ≠ [] := by
  rw [decimal]
  split <;> simp

theorem isDigit_ne {c d : UInt8} (h : isDigit c = true) (hd : isDigit d = false) : c ≠ d := by
  rintro rfl
  rw [h] at hd
  cases hd

theorem zero_notMem_decimal (n : Nat) : 0 ∉ decimal n := by
  intro h
  exact absurd (isDigit_of_mem_decimal h) (by decide)

/-- `sprintf(s, "%zu", n)` -/
def sprintfZu (n : Nat) : CString := ⟨decimal n, zero_notMem_decimal n⟩

/-- `sprintf(s, "%d", v)` -/
def sprintfD (v : Int32) : CString where
  chars := if v.toInt < 0 then 45 :: decimal v.toInt.natAbs else decimal v.toInt.natAbs
  noNul := by split <;> simp [zero_notMem_decimal]

/-! ## 2. Reading

`strtol` takes all the digits, so the number is the one that was printed and nothing is left. -/

theorem digitsValue_append (acc : Nat) (cs : List UInt8) (c : UInt8) :
    digitsValue acc (cs ++ [c]) = 10 * digitsValue acc cs + (c.toNat - 48) := by
  induction cs generalizing acc with
  | nil => rfl
  | cons d ds ih => exact ih _

theorem digitsValue_digit {d : Nat} (h : d < 10) (cs : List UInt8) :
    digitsValue 0 (cs ++ [UInt8.ofNat (48 + d)]) = 10 * digitsValue 0 cs + d := by
  rw [digitsValue_append, toNat_digit h, Nat.add_sub_cancel_left]

theorem digitsValue_decimal (n : Nat) : digitsValue 0 (decimal n) = n := by
  induction n using Nat.strong_induction_on with
  | _ n ih =>
    rw [decimal]
    by_cases hn : n < 10
    · rw [if_pos hn]
      exact (digitsValue_digit hn []).trans (Nat.zero_add n)
    · rw [if_neg hn, digitsValue_digit (Nat.mod_lt _ (by decide)), ih _ (by omega)]
      omega

theorem takeWhile_decimal (n : Nat) : (decimal n).takeWhile isDigit = decimal n :=
  List.takeWhile_eq_self_iff.mpr fun _ h => isDigit_of_mem_decimal h

theorem dropWhile_decimal (n : Nat) : (decimal n).dropWhile isDigit = [] :=
  List.dropWhile_eq_nil_iff.mpr fun _ h => isDigit_of_mem_decimal h

theorem decimal_head (n : Nat) : ∃ c cs, decimal n = c :: cs ∧ isDigit c = true := by
  obtain ⟨c, cs, h⟩ := List.exists_cons_of_ne_nil (decimal_ne_nil n)
  exact ⟨c, cs, h, isDigit_of_mem_decimal (h ▸ List.mem_cons_self)⟩

theorem not_isSpace_of_isDigit {c : UInt8} (h : isDigit c = true) : isSpace c = false := by
  simp only [isDigit, decide_eq_true_eq, UInt8.le_iff_toNat_le] at h
  simp only [isSpace, decide_eq_false_iff_not, UInt8.le_iff_toNat_le]
  have h48 : (48 : UInt8).toNat = 48 := rfl
  have h13 : (13 : UInt8).toNat = 13 := rfl
  rintro (rfl | ⟨-, h'⟩)
  · exact absurd h.1 (by decide)
  · omega

/-- `strtol` on a natural number. -/
theorem strtol_decimal (n : Nat) : strtol (decimal n)
    = if (2 ^ 63 - 1 : Int) < n then ⟨2 ^ 63 - 1, [], true⟩ else ⟨n, [], false⟩ := by
  obtain ⟨c, cs, hc, hdigit⟩ := decimal_head n
  have hdrop : (decimal n).dropWhile isSpace = decimal n := by
    rw [hc, List.dropWhile_cons_of_neg (by simp [not_isSpace_of_isDigit hdigit])]
  have h45 : (decimal n).head? ≠ some 45 := by
    rw [hc, List.head?_cons, ne_eq, Option.some.injEq]
    exact isDigit_ne hdigit rfl
  have h43 : (decimal n).head? ≠ some 43 := by
    rw [hc, List.head?_cons, ne_eq, Option.some.injEq]
    exact isDigit_ne hdigit rfl
  simp only [strtol, hdrop, h45, h43, or_self, if_false, takeWhile_decimal, dropWhile_decimal,
    decimal_ne_nil, digitsValue_decimal, decide_false, Bool.false_eq_true, gt_iff_lt]
  split
  · rfl
  · rw [if_neg (by omega)]

/-- `strtol` on a negative number. -/
theorem strtol_minus (n : Nat) (h : n ≤ 2 ^ 63) :
    strtol (45 :: decimal n) = ⟨-(n : Int), [], false⟩ := by
  have hdrop : (45 :: decimal n).dropWhile isSpace = 45 :: decimal n :=
    List.dropWhile_cons_of_neg (by decide)
  simp only [strtol, hdrop, List.head?_cons, true_or, if_true, List.tail_cons, takeWhile_decimal,
    dropWhile_decimal, decimal_ne_nil, if_false, digitsValue_decimal, decide_true, gt_iff_lt]
  rw [if_neg (by omega), if_neg (by omega)]

theorem starts_decimal (n : Nat) :
    ¬ ((sprintfZu n).at 0 = 0 ∨ isSpace ((sprintfZu n).at 0) = true) := by
  obtain ⟨c, cs, hc, hdigit⟩ := decimal_head n
  have hat : (sprintfZu n).at 0 = c := by
    simp [CString.at, sprintfZu, hc]
  rw [hat, not_isSpace_of_isDigit hdigit]
  simp only [Bool.false_eq_true, or_false]
  exact isDigit_ne hdigit rfl

/-- **A printed size comes back** when it fits into 32 bits. -/
theorem str2long_sprintfZu {n : Nat} (h : n ≤ 2 ^ 31 - 1) :
    str2long (sprintfZu n) = (.success, some (n : Int)) := by
  have hl : strtol (sprintfZu n).chars = ⟨n, [], false⟩ := by
    rw [sprintfZu, strtol_decimal, if_neg (by omega)]
  rw [str2long, if_neg (starts_decimal n)]
  simp only [hl, Bool.false_eq_true, or_false, ne_eq, not_true_eq_false, if_false]
  rw [if_neg (by omega), if_neg (by omega)]

/-- A larger one is refused. -/
theorem str2long_overflow {n : Nat} (h : 2 ^ 31 - 1 < n) :
    str2long (sprintfZu n) = (.overflow, none) := by
  rw [str2long, if_neg (starts_decimal n)]
  simp only [sprintfZu, strtol_decimal]
  split
  · simp
  · rw [if_pos (by left; simp only; omega)]

/-- **A printed integer comes back.** -/
theorem str2int_sprintfD (v : Int32) : str2int (sprintfD v) = (.success, some v) := by
  have hlo := v.le_toInt
  have hhi := v.toInt_lt
  have hlong : str2long (sprintfD v) = (.success, some v.toInt) := by
    by_cases hneg : v.toInt < 0
    · have hchars : (sprintfD v).chars = 45 :: decimal v.toInt.natAbs := if_pos hneg
      have hat : (sprintfD v).at 0 = 45 := by simp [CString.at, hchars]
      have hl : strtol (sprintfD v).chars = ⟨v.toInt, [], false⟩ := by
        rw [hchars, strtol_minus _ (by omega)]
        congr 1
        omega
      rw [str2long, if_neg (by rw [hat]; decide)]
      simp only [hl, Bool.false_eq_true, or_false, ne_eq, not_true_eq_false, if_false]
      rw [if_neg (by omega), if_neg (by omega)]
    · have hs : sprintfD v = sprintfZu v.toInt.natAbs := by
        simp [sprintfD, sprintfZu, hneg]
      rw [hs, str2long_sprintfZu (by omega)]
      congr 2
      omega
  rw [str2int, hlong]
  simp

end Zgdb
