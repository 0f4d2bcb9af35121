/-
# Which strings are integers

`str2long` and `str2int` on the strings that do not start with white space.  A string is an integer
when it is a sign, or none, and at least one digit (`Numeral`).

* `str2int_numerals`: the conversions accept the integers of 32 bits and classify the others,
  exactly when the string is not an integer below the range of `long`; there `strtol` sets ERANGE,
  which both ask for together with the upper bound first.
-/
import Zgdb.Numerals

namespace Zgdb

/-! ## 1. Integers and `strtol`

What `strtol` leaves behind tells whether the string is an integer as a whole; the number it returns
is cut off at the bounds of `long`. -/

/-- An optional sign and at least one digit, with the value.  These are the decimal integers as they
are written, of any length; the range is not part of it. -/
inductive Numeral : List UInt8 → Int → Prop where
  | plain {digits : List UInt8} (hne : digits ≠ []) (h : ∀ c ∈ digits, isDigit c = true) :
    Numeral digits (digitsValue 0 digits)
  | plus {digits : List UInt8} (hne : digits ≠ []) (h : ∀ c ∈ digits, isDigit c = true) :
    Numeral (43 :: digits) (digitsValue 0 digits)
  | minus {digits : List UInt8} (hne : digits ≠ []) (h : ∀ c ∈ digits, isDigit c = true) :
    Numeral (45 :: digits) (-(digitsValue 0 digits : Int))

/-- The number that `strtol` has read, at the limits of `long`. -/
def saturated (v : Int) (rest : List UInt8) : StrtolResult :=
  if v > 2 ^ 63 - 1 then ⟨2 ^ 63 - 1, rest, true⟩
  else if v < -2 ^ 63 then ⟨-2 ^ 63, rest, true⟩
  else ⟨v, rest, false⟩

theorem saturated_rest (v : Int) (rest : List UInt8) : (saturated v rest).rest = rest := by
  unfold saturated
  split
  · rfl
  · split <;> rfl

/-- What `strtol` does behind the sign, in the string `s`. -/
def readDigits (negative : Bool) (s u : List UInt8) : StrtolResult :=
  if u.takeWhile isDigit = [] then ⟨0, s, false⟩
  else saturated (if negative then -(digitsValue 0 (u.takeWhile isDigit) : Int)
    else digitsValue 0 (u.takeWhile isDigit)) (u.dropWhile isDigit)

theorem strtol_negative (cs : List UInt8) : strtol (45 :: cs) = readDigits true (45 :: cs) cs := by
  have hdrop : (45 :: cs).dropWhile isSpace = 45 :: cs := List.dropWhile_cons_of_neg (by decide)
  simp [strtol, readDigits, saturated, hdrop]

theorem strtol_positive (cs : List UInt8) : strtol (43 :: cs) = readDigits false (43 :: cs) cs := by
  have hdrop : (43 :: cs).dropWhile isSpace = 43 :: cs := List.dropWhile_cons_of_neg (by decide)
  simp [strtol, readDigits, saturated, hdrop]

theorem strtol_unsigned {c : UInt8} (cs : List UInt8) (hc : isSpace c = false) (h45 : c ≠ 45)
    (h43 : c ≠ 43) : strtol (c :: cs) = readDigits false (c :: cs) (c :: cs) := by
  have hdrop : (c :: cs).dropWhile isSpace = c :: cs := List.dropWhile_cons_of_neg (by simp [hc])
  simp [strtol, readDigits, saturated, hdrop, h45, h43]

theorem readDigits_digits {negative : Bool} {s u : List UInt8} (hne : u ≠ [])
    (h : ∀ c ∈ u, isDigit c = true) : readDigits negative s u
      = saturated (if negative then -(digitsValue 0 u : Int) else digitsValue 0 u) [] := by
  have htake : u.takeWhile isDigit = u := List.takeWhile_eq_self_iff.mpr h
  have hdrop : u.dropWhile isDigit = [] := List.dropWhile_eq_nil_iff.mpr h
  rw [readDigits, htake, hdrop, if_neg hne]

/-- When nothing is left the rest was digits. -/
theorem digits_of_rest {negative : Bool} {s u : List UInt8} (hs : s ≠ [])
    (h : (readDigits negative s u).rest = []) : u ≠ [] ∧ ∀ c ∈ u, isDigit c = true := by
  unfold readDigits at h
  split at h
  · exact absurd h hs
  · rename_i hne
    rw [saturated_rest] at h
    refine ⟨?_, List.dropWhile_eq_nil_iff.mp h⟩
    rintro rfl
    exact hne rfl

/-- An integer is read as a whole. -/
theorem strtol_numeral {s : List UInt8} {v : Int} (h : Numeral s v) :
    strtol s = saturated v [] := by
  cases h with
  | plain hne h =>
    obtain ⟨c, cs, rfl⟩ := List.exists_cons_of_ne_nil hne
    have hc := h c List.mem_cons_self
    rw [strtol_unsigned cs (not_isSpace_of_isDigit hc) (isDigit_ne hc rfl) (isDigit_ne hc rfl),
      readDigits_digits hne h]
    rfl
  | plus hne h =>
    rw [strtol_positive, readDigits_digits hne h]
    rfl
  | minus hne h =>
    rw [strtol_negative, readDigits_digits hne h]
    rfl

/-- A string that is read to its end is an integer. -/
theorem numeral_of_strtol {c : UInt8} {cs : List UInt8} (hc : isSpace c = false)
    (h : (strtol (c :: cs)).rest = []) : ∃ v, Numeral (c :: cs) v := by
  by_cases h45 : c = 45
  · subst h45
    rw [strtol_negative] at h
    obtain ⟨hne, hdigits⟩ := digits_of_rest (by simp) h
    exact ⟨_, .minus hne hdigits⟩
  by_cases h43 : c = 43
  · subst h43
    rw [strtol_positive] at h
    obtain ⟨hne, hdigits⟩ := digits_of_rest (by simp) h
    exact ⟨_, .plus hne hdigits⟩
  · rw [strtol_unsigned cs hc h45 h43] at h
    obtain ⟨hne, hdigits⟩ := digits_of_rest (by simp) h
    exact ⟨_, .plain hne hdigits⟩

/-! ## 2. The conversions

Three tests in a row: the upper bound of 32 bits or ERANGE, the lower bound or ERANGE, and the rest
of the string. -/

theorem Numeral.starts {s : CString} {v : Int} (h : Numeral s.chars v) :
    ¬ (s.at 0 = 0 ∨ isSpace (s.at 0) = true) := by
  have hhead : ∀ (c : UInt8) (cs : List UInt8), s.chars = c :: cs → isSpace c = false →
      ¬ (s.at 0 = 0 ∨ isSpace (s.at 0) = true) := by
    intro c cs hchars hspace
    have hat : s.at 0 = c := by simp [CString.at, hchars]
    have hc : c ≠ 0 := fun h0 => s.noNul (by rw [hchars, h0]; exact List.mem_cons_self)
    simp [hat, hc, hspace]
  generalize hchars : s.chars = chars at h
  cases h with
  | plain hne h =>
    obtain ⟨c, cs, rfl⟩ := List.exists_cons_of_ne_nil hne
    exact hhead c cs hchars (not_isSpace_of_isDigit (h c List.mem_cons_self))
  | plus => exact hhead 43 _ hchars (by decide)
  | minus => exact hhead 45 _ hchars (by decide)

/-- What becomes of an integer. -/
theorem str2long_numeral {s : CString} {v : Int} (h : Numeral s.chars v) :
    str2long s = if v > 2 ^ 31 - 1 ∨ v < -2 ^ 63 then (.overflow, none)
      else if v < -2 ^ 31 then (.underflow, none) else (.success, some v) := by
  rw [str2long, if_neg h.starts, strtol_numeral h]
  unfold saturated
  by_cases hhi : v > 2 ^ 63 - 1
  · rw [if_pos hhi, if_pos (.inr rfl), if_pos (.inl (by omega))]
  rw [if_neg hhi]
  by_cases hlo : v < -2 ^ 63
  · rw [if_pos hlo, if_pos (.inr rfl), if_pos (.inr hlo)]
  rw [if_neg hlo]
  have hlo' : ¬ v < -9223372036854775808 := hlo
  simp [hlo']

/-- A string that is not read to its end is refused. -/
theorem str2long_refused {s : CString} (h : ¬ ∃ v, Numeral s.chars v) :
    (str2long s).1 ≠ .success ∧ (str2long s).2 = none := by
  unfold str2long
  by_cases hstart : s.at 0 = 0 ∨ isSpace (s.at 0) = true
  · simp [hstart]
  rw [if_neg hstart]
  have hrest : (strtol s.chars).rest ≠ [] := by
    intro hrest
    rcases hchars : s.chars with _ | ⟨c, cs⟩
    · exact hstart (.inl (by simp [CString.at, hchars]))
    · have hat : s.at 0 = c := by simp [CString.at, hchars]
      rw [hchars] at hrest h
      refine h (numeral_of_strtol ?_ hrest)
      simpa using fun hspace => hstart (.inr (hat ▸ hspace))
  simp only
  split
  · simp
  · split
    · simp
    · simp

/-- Either nothing is stored, or the string is an integer of 32 bits and is stored. -/
theorem str2long_cases (s : CString) : (str2long s).1 ≠ .success ∧ (str2long s).2 = none
    ∨ ∃ v, Numeral s.chars v ∧ -2 ^ 31 ≤ v ∧ v ≤ 2 ^ 31 - 1 ∧
      str2long s = (.success, some v) := by
  by_cases hnum : ∃ v, Numeral s.chars v
  · obtain ⟨v, hv⟩ := hnum
    rw [str2long_numeral hv]
    by_cases hover : v > 2 ^ 31 - 1 ∨ v < -2 ^ 63
    · left
      rw [if_pos hover]
      exact ⟨by simp, rfl⟩
    rw [if_neg hover]
    by_cases hunder : v < -2 ^ 31
    · left
      rw [if_pos hunder]
      exact ⟨by simp, rfl⟩
    · right
      exact ⟨v, hv, by omega, by omega, if_neg hunder⟩
  · exact .inl (str2long_refused hnum)

theorem str2long_stored {s : CString} (h : (str2long s).1 ≠ .success) : (str2long s).2 = none := by
  rcases str2long_cases s with ⟨-, hnone⟩ | ⟨v, -, -, -, hv⟩
  · exact hnone
  · exact absurd (by rw [hv]) h

/-- What the conversion of a string is to do: the integers of 32 bits are accepted and stored, the
others are classified, and nothing is stored without success.  A numeral that is too large even for
`strtol` is classified like the others. -/
structure Converts (s : CString) (r : Str2IntStatus × Option Int) : Prop where
  accepted : r.1 = .success ↔ ∃ v, Numeral s.chars v ∧ -2 ^ 31 ≤ v ∧ v ≤ 2 ^ 31 - 1
  stored : ∀ v, Numeral s.chars v → -2 ^ 31 ≤ v → v ≤ 2 ^ 31 - 1 → r.2 = some v
  untouched : r.1 ≠ .success → r.2 = none
  overflow : ∀ v, Numeral s.chars v → 2 ^ 31 - 1 < v → r.1 = .overflow
  underflow : ∀ v, Numeral s.chars v → v < -2 ^ 31 → r.1 = .underflow

theorem str2long_converts {s : CString} (h : ∀ v, Numeral s.chars v → -2 ^ 63 ≤ v) :
    Converts s (str2long s) := by
  -- an integer in range, above it, or below it
  have hnumeral : ∀ v, Numeral s.chars v → v ≤ 2 ^ 31 - 1 ∧ -2 ^ 31 ≤ v ∧
        str2long s = (.success, some v)
      ∨ 2 ^ 31 - 1 < v ∧ str2long s = (.overflow, none)
      ∨ v < -2 ^ 31 ∧ str2long s = (.underflow, none) := by
    intro v hv
    have hlong := h v hv
    rw [str2long_numeral hv]
    by_cases hhi : 2 ^ 31 - 1 < v
    · rw [if_pos (.inl hhi)]
      exact .inr (.inl ⟨hhi, rfl⟩)
    rw [if_neg (by omega)]
    by_cases hlo : v < -2 ^ 31
    · rw [if_pos hlo]
      exact .inr (.inr ⟨hlo, rfl⟩)
    · rw [if_neg hlo]
      exact .inl ⟨by omega, by omega, rfl⟩
  constructor
  case accepted =>
    constructor
    · intro hsuccess
      rcases str2long_cases s with ⟨hfail, -⟩ | ⟨v, hv, hlo, hhi, -⟩
      · exact absurd hsuccess hfail
      · exact ⟨v, hv, hlo, hhi⟩
    · rintro ⟨v, hv, hlo, hhi⟩
      rcases hnumeral v hv with ⟨-, -, hr⟩ | ⟨hover, -⟩ | ⟨hunder, -⟩
      · rw [hr]
      · omega
      · omega
  case stored =>
    intro v hv hlo hhi
    rcases hnumeral v hv with ⟨-, -, hr⟩ | ⟨hover, -⟩ | ⟨hunder, -⟩
    · rw [hr]
    · omega
    · omega
  case untouched => exact str2long_stored
  case overflow =>
    intro v hv hhi
    rcases hnumeral v hv with ⟨hhi', -, -⟩ | ⟨-, hr⟩ | ⟨hlo, -⟩
    · omega
    · rw [hr]
    · omega
  case underflow =>
    intro v hv hlo
    rcases hnumeral v hv with ⟨-, hlo', -⟩ | ⟨hhi, -⟩ | ⟨-, hr⟩
    · omega
    · omega
    · rw [hr]

theorem str2int_stored {s : CString} (h : (str2int s).1 = .success) :
    ∃ v, str2int s = (.success, some v) := by
  rcases str2long_cases s with ⟨hfail, -⟩ | ⟨v, -, -, -, hv⟩
  · exact absurd h hfail
  · exact ⟨Int32.ofInt v, by rw [str2int, hv]; rfl⟩

/-- `str2int` stores the same number. -/
theorem str2int_eq (s : CString) :
    ((str2int s).1, (str2int s).2.map Int32.toInt) = str2long s := by
  unfold str2int
  rcases str2long_cases s with ⟨-, hnone⟩ | ⟨v, -, hlo, hhi, hv⟩
  · exact Prod.ext rfl (by simp [hnone])
  · simp only [hv, Option.map_some]
    rw [Int32.toInt_ofInt_of_le (by simpa using hlo) (by simpa using by omega)]

/-- **The conversions accept exactly the integers of 32 bits** and classify the others, where the
string is not an integer below the range of `long`; and a printed integer comes back.  Below that
range `strtol` sets ERANGE, which the conversions take for an overflow, as they ask for it together
with the upper bound first. -/
theorem str2int_numerals (s : CString) :
    (Converts s (str2long s) ↔ ∀ v, Numeral s.chars v → -2 ^ 63 ≤ v)
    ∧ (Converts s ((str2int s).1, (str2int s).2.map Int32.toInt)
      ↔ ∀ v, Numeral s.chars v → -2 ^ 63 ≤ v)
    ∧ ∀ v, str2int (sprintfD v) = (.success, some v) := by
  rw [str2int_eq, ← and_assoc, and_self]
  refine ⟨?_, str2int_sprintfD⟩
  refine ⟨?_, str2long_converts⟩
  intro h v hv
  by_contra hlo
  have hunder := h.underflow v hv (by omega)
  rw [str2long_numeral hv, if_pos (.inr (by omega))] at hunder
  cases hunder

theorem zero_notMem_minus (n : Nat) : (0 : UInt8) ∉ 45 :: decimal n := by
  simp [zero_notMem_decimal]

/-- `-9223372036854775809` is an overflow. -/
theorem str2int_far :
    let s : CString := ⟨45 :: decimal 9223372036854775809, zero_notMem_minus _⟩
    Numeral s.chars (-9223372036854775809) ∧ str2int s = (.overflow, none)
      ∧ str2long s = (.overflow, none) := by
  intro s
  have hnumeral : Numeral s.chars (-9223372036854775809) := by
    have h := Numeral.minus (decimal_ne_nil 9223372036854775809)
      fun _ => isDigit_of_mem_decimal
    rwa [digitsValue_decimal] at h
  have hlong : str2long s = (.overflow, none) := by
    rw [str2long_numeral hnumeral, if_pos (.inr (by decide))]
  refine ⟨hnumeral, ?_, hlong⟩
  rw [str2int, hlong]
  rfl

end Zgdb
