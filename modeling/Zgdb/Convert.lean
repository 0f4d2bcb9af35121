/-
# Conversions of input strings

`str2long`, `str2int`, `str2double` and `str2boolean` of `zgdb.c`.  `strtol` is modelled for base
10; `strtod` is a parameter, a function from strings to the bits of the number, the place where
the numeral ended and whether `errno` is ERANGE.
-/
import Zgdb.Data

namespace Zgdb

/-! ## 1. `strtol`

White space, a sign, digits; what is out of range is set to the nearest number that can be had, with
`errno`.  The rest of the string is what `end` leads to. -/

/-- `isspace` in the C locale -/
def isSpace (c : UInt8) : Bool := c = 32 ∨ (9 ≤ c ∧ c ≤ 13)

def isDigit (c : UInt8) : Bool := 48 ≤ c ∧ c ≤ 57

/-- The value of a run of decimal digits, after `acc`. -/
def digitsValue (acc : Nat) : List UInt8 → Nat
  | [] => acc
  | c :: cs => digitsValue (10 * acc + (c.toNat - 48)) cs

/-- What `strtol` leaves: the number, the rest of the string at `end`, and `errno == ERANGE`. -/
structure StrtolResult where
  value : Int
  rest : List UInt8
  erange : Bool
deriving DecidableEq, Repr

/-- `strtol(s, &end, 10)` with a 64-bit `long`. -/
def strtol (s : List UInt8) : StrtolResult :=
  let t := s.dropWhile isSpace
  let neg : Bool := t.head? = some 45
  let u := if t.head? = some 45 ∨ t.head? = some 43 then t.tail else t
  let digits := u.takeWhile isDigit
  if digits = [] then ⟨0, s, false⟩
  else
    let v : Int := if neg then -(digitsValue 0 digits : Int) else digitsValue 0 digits
    let rest := u.dropWhile isDigit
    if v > 2 ^ 63 - 1 then ⟨2 ^ 63 - 1, rest, true⟩
    else if v < -2 ^ 63 then ⟨-2 ^ 63, rest, true⟩
    else ⟨v, rest, false⟩

/-! ## 2. The conversions -/

/-- `str2intStatus` -/
inductive Str2IntStatus where
  | success
  | overflow
  | underflow
  | inconvertible
deriving DecidableEq, Repr

/-- `str2long`; the value is what is stored in `*out`, on success only. -/
def str2long (s : CString) : Str2IntStatus × Option Int :=
  if s.at 0 = 0 ∨ isSpace (s.at 0) then (.inconvertible, none)
  else
    let l := strtol s.chars
    if l.value > 2 ^ 31 - 1 ∨ l.erange then (.overflow, none)
    else if l.value < -2 ^ 31 ∨ l.erange then (.underflow, none)
    else if l.rest ≠ [] then (.inconvertible, none)
    else (.success, some l.value)

/-- `str2int`: the same checks, the value cast to 32 bits. -/
def str2int (s : CString) : Str2IntStatus × Option Int32 :=
  let r := str2long s
  (r.1, r.2.map Int32.ofInt)

/-- `str2boolean` -/
def str2boolean (s : CString) : UInt8 :=
  if s.chars = [116, 114, 117, 101] then 1 else 0

/-- `str2doubleStatus` -/
inductive Str2DoubleStatus where
  | success
  | inconvertible
deriving DecidableEq, Repr

/-- What `strtod` leaves: the bits of the number, whether it is zero, how many characters the
numeral took, and `errno == ERANGE`. -/
structure StrtodResult where
  bits : UInt64
  isZero : Bool
  taken : Nat
  erange : Bool
deriving DecidableEq, Repr

/-- `str2double`, given `strtod` -/
def str2double (strtod : CString → StrtodResult) (s : CString) :
    Str2DoubleStatus × Option UInt64 :=
  if s.at 0 = 0 ∨ isSpace (s.at 0) then (.inconvertible, none)
  else
    let r := strtod s
    if r.erange then (.inconvertible, none)
    else if r.isZero ∧ r.taken = 0 then (.inconvertible, none)
    else (.success, some r.bits)

end Zgdb
