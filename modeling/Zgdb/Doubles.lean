/-
# Which strings are doubles

`str2double` asks whether `strtod` has taken anything, not whether it has taken all of the string,
as `str2int` does.  So a string is refused by an update of a double when no beginning of it is a
numeral, or when the number is out of range, and every other string is accepted, with whatever
follows the numeral (`double_updates`).
-/
import Zgdb.Scalars

namespace Zgdb

open Zgdb.Lib AddrSpace

variable {A : Type} [BlockSpace A]

/-! ## 1. The numerals of `strtod`

The grammar of the C standard: decimal and hexadecimal numbers, infinities, and what is not a
number.  `strtod` is a parameter that takes the longest numeral at the front. -/

/-- `isalpha` for a hexadecimal digit, or `isdigit` -/
def isHexDigit (c : UInt8) : Bool :=
  isDigit c ∨ (65 ≤ c ∧ c ≤ 70) ∨ (97 ≤ c ∧ c ≤ 102)

/-- The characters of a sequence behind `nan`: letters, digits and the underscore. -/
def isNanChar (c : UInt8) : Bool :=
  isDigit c ∨ (65 ≤ c ∧ c ≤ 90) ∨ (97 ≤ c ∧ c ≤ 122) ∨ c = 95

/-- At least one digit, with a point before, among or behind them, or without one. -/
inductive Mantissa (digit : UInt8 → Bool) : List UInt8 → Prop where
  | whole {ds : List UInt8} (hne : ds ≠ []) (h : ∀ c ∈ ds, digit c = true) : Mantissa digit ds
  | point {ds es : List UInt8} (hne : ds ++ es ≠ []) (h : ∀ c ∈ ds ++ es, digit c = true) :
    Mantissa digit (ds ++ 46 :: es)

/-- An exponent behind one of two letters, or none. -/
inductive Exponent (lower upper : UInt8) : List UInt8 → Prop where
  | none : Exponent lower upper []
  | some {mark : UInt8} {sign digits : List UInt8} (hmark : mark = lower ∨ mark = upper)
      (hsign : sign = [] ∨ sign = [43] ∨ sign = [45]) (hne : digits ≠ [])
      (h : ∀ c ∈ digits, isDigit c = true) : Exponent lower upper (mark :: sign ++ digits)

/-- A word in letters of either case, given as pairs. -/
def Word (letters : List (UInt8 × UInt8)) (s : List UInt8) : Prop :=
  List.Forall₂ (fun l c => c = l.1 ∨ c = l.2) letters s

/-- `inf`, and what may follow it -/
def infWord : List (UInt8 × UInt8) := [(105, 73), (110, 78), (102, 70)]
def inityWord : List (UInt8 × UInt8) := [(105, 73), (110, 78), (105, 73), (116, 84), (121, 89)]

/-- `nan` -/
def nanWord : List (UInt8 × UInt8) := [(110, 78), (97, 65), (110, 78)]

inductive UnsignedDouble : List UInt8 → Prop where
  | decimal {m e : List UInt8} (hm : Mantissa isDigit m) (he : Exponent 101 69 e) :
    UnsignedDouble (m ++ e)
  | hexadecimal {x : UInt8} {m e : List UInt8} (hx : x = 120 ∨ x = 88)
      (hm : Mantissa isHexDigit m) (he : Exponent 112 80 e) : UnsignedDouble (48 :: x :: (m ++ e))
  | inf {s : List UInt8} (h : Word infWord s) : UnsignedDouble s
  | infinity {s : List UInt8} (h : Word (infWord ++ inityWord) s) : UnsignedDouble s
  | nan {s : List UInt8} (h : Word nanWord s) : UnsignedDouble s
  | nanChars {s cs : List UInt8} (h : Word nanWord s) (hcs : ∀ c ∈ cs, isNanChar c = true) :
    UnsignedDouble (s ++ 40 :: (cs ++ [41]))

/-- What `strtod` takes for a number. -/
inductive DoubleNumeral : List UInt8 → Prop where
  | unsigned {s : List UInt8} (h : UnsignedDouble s) : DoubleNumeral s
  | signed {sign : UInt8} {s : List UInt8} (hsign : sign = 43 ∨ sign = 45) (h : UnsignedDouble s) :
    DoubleNumeral (sign :: s)

/-- The strings that `str2double` hands to `strtod`: those that do not start with white space, which
`strtod` would skip, and are not empty. -/
def HandedToStrtod (s : CString) : Prop := ¬ (s.at 0 = 0 ∨ isSpace (s.at 0) = true)

instance (s : CString) : Decidable (HandedToStrtod s) :=
  inferInstanceAs (Decidable (¬ (s.at 0 = 0 ∨ isSpace (s.at 0) = true)))

/-- `strtod` converts the longest beginning of `s` that is a numeral, and returns zero when there is
none.  This is only asked of the strings that are handed to it. -/
structure ConvertsLongest (strtod : CString → StrtodResult) (s : CString) : Prop where
  numeral : (strtod s).taken ≠ 0 → DoubleNumeral (s.chars.take (strtod s).taken)
  longest : ∀ n ≤ s.strlen, DoubleNumeral (s.chars.take n) → n ≤ (strtod s).taken
  zero : (strtod s).taken = 0 → (strtod s).isZero = true

/-! ## 2. The characters of a numeral

No numeral has a character that is not a letter, a digit, a sign, a point, an underscore or a
bracket; this shows that a given string has no longer one. -/

/-- Everything that occurs in a numeral. -/
def isNumeralChar (c : UInt8) : Bool :=
  isNanChar c ∨ c = 43 ∨ c = 45 ∨ c = 46 ∨ c = 40 ∨ c = 41

theorem isNumeralChar_of_isNanChar {c : UInt8} (h : isNanChar c = true) :
    isNumeralChar c = true := by
  simp [isNumeralChar, h]

theorem isNanChar_of_isDigit {c : UInt8} (h : isDigit c = true) : isNanChar c = true := by
  simp [isNanChar, h]

theorem isNanChar_of_isHexDigit {c : UInt8} (h : isHexDigit c = true) : isNanChar c = true := by
  simp only [isHexDigit, decide_eq_true_eq] at h
  simp only [isNanChar, decide_eq_true_eq]
  rcases h with h | ⟨hlo, hhi⟩ | ⟨hlo, hhi⟩
  · exact .inl h
  · exact .inr (.inl ⟨hlo, UInt8.le_trans hhi (by decide)⟩)
  · exact .inr (.inr (.inl ⟨hlo, UInt8.le_trans hhi (by decide)⟩))

theorem isNumeralChar_le {c : UInt8} (h : isNumeralChar c = true) : 40 ≤ c := by
  simp only [isNumeralChar, isNanChar, isDigit, decide_eq_true_eq] at h
  rcases h with (⟨hlo, -⟩ | ⟨hlo, -⟩ | ⟨hlo, -⟩ | rfl) | rfl | rfl | rfl | rfl | rfl
  · exact UInt8.le_trans (by decide) hlo
  · exact UInt8.le_trans (by decide) hlo
  · exact UInt8.le_trans (by decide) hlo
  all_goals decide

theorem Mantissa.chars {digit : UInt8 → Bool} {s : List UInt8} (h : Mantissa digit s)
    (hdigit : ∀ c, digit c = true → isNanChar c = true) : ∀ c ∈ s, isNumeralChar c = true := by
  cases h with
  | whole _ h => exact fun c hc => isNumeralChar_of_isNanChar (hdigit c (h c hc))
  | point _ h =>
    intro c hc
    rcases List.mem_append.mp hc with hc | hc
    · exact isNumeralChar_of_isNanChar (hdigit c (h c (List.mem_append_left _ hc)))
    rcases List.mem_cons.mp hc with rfl | hc
    · rfl
    · exact isNumeralChar_of_isNanChar (hdigit c (h c (List.mem_append_right _ hc)))

theorem Exponent.chars {lower upper : UInt8} {s : List UInt8} (h : Exponent lower upper s)
    (hlower : isNanChar lower = true) (hupper : isNanChar upper = true) :
    ∀ c ∈ s, isNumeralChar c = true := by
  cases h with
  | none => exact fun c hc => absurd hc List.not_mem_nil
  | some hmark hsign _ h =>
    intro c hc
    rcases List.mem_append.mp hc with hc | hc
    · rcases List.mem_cons.mp hc with rfl | hc
      · rcases hmark with rfl | rfl
        · exact isNumeralChar_of_isNanChar hlower
        · exact isNumeralChar_of_isNanChar hupper
      · rcases hsign with rfl | rfl | rfl
        · cases hc
        · rw [List.mem_singleton.mp hc]
          rfl
        · rw [List.mem_singleton.mp hc]
          rfl
    · exact isNumeralChar_of_isNanChar (isNanChar_of_isDigit (h c hc))

theorem Word.chars {letters : List (UInt8 × UInt8)} {s : List UInt8} (h : Word letters s)
    (hl : (letters.all fun l => isNumeralChar l.1 && isNumeralChar l.2) = true) :
    ∀ c ∈ s, isNumeralChar c = true := by
  induction h with
  | nil => exact fun c hc => absurd hc List.not_mem_nil
  | cons hc hrest ih =>
    intro c hmem
    rw [List.all_cons, Bool.and_eq_true, Bool.and_eq_true] at hl
    obtain ⟨⟨h1, h2⟩, hbehind⟩ := hl
    rcases List.mem_cons.mp hmem with rfl | hmem
    · rcases hc with rfl | rfl
      · exact h1
      · exact h2
    · exact ih hbehind c hmem

theorem UnsignedDouble.chars {s : List UInt8} (h : UnsignedDouble s) :
    ∀ c ∈ s, isNumeralChar c = true := by
  cases h with
  | decimal hm he =>
    intro c hc
    rcases List.mem_append.mp hc with hc | hc
    · exact hm.chars (fun _ => isNanChar_of_isDigit) c hc
    · exact he.chars rfl rfl c hc
  | hexadecimal hx hm he =>
    intro c hc
    rcases List.mem_cons.mp hc with rfl | hc
    · rfl
    rcases List.mem_cons.mp hc with rfl | hc
    · rcases hx with rfl | rfl <;> rfl
    rcases List.mem_append.mp hc with hc | hc
    · exact hm.chars (fun _ => isNanChar_of_isHexDigit) c hc
    · exact he.chars rfl rfl c hc
  | inf h => exact h.chars (by decide)
  | infinity h => exact h.chars (by decide)
  | nan h => exact h.chars (by decide)
  | nanChars h hcs =>
    intro c hc
    rcases List.mem_append.mp hc with hc | hc
    · exact h.chars (by decide) c hc
    rcases List.mem_cons.mp hc with rfl | hc
    · rfl
    rcases List.mem_append.mp hc with hc | hc
    · exact isNumeralChar_of_isNanChar (hcs c hc)
    · rw [List.mem_singleton.mp hc]
      rfl

theorem UnsignedDouble.ne_nil {s : List UInt8} (h : UnsignedDouble s) : s ≠ [] := by
  cases h with
  | decimal hm _ => cases hm <;> simp_all
  | hexadecimal => simp
  | nanChars => simp
  | _ h =>
    rintro rfl
    cases h

theorem DoubleNumeral.chars {s : List UInt8} (h : DoubleNumeral s) :
    ∀ c ∈ s, isNumeralChar c = true := by
  cases h with
  | unsigned h => exact h.chars
  | signed hsign h =>
    intro c hc
    rcases List.mem_cons.mp hc with rfl | hc
    · rcases hsign with rfl | rfl <;> rfl
    · exact h.chars c hc

theorem DoubleNumeral.ne_nil {s : List UInt8} (h : DoubleNumeral s) : s ≠ [] := by
  cases h with
  | unsigned h => exact h.ne_nil
  | signed => simp

/-! ## 3. Acceptance

The condition of the source is that something has been taken and that the number is in range. -/

section Accept

variable {strtod : CString → StrtodResult} {s : CString}

/-- Nothing that starts with white space, or that is empty, begins with a numeral. -/
theorem no_numeral_of_start (h : s.at 0 = 0 ∨ isSpace (s.at 0) = true) (n : Nat) :
    ¬ DoubleNumeral (s.chars.take n) := by
  intro hnum
  have hne := hnum.ne_nil
  rcases hs : s.chars with _ | ⟨c, cs⟩
  · simp [hs] at hne
  rcases n with _ | n
  · simp at hne
  have hat : s.at 0 = c := by simp [CString.at, hs]
  have hc : isNumeralChar c = true := hnum.chars c (by simp [hs])
  rw [hat] at h
  rcases h with rfl | hspace
  · cases hc
  · have hlow : c ≤ 32 := by
      simp only [isSpace, decide_eq_true_eq] at hspace
      rcases hspace with rfl | ⟨-, hle⟩
      · exact UInt8.le_refl _
      · exact UInt8.le_trans hle (by decide)
    exact absurd (UInt8.le_trans (isNumeralChar_le hc) hlow) (by decide)

theorem str2double_stored (h : (str2double strtod s).1 = .success) :
    ∃ v, str2double strtod s = (.success, some v) := by
  unfold str2double at h ⊢
  split at h
  · cases h
  · rename_i hstart
    rw [if_neg hstart]
    simp only at h ⊢
    split at h
    · cases h
    · rename_i herange
      rw [if_neg herange]
      split at h
      · cases h
      · rename_i htaken
        exact ⟨_, if_neg htaken⟩

/-- **What `str2double` refuses**: strings that do not begin with a numeral, and numbers out of
range. -/
theorem str2double_refuses (hstrtod : HandedToStrtod s → ConvertsLongest strtod s) :
    (str2double strtod s).1 ≠ .success
      ↔ (strtod s).erange = true ∨ ∀ n, ¬ DoubleNumeral (s.chars.take n) := by
  unfold str2double
  by_cases hstart : s.at 0 = 0 ∨ isSpace (s.at 0) = true
  · simp [if_pos hstart, no_numeral_of_start hstart]
  have hstrtod := hstrtod hstart
  rw [if_neg hstart]
  by_cases herange : (strtod s).erange = true
  · simp [herange]
  by_cases htaken : (strtod s).taken = 0
  · have hnone : ∀ n, ¬ DoubleNumeral (s.chars.take n) := by
      intro n hnum
      have hle := hstrtod.longest (min n s.strlen) (Nat.min_le_right _ _) (by
        rwa [CString.strlen, ← List.take_eq_take_min])
      refine hnum.ne_nil (List.take_eq_nil_iff.mpr ?_)
      rw [htaken, CString.strlen] at hle
      rw [← List.length_eq_zero_iff]
      omega
    simp [hstrtod.zero htaken, htaken, hnone]
  · have hnum := hstrtod.numeral htaken
    simp only [herange, htaken, and_false, if_false, ne_eq, not_true_eq_false, false_or, false_iff,
      Bool.false_eq_true]
    exact fun h => h _ hnum

end Accept

/-- **Updates of doubles.**  An update of a double is refused exactly when no beginning of the input
is a numeral or the number is out of range, while an update of an int refuses everything that is not
an integer as a whole. -/
theorem double_updates {strtod : CString → StrtodResult} {input : CString}
    (hstrtod : HandedToStrtod input → ConvertsLongest strtod input) :
    (∀ (file : ZgdbFile A) (doc : Document) (key : CString) (e : ElementEntry),
      firstElement file doc key = some e → e.type = ElementType.double.code →
      (updateElement strtod file doc key input = some (.typeParseError, file)
        ↔ (strtod input).erange = true ∨ ∀ n, ¬ DoubleNumeral (input.chars.take n))) ∧
    ∀ (file : ZgdbFile A) (doc : Document) (key : CString) (e : ElementEntry),
      firstElement file doc key = some e → e.type = ElementType.int.code →
      (¬ ∃ v, Numeral input.chars v) →
      updateElement strtod file doc key input = some (.typeParseError, file) := by
  refine ⟨?_, ?_⟩
  · intro file doc key e he htype
    rw [← str2double_refuses hstrtod]
    refine ⟨?_, updateElement_double_refused he htype⟩
    intro hrun hsuccess
    obtain ⟨v, hv⟩ := str2double_stored hsuccess
    cases hrun.symm.trans (updateElement_double he htype hv)
  · intro file doc key e he htype hinput
    exact updateElement_int_refused he htype (str2long_refused hinput).1

/-! ## 4. A number with something behind it

`1,5` is accepted as 1, while an update of an int with such a rest is refused. -/

/-- `1,5` -/
def oneComma : CString := ⟨[49, 44, 53], by decide⟩

/-- A comma. -/
def comma : CString := ⟨[44], by decide⟩

/-- `strtod` on strings that begin with the numeral `1`, and on those without a numeral. -/
def strtodOne (s : CString) : StrtodResult :=
  if s.chars.head? = some 49 then ⟨0x3FF0000000000000, false, 1, false⟩ else ⟨0, true, 0, false⟩

theorem not_numeral_of_comma {s : List UInt8} (h : 44 ∈ s) : ¬ DoubleNumeral s :=
  fun hnum => absurd (hnum.chars 44 h) (by decide)

theorem convertsLongest_oneComma : ConvertsLongest strtodOne oneComma where
  numeral _ := .unsigned (.decimal (.whole (by decide) (List.forall_mem_singleton.mpr rfl)) .none :
    UnsignedDouble ([49] ++ []))
  longest n _ hnum := by
    by_contra hlt
    have htaken : (strtodOne oneComma).taken = 1 := rfl
    refine not_numeral_of_comma ?_ hnum
    obtain ⟨m, rfl⟩ : ∃ m, n = m + 2 := ⟨n - 2, by omega⟩
    simp [oneComma]
  zero h := by cases h

theorem no_numeral_comma (n : Nat) : ¬ DoubleNumeral (comma.chars.take n) := by
  rcases n with _ | n
  · exact fun hnum => hnum.ne_nil rfl
  · exact not_numeral_of_comma (by simp [comma])

theorem convertsLongest_comma : ConvertsLongest strtodOne comma where
  numeral h := absurd rfl h
  longest n _ hnum := absurd hnum (no_numeral_comma n)
  zero _ := rfl

/-- A schema of a number with a fraction. -/
def oneDouble : DocumentSchema := (addDoubleToSchema (initSchema 1) keyA 0).2

theorem oneDouble_built : oneDouble.Built := .double _ _ (.init 1)

/-- A document with a double, under the root of a new store. -/
theorem create_double : ∃ (file : ZgdbFile Nat) (n : Nat) (e : ElementEntry),
    createDocument flatEnv.expandIndexes 0 (init 0) keyA oneDouble
        (documentAt (init 0 : ZgdbFile Nat) 0 0) = some (.createOk, file) ∧
      firstElement file (documentAt file n 0) stringKeyA = some e ∧
      e.type = ElementType.double.code := by
  obtain ⟨-, file, n, own', hrun, hi, -⟩ := create_first flatEnv 0 keyA oneDouble_built (by decide)
  have hn : n ∈ (rootTree.insertUnder 0 n).nodes :=
    (Forest.mem_nodes_insertUnder (by simp) List.mem_cons_self).mpr (Or.inl rfl)
  have hentries := (hi.store.local hn).elementEntries 0 false
  rw [Function.update_self] at hentries
  refine ⟨file, n, ⟨ElementType.double.code, keyA, none, sizeofDocumentHeader⟩, hrun, ?_, rfl⟩
  rw [firstElement, hentries]
  rfl

/-- A comma is refused. -/
theorem double_updates_comma : ∃ (file : ZgdbFile Nat) (n : Nat),
    createDocument flatEnv.expandIndexes 0 (init 0) keyA oneDouble
        (documentAt (init 0 : ZgdbFile Nat) 0 0) = some (.createOk, file) ∧
      updateElement strtodOne file (documentAt file n 0) stringKeyA comma
        = some (.typeParseError, file) := by
  obtain ⟨file, n, e, hrun, he, htype⟩ := create_double
  exact ⟨file, n, hrun, ((double_updates fun _ => convertsLongest_comma).1 file _ _ e he htype).mpr
    (.inr no_numeral_comma)⟩

/-- `1,5` is no numeral and is taken for `1`. -/
theorem double_with_trailing_text : ∃ (file file' : ZgdbFile Nat) (n : Nat),
    createDocument flatEnv.expandIndexes 0 (init 0) keyA oneDouble
        (documentAt (init 0 : ZgdbFile Nat) 0 0) = some (.createOk, file) ∧
      HandedToStrtod oneComma ∧ ConvertsLongest strtodOne oneComma
        ∧ ¬ DoubleNumeral oneComma.chars ∧
      updateElement strtodOne file (documentAt file n 0) stringKeyA oneComma
        = some (.updateOk, file') := by
  obtain ⟨file, n, e, hrun, he, htype⟩ := create_double
  exact ⟨file, _, n, hrun, by decide, convertsLongest_oneComma, not_numeral_of_comma (by decide),
    updateElement_double he htype (v := 0x3FF0000000000000) rfl⟩

end Zgdb
