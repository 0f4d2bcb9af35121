/-
# Numeric literals

A decimal literal is digits, a fraction or none and an exponent or none.  What the scanner makes of
it depends on all three:

* the exponent is not read at all: behind `[eE]` the rule wants the letters of `DIGIT`;
* the kind of the token follows the number, so that a fraction whose double is whole gives a NUMBER;
* the integer is cut to 32 bits.

So a literal means what it says when it has no exponent, its fraction leaves a double that is not
whole, and without a fraction it fits into 32 bits (`literals_understood`).
-/
import Zgdb.Integers
import Zgdb.Lexer

namespace Zgdb

open Zgdb.Lib RegularExpression

/-! ## 1. Literals

A literal is given by its parts, so its value is known without the scanner. -/

/-- At least one digit. -/
structure Digits where
  chars : List UInt8
  nonempty : chars ≠ []
  digits : ∀ c ∈ chars, isDigit c = true

/-- `(e|E)[+|-]digits` -/
structure LiteralExponent where
  mark : UInt8
  isMark : mark = 101 ∨ mark = 69
  sign : List UInt8
  isSign : sign = [] ∨ sign = [43] ∨ sign = [45]
  digits : Digits

/-- `digits[.digits][(e|E)[+|-]digits]`: the decimal literals, of which the rules of the scanner
take a part. -/
structure Literal where
  whole : Digits
  fraction : Option Digits
  exponent : Option LiteralExponent

namespace Literal

def fractionText : Option Digits → List UInt8
  | none => []
  | some fraction => 46 :: fraction.chars

def exponentText : Option LiteralExponent → List UInt8
  | none => []
  | some e => e.mark :: (e.sign ++ e.digits.chars)

/-- The literal without its exponent. -/
def mantissa (l : Literal) : List UInt8 := l.whole.chars ++ fractionText l.fraction

def text (l : Literal) : List UInt8 := l.mantissa ++ exponentText l.exponent

/-- The digits behind the point. -/
def fractionDigits (l : Literal) : List UInt8 := (fractionText l.fraction).tail

/-- The double nearest to the literal without its exponent. -/
def double (l : Literal) : Nat :=
  Binary64.nearest (digitsValue 0 (l.whole.chars ++ l.fractionDigits))
    (10 ^ l.fractionDigits.length)

/-- The value of the digits in front of the point. -/
def value (l : Literal) : Nat := digitsValue 0 l.whole.chars

end Literal

/-- What follows does not go on with a literal: it does not begin with a digit, a point or the
letter of an exponent.  Without this a text would be the text of a longer literal as well. -/
def Ends (rest : List UInt8) : Prop :=
  ∀ c, rest.head? = some c → isDigit c = false ∧ c ≠ 46 ∧ c ≠ 101 ∧ c ≠ 69

/-! ## 2. Texts of the numeric rule

What the regular expression matches, from the digits, the fraction and the exponent that it is made
of. -/

theorem mem_bytes_digits {c : UInt8} : c ∈ bytes "0123456789" ↔ isDigit c = true := by
  have h : ∀ n < 256, UInt8.ofNat n ∈ bytes "0123456789" ↔ isDigit (.ofNat n) = true := by
    decide +kernel
  have hc := h c.toNat c.toNat_lt
  rwa [UInt8.ofNat_toNat] at hc

theorem oneOrMore_digit_iff {x : List UInt8} :
    (oneOrMore digit).rmatch x ↔ x ≠ [] ∧ ∀ c ∈ x, isDigit c = true := by
  simp only [digit, oneOrMore_oneOf_rmatch_iff, mem_bytes_digits]

theorem star_digit_iff {x : List UInt8} :
    digit.star.rmatch x ↔ ∀ c ∈ x, isDigit c = true := by
  simp only [digit, star_oneOf_rmatch_iff, mem_bytes_digits]

theorem fractionPart_iff {x : List UInt8} : fractionPart.rmatch x
    ↔ x = [] ∨ ∃ ds : List UInt8, x = 46 :: ds ∧ ∀ c ∈ ds, isDigit c = true := by
  have hdot : bytes "." = [46] := rfl
  rw [fractionPart, optional_rmatch_iff, mul_rmatch_iff, hdot]
  simp only [word_rmatch_iff, star_digit_iff]
  refine or_congr_right ⟨?_, ?_⟩
  · rintro ⟨_, ds, rfl, rfl, h⟩
    exact ⟨ds, rfl, h⟩
  · rintro ⟨ds, rfl, h⟩
    exact ⟨[46], ds, rfl, rfl, h⟩

/-- What the rule takes for an exponent ends in letters. -/
theorem exponentPart_iff {x : List UInt8} : exponentPart.rmatch x
    ↔ x = [] ∨ ∃ (mark : UInt8) (sign letters : List UInt8), x = mark :: (sign ++ letters) ∧
      (mark = 101 ∨ mark = 69) ∧ (sign = [] ∨ sign = [43] ∨ sign = [45]) ∧
      letters ≠ [] ∧ ∀ c ∈ letters, c ∈ bytes "DIGIT" := by
  have hmark : bytes "eE" = [101, 69] := rfl
  have hsign : bytes "+-" = [43, 45] := rfl
  rw [exponentPart, optional_rmatch_iff, mul_rmatch_iff, hmark, hsign]
  simp only [mul_rmatch_iff, oneOf_rmatch_iff, optional_rmatch_iff, oneOrMore_oneOf_rmatch_iff]
  refine or_congr_right ⟨?_, ?_⟩
  · rintro ⟨_, _, rfl, ⟨mark, hm, rfl⟩, sign, letters, rfl, hs, hl⟩
    refine ⟨mark, sign, letters, rfl, by simpa using hm, ?_, hl⟩
    rcases hs with rfl | ⟨a, ha, rfl⟩
    · exact .inl rfl
    · simpa using ha
  · rintro ⟨mark, sign, letters, rfl, hm, hs, hl⟩
    refine ⟨[mark], sign ++ letters, rfl, ⟨mark, by simpa using hm, rfl⟩, sign,
      letters, rfl, ?_, hl⟩
    rcases hs with rfl | rfl | rfl
    · exact .inl rfl
    · exact .inr ⟨43, by simp, rfl⟩
    · exact .inr ⟨45, by simp, rfl⟩

theorem exponentPart_head {x : List UInt8} (h : exponentPart.rmatch x) {c : UInt8}
    (hc : x.head? = some c) : isDigit c = false ∧ c ≠ 46 := by
  rcases exponentPart_iff.mp h with rfl | ⟨mark, sign, letters, rfl, rfl | rfl, -⟩
  · cases hc
  all_goals
    cases hc
    decide

section Digits

variable {xs w : List UInt8} (hxs : ∀ c ∈ xs, isDigit c = true)
  (hw : ∀ c, w.head? = some c → isDigit c = false)

include hxs hw

theorem takeWhile_digits : (xs ++ w).takeWhile isDigit = xs := by
  rw [List.takeWhile_append_of_pos hxs]
  rcases w with _ | ⟨c, w⟩
  · simp
  · simp [hw c rfl]

theorem dropWhile_digits : (xs ++ w).dropWhile isDigit = w := by
  rw [List.dropWhile_append_of_pos hxs]
  rcases w with _ | ⟨c, w⟩
  · rfl
  · exact List.dropWhile_cons_of_neg (by simp [hw c rfl])

/-- Digits up to something else are all the digits there are. -/
theorem digits_inj {ys u : List UInt8} (hys : ∀ c ∈ ys, isDigit c = true)
    (hu : ∀ c, u.head? = some c → isDigit c = false) (h : xs ++ w = ys ++ u) : xs = ys ∧ w = u := by
  refine ⟨?_, ?_⟩
  · rw [← takeWhile_digits hxs hw, h, takeWhile_digits hys hu]
  · rw [← dropWhile_digits hxs hw, h, dropWhile_digits hys hu]

end Digits

/-- What starts with a digit is taken apart into digits, a fraction and an exponent. -/
theorem numeric_parts {d : UInt8} (hd : isDigit d = true) {x : List UInt8}
    (h : numeric.rmatch (d :: x)) : ∃ t v w, d :: x = t ++ (v ++ w) ∧
      (∀ c ∈ t, isDigit c = true) ∧ fractionPart.rmatch v ∧ exponentPart.rmatch w := by
  have hdot : bytes "." = [46] := rfl
  rcases (add_rmatch_iff ..).mp h with h | h
  · obtain ⟨t, u, heq, ht, -⟩ := (mul_rmatch_iff ..).mp h
    rw [hdot, word_rmatch_iff] at ht
    rw [ht] at heq
    rw [(List.cons.inj heq).1] at hd
    cases hd
  · obtain ⟨t, u, heq, ht, hu⟩ := (mul_rmatch_iff ..).mp h
    obtain ⟨v, w, rfl, hv, hw⟩ := (mul_rmatch_iff ..).mp hu
    exact ⟨t, v, w, heq, (oneOrMore_digit_iff.mp ht).2, hv, hw⟩

namespace Literal

variable (l : Literal)

theorem mantissa_cons : ∃ d ds, isDigit d = true ∧ l.mantissa = d :: ds := by
  obtain ⟨d, ds, hwhole⟩ := List.exists_cons_of_ne_nil l.whole.nonempty
  refine ⟨d, ds ++ fractionText l.fraction, ?_, by rw [mantissa, hwhole, List.cons_append]⟩
  exact l.whole.digits d (hwhole ▸ List.mem_cons_self)

theorem fractionPart_fractionText : fractionPart.rmatch (fractionText l.fraction) := by
  rcases l.fraction with _ | fraction
  · exact fractionPart_iff.mpr (.inl rfl)
  · exact fractionPart_iff.mpr (.inr ⟨fraction.chars, rfl, fraction.digits⟩)

theorem numeric_mantissa : numeric.rmatch l.mantissa := by
  refine (add_rmatch_iff ..).mpr (.inr ?_)
  refine (mul_rmatch_iff ..).mpr ⟨l.whole.chars, fractionText l.fraction, rfl,
    oneOrMore_digit_iff.mpr ⟨l.whole.nonempty, l.whole.digits⟩, ?_⟩
  exact (mul_rmatch_iff ..).mpr ⟨fractionText l.fraction, [], (List.append_nil _).symm,
    l.fractionPart_fractionText, exponentPart_iff.mpr (.inl rfl)⟩

theorem fractionText_head (c : UInt8) (hc : (fractionText l.fraction).head? = some c) :
    isDigit c = false := by
  rcases hf : l.fraction with _ | fraction
  · rw [hf] at hc
    cases hc
  · rw [hf] at hc
    cases hc
    rfl

/-- What the rule takes behind the mantissa is an exponent. -/
theorem exponentPart_of_numeric {more : List UInt8} (hmore : ∀ c, more.head? = some c →
    isDigit c = false ∧ c ≠ 46) (h : numeric.rmatch (l.mantissa ++ more)) :
    exponentPart.rmatch more := by
  obtain ⟨d, ds, hd, hcons⟩ := l.mantissa_cons
  rw [hcons] at h
  obtain ⟨t, v, w, heq, ht, hv, hw⟩ := numeric_parts hd h
  have hhead : ∀ c, (v ++ w).head? = some c → isDigit c = false := by
    intro c hc
    rcases fractionPart_iff.mp hv with rfl | ⟨fs, rfl, -⟩
    · exact (exponentPart_head hw hc).1
    · cases hc
      rfl
  have hhead' : ∀ c, (fractionText l.fraction ++ more).head? = some c → isDigit c = false := by
    intro c hc
    rw [List.head?_append] at hc
    rcases hf : (fractionText l.fraction).head? with _ | c'
    · rw [hf] at hc
      exact (hmore c hc).1
    · rw [hf] at hc
      cases hc
      exact l.fractionText_head c hf
  have hsplit : l.whole.chars ++ (fractionText l.fraction ++ more) = t ++ (v ++ w) := by
    calc l.whole.chars ++ (fractionText l.fraction ++ more) = l.mantissa ++ more := by
          rw [mantissa, List.append_assoc]
      _ = t ++ (v ++ w) := by rw [hcons, ← heq]; rfl
  obtain ⟨-, htail⟩ := digits_inj l.whole.digits hhead' ht hhead hsplit
  rcases hf : l.fraction with _ | fraction
  · rw [hf] at htail
    have htail : more = v ++ w := htail
    rcases fractionPart_iff.mp hv with rfl | ⟨fs, rfl, -⟩
    · rw [htail]
      exact hw
    · exact absurd rfl (hmore 46 (congrArg List.head? htail)).2
  · rw [hf] at htail
    have htail : 46 :: (fraction.chars ++ more) = v ++ w := htail
    rcases fractionPart_iff.mp hv with rfl | ⟨fs, rfl, hfs⟩
    · exact absurd rfl (exponentPart_head hw (congrArg List.head? htail).symm).2
    · obtain ⟨-, hmw⟩ := digits_inj fraction.digits (fun c hc => (hmore c hc).1) hfs
        (fun c hc => (exponentPart_head hw hc).1) (List.cons.inj htail).2
      rw [hmw]
      exact hw

end Literal

/-! ## 3. The other rules

No other rule matches a digit at the front, except the last one, which matches any one character and
comes behind the numbers. -/

/-- No other rule matches a text that starts with a digit. -/
theorem not_rmatch_digit {d : UInt8} (hd : isDigit d = true) (x : List UInt8) :
    ∀ rule ∈ symbolRules ++ wordRules, ¬ rule.1.rmatch (d :: x) := by
  have h : ∀ d ∈ bytes "0123456789", ∀ rule ∈ symbolRules ++ wordRules,
      isVoid (rule.1.deriv d) = true := by
    decide +kernel
  intro rule hrule
  exact not_rmatch_cons (h d (mem_bytes_digits.mpr hd) rule hrule) x

/-- Except the last one, for a digit alone. -/
theorem not_rmatch_unknown {x : List UInt8} (hx : 1 < x.length) : ¬ unknownRule.1.rmatch x := by
  intro h
  obtain ⟨a, -, rfl⟩ := oneOf_rmatch_iff.mp h
  exact absurd hx (by simp)

theorem yylex_of_munch {input : List UInt8} {action : List UInt8 → Lexeme} {n : Nat} {t : Token}
    (h : munch lexerRules input = some (action, n)) (ht : action (input.take n) = .token t) :
    yylex input = .token t (input.drop n) := by
  rw [yylex]
  split
  · rename_i hnone
    rw [h] at hnone
    cases hnone
  · rename_i hsome
    rw [h] at hsome
    cases hsome
    rw [ht]

/-! ## 4. The token

The kind of the token is that of the double which `atof` makes of the text; a whole number is then
converted by `atoi` again. -/

namespace Literal

variable (l : Literal)

/-- The token for the literal without its exponent. -/
def token : Token :=
  if Binary64.isWhole l.double then .number (atoi l.mantissa) else .dnumber (.ofNat l.double)

theorem atof_mantissa : atof l.mantissa = .ofNat l.double := by
  have hhead := l.fractionText_head
  have htake : l.mantissa.takeWhile isDigit = l.whole.chars := takeWhile_digits l.whole.digits hhead
  have hdrop : l.mantissa.dropWhile isDigit = fractionText l.fraction :=
    dropWhile_digits l.whole.digits hhead
  simp only [atof, htake, hdrop, double, fractionDigits]
  rcases l.fraction with _ | fraction
  · rfl
  · have hdigits : fraction.chars.takeWhile isDigit = fraction.chars :=
      List.takeWhile_eq_self_iff.mpr fraction.digits
    simp [fractionText, hdigits]

theorem isWhole_ofNat_double : isWhole (.ofNat l.double) = Binary64.isWhole l.double := by
  have hle : l.double ≤ Binary64.infinity := Nat.min_le_left _ _
  have hlt : l.double < 2 ^ 64 := Nat.lt_of_le_of_lt hle (by decide)
  rw [isWhole, UInt64.toNat_ofNat_of_lt' hlt]

theorem numericAction_mantissa : numericAction l.mantissa = .token l.token := by
  rw [numericAction, token, atof_mantissa, isWhole_ofNat_double]
  split <;> rfl

theorem firstRule_mantissa : firstRule lexerRules l.mantissa = some numericAction := by
  obtain ⟨d, ds, hd, hcons⟩ := l.mantissa_cons
  refine firstRule_append numericAction ?_ l.numeric_mantissa
  intro rule hrule
  rw [hcons]
  exact not_rmatch_digit hd ds rule (List.mem_append_left _ hrule)

/-- **The mantissa is taken as a number** when what follows goes on neither with it nor with what
the rule takes for an exponent. -/
theorem yylex_mantissa {more : List UInt8}
    (hmore : ∀ c, more.head? = some c → isDigit c = false ∧ c ≠ 46)
    (hexponent : ∀ m, m ≠ [] → m <+: more → ¬ exponentPart.rmatch m) :
    yylex (l.mantissa ++ more) = .token l.token more := by
  obtain ⟨d, ds, hd, hcons⟩ := l.mantissa_cons
  have hmunch : munch lexerRules (l.mantissa ++ more)
      = some (numericAction, l.mantissa.length) := by
    refine munch_append (by simp [hcons]) l.firstRule_mantissa ?_
    intro m hm hinit
    refine firstRule_eq_none_iff.mpr ?_
    intro rule hrule
    have hother : rule ∈ symbolRules ++ wordRules → ¬ rule.1.rmatch (l.mantissa ++ m) := by
      intro hrule
      rw [hcons]
      exact not_rmatch_digit hd (ds ++ m) rule hrule
    rcases List.mem_append.mp hrule with hrule | hrule
    · exact hother (List.mem_append_left _ hrule)
    rcases List.mem_cons.mp hrule with rfl | hrule
    · intro h
      refine hexponent m hm hinit (l.exponentPart_of_numeric (fun c hc => hmore c ?_) h)
      obtain ⟨u, rfl⟩ := hinit
      rw [List.head?_append, hc]
      rfl
    rcases List.mem_append.mp hrule with hrule | hrule
    · exact hother (List.mem_append_right _ hrule)
    · rw [List.mem_singleton.mp hrule]
      refine not_rmatch_unknown ?_
      have hpos := List.length_pos_of_ne_nil hm
      rw [hcons, List.length_append, List.length_cons]
      omega
  have htoken := yylex_of_munch (t := l.token) hmunch (by
    rw [List.take_left]
    exact l.numericAction_mantissa)
  rwa [List.drop_left] at htoken

end Literal

/-! ## 5. What follows a mantissa

An exponent is not matched, so it stays in the text behind the token. -/

/-- Behind the mark of an exponent come no letters. -/
theorem LiteralExponent.not_exponentPart (e : LiteralExponent) {rest m : List UInt8} (hm : m ≠ [])
    (hinit : m <+: Literal.exponentText (some e) ++ rest) : ¬ exponentPart.rmatch m := by
  intro h
  rcases exponentPart_iff.mp h with rfl | ⟨mark, sign, letters, rfl, -, hsign, hne, hletters⟩
  · exact hm rfl
  obtain ⟨c, cs, rfl⟩ := List.exists_cons_of_ne_nil hne
  obtain ⟨d, ds, hdigits⟩ := List.exists_cons_of_ne_nil e.digits.nonempty
  have hd := e.digits.digits d (hdigits ▸ List.mem_cons_self)
  have hc : isDigit c = false ∧ c ≠ 43 ∧ c ≠ 45 := by
    have hall : ∀ c ∈ bytes "DIGIT", isDigit c = false ∧ c ≠ 43 ∧ c ≠ 45 := by
      decide +kernel
    exact hall c (hletters c List.mem_cons_self)
  have hcd : c ≠ d := fun heq => by rw [heq, hd] at hc; exact Bool.noConfusion hc.1
  have hd43 : d ≠ 43 := isDigit_ne hd rfl
  have hd45 : d ≠ 45 := isDigit_ne hd rfl
  obtain ⟨-, hinit⟩ := List.cons_prefix_cons.mp hinit
  rw [hdigits] at hinit
  rcases hsign with rfl | rfl | rfl
  all_goals
    rcases e.isSign with he | he | he
    all_goals
      rw [he] at hinit
      simp [List.cons_prefix_cons, hc, hcd, hd43.symm, hd45.symm] at hinit

theorem Ends.not_exponentPart {rest m : List UInt8} (hrest : Ends rest) (hm : m ≠ [])
    (hinit : m <+: rest) : ¬ exponentPart.rmatch m := by
  intro h
  rcases exponentPart_iff.mp h with rfl | ⟨mark, sign, letters, rfl, hmark, -⟩
  · exact hm rfl
  · obtain ⟨u, rfl⟩ := hinit
    obtain ⟨-, -, h101, h69⟩ := hrest mark rfl
    exact hmark.elim h101 h69

namespace Literal

variable (l : Literal) {rest : List UInt8}

/-- **The scanner stops in front of an exponent.** -/
theorem yylex_text (hrest : Ends rest) :
    yylex (l.text ++ rest) = .token l.token (exponentText l.exponent ++ rest) := by
  rw [text, List.append_assoc]
  rcases l.exponent with _ | e
  · exact l.yylex_mantissa (fun c hc => ⟨(hrest c hc).1, (hrest c hc).2.1⟩)
      fun m hm hinit => hrest.not_exponentPart hm hinit
  · refine l.yylex_mantissa ?_ fun m hm hinit => e.not_exponentPart hm hinit
    intro c hc
    have hmark : e.mark = c := Option.some.inj hc
    rw [← hmark]
    rcases e.isMark with h | h
    all_goals
      rw [h]
      decide

/-! ## 6. Kind and value

The kind and the value that the scanner gives, against what the literal says. -/

/-- Without a fraction the double is whole. -/
theorem isWhole_double (h : l.fraction = none) : Binary64.isWhole l.double = true := by
  rw [double, fractionDigits, h]
  exact Binary64.isWhole_nearest (by simp [fractionText]) (by simp [fractionText])

theorem atoi_mantissa (h : l.fraction = none) :
    (atoi l.mantissa).toInt = l.value ↔ l.value ≤ 2 ^ 31 - 1 := by
  have hmantissa : l.mantissa = l.whole.chars := by
    rw [mantissa, h]
    exact List.append_nil _
  rw [atoi, hmantissa, strtol_numeral (.plain l.whole.nonempty l.whole.digits)]
  constructor
  · intro hvalue
    have hlt := Int32.toInt_lt (.ofInt (saturated l.value []).value)
    rw [value] at hvalue ⊢
    rw [value, hvalue] at hlt
    omega
  · intro hle
    have hsaturated : (saturated l.value []).value = l.value := by
      rw [saturated, if_neg (by omega), if_neg (by omega)]
    rw [value] at hsaturated hle ⊢
    rw [hsaturated]
    exact Int32.toInt_ofInt_of_le (by omega) (by omega)

end Literal

/-- NUMBER or DNUMBER -/
def Token.IsNumeric (t : Token) : Prop := (∃ v, t = .number v) ∨ ∃ f, t = .dnumber f

/-- The grammar takes the token for the value of a DBL element. -/
def Token.IsDblValue (t : Token) : Prop :=
  ∀ key, ∃ element : ElementTree, element.tokens = [.dbl, .colon, .key key, .colon, t]

theorem Token.isDblValue_iff {t : Token} : t.IsDblValue ↔ ∃ f, t = .dnumber f := by
  constructor
  · intro h
    obtain ⟨element, helement⟩ := h ⟨[], by simp⟩
    cases element
    case dbl key decimal => exact ⟨decimal,
      (by simpa [ElementTree.tokens] using helement.symm : _ ∧ _).2⟩
    all_goals simp [ElementTree.tokens] at helement
  · rintro ⟨f, rfl⟩ key
    exact ⟨.dbl key f, rfl⟩

namespace Literal

variable (l : Literal) {rest : List UInt8}

/-- The scanner gives one numeric token for the literal, which is accepted as a DBL value when the
literal has a fraction or an exponent, and otherwise as a NUMBER only with the value of the
literal. -/
def Understood (rest : List UInt8) : Prop :=
  ∃ t, yylex (l.text ++ rest) = .token t rest ∧ t.IsNumeric ∧
    (l.fraction ≠ none ∨ l.exponent ≠ none → t.IsDblValue) ∧
    (l.fraction = none → l.exponent = none → ∀ v, t = .number v → v.toInt = l.value)

/-- **Which literals mean what they say.** Those without an exponent, with a fraction that the
nearest double keeps, or else of 32 bits.  The condition is on the literal alone; of what follows it
in the text only that it does not go on (`Ends`). -/
theorem literals_understood (hrest : Ends rest) : l.Understood rest ↔ l.exponent = none ∧
    (l.fraction ≠ none → Binary64.isWhole l.double = false) ∧
    (l.fraction = none → l.value ≤ 2 ^ 31 - 1) := by
  have hscan := l.yylex_text hrest
  constructor
  · rintro ⟨t, ht, -, hdbl, hnumber⟩
    rw [hscan, Scanned.token.injEq] at ht
    obtain ⟨rfl, hleft⟩ := ht
    have hexponent : l.exponent = none := by
      rcases he : l.exponent with _ | e
      · rfl
      · rw [he] at hleft
        have hlength := congrArg List.length hleft
        rw [List.length_append, exponentText, List.length_cons] at hlength
        omega
    refine ⟨hexponent, ?_, ?_⟩
    · intro hfraction
      obtain ⟨f, hf⟩ := Token.isDblValue_iff.mp (hdbl (.inl hfraction))
      rw [token] at hf
      split at hf
      · cases hf
      · rename_i hwhole
        exact Bool.eq_false_iff.mpr hwhole
    · intro hfraction
      refine (l.atoi_mantissa hfraction).mp (hnumber hfraction hexponent _ ?_)
      rw [token, if_pos (l.isWhole_double hfraction)]
  · rintro ⟨hexponent, hwhole, hvalue⟩
    refine ⟨l.token, ?_, ?_, ?_, ?_⟩
    · rw [hscan, hexponent]
      rfl
    · unfold token
      split
      · exact .inl ⟨_, rfl⟩
      · exact .inr ⟨_, rfl⟩
    · rintro (hfraction | hsome)
      · rw [Token.isDblValue_iff, token, hwhole hfraction]
        exact ⟨_, rfl⟩
      · exact absurd hexponent hsome
    · intro hfraction _ v hv
      rw [token, if_pos (l.isWhole_double hfraction), Token.number.injEq] at hv
      rw [← hv]
      exact (l.atoi_mantissa hfraction).mpr (hvalue hfraction)

end Literal

/-- `2.5` in front of a bracket. -/
theorem literals_understood_half :
    Literal.Understood ⟨⟨[50], by decide, List.forall_mem_singleton.mpr rfl⟩,
      some ⟨[53], by decide, List.forall_mem_singleton.mpr rfl⟩, none⟩ [41] :=
  (Literal.literals_understood _ (by intro c hc; cases hc; decide)).mpr
    ⟨rfl, fun _ => by decide +kernel, fun h => nomatch h⟩

/-- `1e5` is not one token. -/
theorem exponent_split :
    ¬ ∀ (l : Literal) (rest : List UInt8), Ends rest → l.Understood rest := by
  intro h
  have hends : Ends [41] := by
    intro c hc
    cases hc
    decide
  let l : Literal := ⟨⟨[49], by decide, List.forall_mem_singleton.mpr rfl⟩, none,
    some ⟨101, .inl rfl, [], .inl rfl, ⟨[53], by decide, List.forall_mem_singleton.mpr rfl⟩⟩⟩
  obtain ⟨t, ht, -⟩ := h l [41] hends
  rw [l.yylex_text hends] at ht
  exact absurd (Scanned.token.inj ht).2 (by decide)

end Zgdb
