/-
# The scanner of the client

`lexer.l`: the rules in their order, a regular expression and an action each.  `yylex` takes the
longest match, the first rule on a tie, as flex does.
-/
import Zgdb.Lib.Binary64
import Zgdb.Lib.Munch
import Zgdb.Convert
import Zgdb.Parser

namespace Zgdb

open Zgdb.Lib RegularExpression

/-! ## 1. The conversions of numbers

The functions of the C library that the action of a number calls, as far as digits need them. -/

/-- `atof` on a decimal number without sign and exponent, whatever follows it: the nearest double.
No text of the scanner has a digit behind an `e`. -/
def atof (s : List UInt8) : UInt64 :=
  let whole := s.takeWhile isDigit
  let rest := s.dropWhile isDigit
  let fraction := if rest.head? = some 46 then rest.tail.takeWhile isDigit else []
  .ofNat (Binary64.nearest (digitsValue 0 (whole ++ fraction)) (10 ^ fraction.length))

/-- `atoi`, which is `strtol` cut to an `int`. -/
def atoi (s : List UInt8) : Int32 := .ofInt (strtol s).value

/-- `ceil(f) == f` -/
def isWhole (f : UInt64) : Bool := Binary64.isWhole f.toNat

/-! ## 2. The rules

In the order of the file, since the first of two equally long matches counts. -/

/-- The bytes of a text in ASCII. -/
def bytes (s : String) : List UInt8 := s.toList.map Char.toUInt8

/-- The bytes but those of `s`, as `[^...]`. -/
def noneOf (s : List UInt8) : RegularExpression UInt8 :=
  oneOf (((List.range 256).map UInt8.ofNat).filter (· ∉ s))

/-- `{DIGIT}` -/
def digit : RegularExpression UInt8 := oneOf (bytes "0123456789")

/-- `(\.{DIGIT}*)?` -/
def fractionPart : RegularExpression UInt8 := optional (word (bytes ".") * digit.star)

/-- `([eE][+-]?[DIGIT]+)?`, where `[DIGIT]` is one of these letters. -/
def exponentPart : RegularExpression UInt8 :=
  optional (oneOf (bytes "eE") * (optional (oneOf (bytes "+-")) * oneOrMore
    (oneOf (bytes "DIGIT"))))

/-- `(\.{DIGIT}+)|({DIGIT}+(\.{DIGIT}*)?([eE][+-]?[DIGIT]+)?)` -/
def numeric : RegularExpression UInt8 :=
  word (bytes ".") * oneOrMore digit + oneOrMore digit * (fractionPart * exponentPart)

/-- `strdup(yytext)`: a string ends at its first NUL. -/
def strdup (yytext : List UInt8) : List UInt8 := yytext.takeWhile (· ≠ 0)

theorem zero_notMem_strdup (yytext : List UInt8) : 0 ∉ strdup yytext := by
  intro h
  have hne := List.mem_takeWhile_imp h
  simp at hne

theorem zero_notMem_cleanString (yytext : List UInt8) : 0 ∉ cleanString (strdup yytext) := fun h =>
  zero_notMem_strdup yytext (List.mem_of_mem_tail (List.mem_of_mem_dropLast h))

theorem zero_notMem_cleanKey (yytext : List UInt8) : 0 ∉ cleanKey (strdup yytext) := fun h =>
  zero_notMem_strdup yytext
    (List.mem_of_mem_tail (List.mem_of_mem_tail (List.mem_of_mem_dropLast h)))

/-- What an action does: return a token, go on, or end the input with a message. -/
inductive Lexeme where
  | token (t : Token)
  | ignored
  | unknown
deriving DecidableEq

abbrev LexerRule := RegularExpression UInt8 × (List UInt8 → Lexeme)

/-- A rule for one text, which returns one token. -/
def keyword (s : String) (t : Token) : LexerRule := (word (bytes s), fun _ => .token t)

/-- The action for numbers. -/
def numericAction (yytext : List UInt8) : Lexeme :=
  let f := atof yytext
  if isWhole f then .token (.number (atoi yytext)) else .token (.dnumber f)

/-- The rules in front of the numbers. -/
def symbolRules : List LexerRule :=
  [keyword "/" .absolute, keyword "//" .relative, keyword "[" .lbrac, keyword "]" .rbrac,
    keyword "(" .lrobrac, keyword ")" .rrobrac, keyword "," .comma, keyword ":" .colon,
    keyword "=" .eq, keyword "!=" .notEq, keyword "<" .ls, keyword ">" .gr, keyword ">=" .grEq,
    keyword "<=" .lsEq, keyword "contains" .cont, keyword "ON" .on,
    keyword "INT" .int, keyword "DBL" .dbl, keyword "STR" .str, keyword "BOOL" .bool,
    keyword "&" .andSym, keyword "|" .orSym, keyword "!" .notSym,
    keyword ";" .end]

/-- The rules behind the numbers but the last one. -/
def wordRules : List LexerRule :=
  [keyword "ADD" .add, keyword "DELETE" .delete, keyword "UPDATE" .update, keyword "FIND" .find,
    keyword "JOIN" .join, keyword "PARENT" .parent,
    (word (bytes "\"") * ((noneOf (bytes "\"")).star * word (bytes "\"")), fun yytext =>
      .token (.string ⟨cleanString (strdup yytext), zero_notMem_cleanString yytext⟩)),
    (word (bytes "@\"") * ((noneOf (bytes "\"")).star * word (bytes "\"")), fun yytext =>
      .token (.key ⟨cleanKey (strdup yytext), zero_notMem_cleanKey yytext⟩)),
    (oneOrMore (oneOf (bytes " \t\r\n")), fun _ => .ignored)]

/-- `.` -/
def unknownRule : LexerRule := (noneOf (bytes "\n"), fun _ => .unknown)

def lexerRules : List LexerRule :=
  symbolRules ++ (numeric, numericAction) :: (wordRules ++ [unknownRule])

/-! ## 3. The scanner

One call of `yylex`: white space is passed over, and the next token is returned with what is left of
the text. -/

/-- What `yylex` returns, with the input that is left.  `eof` is the 0 at the end of the input; a
character that no rule takes ends the program with a message. -/
inductive Scanned where
  | token (t : Token) (rest : List UInt8)
  | eof
  | unknown (yytext : List UInt8)
deriving DecidableEq

def yylex (input : List UInt8) : Scanned :=
  match _ : munch lexerRules input with
  | none => .eof
  | some (action, n) =>
    match action (input.take n) with
    | .token t => .token t (input.drop n)
    | .ignored => yylex (input.drop n)
    | .unknown => .unknown (input.take n)
termination_by input.length
decreasing_by
  have hbounds := munchUpTo_bounds ‹munchUpTo _ _ _ = _›
  rw [List.length_drop]
  omega

end Zgdb
