/-
# Queries as text

A query is written token by token, with white space between them or none, and whatever behind it
(`QueryText`).  A token may stand directly in front of the next one unless the scanner would go on:
`/` in front of `/`, `<`, `>` and `!` in front of `=`, a number in front of a digit, a point or an
`e`.  The scanner then gives the tokens that were written (`scan_queryText`), so that a text is the
text of one query at most (`queryText_read`), and what the parser builds from it is that query.
-/
import Zgdb.Grammar
import Zgdb.Literals
import Zgdb.Parsing

namespace Zgdb

open Zgdb.Lib RegularExpression

/-! ## 1. The text of a token

A token is written by a word, a string in quotes, a key in quotes or a literal.  Which characters
must not follow it depends on the rules that would match more. -/

/-- The text of a token that has no value. -/
def Token.word : Token → List UInt8
  | add => bytes "ADD"
  | delete => bytes "DELETE"
  | update => bytes "UPDATE"
  | find => bytes "FIND"
  | join => bytes "JOIN"
  | parent => bytes "PARENT"
  | int => bytes "INT"
  | dbl => bytes "DBL"
  | str => bytes "STR"
  | bool => bytes "BOOL"
  | absolute => bytes "/"
  | relative => bytes "//"
  | lbrac => bytes "["
  | rbrac => bytes "]"
  | lrobrac => bytes "("
  | rrobrac => bytes ")"
  | comma => bytes ","
  | colon => bytes ":"
  | on => bytes "ON"
  | «end» => bytes ";"
  | eq => bytes "="
  | notEq => bytes "!="
  | ls => bytes "<"
  | gr => bytes ">"
  | grEq => bytes ">="
  | lsEq => bytes "<="
  | cont => bytes "contains"
  | andSym => bytes "&"
  | orSym => bytes "|"
  | notSym => bytes "!"
  | dnumber _ | number _ | string _ | key _ => []

/-- The tokens without a value. -/
def wordTokens : List Token :=
  [.add, .delete, .update, .find, .join, .parent, .int, .dbl, .str, .bool, .absolute, .relative,
    .lbrac, .rbrac, .lrobrac, .rrobrac, .comma, .colon, .on, .end, .eq, .notEq, .ls, .gr, .grEq,
    .lsEq, .cont, .andSym, .orSym, .notSym]

/-- A text of a token; a number is written in digits, with a fraction or none. -/
inductive TextOf : Token → List UInt8 → Prop
  | word {t : Token} (h : t ∈ wordTokens) : TextOf t t.word
  | literal (l : Literal) : TextOf l.token l.mantissa
  | string {quoted : CString} (h : 34 ∉ quoted.chars) : TextOf (.string quoted) (stringText quoted)
  | key {quoted : CString} (h : 34 ∉ quoted.chars) : TextOf (.key quoted) (keyText quoted)

/-- The bytes that the scanner would take with the token. -/
def Token.goesOn : Token → List UInt8
  | absolute => bytes "/"
  | ls | gr | notSym => bytes "="
  | dnumber _ | number _ => bytes "0123456789.eE"
  | _ => []

/-- White space. -/
def blanks : List UInt8 := bytes " \t\r\n"

/-- A text of the tokens, with whatever behind it.  White space may stand in front of each token.
What follows a token must not go on with it, as the scanner takes the longest match: a number is not
followed by a digit. -/
inductive QueryText : List Token → List UInt8 → Prop
  | nil (rest : List UInt8) : QueryText [] rest
  | cons {t : Token} {ts : List Token} {space x rest : List UInt8}
      (hspace : ∀ c ∈ space, c ∈ blanks)
      (hx : TextOf t x) (hnext : ∀ c ∈ rest.head?, c ∉ t.goesOn) (hrest : QueryText ts rest) :
      QueryText (t :: ts) (space ++ (x ++ rest))

/-- The next `n` tokens, with the input that is left; the parser asks for one after the other. -/
def scan : Nat → List UInt8 → Option (List Token × List UInt8)
  | 0, input => some ([], input)
  | n + 1, input =>
    match yylex input with
    | .token t rest => (scan n rest).map fun (ts, rest) => (t :: ts, rest)
    | _ => none

/-! ## 2. Words

The rules of the words are known, so it is decided by computation which of them matches first; what
is proved in general is that a longer match needs one of the characters that must not follow. -/

/-- The rules but the last one. -/
def knownRules : List LexerRule := symbolRules ++ (numeric, numericAction) :: wordRules

theorem lexerRules_eq : lexerRules = knownRules ++ [unknownRule] := by
  simp [lexerRules, knownRules]

/-- The first rule that matches the word of a token returns the token. -/
theorem firstRule_word {t : Token} (ht : t ∈ wordTokens) :
    ∃ action, firstRule lexerRules t.word = some action ∧ action t.word = .token t := by
  have h : ∀ t ∈ wordTokens,
      (firstRule lexerRules t.word).map (fun action => action t.word) = some (.token t) := by
    decide +kernel
  simpa using Option.map_eq_some_iff.mp (h t ht)

/-- No rule goes on from the word of a token with a byte that may follow it. -/
theorem firsts_word {t : Token} (ht : t ∈ wordTokens) :
    ∀ rule ∈ knownRules, firsts (derivs rule.1 t.word) ⊆ t.goesOn := by
  have h : ∀ t ∈ wordTokens, ∀ rule ∈ knownRules,
      (firsts (derivs rule.1 t.word)).all (fun c => c ∈ t.goesOn) = true := by
    decide +kernel
  intro rule hrule c hc
  exact of_decide_eq_true (List.all_eq_true.mp (h t ht rule hrule) c hc)

/-- The last rule takes one byte. -/
theorem firstRule_longer {x more : List UInt8} (hx : x ≠ []) (hmore : more ≠ [])
    (h : ∀ rule ∈ knownRules, ¬ rule.1.rmatch (x ++ more)) :
    firstRule lexerRules (x ++ more) = none := by
  refine firstRule_eq_none_iff.mpr ?_
  intro rule hrule
  rw [lexerRules_eq] at hrule
  rcases List.mem_append.mp hrule with hrule | hrule
  · exact h rule hrule
  · rw [List.mem_singleton.mp hrule]
    refine not_rmatch_unknown ?_
    have hpos := List.length_pos_of_ne_nil hx
    have hpos' := List.length_pos_of_ne_nil hmore
    rw [List.length_append]
    omega

/-- **A text is taken** when a rule matches it and no rule matches more. -/
theorem yylex_append {x rest : List UInt8} {action : List UInt8 → Lexeme} {t : Token} (hx : x ≠ [])
    (hfirst : firstRule lexerRules x = some action) (ht : action x = .token t)
    (hlonger : ∀ more, more ≠ [] → more <+: rest → firstRule lexerRules (x ++ more) = none) :
    yylex (x ++ rest) = .token t rest := by
  have hmunch := munch_append hx hfirst hlonger
  have htoken := yylex_of_munch (t := t) hmunch (by rwa [List.take_left])
  rwa [List.drop_left] at htoken

theorem yylex_word {t : Token} (ht : t ∈ wordTokens) {rest : List UInt8}
    (hnext : ∀ c ∈ rest.head?, c ∉ t.goesOn) : yylex (t.word ++ rest) = .token t rest := by
  have hne : ∀ t ∈ wordTokens, t.word ≠ [] := by decide +kernel
  obtain ⟨action, hfirst, haction⟩ := firstRule_word ht
  refine yylex_append (hne t ht) hfirst haction ?_
  intro more hmore hinit
  refine firstRule_longer (hne t ht) hmore ?_
  intro rule hrule
  obtain ⟨c, cs, rfl⟩ := List.exists_cons_of_ne_nil hmore
  obtain ⟨u, rfl⟩ := hinit
  exact not_rmatch_append (fun hc => hnext c rfl (firsts_word ht rule hrule hc)) cs

/-! ## 3. Strings, keys and white space

A string ends at the first quote behind its beginning, as no rule matches over it. -/

/-- The rules for strings and keys. -/
def quotedRule (mark : List UInt8) : RegularExpression UInt8 :=
  word mark * ((noneOf (bytes "\"")).star * word (bytes "\""))

theorem star_noneOf_rmatch_iff {s x : List UInt8} : (noneOf s).star.rmatch x ↔ ∀ c ∈ x, c ∉ s := by
  have hmem : ∀ c, c ∈ ((List.range 256).map UInt8.ofNat).filter (· ∉ s) ↔ c ∉ s := by
    intro c
    rw [List.mem_filter, decide_eq_true_eq, and_iff_right_iff_imp]
    intro _
    exact List.mem_map.mpr ⟨c.toNat, List.mem_range.mpr c.toNat_lt, UInt8.ofNat_toNat⟩
  rw [noneOf, star_oneOf_rmatch_iff]
  simp only [hmem]

theorem quotedRule_iff {mark x : List UInt8} :
    (quotedRule mark).rmatch x ↔ ∃ q, 34 ∉ q ∧ x = mark ++ (q ++ [34]) := by
  have hquote : bytes "\"" = [34] := rfl
  rw [quotedRule, hquote]
  simp only [mul_rmatch_iff, word_rmatch_iff, star_noneOf_rmatch_iff, List.mem_singleton]
  constructor
  · rintro ⟨_, _, rfl, rfl, q, _, rfl, hq, rfl⟩
    exact ⟨q, fun h => hq 34 h rfl, rfl⟩
  · rintro ⟨q, hq, rfl⟩
    refine ⟨mark, q ++ [34], rfl, rfl, q, [34], rfl, ?_, rfl⟩
    rintro c hc rfl
    exact hq hc

/-- A quoted text ends at its second quote. -/
theorem quotedRule_longer {mark q more : List UInt8} (hmore : more ≠ []) :
    ¬ (quotedRule mark).rmatch (mark ++ (q ++ [34]) ++ more) := by
  intro h
  obtain ⟨q', hq', heq⟩ := quotedRule_iff.mp h
  rw [List.append_assoc] at heq
  have htail := congrArg List.dropLast (List.append_cancel_left heq)
  rw [List.dropLast_concat, List.append_assoc, List.dropLast_append_of_ne_nil (by simp)] at htail
  refine hq' ?_
  rw [← htail, List.singleton_append, List.dropLast_cons_of_ne_nil hmore]
  exact List.mem_append_right _ List.mem_cons_self

/-- **A quoted text is taken** by its rule, since no other rule matches what begins with its mark.
-/
theorem yylex_quoted {a : UInt8} {mark q rest : List UInt8} (before after : List LexerRule)
    {action : List UInt8 → Lexeme} {t : Token}
    (hrules : knownRules = before ++ (quotedRule (a :: mark), action) :: after)
    (hvoid : ∀ rule ∈ before ++ after, isVoid (rule.1.deriv a) = true) (hq : 34 ∉ q)
    (ht : action (a :: mark ++ (q ++ [34])) = .token t) :
    yylex (a :: mark ++ (q ++ [34]) ++ rest) = .token t rest := by
  have hne : a :: mark ++ (q ++ [34]) ≠ [] := List.cons_ne_nil _ _
  have hother : ∀ rule ∈ before ++ after, ∀ x, ¬ rule.1.rmatch (a :: mark ++ (q ++ [34]) ++ x) := by
    intro rule hrule x
    exact not_rmatch_cons (hvoid rule hrule) _
  refine yylex_append hne ?_ ht ?_
  · rw [lexerRules_eq, hrules, List.append_assoc, List.cons_append]
    refine firstRule_append action ?_ (quotedRule_iff.mpr ⟨q, hq, rfl⟩)
    intro rule hrule
    have h := hother rule (List.mem_append_left _ hrule) []
    rwa [List.append_nil] at h
  · intro more hmore _
    refine firstRule_longer hne hmore ?_
    intro rule hrule
    rw [hrules] at hrule
    rcases List.mem_append.mp hrule with hrule | hrule
    · exact hother rule (List.mem_append_left _ hrule) more
    rcases List.mem_cons.mp hrule with rfl | hrule
    · exact quotedRule_longer hmore
    · exact hother rule (List.mem_append_right _ hrule) more

/-- A text without NUL is copied as a whole. -/
theorem strdup_eq {x : List UInt8} (h : 0 ∉ x) : strdup x = x := by
  refine List.takeWhile_eq_self_iff.mpr ?_
  intro c hc
  simpa using fun h0 : c = 0 => h (h0 ▸ hc)

theorem yylex_string {quoted : CString} (h : 34 ∉ quoted.chars) (rest : List UInt8) :
    yylex (stringText quoted ++ rest) = .token (.string quoted) rest := by
  have hdup : strdup (stringText quoted) = stringText quoted := by
    refine strdup_eq ?_
    simpa [stringText] using quoted.noNul
  have hclean : cleanString (strdup (stringText quoted)) = quoted.chars := by
    rw [hdup, cleanString_stringText]
  refine yylex_quoted (symbolRules ++ (numeric, numericAction) :: wordRules.take 6)
    (wordRules.drop 7) rfl (by decide +kernel) h ?_
  show Lexeme.token (.string ⟨cleanString (strdup (stringText quoted)), _⟩) = _
  simp only [hclean]

theorem yylex_key {quoted : CString} (h : 34 ∉ quoted.chars) (rest : List UInt8) :
    yylex (keyText quoted ++ rest) = .token (.key quoted) rest := by
  have hdup : strdup (keyText quoted) = keyText quoted := by
    refine strdup_eq ?_
    simpa [keyText] using quoted.noNul
  have hclean : cleanKey (strdup (keyText quoted)) = quoted.chars := by
    rw [hdup, cleanKey_keyText]
  refine yylex_quoted (symbolRules ++ (numeric, numericAction) :: wordRules.take 7)
    (wordRules.drop 8) rfl (by decide +kernel) h ?_
  show Lexeme.token (.key ⟨cleanKey (strdup (keyText quoted)), _⟩) = _
  simp only [hclean]

/-- The rules in front of the one for white space do not match it, nor does any go on behind it. -/
theorem isVoid_blank : ∀ c ∈ blanks, ∀ rule ∈ symbolRules ++ (numeric, numericAction) ::
    wordRules.take 8, isVoid (rule.1.deriv c) = true := by
  decide +kernel

/-- **White space is skipped**, as much as there is. -/
theorem yylex_blanks {space rest : List UInt8} (hspace : ∀ c ∈ space, c ∈ blanks)
    (hrest : ∀ c ∈ rest.head?, c ∉ blanks) : yylex (space ++ rest) = yylex rest := by
  cases space with
  | nil => rfl
  | cons a space =>
    have hne : a :: space ≠ [] := List.cons_ne_nil _ _
    have hother : ∀ rule ∈ symbolRules ++ (numeric, numericAction) :: wordRules.take 8, ∀ x,
        ¬ rule.1.rmatch (a :: space ++ x) := by
      intro rule hrule x
      exact not_rmatch_cons (isVoid_blank a (hspace a List.mem_cons_self) rule hrule) _
    have hmunch : munch lexerRules (a :: space ++ rest)
        = some (fun _ => .ignored, (a :: space).length) := by
      refine munch_append hne ?_ ?_
      · show firstRule ((symbolRules ++ (numeric, numericAction) :: wordRules.take 8) ++
          (_, fun _ => Lexeme.ignored) :: [unknownRule]) (a :: space) = _
        refine firstRule_append _ ?_ (oneOrMore_oneOf_rmatch_iff.mpr ⟨hne, hspace⟩)
        intro rule hrule
        have h := hother rule hrule []
        rwa [List.append_nil] at h
      · intro more hmore hinit
        refine firstRule_longer hne hmore ?_
        intro rule hrule
        rcases List.mem_append.mp (show rule ∈ (symbolRules ++ (numeric, numericAction) ::
          wordRules.take 8) ++ wordRules.drop 8 from hrule) with hrule | hrule
        · exact hother rule hrule more
        · obtain rfl := List.mem_singleton.mp hrule
          intro h
          obtain ⟨c, cs, rfl⟩ := List.exists_cons_of_ne_nil hmore
          obtain ⟨u, rfl⟩ := hinit
          refine hrest c rfl ((oneOrMore_oneOf_rmatch_iff.mp h).2 c ?_)
          exact List.mem_append_right _ List.mem_cons_self
    rw [yylex]
    split
    · rename_i hnone
      rw [hmunch] at hnone
      cases hnone
    · rename_i hsome
      rw [hmunch] at hsome
      cases hsome
      rw [List.drop_left]

/-! ## 4. Queries

The scanner takes the first token off a text and the rest is a text again, so the tokens come one by
one. -/

/-- The token of a literal. -/
theorem Literal.token_goesOn (l : Literal) : l.token.goesOn = bytes "0123456789.eE" := by
  unfold Literal.token
  split <;> rfl

theorem ends_of_goesOn {rest : List UInt8} (h : ∀ c ∈ rest.head?, c ∉ bytes "0123456789.eE") :
    Ends rest := by
  have hbytes : ∀ n < 256, UInt8.ofNat n ∉ bytes "0123456789.eE" →
      isDigit (.ofNat n) = false ∧ UInt8.ofNat n ≠ 46 ∧ UInt8.ofNat n ≠ 101
        ∧ UInt8.ofNat n ≠ 69 := by
    decide +kernel
  intro c hc
  have hc' := hbytes c.toNat c.toNat_lt
  rw [UInt8.ofNat_toNat] at hc'
  exact hc' (h c hc)

/-- **A token is read from its text.** -/
theorem yylex_textOf {t : Token} {x rest : List UInt8} (h : TextOf t x)
    (hnext : ∀ c ∈ rest.head?, c ∉ t.goesOn) : yylex (x ++ rest) = .token t rest := by
  cases h with
  | word ht => exact yylex_word ht hnext
  | literal l =>
    rw [l.token_goesOn] at hnext
    have hends := ends_of_goesOn hnext
    exact l.yylex_mantissa (fun c hc => ⟨(hends c hc).1, (hends c hc).2.1⟩)
      fun m hm hinit => hends.not_exponentPart hm hinit
  | string h => exact yylex_string h rest
  | key h => exact yylex_key h rest

/-- No text begins with white space. -/
theorem TextOf.not_blank {t : Token} {x : List UInt8} (h : TextOf t x) (rest : List UInt8) :
    ∀ c ∈ (x ++ rest).head?, c ∉ blanks := by
  have hhead : ∃ c, x.head? = some c ∧ c ∉ blanks := by
    cases h with
    | word ht =>
      have hwords : ∀ t ∈ wordTokens, ∀ c ∈ blanks, t.word.head? ≠ some c ∧ t.word ≠ [] := by
        decide +kernel
      cases hword : t.word with
      | nil => exact absurd hword (hwords t ht 32 (by decide)).2
      | cons c x =>
        refine ⟨c, rfl, ?_⟩
        intro hc
        exact (hwords t ht c hc).1 (by rw [hword, List.head?_cons])
    | literal l =>
      obtain ⟨d, ds, hd, hcons⟩ := l.mantissa_cons
      have hblank : ∀ c ∈ blanks, isDigit c = false := by decide +kernel
      refine ⟨d, by rw [hcons, List.head?_cons], ?_⟩
      intro hmem
      rw [hblank d hmem] at hd
      cases hd
    | string h => exact ⟨34, rfl, by decide⟩
    | key h => exact ⟨64, rfl, by decide⟩
  obtain ⟨c, hx, hc⟩ := hhead
  intro c' hc'
  rw [List.head?_append, hx] at hc'
  obtain rfl := Option.some.inj hc'
  exact hc

theorem scan_token {input rest : List UInt8} {t : Token}
    (h : yylex input = .token t rest) (n : Nat) :
    scan (n + 1) input = (scan n rest).map fun (ts, rest) => (t :: ts, rest) := by
  rw [scan, h]

/-- **The scanner gives the tokens that were written.** -/
theorem scan_queryText {ts : List Token} {text : List UInt8} (h : QueryText ts text) :
    ∃ rest, scan ts.length text = some (ts, rest) := by
  induction h with
  | nil rest => exact ⟨rest, rfl⟩
  | cons hspace hx hnext _ ih =>
    obtain ⟨rest, hscan⟩ := ih
    have hlex := yylex_textOf hx hnext
    rw [← yylex_blanks hspace (hx.not_blank _)] at hlex
    refine ⟨rest, ?_⟩
    rw [List.length_cons, scan_token hlex, hscan]
    rfl

/-- More tokens are the same ones and others behind them. -/
theorem scan_add {m n : Nat} {input rest : List UInt8} {ts : List Token}
    (h : scan (m + n) input = some (ts, rest)) :
    ∃ ts1 rest1 ts2, scan m input = some (ts1, rest1) ∧ ts = ts1 ++ ts2 := by
  induction m generalizing input ts with
  | zero => exact ⟨[], input, ts, rfl, rfl⟩
  | succ m ih =>
    rw [Nat.add_right_comm] at h
    cases hlex : yylex input with
    | token t rest' =>
      rw [scan_token hlex] at h
      obtain ⟨⟨ts', rest''⟩, hscan, heq⟩ := Option.map_eq_some_iff.mp h
      obtain ⟨rfl, rfl⟩ := Prod.mk.inj heq
      obtain ⟨ts1, rest1, ts2, hscan1, rfl⟩ := ih hscan
      refine ⟨t :: ts1, rest1, ts2, ?_, rfl⟩
      rw [scan_token hlex, hscan1]
      rfl
    | eof =>
      rw [scan, hlex] at h
      cases h
    | unknown yytext =>
      rw [scan, hlex] at h
      cases h

/-- **What is scanned is one query** at most. -/
theorem scan_unique {z z' : ZpathTree} {input rest rest' : List UInt8}
    (h : scan z.tokens.length input = some (z.tokens, rest))
    (h' : scan z'.tokens.length input = some (z'.tokens, rest')) : z = z' := by
  have hshort : ∀ {z z' : ZpathTree} {rest rest' : List UInt8},
      scan z.tokens.length input = some (z.tokens, rest) →
      scan z'.tokens.length input = some (z'.tokens, rest') →
      z.tokens.length ≤ z'.tokens.length → z = z' := by
    intro z z' rest rest' h h' hle
    obtain ⟨n, hn⟩ := Nat.exists_eq_add_of_le hle
    rw [hn] at h'
    obtain ⟨ts, rest1, more, hscan, heq⟩ := scan_add h'
    obtain ⟨rfl, rfl⟩ := Prod.mk.inj (Option.some.inj (h.symm.trans hscan))
    have hmore : z.tokens ++ more = z'.tokens ++ [] := by rw [heq, List.append_nil]
    exact (ZpathTree.tokens_append hmore).1
  rcases Nat.le_total z.tokens.length z'.tokens.length with hle | hle
  · exact hshort h h' hle
  · exact (hshort h' h hle).symm

/-- **A query is read back from its text**: the scanner gives its tokens, and they are the tokens of
no other query. -/
theorem queryText_read {z : ZpathTree} {text : List UInt8} (h : QueryText z.tokens text) :
    (∃ rest, scan z.tokens.length text = some (z.tokens, rest)) ∧
      ∀ z' : ZpathTree, ∀ rest, scan z'.tokens.length text = some (z'.tokens, rest) → z' = z := by
  obtain ⟨rest, hscan⟩ := scan_queryText h
  exact ⟨⟨rest, hscan⟩, fun z' rest' hscan' => scan_unique hscan' hscan⟩

/-! ## 5. A sample -/

/-- A query for everything that is called `x`. -/
def findAllTree : ZpathTree := .find (.last (.relativeBase (.plain ⟨[120], by decide⟩)))

theorem queryText_findAllTree : QueryText findAllTree.tokens (bytes "FIND //\"x\" ;") := by
  have h : QueryText findAllTree.tokens ([] ++ (Token.find.word ++ ([32] ++ (Token.relative.word
      ++ ([] ++ (stringText ⟨[120], by decide⟩ ++ ([32] ++ (Token.end.word ++ [])))))))) := by
    refine .cons (by decide +kernel) (.word (by decide)) (by decide +kernel) ?_
    refine .cons (by decide +kernel) (.word (by decide)) (by decide +kernel) ?_
    refine .cons (by decide +kernel) (.string (by decide)) (by decide +kernel) ?_
    exact .cons (by decide +kernel) (.word (by decide)) (by decide +kernel) (.nil [])
  exact h

theorem queryText_read_findAllTree :
    (∃ rest, scan findAllTree.tokens.length (bytes "FIND //\"x\" ;")
      = some (findAllTree.tokens, rest)) ∧
    ∀ z' : ZpathTree, ∀ rest, scan z'.tokens.length (bytes "FIND //\"x\" ;")
      = some (z'.tokens, rest) → z' = findAllTree :=
  queryText_read queryText_findAllTree

end Zgdb
