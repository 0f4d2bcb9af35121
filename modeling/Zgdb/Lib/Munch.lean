/-
# Longest match

A scanner has a list of rules, a regular expression and an action each.  It takes the longest
beginning of the input that some rule matches, and of the rules that match it the first one.

* `munch_append`: the text in front is taken when a rule matches it and none matches more;
* `not_rmatch_cons`: the words of an expression do not start with a letter whose derivative is
  void, which is decided by looking at the expression;
* `not_rmatch_append`: the same behind a text that was read already.
-/
import Mathlib.Computability.RegularExpressions

namespace Zgdb.Lib

open RegularExpression

variable {α β : Type} [DecidableEq α]

/-! ## 1. Expressions

The expressions of scanner rules in the regular expressions of Mathlib, with what they match written
out. -/

/-- One of the letters. -/
def oneOf : List α → RegularExpression α
  | [] => 0
  | a :: as => char a + oneOf as

/-- The word itself. -/
def word : List α → RegularExpression α
  | [] => 1
  | a :: as => char a * word as

/-- At least one time. -/
def oneOrMore (P : RegularExpression α) : RegularExpression α := P * P.star

/-- At most one time. -/
def optional (P : RegularExpression α) : RegularExpression α := 1 + P

theorem oneOf_rmatch_iff {as x : List α} : (oneOf as).rmatch x ↔ ∃ a ∈ as, x = [a] := by
  induction as with
  | nil => simp [oneOf]
  | cons a as ih => rw [oneOf, add_rmatch_iff, char_rmatch_iff, ih, List.exists_mem_cons_iff]

theorem word_rmatch_iff {as x : List α} : (word as).rmatch x ↔ x = as := by
  induction as generalizing x with
  | nil => exact one_rmatch_iff x
  | cons a as ih =>
    rw [word, mul_rmatch_iff]
    simp only [char_rmatch_iff, ih]
    constructor
    · rintro ⟨t, u, rfl, rfl, rfl⟩
      rfl
    · rintro rfl
      exact ⟨[a], as, rfl, rfl, rfl⟩

theorem optional_rmatch_iff {P : RegularExpression α} {x : List α} :
    (optional P).rmatch x ↔ x = [] ∨ P.rmatch x := by
  rw [optional, add_rmatch_iff, one_rmatch_iff]

theorem star_oneOf_rmatch_iff {as x : List α} : (oneOf as).star.rmatch x ↔ ∀ c ∈ x, c ∈ as := by
  rw [star_rmatch_iff]
  constructor
  · rintro ⟨S, rfl, h⟩ c hc
    obtain ⟨t, ht, hct⟩ := List.mem_flatten.mp hc
    obtain ⟨a, ha, rfl⟩ := oneOf_rmatch_iff.mp (h t ht).2
    rw [List.mem_singleton.mp hct]
    exact ha
  · intro h
    refine ⟨x.map fun c => [c], ?_, ?_⟩
    · rw [← List.flatMap_def, List.flatMap_singleton']
    · intro t ht
      obtain ⟨c, hc, rfl⟩ := List.mem_map.mp ht
      exact ⟨by simp, oneOf_rmatch_iff.mpr ⟨c, h c hc, rfl⟩⟩

theorem oneOrMore_oneOf_rmatch_iff {as x : List α} :
    (oneOrMore (oneOf as)).rmatch x ↔ x ≠ [] ∧ ∀ c ∈ x, c ∈ as := by
  rw [oneOrMore, mul_rmatch_iff]
  constructor
  · rintro ⟨t, u, rfl, ht, hu⟩
    obtain ⟨a, ha, rfl⟩ := oneOf_rmatch_iff.mp ht
    refine ⟨by simp, ?_⟩
    rintro c (_ | ⟨_, hc⟩)
    · exact ha
    · exact star_oneOf_rmatch_iff.mp hu c hc
  · rintro ⟨hne, h⟩
    obtain ⟨a, as', rfl⟩ := List.exists_cons_of_ne_nil hne
    refine ⟨[a], as', rfl, oneOf_rmatch_iff.mpr ⟨a, h a List.mem_cons_self, rfl⟩, ?_⟩
    exact star_oneOf_rmatch_iff.mpr fun c hc => h c (List.mem_cons_of_mem a hc)

/-! ## 2. How a word starts

Matching is by derivatives: what may follow a text is the derivative of the expression by that text.
A derivative that is void matches nothing, so a letter that leads to one cannot stand there. -/

/-- The expression visibly matches nothing. -/
def isVoid : RegularExpression α → Bool
  | .zero => true
  | .epsilon => false
  | .char _ => false
  | .plus P Q => isVoid P && isVoid Q
  | .comp P Q => isVoid P || isVoid Q
  | .star _ => false

theorem not_rmatch_of_isVoid {P : RegularExpression α} (h : isVoid P = true) (x : List α) :
    ¬ P.rmatch x := by
  induction P generalizing x with
  | zero => simp
  | epsilon => cases h
  | char => cases h
  | plus P Q ihP ihQ =>
    obtain ⟨hP, hQ⟩ := Bool.and_eq_true_iff.mp h
    rw [plus_def, add_rmatch_iff]
    exact fun hx => hx.elim (ihP hP x) (ihQ hQ x)
  | comp P Q ihP ihQ =>
    rw [comp_def, mul_rmatch_iff]
    rintro ⟨t, u, -, ht, hu⟩
    exact (Bool.or_eq_true_iff.mp h).elim (fun hP => ihP hP t ht) fun hQ => ihQ hQ u hu
  | star => cases h

/-- No word starts with the letter. -/
theorem not_rmatch_cons {P : RegularExpression α} {a : α} (h : isVoid (P.deriv a) = true)
    (x : List α) : ¬ P.rmatch (a :: x) :=
  not_rmatch_of_isVoid h x

/-- The derivative by a text. -/
def derivs (P : RegularExpression α) (x : List α) : RegularExpression α := x.foldl deriv P

theorem rmatch_append (P : RegularExpression α) (x y : List α) :
    P.rmatch (x ++ y) = (derivs P x).rmatch y := by
  induction x generalizing P with
  | nil => rfl
  | cons a x ih => exact ih (P.deriv a)

/-- The letters that a word of the expression starts with, and maybe others. -/
def firsts : RegularExpression α → List α
  | .zero => []
  | .epsilon => []
  | .char a => [a]
  | .plus P Q => firsts P ++ firsts Q
  | .comp P Q => firsts P ++ if P.matchEpsilon then firsts Q else []
  | .star P => firsts P

theorem mem_firsts {P : RegularExpression α} {a : α} {x : List α} (h : P.rmatch (a :: x)) :
    a ∈ firsts P := by
  induction P generalizing x with
  | zero => simp at h
  | epsilon =>
    rw [one_def, one_rmatch_iff] at h
    cases h
  | char b =>
    rw [char_rmatch_iff] at h
    rw [(List.cons.inj h).1]
    exact List.mem_singleton_self b
  | plus P Q ihP ihQ =>
    rw [plus_def, add_rmatch_iff] at h
    exact List.mem_append.mpr (h.imp ihP ihQ)
  | comp P Q ihP ihQ =>
    rw [comp_def, mul_rmatch_iff] at h
    obtain ⟨t, u, heq, ht, hu⟩ := h
    refine List.mem_append.mpr ?_
    cases t with
    | nil =>
      have hempty : P.matchEpsilon = true := ht
      rw [List.nil_append] at heq
      rw [← heq] at hu
      rw [if_pos hempty]
      exact .inr (ihQ hu)
    | cons b t =>
      obtain ⟨rfl, -⟩ := List.cons.inj heq
      exact .inl (ihP ht)
  | star P ih =>
    obtain ⟨S, heq, hS⟩ := (star_rmatch_iff P _).mp h
    cases S with
    | nil => cases heq
    | cons t S =>
      obtain ⟨hne, ht⟩ := hS t List.mem_cons_self
      obtain ⟨b, t', rfl⟩ := List.exists_cons_of_ne_nil hne
      obtain ⟨rfl, -⟩ := List.cons.inj heq
      exact ih ht

/-- No word goes on from the text with the letter. -/
theorem not_rmatch_append {P : RegularExpression α} {x : List α} {a : α}
    (h : a ∉ firsts (derivs P x)) (y : List α) : ¬ P.rmatch (x ++ a :: y) := by
  rw [rmatch_append]
  exact fun hmatch => h (mem_firsts hmatch)

/-! ## 3. Rules

The scanner tries the longest beginning first.  A beginning that a rule matches is taken when no
longer one is matched by any rule, and the first of the rules that match it decides. -/

/-- The action of the first rule that matches the text. -/
def firstRule (rules : List (RegularExpression α × β)) (x : List α) : Option β :=
  (rules.find? fun rule => rule.1.rmatch x).map Prod.snd

/-- The longest match among the beginnings of at most `n` letters. -/
def munchUpTo (rules : List (RegularExpression α × β)) (input : List α) : Nat → Option (β × Nat)
  | 0 => none
  | n + 1 =>
    match firstRule rules (input.take (n + 1)) with
    | some action => some (action, n + 1)
    | none => munchUpTo rules input n

/-- The action for the longest match, and its length. -/
def munch (rules : List (RegularExpression α × β)) (input : List α) : Option (β × Nat) :=
  munchUpTo rules input input.length

theorem firstRule_eq_none_iff {rules : List (RegularExpression α × β)} {x : List α} :
    firstRule rules x = none ↔ ∀ rule ∈ rules, ¬ rule.1.rmatch x := by
  simp [firstRule]

theorem firstRule_append {before after : List (RegularExpression α × β)} {x : List α}
    {P : RegularExpression α} (action : β) (hbefore : ∀ rule ∈ before, ¬ rule.1.rmatch x)
    (h : P.rmatch x) : firstRule (before ++ (P, action) :: after) x = some action := by
  have hnone : before.find? (fun rule => rule.1.rmatch x) = none :=
    List.find?_eq_none.mpr hbefore
  simp [firstRule, hnone, h]

/-- A match takes at least one letter and not more than there are. -/
theorem munchUpTo_bounds {rules : List (RegularExpression α × β)} {input : List α} {n k : Nat}
    {action : β} (h : munchUpTo rules input n = some (action, k)) : 0 < k ∧ k ≤ n := by
  induction n with
  | zero => cases h
  | succ n ih =>
    rw [munchUpTo] at h
    split at h
    · cases h
      exact ⟨Nat.succ_pos n, Nat.le_refl _⟩
    · exact ⟨(ih h).1, Nat.le_succ_of_le (ih h).2⟩

theorem munchUpTo_eq {rules : List (RegularExpression α × β)} {input : List α} {n k : Nat}
    {action : β} (hk : 0 < k) (hkn : k ≤ n) (h : firstRule rules (input.take k) = some action)
    (hlonger : ∀ m, k < m → m ≤ n → firstRule rules (input.take m) = none) :
    munchUpTo rules input n = some (action, k) := by
  induction n with
  | zero => omega
  | succ n ih =>
    rw [munchUpTo]
    rcases Nat.eq_or_lt_of_le hkn with rfl | hlt
    · rw [h]
    · rw [hlonger (n + 1) hlt (Nat.le_refl _)]
      exact ih (Nat.le_of_lt_succ hlt) fun m hm hmn => hlonger m hm (Nat.le_succ_of_le hmn)

/-- **The longest match.**  A text is taken from in front of the input when a rule matches it and no
rule matches it together with what comes next. -/
theorem munch_append {rules : List (RegularExpression α × β)} {x rest : List α} {action : β}
    (hx : x ≠ []) (h : firstRule rules x = some action)
    (hlonger : ∀ more, more ≠ [] → more <+: rest → firstRule rules (x ++ more) = none) :
    munch rules (x ++ rest) = some (action, x.length) := by
  refine munchUpTo_eq (List.length_pos_of_ne_nil hx) (by simp) (by simpa using h) ?_
  intro m hm hmn
  rw [List.length_append] at hmn
  rw [List.take_append, List.take_of_length_le hm.le]
  refine hlonger _ ?_ (List.take_prefix _ _)
  intro hnil
  rcases List.take_eq_nil_iff.mp hnil with h0 | rfl
  · omega
  · simp at hmn
    omega

end Zgdb.Lib
