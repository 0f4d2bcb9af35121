/-
# The grammar is unambiguous

A sequence of tokens has at most one derivation (`tokens_injective`), so the actions that the parser
runs on a sequence are those of the derivation.  Each nonterminal is read off the front of the
tokens, with whatever may follow it in a query behind it.
-/
import Zgdb.Parser

namespace Zgdb

/-- What stands behind the predicates and the base of a step, and behind the predicates of JOIN. -/
def Closed (r : List Token) : Prop :=
  ∃ t rest, r = t :: rest ∧ (t = .end ∨ t = .absolute ∨ t = .relative ∨ t = .on)

variable {r r' : List Token}

theorem OpTree.tokens_append {o o' : OpTree} (h : o.tokens ++ r = o'.tokens ++ r') :
    o = o' ∧ r = r' := by
  cases o <;> cases o' <;> simp_all [OpTree.tokens]

theorem SymTree.tokens_append {t t' : SymTree} (h : t.tokens ++ r = t'.tokens ++ r') :
    t = t' ∧ r = r' := by
  cases t <;> cases t' <;> simp_all [SymTree.tokens]

theorem PredicateTree.tokens_append {p p' : PredicateTree} (h : p.tokens ++ r = p'.tokens ++ r') :
    p = p' ∧ r = r' := by
  cases p with
  | number v =>
    cases p' with
    | number v' => simpa [PredicateTree.tokens] using h
    | value key op string => simp [PredicateTree.tokens] at h
    | element key1 op key2 => simp [PredicateTree.tokens] at h
  | value key op string =>
    cases p' with
    | number v' => simp [PredicateTree.tokens] at h
    | value key' op' string' =>
      simp only [PredicateTree.tokens, List.append_assoc, List.cons_append, List.nil_append,
        List.cons.injEq, true_and, Token.key.injEq] at h
      obtain ⟨rfl, h⟩ := h
      obtain ⟨rfl, h⟩ := OpTree.tokens_append h
      simpa using h
    | element key1 op' key2 =>
      simp only [PredicateTree.tokens, List.append_assoc, List.cons_append, List.nil_append,
        List.cons.injEq, true_and, Token.key.injEq] at h
      simpa using (OpTree.tokens_append h.2).2
  | element key1 op key2 =>
    cases p' with
    | number v' => simp [PredicateTree.tokens] at h
    | value key' op' string' =>
      simp only [PredicateTree.tokens, List.append_assoc, List.cons_append, List.nil_append,
        List.cons.injEq, true_and, Token.key.injEq] at h
      simpa using (OpTree.tokens_append h.2).2
    | element key1' op' key2' =>
      simp only [PredicateTree.tokens, List.append_assoc, List.cons_append, List.nil_append,
        List.cons.injEq, true_and, Token.key.injEq] at h
      obtain ⟨rfl, h⟩ := h
      obtain ⟨rfl, h⟩ := OpTree.tokens_append h
      simpa using h

/-- A predicate begins with its bracket. -/
theorem PredicateTree.tokens_cons (p : PredicateTree) :
    ∃ rest, p.tokens = .lbrac :: rest := by
  cases p <;> exact ⟨_, rfl⟩

theorem NotTree.tokens_append {n n' : NotTree} {p p' : PredicateTree}
    (h : n.tokens ++ (p.tokens ++ r) = n'.tokens ++ (p'.tokens ++ r')) :
    n = n' ∧ p = p' ∧ r = r' := by
  obtain ⟨rest, hp⟩ := p.tokens_cons
  obtain ⟨rest', hp'⟩ := p'.tokens_cons
  cases n <;> cases n'
  · exact ⟨rfl, PredicateTree.tokens_append h⟩
  · simp [NotTree.tokens, hp] at h
  · simp [NotTree.tokens, hp'] at h
  · exact ⟨rfl, PredicateTree.tokens_append (List.cons.inj h).2⟩

/-- A connector does not stand behind the predicates of a step. -/
theorem Closed.ne_sym (h : Closed r) (t : SymTree) (rest : List Token) : r ≠ t.tokens ++ rest := by
  obtain ⟨u, us, rfl, hu⟩ := h
  cases t <;> rcases hu with rfl | rfl | rfl | rfl <;> simp [SymTree.tokens]

theorem PredicatesTree.tokens_append {t t' : PredicatesTree} (hr : Closed r) (hr' : Closed r')
    (h : t.tokens ++ r = t'.tokens ++ r') : t = t' ∧ r = r' := by
  induction t generalizing t' with
  | last n p =>
    cases t' with
    | last n' p' =>
      simp only [PredicatesTree.tokens, List.append_assoc] at h
      obtain ⟨rfl, rfl, rfl⟩ := NotTree.tokens_append h
      exact ⟨rfl, rfl⟩
    | more n' p' sym rest =>
      simp only [PredicatesTree.tokens, List.append_assoc] at h
      exact absurd (NotTree.tokens_append h).2.2 (hr.ne_sym _ _)
  | more n p sym rest ih =>
    cases t' with
    | last n' p' =>
      simp only [PredicatesTree.tokens, List.append_assoc] at h
      exact absurd (NotTree.tokens_append h).2.2.symm (hr'.ne_sym _ _)
    | more n' p' sym' rest' =>
      simp only [PredicatesTree.tokens, List.append_assoc] at h
      obtain ⟨rfl, rfl, hsym⟩ := NotTree.tokens_append h
      obtain ⟨rfl, hrest⟩ := SymTree.tokens_append hsym
      obtain ⟨rfl, rfl⟩ := ih hrest
      exact ⟨rfl, rfl⟩

/-- Predicates begin with a bracket or an inversion. -/
theorem PredicatesTree.tokens_cons (t : PredicatesTree) :
    ∃ u rest, t.tokens = u :: rest ∧ (u = .lbrac ∨ u = .notSym) := by
  cases t with
  | last n p =>
    obtain ⟨rest, hp⟩ := p.tokens_cons
    cases n
    · exact ⟨_, rest, hp, Or.inl rfl⟩
    · exact ⟨_, _, rfl, Or.inr rfl⟩
  | more n p sym rest =>
    obtain ⟨us, hp⟩ := p.tokens_cons
    cases n
    · exact ⟨_, us ++ sym.tokens ++ rest.tokens, by simp
        [PredicatesTree.tokens, NotTree.tokens, hp],
        Or.inl rfl⟩
    · exact ⟨_, _, rfl, Or.inr rfl⟩

theorem Closed.ne_predicates (h : Closed r) (t : PredicatesTree) (rest : List Token) :
    r ≠ t.tokens ++ rest := by
  obtain ⟨u, us, rfl, hu⟩ := h
  obtain ⟨v, vs, hv, hv'⟩ := t.tokens_cons
  rw [hv]
  rcases hu with rfl | rfl | rfl | rfl <;> rcases hv' with rfl | rfl <;> simp

theorem BaseTree.tokens_append {t t' : BaseTree} (hr : Closed r) (hr' : Closed r')
    (h : t.tokens ++ r = t'.tokens ++ r') : t = t' ∧ r = r' := by
  cases t with
  | plain string =>
    cases t' with
    | plain string' => simpa [BaseTree.tokens] using h
    | filtered string' predicates =>
      simp only [BaseTree.tokens, List.cons_append, List.nil_append, List.cons.injEq] at h
      exact absurd h.2 (hr.ne_predicates _ _)
  | filtered string predicates =>
    cases t' with
    | plain string' =>
      simp only [BaseTree.tokens, List.cons_append, List.nil_append, List.cons.injEq] at h
      exact absurd h.2.symm (hr'.ne_predicates _ _)
    | filtered string' predicates' =>
      simp only [BaseTree.tokens, List.cons_append, List.cons.injEq, Token.string.injEq] at h
      obtain ⟨rfl, h⟩ := h
      obtain ⟨rfl, rfl⟩ := PredicatesTree.tokens_append hr hr' h
      exact ⟨rfl, rfl⟩

theorem BaseTree.tokens_cons (t : BaseTree) : ∃ s rest, t.tokens = .string s :: rest := by
  cases t <;> exact ⟨_, _, rfl⟩

theorem EntryTree.tokens_append {t t' : EntryTree} (hr : Closed r) (hr' : Closed r')
    (h : t.tokens ++ r = t'.tokens ++ r') : t = t' ∧ r = r' := by
  have hbase : ∀ {b b' : BaseTree}, b.tokens ++ r = b'.tokens ++ r' → b = b' ∧ r = r' :=
    BaseTree.tokens_append hr hr'
  cases t with
  | absoluteBase b =>
    obtain ⟨s, rest, hb⟩ := b.tokens_cons
    cases t' with
    | absoluteBase b' =>
      obtain ⟨rfl, rfl⟩ := hbase (List.cons.inj h).2
      exact ⟨rfl, rfl⟩
    | absoluteKey key => simp [EntryTree.tokens, hb] at h
    | relativeBase b' => simp [EntryTree.tokens] at h
    | relativeKey key => simp [EntryTree.tokens] at h
  | absoluteKey key =>
    cases t' with
    | absoluteBase b' =>
      obtain ⟨s, rest, hb⟩ := b'.tokens_cons
      simp [EntryTree.tokens, hb] at h
    | absoluteKey key' => simpa [EntryTree.tokens] using h
    | relativeBase b' => simp [EntryTree.tokens] at h
    | relativeKey key' => simp [EntryTree.tokens] at h
  | relativeBase b =>
    obtain ⟨s, rest, hb⟩ := b.tokens_cons
    cases t' with
    | absoluteBase b' => simp [EntryTree.tokens] at h
    | absoluteKey key => simp [EntryTree.tokens] at h
    | relativeBase b' =>
      obtain ⟨rfl, rfl⟩ := hbase (List.cons.inj h).2
      exact ⟨rfl, rfl⟩
    | relativeKey key => simp [EntryTree.tokens, hb] at h
  | relativeKey key =>
    cases t' with
    | absoluteBase b' => simp [EntryTree.tokens] at h
    | absoluteKey key' => simp [EntryTree.tokens] at h
    | relativeBase b' =>
      obtain ⟨s, rest, hb⟩ := b'.tokens_cons
      simp [EntryTree.tokens, hb] at h
    | relativeKey key' => simpa [EntryTree.tokens] using h

theorem EntryTree.closed (t : EntryTree) (r : List Token) : Closed (t.tokens ++ r) := by
  cases t <;> simp [Closed, EntryTree.tokens]

theorem PathTree.closed (t : PathTree) (r : List Token) : Closed (t.tokens ++ r) := by
  cases t with
  | last entry =>
    rw [PathTree.tokens, List.append_assoc]
    exact entry.closed _
  | more entry path =>
    rw [PathTree.tokens, List.append_assoc]
    exact entry.closed _

theorem closed_end (r : List Token) : Closed (.end :: r) := ⟨_, _, rfl, Or.inl rfl⟩

theorem PathTree.ne_end (t : PathTree) (r r' : List Token) : t.tokens ++ r ≠ .end :: r' := by
  cases t with
  | last entry => cases entry <;> simp [PathTree.tokens, EntryTree.tokens]
  | more entry path => cases entry <;> simp [PathTree.tokens, EntryTree.tokens]

theorem PathTree.tokens_append {t t' : PathTree} (h : t.tokens ++ r = t'.tokens ++ r') :
    t = t' ∧ r = r' := by
  induction t generalizing t' with
  | last entry =>
    cases t' with
    | last entry' =>
      simp only [PathTree.tokens, List.append_assoc] at h
      obtain ⟨rfl, h⟩ := EntryTree.tokens_append (closed_end r) (closed_end r') h
      simpa using h
    | more entry' path =>
      simp only [PathTree.tokens, List.append_assoc] at h
      obtain ⟨-, h⟩ := EntryTree.tokens_append (closed_end r) (path.closed r') h
      exact absurd h.symm (path.ne_end _ _)
  | more entry path ih =>
    cases t' with
    | last entry' =>
      simp only [PathTree.tokens, List.append_assoc] at h
      obtain ⟨-, h⟩ := EntryTree.tokens_append (path.closed r) (closed_end r') h
      exact absurd h (path.ne_end _ _)
    | more entry' path' =>
      simp only [PathTree.tokens, List.append_assoc] at h
      obtain ⟨rfl, hpath⟩ := EntryTree.tokens_append (path.closed r) (path'.closed r') h
      obtain ⟨rfl, rfl⟩ := ih hpath
      exact ⟨rfl, rfl⟩

theorem ElementTree.tokens_append {t t' : ElementTree} (h : t.tokens ++ r = t'.tokens ++ r') :
    t = t' ∧ r = r' := by
  cases t <;> cases t' <;> simp_all [ElementTree.tokens]

theorem ElementsTree.tokens_append {t t' : ElementsTree}
    (h : t.tokens ++ .rrobrac :: r = t'.tokens ++ .rrobrac :: r') : t = t' ∧ r = r' := by
  induction t generalizing t' with
  | last element =>
    cases t' with
    | last element' =>
      obtain ⟨rfl, hrest⟩ := ElementTree.tokens_append h
      exact ⟨rfl, (List.cons.inj hrest).2⟩
    | more element' rest =>
      rw [ElementsTree.tokens, ElementsTree.tokens, List.append_assoc] at h
      simpa using (ElementTree.tokens_append h).2
  | more element rest ih =>
    cases t' with
    | last element' =>
      rw [ElementsTree.tokens, ElementsTree.tokens, List.append_assoc] at h
      simpa using (ElementTree.tokens_append h).2
    | more element' rest' =>
      simp only [ElementsTree.tokens, List.append_assoc, List.cons_append] at h
      obtain ⟨rfl, hrest⟩ := ElementTree.tokens_append h
      obtain ⟨rfl, rfl⟩ := ih (List.cons.inj hrest).2
      exact ⟨rfl, rfl⟩

/-- A path does not begin with predicates. -/
theorem PathTree.ne_predicates (t : PathTree) (p : PredicatesTree) (r r' : List Token) :
    t.tokens ++ r ≠ p.tokens ++ r' :=
  (t.closed r).ne_predicates p r'

/-- A query is read off the front of the tokens. -/
theorem ZpathTree.tokens_append {z z' : ZpathTree} (h : z.tokens ++ r = z'.tokens ++ r') :
    z = z' ∧ r = r' := by
  cases z with
  | add string schema path =>
    cases z' with
    | add string' schema' path' =>
      simp only [ZpathTree.tokens, List.append_assoc, List.cons_append, List.nil_append,
        List.cons.injEq, true_and, Token.string.injEq] at h
      obtain ⟨rfl, h⟩ := h
      obtain ⟨rfl, hpath⟩ := ElementsTree.tokens_append h
      obtain ⟨rfl, rfl⟩ := PathTree.tokens_append hpath
      exact ⟨rfl, rfl⟩
    | _ => simp [ZpathTree.tokens] at h
  | update key string path =>
    cases z' with
    | update key' string' path' =>
      simp only [ZpathTree.tokens, List.cons_append, List.nil_append, List.cons.injEq, true_and,
        Token.key.injEq, Token.string.injEq] at h
      obtain ⟨rfl, rfl, h⟩ := h
      obtain ⟨rfl, rfl⟩ := PathTree.tokens_append h
      exact ⟨rfl, rfl⟩
    | _ => simp [ZpathTree.tokens] at h
  | delete path =>
    cases z' with
    | delete path' =>
      obtain ⟨rfl, rfl⟩ := PathTree.tokens_append (List.cons.inj h).2
      exact ⟨rfl, rfl⟩
    | _ => simp [ZpathTree.tokens] at h
  | find path =>
    cases z' with
    | find path' =>
      obtain ⟨rfl, rfl⟩ := PathTree.tokens_append (List.cons.inj h).2
      exact ⟨rfl, rfl⟩
    | _ => simp [ZpathTree.tokens] at h
  | joinOn jpredicates path =>
    cases z' with
    | joinOn jpredicates' path' =>
      have hon : ∀ (p : PathTree) (r : List Token), Closed (.on :: (p.tokens ++ r)) :=
        fun p r => ⟨_, _, rfl, by simp⟩
      simp only [ZpathTree.tokens, List.append_assoc, List.cons_append, List.cons.injEq,
        true_and] at h
      obtain ⟨rfl, hrest⟩ := PredicatesTree.tokens_append (hon path r) (hon path' r') h
      obtain ⟨rfl, rfl⟩ := PathTree.tokens_append (List.cons.inj hrest).2
      exact ⟨rfl, rfl⟩
    | join path' =>
      simp only [ZpathTree.tokens, List.append_assoc, List.cons_append, List.cons.injEq,
        true_and] at h
      exact absurd h.symm (path'.ne_predicates _ _ _)
    | _ => simp [ZpathTree.tokens] at h
  | join path =>
    cases z' with
    | joinOn jpredicates path' =>
      simp only [ZpathTree.tokens, List.append_assoc, List.cons_append, List.cons.injEq,
        true_and] at h
      exact absurd h (path.ne_predicates _ _ _)
    | join path' =>
      obtain ⟨rfl, rfl⟩ := PathTree.tokens_append (List.cons.inj h).2
      exact ⟨rfl, rfl⟩
    | _ => simp [ZpathTree.tokens] at h
  | parent path =>
    cases z' with
    | parent path' =>
      obtain ⟨rfl, rfl⟩ := PathTree.tokens_append (List.cons.inj h).2
      exact ⟨rfl, rfl⟩
    | _ => simp [ZpathTree.tokens] at h

/-- **A sequence of tokens has at most one derivation.** -/
theorem tokens_injective : Function.Injective ZpathTree.tokens := fun _ _ h =>
  (ZpathTree.tokens_append (congrArg (· ++ []) h)).1

end Zgdb
