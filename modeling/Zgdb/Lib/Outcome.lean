/-
# Outcomes that agree

Two computations that may fail, of a program and of what it implements.  They agree when they fail
alike or return related values (`Agree`).  The relation goes through sequences (`Agree.bind`,
`Agree.same`) and through loops over related lists (`Agree.mapM`), so that a simulation is proved
step by step along the text of both.
-/
import Mathlib.Data.List.Forall2

namespace Zgdb.Lib

/-- The same failure, or related values. -/
inductive Agree {ε α β : Type} (R : α → β → Prop) : Except ε α → Except ε β → Prop
  | error (e : ε) : Agree R (.error e) (.error e)
  | ok {a : α} {b : β} (h : R a b) : Agree R (.ok a) (.ok b)

namespace Agree

variable {ε α β γ δ : Type} {R : α → β → Prop} {S : γ → δ → Prop} {x : Except ε α} {y : Except ε β}

theorem refl (x : Except ε α) : Agree Eq x x := by
  cases x with
  | error e => exact error e
  | ok a => exact ok rfl

theorem mono {R' : α → β → Prop} (h : Agree R x y) (hR : ∀ a b, R a b → R' a b) :
    Agree R' x y := by
  cases h with
  | error e => exact error e
  | ok h => exact ok (hR _ _ h)

/-- What a computation agrees with when it returns. -/
theorem of_ok {a : α} (h : Agree R (.ok a) y) : ∃ b, y = .ok b ∧ R a b := by
  cases h with
  | ok h => exact ⟨_, rfl, h⟩

theorem of_ok_right {b : β} (h : Agree R x (.ok b)) : ∃ a, x = .ok a ∧ R a b := by
  cases h with
  | ok h => exact ⟨_, rfl, h⟩

theorem of_error {e : ε} (h : Agree R (.error e) y) : y = .error e := by
  cases h
  rfl

/-- The same outcome, in the other direction. -/
theorem symm (h : Agree R x y) : Agree (fun b a => R a b) y x := by
  cases h with
  | error e => exact error e
  | ok h => exact ok h

theorem trans {T : β → γ → Prop} {z : Except ε γ} (h : Agree R x y) (h' : Agree T y z) :
    Agree (fun a c => ∃ b, R a b ∧ T b c) x z := by
  cases h with
  | error e =>
    cases h'
    exact error e
  | ok h =>
    cases h' with
    | ok h' => exact ok ⟨_, h, h'⟩

/-- **One step behind the other.** -/
theorem bind {f : α → Except ε γ} {g : β → Except ε δ} (h : Agree R x y)
    (hfg : ∀ a b, x = .ok a → y = .ok b → R a b → Agree S (f a) (g b)) :
    Agree S (x >>= f) (y >>= g) := by
  cases h with
  | error e => exact error e
  | ok h => exact hfg _ _ rfl rfl h

/-- The same first step. -/
theorem same {f : α → Except ε γ} {g : α → Except ε δ}
    (hfg : ∀ a, x = .ok a → Agree S (f a) (g a)) : Agree S (x >>= f) (x >>= g) := by
  refine (refl x).bind ?_
  rintro a b hx - rfl
  exact hfg a hx

/-- **A loop over related lists.** -/
theorem mapM {f : α → Except ε γ} {g : β → Except ε δ} {l : List α} {l' : List β}
    (hl : List.Forall₂ R l l') (hfg : ∀ a b, R a b → Agree S (f a) (g b)) :
    Agree (List.Forall₂ S) (l.mapM f) (l'.mapM g) := by
  induction hl with
  | nil => exact ok .nil
  | cons h _ ih =>
    rw [List.mapM_cons, List.mapM_cons]
    refine (hfg _ _ h).bind ?_
    intro c d _ _ hcd
    refine ih.bind ?_
    intro cs ds _ _ hcds
    exact ok (.cons hcd hcds)

end Agree

/-- Computations that are both without a result or return related values, one step behind the
other. -/
theorem rel_bind {α β γ δ : Type} {R : α → β → Prop} {S : γ → δ → Prop} {x : Option α}
    {y : Option β} {f : α → Option γ} {g : β → Option δ} (h : Option.Rel R x y)
    (hfg : ∀ a b, R a b → Option.Rel S (f a) (g b)) : Option.Rel S (x >>= f) (y >>= g) := by
  cases h with
  | none => exact .none
  | some h => exact hfg _ _ h

/-- One of the results is changed. -/
theorem rel_map {α β γ : Type} {R : α → β → Prop} {S : α → γ → Prop} {x : Option α} {y : Option β}
    {g : β → γ} (h : Option.Rel R x y) (hg : ∀ a b, R a b → S a (g b)) :
    Option.Rel S x (y.map g) := by
  cases h with
  | none => exact .none
  | some h => exact .some (hg _ _ h)

/-- A loop whose body is the same on the elements of the list. -/
theorem mapM_congr {ε α β : Type} {f g : α → Except ε β} {l : List α} (h : ∀ a ∈ l, f a = g a) :
    l.mapM f = l.mapM g := by
  induction l with
  | nil => rfl
  | cons a l ih =>
    rw [List.mapM_cons, List.mapM_cons, h a List.mem_cons_self,
      ih fun x hx => h x (List.mem_cons_of_mem _ hx)]

/-- What a loop returned for an element. -/
theorem mem_of_mapM_ok {ε α β : Type} {f : α → Except ε β} {l : List α} {l' : List β}
    (h : l.mapM f = .ok l') {a : α} (ha : a ∈ l) : ∃ b ∈ l', f a = .ok b := by
  induction l generalizing l' with
  | nil => cases ha
  | cons a' l ih =>
    rw [List.mapM_cons] at h
    cases hf : f a' with
    | error e =>
      rw [hf] at h
      cases h
    | ok b =>
      cases hl : l.mapM f with
      | error e =>
        rw [hf, hl] at h
        cases h
      | ok bs =>
        rw [hf, hl] at h
        obtain rfl := Except.ok.inj h
        rcases List.mem_cons.mp ha with rfl | ha
        · exact ⟨b, List.mem_cons_self, hf⟩
        · obtain ⟨b', hb', hfb⟩ := ih hl ha
          exact ⟨b', List.mem_cons_of_mem _ hb', hfb⟩

end Zgdb.Lib
