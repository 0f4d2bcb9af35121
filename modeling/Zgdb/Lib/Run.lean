/-
# Runs of a machine

A machine takes labelled steps; a step may fail, and a condition on the state and the label says
which steps a run may take.  `Run` is the list of the labels of such steps with the states at both
ends.  `Run.inv` is the induction: what every permitted step keeps holds at the end of a run.
-/

namespace Zgdb.Lib

/-- `t` is reached from `s` by steps of the labels, each of them permitted where it is taken. -/
inductive Run {S L : Type} (step : S → L → Option S) (ok : S → L → Prop) :
    S → List L → S → Prop
  | nil (s : S) : Run step ok s [] s
  | snoc {s t u : S} {ls : List L} {l : L} : Run step ok s ls t → ok t l → step t l = some u →
      Run step ok s (ls ++ [l]) u

namespace Run

variable {S L : Type} {step : S → L → Option S} {ok ok' : S → L → Prop} {s t u : S}
    {ls ls' : List L}

/-- **The invariant rule.** -/
theorem inv {I : S → Prop} (h : Run step ok s ls t) (h0 : I s)
    (hstep : ∀ s l t, I s → ok s l → step s l = some t → I t) : I t := by
  induction h with
  | nil => exact h0
  | snoc _ hok ht ih => exact hstep _ _ _ ih hok ht

/-- A weaker condition permits more runs. -/
theorem mono (h : Run step ok s ls t) (hok : ∀ s l, ok s l → ok' s l) : Run step ok' s ls t := by
  induction h with
  | nil => exact nil s
  | snoc _ h1 h2 ih => exact ih.snoc (hok _ _ h1) h2

theorem append (h : Run step ok s ls t) (h' : Run step ok t ls' u) :
    Run step ok s (ls ++ ls') u := by
  induction h' with
  | nil => rwa [List.append_nil]
  | snoc _ h1 h2 ih =>
    rw [← List.append_assoc]
    exact ih.snoc h1 h2

end Run

end Zgdb.Lib
