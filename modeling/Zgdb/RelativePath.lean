/-
# Relative paths

A relative step gets from a document to everything below it.  A path of relative document steps
finds exactly the documents at the end of a descent through documents that carry the names and
satisfy the predicates of the steps; an element step behind them finds the elements with its name in
everything below (`relative_path`).
-/
import Zgdb.Search

namespace Zgdb

open Zgdb.Lib AddrSpace

variable {A : Type} [BlockSpace A]

/-! ## 1. Trails of relative steps

A descent goes from each document to one below it, at any depth. -/

/-- A relative document step, with predicates on element values only. -/
structure StepWith.IsRelativeDocument (s : Step) : Prop where
  relative : s.pType = .relativePath
  document : s.sType = .documentStep
  byValue : ∀ q ∈ s.pred, ∃ key operator input, q.value = .byElementValue key operator input

/-- `k` is at the end of a descent from the root: each step gets to a document below the one before,
which has its name and satisfies its predicates. -/
def Descent (env : SearchEnv) (file : ZgdbFile A) (T : Forest Nat) (ss : List Step) (k : Nat) :
    Prop :=
  Trail (fun _ => Relation.TransGen (SonOf file)) (Matched env file T) 0 ss k

variable {env : SearchEnv} {file : ZgdbFile A} {T : Forest Nat} {ss : List Step}

/-- Relative steps scan what is below. -/
theorem descent_iff (hss : ∀ s ∈ ss, s.pType = .relativePath) {k : Nat} :
    Trail (Scans file T) (Matched env file T) 0 ss k ↔ Descent env file T ss k := by
  have hscan : ∀ s ∈ ss, ∀ a b,
      Scans file T s.pType a b ↔ Relation.TransGen (SonOf file) a b := by
    intro s hs a b
    rw [hss s hs]
    rfl
  exact ⟨Trail.mono (fun s hs a b => (hscan s hs a b).mp) fun _ _ _ h => h,
    Trail.mono (fun s hs a b => (hscan s hs a b).mpr) fun _ _ _ h => h⟩

/-! ## 2. What a relative path finds

Both directions, for the documents of a path and for the elements of a last step. -/

variable (env) in
/-- **Relative paths are sound and complete.** A path of relative document steps finds a document
exactly when a descent of the steps ends there, and a relative element step behind them finds an
element exactly when it lies in a document below such an end and has the name.  The steps may carry
any predicates on values of elements. -/
theorem relative_path (h : DocTree file T) {fuel : Nat} (hfuel : T.nodes.length < fuel)
    (hss : ∀ s ∈ ss, s.IsRelativeDocument) :
    (ss ≠ [] → ¬ isBarePath ⟨ss, ss.length⟩ .relativePath →
      ∃ r, findIfFromRoot env fuel file ⟨ss, ss.length⟩ = some r ∧
        ∀ doc, doc ∈ r.documentList ↔ ∃ k, FoundAs file T doc k ∧ Descent env file T ss k) ∧
    ∀ s : Step, s.pType = .relativePath → s.sType = .elementStep →
      ∃ r, findIfFromRoot env fuel file ⟨ss ++ [s], ss.length + 1⟩ = some r ∧
        ∀ doc e, (doc, e) ∈ r.elementList ↔ ∃ a k, Descent env file T ss a ∧
          Relation.TransGen (SonOf file) a k ∧ FoundAs file T doc k ∧
          e ∈ elementEntries file doc true ∧ e.key = s.stepName := by
  have hrel : ∀ s ∈ ss, s.pType = .relativePath := fun s hs => (hss s hs).relative
  have hvalue : ∀ s ∈ ss, s.ByValue := fun s hs _ => (hss s hs).byValue
  refine ⟨?_, ?_⟩
  · intro hne hbare
    obtain ⟨ss, s, rfl⟩ : ∃ ss' s', ss = ss' ++ [s'] :=
      ⟨ss.dropLast, ss.getLast hne, (List.dropLast_append_getLast hne).symm⟩
    rw [List.length_append, List.length_singleton] at hbare ⊢
    have hbare' : ∀ pType, ¬ isBarePath ⟨ss ++ [s], ss.length + 1⟩ pType := by
      rintro pType hb
      obtain ⟨-, s', hs', -, rfl, -⟩ := id hb
      rw [hrel s' hs'] at hb
      exact hbare hb
    obtain ⟨r, hrun, hdocs⟩ :=
      search_documents env h hfuel hvalue hbare' (hss s (by simp)).document
    exact ⟨r, hrun, fun doc => by simp only [hdocs, descent_iff hrel]⟩
  · intro s hs hel
    have hvalue' : ∀ s' ∈ ss ++ [s], s'.ByValue := by
      intro s' hs'
      rcases List.mem_append.mp hs' with hs' | hs'
      · exact hvalue s' hs'
      · obtain rfl := List.mem_singleton.mp hs'
        intro hdoc
        rw [hel] at hdoc
        cases hdoc
    obtain ⟨r, hrun, hels⟩ := search_elements env h hfuel hvalue' hel
    refine ⟨r, hrun, ?_⟩
    intro doc e
    rw [hels]
    simp only [descent_iff hrel, hs, Scans]

/-- A relative step without predicates finds a document two levels down. -/
theorem relative_path_nested : ∃ (file : ZgdbFile RecordPos) (n q : Nat) (r : FindIfResult),
    findIfFromRoot sampleSearch 4 file ⟨[⟨.relativePath, keyB, .documentStep, []⟩], 1⟩ = some r ∧
      documentAt file q n ∈ r.documentList := by
  obtain ⟨file, n, q, es, own, -, hs, -, hname⟩ := create_nested recordEnv
  have h := hs.docTree
  obtain ⟨hson0, hsonn⟩ := nested_nodes h
  have hstep : ∀ s ∈ [(⟨.relativePath, keyB, .documentStep, []⟩ : Step)], s.IsRelativeDocument := by
    intro s hs
    obtain rfl := List.mem_singleton.mp hs
    exact ⟨rfl, rfl, fun q hq => absurd hq List.not_mem_nil⟩
  obtain ⟨r, hrun, hdocs⟩ := (relative_path sampleSearch h (show _ < 4 by simp) hstep).1 (by simp)
    (by decide)
  have hfound : FoundAs file (nested n q) (documentAt file q n) q := ⟨n, by simp, hsonn, rfl⟩
  refine ⟨file, n, q, r, hrun, (hdocs _).mpr ⟨q, hfound, q, .tail (.single hson0) hsonn,
    ⟨rfl, _, hfound, ?_⟩, rfl⟩⟩
  simp [satisfies, documentAt, hname, calculatePredicate]

end Zgdb
