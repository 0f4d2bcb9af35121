/-
# The path of a request

What `pathFromXml` makes of the request of a derivation.  The path is read when the size fits into
32 bits, the first step has no predicates that are counted and the names fit; the predicates of
later steps are lost (`pathFromXml_iff`).
-/
import Zgdb.PathCodec
import Zgdb.Requests

namespace Zgdb

/-! ## 1. Readable paths

What the server makes of a path that the client can send, and when it can. -/

/-- The step that arrives: without its predicates. -/
def AstStep.bare (a : AstStep) : Option Step :=
  (strcpyName a.stepName).map fun stepName => ⟨a.pType.onServer, stepName, a.sType.onServer, []⟩

/-- A path that the server reads as the steps `ss`.  Its length fits into 32 bits, its first step
has no predicates that are counted, and the names fit.  The predicates of the steps behind the first
one do not arrive. -/
structure Readable (first : List AstStep) (ss : List Step) : Prop where
  length : first.length ≤ 2 ^ 31 - 1
  predicates : ∀ a ∈ first.head?, a.pred = [] ∨ 2 ^ 31 - 1 < a.pred.length
  steps : first.mapM AstStep.bare = some ss

theorem Readable.length_eq {first : List AstStep} {ss : List Step} (h : Readable first ss) :
    ss.length = first.length := by
  have hsteps := h.steps
  clear h
  induction first generalizing ss with
  | nil => simp_all
  | cons a first ih =>
    simp only [List.mapM_cons, Option.bind_eq_bind, Option.bind_eq_some_iff] at hsteps
    obtain ⟨s, -, rest, hrest, hss⟩ := hsteps
    obtain rfl := Option.some.inj hss
    rw [List.length_cons, List.length_cons, ih hrest]

/-- No predicate arrives. -/
theorem Readable.pred {first : List AstStep} {ss : List Step} (h : Readable first ss) :
    ∀ s ∈ ss, s.pred = [] := by
  have hsteps := h.steps
  clear h
  induction first generalizing ss with
  | nil => simp_all
  | cons a first ih =>
    simp only [List.mapM_cons, Option.bind_eq_bind, Option.bind_eq_some_iff] at hsteps
    obtain ⟨s, hs, rest, hrest, hss⟩ := hsteps
    obtain rfl := Option.some.inj hss
    intro s' hs'
    rcases List.mem_cons.mp hs' with rfl | hs'
    · obtain ⟨n, -, rfl⟩ := Option.map_eq_some_iff.mp hs
      rfl
    · exact ih hrest s' hs'

/-! ## 2. Reading the steps

The loop is followed step by step.  The predicate node that it reads is that of the first step, and
the path cannot be used when it holds a predicate. -/

section Steps

variable {pathNode : XmlNode} {pred : BlockPredicate}

/-- A step is read with the predicate that the path gives to all of them. -/
theorem getStep_request (hpath : getStepPredicate pathNode = some pred) (a : AstStep) :
    getStep pathNode (zpathStepToXml a) = (strcpyName a.stepName).map fun stepName =>
      ⟨a.pType.onServer, stepName, a.sType.onServer, pred⟩ := by
  rw [getStep, getPathType_step, getStepType_step, xmlNodeGetContent_step, hpath]
  cases strcpyName a.stepName <;> rfl

/-- **The loop over the steps.** -/
theorem foldlM_getStep (hpath : getStepPredicate pathNode = some pred) (first : List AstStep)
    (p : PathWith BlockPredicate) (hroom : p.steps.length + first.length ≤ p.size) :
    (first.map zpathStepToXml).foldlM (fun p temp => do
        let s ← getStep pathNode temp
        pure (addStep p s)) p
      = (first.mapM AstStep.bare).map fun ss =>
          { p with steps := p.steps ++ ss.map fun s => ⟨s.pType, s.stepName, s.sType, pred⟩ } := by
  induction first generalizing p with
  | nil => simp
  | cons a first ih =>
    rw [List.length_cons] at hroom
    simp only [List.map_cons, List.foldlM_cons, getStep_request hpath, List.mapM_cons, AstStep.bare]
    cases hname : strcpyName a.stepName with
    | none => rfl
    | some stepName =>
      have hadd : addStep p ⟨a.pType.onServer, stepName, a.sType.onServer, pred⟩
          = { p with steps := p.steps ++ [⟨a.pType.onServer, stepName, a.sType.onServer, pred⟩] } :=
        if_pos (by omega)
      simp only [Option.map_some, Option.bind_eq_bind, Option.bind_some, Option.pure_def, hadd]
      have hrest := ih { p with steps := p.steps ++
        [⟨a.pType.onServer, stepName, a.sType.onServer, pred⟩] } (by simp; omega)
      simp only [Option.bind_eq_bind, Option.pure_def] at hrest
      rw [hrest]
      cases first.mapM AstStep.bare <;> simp

end Steps

/-- The number of predicates that is read. -/
theorem sizeProp_predicates (chain : List AstPredicate) :
    sizeProp (zpathPredicateToXml chain)
      = some (if chain.length ≤ 2 ^ 31 - 1 then (chain.length : Int) else 0) := by
  by_cases h : chain.length ≤ 2 ^ 31 - 1
  · rw [if_pos h]
    simp [sizeProp, zpathPredicateToXml, str2long_sprintfZu h]
  · rw [if_neg h]
    simp [sizeProp, zpathPredicateToXml, str2long_overflow (Nat.lt_of_not_le h)]

/-- Whether the first step carries predicates decides for all steps. -/
theorem getStepPredicate_iff (size : Nat) (a : AstStep) (rest : List AstStep) :
    getStepPredicate (zpathPathNodeToXml ⟨a :: rest, size⟩) = some none ↔
      a.pred = [] ∨ 2 ^ 31 - 1 < a.pred.length := by
  rw [getStepPredicate_path, sizeProp_predicates, Option.bind_some]
  by_cases h : a.pred.length ≤ 2 ^ 31 - 1
  · rw [if_pos h]
    by_cases h0 : a.pred = []
    · simp [h0]
    · have hpos : ¬ (a.pred.length : Int) = 0 := by simpa using h0
      rw [if_pos hpos]
      simp only [h0, false_or, Nat.not_lt.mpr h, iff_false, Option.map_eq_some_iff]
      rintro ⟨chain, -, hchain⟩
      cases hchain
  · rw [if_neg h, if_neg (by simp)]
    exact ⟨fun _ => Or.inr (Nat.lt_of_not_le h), fun _ => rfl⟩

/-- The decoder on the path of a request. -/
theorem createPathFromXml_request {pred : BlockPredicate} {first : List AstStep} (hne : first ≠ [])
    (hpath : getStepPredicate (zpathPathNodeToXml ⟨first, first.length⟩) = some pred) :
    createPathFromXml (zpathPathNodeToXml ⟨first, first.length⟩) (createPath first.length)
      = (first.mapM AstStep.bare).map fun ss =>
        ⟨ss.map fun s => ⟨s.pType, s.stepName, s.sType, pred⟩, first.length⟩ := by
  have hchildren : ¬ (zpathPathNodeToXml ⟨first, first.length⟩).children = [] := by
    simpa [zpathPathNodeToXml, XmlNode.children, zpathPathToXml] using hne
  rw [createPathFromXml, if_neg hchildren]
  refine (foldlM_getStep hpath first (createPath first.length) (by simp [createPath])).trans ?_
  simp [createPath]

/-- Steps without predicates can be used. -/
theorem usable_none {ss : List Step} (h : ∀ s ∈ ss, s.pred = []) (n : Nat) :
    PathWith.usable ⟨ss.map fun s => ⟨s.pType, s.stepName, s.sType, none⟩, n⟩ = some ⟨ss, n⟩ := by
  rw [PathWith.usable, if_pos (by simp)]
  have hmap : (ss.map fun s => (⟨s.pType, s.stepName, s.sType, []⟩ : Step)) = ss := by
    conv_rhs => rw [← List.map_id ss]
    refine List.map_congr_left ?_
    intro s hs
    rw [← h s hs]
    rfl
  simpa only [List.map_map, Function.comp_def, Option.some.injEq, PathWith.mk.injEq, and_true]
    using hmap

/-- A chain that the steps point to has ended. -/
theorem usable_some {ss : List Step} (hne : ss ≠ []) (chain : List Predicate) (n : Nat) :
    PathWith.usable ⟨ss.map fun s => ⟨s.pType, s.stepName, s.sType, some chain⟩, n⟩ = none := by
  obtain ⟨s, rest, rfl⟩ := List.exists_cons_of_ne_nil hne
  exact if_neg (by simp)

/-- Where the first step carries predicates there is no path. -/
theorem createPathFromXml_predicates {a : AstStep} {rest : List AstStep}
    (hpred : ¬ (a.pred = [] ∨ 2 ^ 31 - 1 < a.pred.length)) :
    (createPathFromXml (zpathPathNodeToXml ⟨a :: rest, (a :: rest).length⟩)
      (createPath (a :: rest).length)).bind PathWith.usable = none := by
  cases hpath : getStepPredicate (zpathPathNodeToXml ⟨a :: rest, (a :: rest).length⟩) with
  | none =>
    have hstep : getStep (zpathPathNodeToXml ⟨a :: rest, (a :: rest).length⟩) (zpathStepToXml a)
        = none := by
      rw [getStep, getPathType_step, getStepType_step, hpath]
      cases strcpyName (xmlNodeGetContent (zpathStepToXml a)) <;> rfl
    rw [createPathFromXml, if_neg (by simp [zpathPathNodeToXml, XmlNode.children, zpathPathToXml])]
    have hchildren : (zpathPathNodeToXml ⟨a :: rest, (a :: rest).length⟩).children
        = zpathStepToXml a :: zpathPathToXml rest := rfl
    rw [hchildren, List.foldlM_cons, hstep]
    rfl
  | some pred =>
    rw [createPathFromXml_request (by simp) hpath]
    cases pred with
    | none => exact absurd ((getStepPredicate_iff _ a rest).mp hpath) hpred
    | some chain =>
      cases hss : (a :: rest).mapM AstStep.bare with
      | none => rfl
      | some ss =>
        refine usable_some ?_ chain _
        rintro rfl
        simp only [List.mapM_cons, Option.bind_eq_bind, Option.bind_eq_some_iff] at hss
        obtain ⟨s, -, rest', -, hcons⟩ := hss
        cases hcons

/-- **The path that the server reads.** -/
theorem pathFromXml_iff {sprintfF : UInt64 → CString} {request : AstRequest}
    {first : List AstStep} (hne : first ≠ []) {p : Path} :
    pathFromXml (zpathToXml sprintfF ⟨request, first, first.length⟩) = some p ↔
      ∃ ss, Readable first ss ∧ p = ⟨ss, first.length⟩ := by
  have hnode : (zpathToXml sprintfF ⟨request, first, first.length⟩).children.getLast?
      = some (zpathPathNodeToXml ⟨first, first.length⟩) := by
    simp [zpathToXml, XmlNode.children]
  have hsize : xmlGetProp (zpathPathNodeToXml ⟨first, first.length⟩) "size"
      = some (sprintfZu first.length) := by
    simp [zpathPathNodeToXml, xmlGetProp]
  simp only [pathFromXml, hnode, hsize, Option.bind_eq_bind, Option.bind_some]
  by_cases hlen : first.length ≤ 2 ^ 31 - 1
  · have hpos : ¬ (first.length : Int) = 0 := by simpa using hne
    rw [str2long_sprintfZu hlen, Option.bind_some, if_pos hpos, Int.toNat_natCast]
    obtain ⟨a, rest, rfl⟩ := List.exists_cons_of_ne_nil hne
    by_cases hpred : a.pred = [] ∨ 2 ^ 31 - 1 < a.pred.length
    · have hpath := (getStepPredicate_iff (a :: rest).length a rest).mpr hpred
      have hread : ∀ {ss}, (a :: rest).mapM AstStep.bare = some ss → Readable (a :: rest) ss :=
        fun hss => ⟨hlen, by simpa using hpred, hss⟩
      rw [createPathFromXml_request hne hpath, Option.bind_eq_some_iff]
      constructor
      · rintro ⟨d, hd, hp⟩
        obtain ⟨ss, hss, rfl⟩ := Option.map_eq_some_iff.mp hd
        rw [usable_none (hread hss).pred] at hp
        exact ⟨ss, hread hss, (Option.some.inj hp).symm⟩
      · rintro ⟨ss, h, rfl⟩
        exact ⟨_, by rw [h.steps]; rfl, usable_none h.pred _⟩
    · rw [createPathFromXml_predicates hpred]
      simp only [reduceCtorEq, false_iff]
      rintro ⟨ss, h, -⟩
      exact hpred (h.predicates a rfl)
  · rw [str2long_overflow (Nat.lt_of_not_le hlen)]
    simp only [Option.bind_none, reduceCtorEq, false_iff]
    rintro ⟨ss, h, -⟩
    exact hlen h.length

end Zgdb
