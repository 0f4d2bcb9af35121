/-
# Paths across the connection

A path is written by `zpathPathToXml` and read by `createPathFromXml`.  Every step of the tree has a
predicate node of its own, and the decoder takes the first one below the path for all steps; what it
reads there it keeps in a variable that has ended when the path is used.  So a path arrives as it
was sent exactly when no step carries a predicate and the names fit (`path_codec`).
-/
import Mathlib.Data.List.Forall2
import Zgdb.PredicateCodec

namespace Zgdb

/-! ## 1. Corresponding steps

Both sides have their own enumerations; they correspond by name. -/

/-- The axis of the server with the name of the client's. -/
def AstPathType.onServer : AstPathType → PathType
  | .absolutePath => .absolutePath
  | .relativePath => .relativePath

/-- The kind of the server with the name of the client's. -/
def AstStepType.onServer : AstStepType → StepType
  | .documentStep => .documentStep
  | .elementStep => .elementStep

/-- The same step on both sides. -/
structure SameStep (a : AstStep) (s : Step) : Prop where
  pType : s.pType = a.pType.onServer
  sType : s.sType = a.sType.onServer
  stepName : s.stepName.chars = a.stepName.chars
  pred : List.Forall₂ SamePredicate a.pred s.pred

/-- The path that the server decodes and uses is the one that the client sent: the decoder returns,
its result does not point to a variable that has ended, and the steps correspond one to one. -/
def PathArrives (first : List AstStep) : Prop :=
  ∃ d p, createPathFromXml (zpathPathNodeToXml ⟨first, first.length⟩) (createPath first.length)
    = some d ∧ d.usable = some p ∧ List.Forall₂ SameStep first p.steps

/-- A step without predicates and with a name that fits. -/
def AstStep.Plain (a : AstStep) : Prop := a.pred = [] ∧ a.stepName.chars.length ≤ 12

variable {first : List AstStep} {a : AstStep}

/-! ## 2. The attributes and the name of a step

What the encoder writes for one step is what the decoder reads. -/

theorem pathType_prop (t : AstPathType) :
    zpathPathTypeToXml t = ("pathType", (zpathPathTypeToXml t).2) := by
  cases t <;> rfl

theorem stepType_prop (t : AstStepType) :
    zpathStepTypeToXml t = ("stepType", (zpathStepTypeToXml t).2) := by
  cases t <;> rfl

theorem getPathType_step (a : AstStep) : getPathType (zpathStepToXml a)
    = some a.pType.onServer := by
  have hprop : xmlGetProp (zpathStepToXml a) "pathType" = some (zpathPathTypeToXml a.pType).2 := by
    rw [zpathStepToXml, pathType_prop]
    simp
  simp only [getPathType, hprop]
  cases a.pType <;> decide

theorem getStepType_step (a : AstStep) : getStepType (zpathStepToXml a)
    = some a.sType.onServer := by
  have hprop : xmlGetProp (zpathStepToXml a) "stepType" = some (zpathStepTypeToXml a.sType).2 := by
    rw [zpathStepToXml, pathType_prop, stepType_prop]
    simp
  simp only [getStepType, hprop]
  cases a.sType <;> decide

/-- There is no text below a predicate node. -/
theorem content_predicate (chain : List AstPredicate) :
    (zpathPredicateToXml chain).content = [] := by
  simp [zpathPredicateToXml, zpathPredicateElementToXml, XmlNode.content]

/-- **The text of a step is its name.** -/
theorem xmlNodeGetContent_step (a : AstStep) : xmlNodeGetContent (zpathStepToXml a)
    = a.stepName := by
  have hcontent : (zpathStepToXml a).content = a.stepName.chars := by
    by_cases h : a.stepName.chars = [] <;>
      simp [zpathStepToXml, XmlNode.content, textChildren, h, content_predicate]
  exact xmlNodeGetContent_eq hcontent

/-! ## 3. The predicate of a step

The decoder searches below the node of the path, so it finds the predicate of the first step for
each step. -/

/-- **The first predicate node below a path is that of its first step.** -/
theorem findNodeByName_path (size : Nat) (a : AstStep) (rest : List AstStep) :
    findNodeByName [zpathPathNodeToXml ⟨a :: rest, size⟩] "predicate"
      = some (zpathPredicateToXml a.pred) := by
  have hfound : findNodeByName [zpathPredicateToXml a.pred] "predicate"
      = some (zpathPredicateToXml a.pred) := findNodeByName_self rfl []
  refine findNodeByName_below (by decide) (findNodeByName_below (by decide) ?_)
  by_cases h : a.stepName.chars = []
  · simpa [textChildren, h] using hfound
  · simpa [textChildren, h, findNodeByName_text] using hfound

/-- Every step gets the predicate of the first one. -/
theorem getStepPredicate_path (size : Nat) (a : AstStep) (rest : List AstStep) :
    getStepPredicate (zpathPathNodeToXml ⟨a :: rest, size⟩)
      = (sizeProp (zpathPredicateToXml a.pred)).bind fun st =>
        if st ≠ 0 then (createPredicateFromXml (zpathPredicateToXml a.pred)).map some
        else some none := by
  rw [getStepPredicate, findNodeByName_path]
  simp only [Option.bind_eq_bind, Option.bind_some]
  congr 1
  funext st
  split
  · cases createPredicateFromXml (zpathPredicateToXml a.pred) <;> rfl
  · rfl

/-- Where the first step has none, no step gets one. -/
theorem getStepPredicate_none (size : Nat) (rest : List AstStep) (h : a.pred = []) :
    getStepPredicate (zpathPathNodeToXml ⟨a :: rest, size⟩) = some none := by
  have hzero : str2long (sprintfZu 0) = (.success, some 0) := str2long_sprintfZu (by decide)
  rw [getStepPredicate_path, h]
  simp [sizeProp, zpathPredicateToXml, hzero]

/-! ## 4. Paths

With plain steps no predicate node is used, and the path is decoded step by step. -/

/-- A usable path has no predicates. -/
theorem PathWith.usable_pred {d : PathWith BlockPredicate} {p : Path} (h : d.usable = some p) :
    ∀ s ∈ p.steps, s.pred = [] := by
  unfold PathWith.usable at h
  split at h
  · cases h
    simp
  · cases h

/-- **Only a path of plain steps arrives.** -/
theorem PathArrives.plain (h : PathArrives first) : ∀ a ∈ first, a.Plain := by
  obtain ⟨d, p, -, hp, hsame⟩ := h
  intro a ha
  obtain ⟨hlen, hget⟩ := List.forall₂_iff_get.mp hsame
  obtain ⟨i, hi, rfl⟩ := List.mem_iff_getElem.mp ha
  have hs : SameStep first[i] (p.steps.get ⟨i, hlen ▸ hi⟩) := hget i hi (hlen ▸ hi)
  have hpred := hs.pred
  rw [PathWith.usable_pred hp _ (List.get_mem _ _)] at hpred
  exact ⟨List.forall₂_nil_right_iff.mp hpred, hs.stepName ▸ Name.short _⟩

/-- The step of the server for a plain step. -/
def AstStep.decoded (a : AstStep) (h : a.Plain) : StepWith BlockPredicate :=
  ⟨a.pType.onServer, ⟨a.stepName.chars, h.2, a.stepName.noNul⟩, a.sType.onServer, none⟩

/-- A plain step of a path without predicates is read as it was written. -/
theorem getStep_plain {pathNode : XmlNode} (hpath : getStepPredicate pathNode = some none)
    (h : a.Plain) : getStep pathNode (zpathStepToXml a) = some (a.decoded h) := by
  rw [getStep, getPathType_step, getStepType_step, xmlNodeGetContent_step, strcpyName_of_short h.2,
    hpath]
  rfl

/-- **A path of plain steps is read step by step.** -/
theorem steps_plain {pathNode : XmlNode} (hpath : getStepPredicate pathNode = some none)
    (h : ∀ a ∈ first, a.Plain) (p : PathWith BlockPredicate)
    (hroom : p.steps.length + first.length ≤ p.size) :
    ∃ ds : List (StepWith BlockPredicate),
      (zpathPathToXml first).foldlM (fun p temp => do
        let s ← getStep pathNode temp
        pure (addStep p s)) p = some { p with steps := p.steps ++ ds } ∧
      (∀ s ∈ ds, s.pred = none) ∧
      List.Forall₂ SameStep first (ds.map fun s => ⟨s.pType, s.stepName, s.sType, []⟩) := by
  induction first generalizing p with
  | nil => exact ⟨[], by simp [zpathPathToXml], by simp, .nil⟩
  | cons a first ih =>
    have ha := h a List.mem_cons_self
    rw [List.length_cons] at hroom
    have hadd : addStep p (a.decoded ha) = { p with steps := p.steps ++ [a.decoded ha] } :=
      if_pos (by omega)
    obtain ⟨ds, hds, hnone, hsame⟩ := ih (fun b hb => h b (List.mem_cons_of_mem _ hb))
      { p with steps := p.steps ++ [a.decoded ha] } (by simp; omega)
    refine ⟨a.decoded ha :: ds, ?_, ?_, ?_⟩
    · rw [zpathPathToXml] at hds
      simp only [zpathPathToXml, List.map_cons, List.foldlM_cons, getStep_plain hpath ha]
      simp only [Option.pure_def, Option.bind_eq_bind, Option.bind_some, hadd] at hds ⊢
      rw [hds]
      simp
    · intro s hs
      rcases List.mem_cons.mp hs with rfl | hs
      · rfl
      · exact hnone s hs
    · refine .cons ⟨rfl, rfl, rfl, ?_⟩ hsame
      rw [ha.1]
      exact .nil

/-- **A path arrives as it was sent** exactly when its steps are plain: no predicates on any step,
and names of at most 12 bytes.  The decoder takes the first predicate node below the path for all
steps, and keeps what it reads there in a variable that has ended when the path is used. -/
theorem path_codec (hne : first ≠ []) : PathArrives first ↔ ∀ a ∈ first, a.Plain := by
  refine ⟨PathArrives.plain, ?_⟩
  intro h
  obtain ⟨a, rest, rfl⟩ := List.exists_cons_of_ne_nil hne
  have hpath := getStepPredicate_none (a :: rest).length rest (h a List.mem_cons_self).1
  obtain ⟨ds, hds, hnone, hsame⟩ := steps_plain hpath h (createPath (a :: rest).length)
    (by simp [createPath])
  refine ⟨_, _, (if_neg ?_).trans hds, if_pos ?_, hsame⟩
  · simp [zpathPathNodeToXml, XmlNode.children, zpathPathToXml]
  · simpa [createPath] using hnone

/-- `/"a"//@"b";` -/
def plainPath : List AstStep :=
  [⟨.absolutePath, xmlChar "a", .documentStep, []⟩, ⟨.relativePath, xmlChar "b", .elementStep, []⟩]

theorem path_codec_plain : PathArrives plainPath :=
  (path_codec (by simp [plainPath])).mpr (by
    simp only [plainPath, List.mem_cons, List.not_mem_nil, or_false]
    rintro a (rfl | rfl)
    · exact ⟨rfl, by decide⟩
    · exact ⟨rfl, by decide⟩)

/-- Two steps, the second with a predicate, which is lost. -/
theorem predicate_of_second_step_lost : ¬ PathArrives
    [⟨.absolutePath, xmlChar "a", .documentStep, []⟩,
      ⟨.absolutePath, xmlChar "b", .documentStep, [⟨.none, false, .byDocumentNumber 0⟩]⟩] := by
  intro h
  have hplain := h.plain _ (List.mem_cons_of_mem _ List.mem_cons_self)
  exact absurd hplain.1 (by simp)

end Zgdb
