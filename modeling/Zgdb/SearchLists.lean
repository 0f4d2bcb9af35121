/-
# The lists of a search

`data/result/resultlist.c` and `elresultlist.c` with the pointers, and the search of `zgdb.c` once
more, with its contexts and its results in such lists.  `none` stands for a pointer that is followed
and leads to no node, and for a loop that does not stop.

The search does to the lists what the search of `Find.lean` does (`findIf0_refines`).  It follows no
pointer that leads to no node, frees none twice, and when it comes back the heap has the nodes of
the list that it returns and is otherwise what it was (`search_remains`).  `deleteDocument` collects
the sons of the parent in such a list and goes back one link from its tail; it writes what the
deletion without pointers writes, and the heap is what it was (`deletion_remains`).
-/
import Zgdb.Find
import Zgdb.Lib.Outcome
import Zgdb.Lib.OwnedLists
import Zgdb.ListNodes

namespace Zgdb.Pointers

open Zgdb.Lib AddrSpace

/-! ## 1. The lists

Two kinds of lists with the same functions, which are written once. -/

/-- `resultList`, and likewise `eLresultList`. -/
structure ResultList where
  head : Nat
  tail : Nat
  size : Nat
deriving DecidableEq, Repr

def createResultList : ResultList := ⟨0, 0, 0⟩

def createElResultList : ResultList := createResultList

section Lists

variable {α : Type}

/-- `insertResult`, whatever a node carries. -/
def insertNewResult (heap : DHeap α) (list : ResultList) (data : α) :
    Option (DHeap α × ResultList) := do
  let newResult := heap.top + 1
  let heap := heap.malloc data
  let list := { list with size := field40 (list.size + 1) }
  if list.head = 0 then
    let heap ← heap.setPrev newResult 0
    return (heap, { list with head := newResult, tail := newResult })
  let heap ← heap.setPrev newResult list.tail
  let heap ← heap.setNext list.tail newResult
  return (heap, { list with tail := newResult })

/-- `destroyResultList`; `tail` and `size` are left as they were. -/
def destroyList (heap : DHeap α) (list : ResultList) : Option (DHeap α × ResultList) := do
  let heap ← heap.freeAll (heap.top + 1) list.head
  return (heap, { list with head := 0 })

end Lists

def insertResult (heap : DHeap Document) (list : ResultList) (document : Document) :
    Option (DHeap Document × ResultList) :=
  insertNewResult heap list document

def insertElResult (heap : DHeap (Document × ElementEntry)) (list : ResultList)
    (document : Document) (el : ElementEntry) :
    Option (DHeap (Document × ElementEntry) × ResultList) :=
  insertNewResult heap list (document, el)

def destroyResultList (heap : DHeap Document) (list : ResultList) :
    Option (DHeap Document × ResultList) :=
  destroyList heap list

def destroyElResultList (heap : DHeap (Document × ElementEntry)) (list : ResultList) :
    Option (DHeap (Document × ElementEntry) × ResultList) :=
  destroyList heap list

/-! ## 2. The search

The functions of `Find.lean` where they touch a list.  The heap is part of what a step carries
along. -/

/-- The heap, with the nodes of either kind. -/
structure SearchHeap where
  results : DHeap Document
  elResults : DHeap (Document × ElementEntry)

/-- `findIfResult` -/
structure FindIfResult where
  type : ResultType
  documentList : ResultList
  elementList : ResultList

/-- What a step accumulates. -/
structure StepState where
  heap : SearchHeap
  docNumber : Nat
  tempContextList : ResultList
  ifResult : FindIfResult

section Search

variable {A : Type} [BlockSpace A]

/-- The loop of `join`. -/
def joinLoop (env : SearchEnv) (file : ZgdbFile A) (parent : Document) (s : Step) :
    (fuel : Nat) → (tempIndex docNumber : Nat) → DHeap Document → (pList : ResultList) →
      Option (DHeap Document × ResultList)
  | 0, _, _, _, _ => none
  | fuel + 1, tempIndex, docNumber, heap, pList =>
    if tempIndex = 0 then some (heap, pList)
    else do
      let tempHeader := getDocumentHeader file tempIndex
      let temp : Document :=
        ⟨isRootDocumentHeader tempHeader, parent.header.indexAttached, tempHeader⟩
      let (heap, pList) ←
        if calculatePredicate env file temp s docNumber then insertResult heap pList temp
        else some (heap, pList)
      joinLoop env file parent s fuel tempHeader.indexBrother (docNumber + 1) heap pList

def join (env : SearchEnv) (fuel : Nat) (file : ZgdbFile A) (parent : Document)
    (p : List Predicate) (heap : DHeap Document) : Option (DHeap Document × ResultList) :=
  joinLoop env file parent ⟨.absolutePath, parent.header.name, .documentStep, p⟩ fuel
    parent.header.indexSon 0 heap createResultList

/-- The context that a match leaves is inserted. -/
def insertContext (file : ZgdbFile A) (temp : Document) (st : StepState) : Option StepState :=
  if temp.header.indexSon ≠ 0 then do
    let child : Document :=
      ⟨false, temp.header.indexAttached, getDocumentHeader file temp.header.indexSon⟩
    let (heap, list) ← insertResult st.heap.results st.tempContextList child
    return { st with heap := { st.heap with results := heap }, tempContextList := list }
  else some st

/-- A document that was found is inserted. -/
def insertFound (temp : Document) (st : StepState) : Option StepState := do
  let (heap, list) ← insertResult st.heap.results st.ifResult.documentList temp
  return { st with
    heap := { st.heap with results := heap }
    ifResult := { st.ifResult with type := .documentResult, documentList := list } }

/-- What a match leaves. -/
def insertMatch (file : ZgdbFile A) (last : Bool) (temp : Document) (st : StepState) :
    Option StepState := do
  let st ← insertContext file temp st
  if last then insertFound temp st else some st

/-- The body of the inner loop for a document step. -/
def matchDocument (env : SearchEnv) (file : ZgdbFile A) (s : Step) (last : Bool) (temp : Document)
    (st : StepState) : Option StepState :=
  if temp.header.name = s.stepName then do
    let docNumber := st.docNumber + 1
    let st ←
      if calculatePredicate env file temp s st.docNumber then insertMatch file last temp st
      else some st
    return { st with docNumber := docNumber }
  else some st

/-- The body of the loop over the elements. -/
def matchElement (s : Step) (last : Bool) (temp : Document) (st : StepState) (e : ElementEntry) :
    Option StepState :=
  if e.key = s.stepName ∧ last then do
    let (heap, list) ← insertElResult st.heap.elResults st.ifResult.elementList temp e
    return { st with
      heap := { st.heap with elResults := heap }
      ifResult := { st.ifResult with type := .elementResult, elementList := list } }
  else some st

/-- The body of the inner loop for an element step. -/
def matchElements (file : ZgdbFile A) (s : Step) (last : Bool) (temp : Document) (st : StepState) :
    Option StepState :=
  (elementEntries file temp true).foldlM (matchElement s last temp) st

/-- The body of the inner loop. -/
def matchStep (env : SearchEnv) (file : ZgdbFile A) (s : Step) (last : Bool) (temp : Document)
    (st : StepState) : Option StepState :=
  match s.sType with
  | .documentStep => matchDocument env file s last temp st
  | .elementStep => matchElements file s last temp st

/-- The inner loop over one context. -/
def scanLoop (env : SearchEnv) (file : ZgdbFile A) (s : Step) (last : Bool) (prevDepth : Nat) :
    (fuel : Nat) → DocumentIterator → (depth : Nat) → StepState → Option (Nat × StepState)
  | 0, _, _, _ => none
  | fuel + 1, it, depth, st =>
    if hasNextDoc it ∧ (s.pType = .absolutePath → depth = prevDepth) then do
      let (temp, depth, it) := nextDoc file it
      let st ← matchStep env file s last temp st
      scanLoop env file s last prevDepth fuel it depth st
    else some (depth, st)

/-- The loop over the contexts of a step, from the node `tempRes` on. -/
def scanContexts (env : SearchEnv) (fuel : Nat) (file : ZgdbFile A) (s : Step) (last : Bool) :
    (walk : Nat) → (tempRes : Nat) → (depth : Nat) → StepState → Option (Nat × StepState)
  | 0, _, _, _ => none
  | walk + 1, tempRes, depth, st =>
    if tempRes = 0 then some (depth, st)
    else do
      let context ← st.heap.results.node tempRes
      let it := createDocIterator context.data.header.indexAttached context.data.indexParent depth
      let (depth, st) ← scanLoop env file s last depth fuel it depth { st with docNumber := 0 }
      let context ← st.heap.results.node tempRes
      scanContexts env fuel file s last walk context.next depth st

/-- The loop over the steps; the contexts of a step are destroyed behind it. -/
def findSteps (env : SearchEnv) (fuel : Nat) (file : ZgdbFile A) (size : Nat) :
    (i : Nat) → List Step → (contextList : ResultList) → (depth : Nat) → SearchHeap →
      FindIfResult → Option (SearchHeap × FindIfResult)
  | i, [], contextList, _, heap, ifResult =>
    if i = size then do
      let (results, _) ← destroyResultList heap.results contextList
      return ({ heap with results := results }, ifResult)
    else none
  | i, s :: rest, contextList, depth, heap, ifResult => do
    let (depth, st) ← scanContexts env fuel file s (i + 1 = size) (heap.results.top + 1)
      contextList.head depth ⟨heap, 0, createResultList, ifResult⟩
    let (results, _) ← destroyResultList st.heap.results contextList
    findSteps env fuel file size (i + 1) rest st.tempContextList (depthAfter s.pType depth)
      { st.heap with results := results } st.ifResult

def findIf0 (env : SearchEnv) (fuel : Nat) (file : ZgdbFile A) (order orderParent : Nat) (p : Path)
    (heap : SearchHeap) (ifResult : FindIfResult) : Option (SearchHeap × FindIfResult) :=
  let rootIterator := createDocIterator order orderParent 0
  let contextList := createResultList
  let (root, _, rootIterator) := nextDoc file rootIterator
  if isBarePath p .absolutePath then do
    let (results, list) ← insertResult heap.results ifResult.documentList root
    let (results, _) ← destroyResultList results contextList
    return ({ heap with results := results },
      { ifResult with type := .documentResult, documentList := list })
  else if isBarePath p .relativePath then do
    let (results, list) ← join env fuel file root [] heap.results
    return ({ heap with results := results },
      { ifResult with type := .documentResult, documentList := list })
  else if hasNextDoc rootIterator then do
    let (context, depth, _) := nextDoc file rootIterator
    let (results, contextList) ← insertResult heap.results contextList context
    findSteps env fuel file p.size 0 p.steps contextList depth { heap with results := results }
      ifResult
  else some (heap, ifResult)

def findIfFromRoot (env : SearchEnv) (fuel : Nat) (file : ZgdbFile A) (p : Path)
    (heap : SearchHeap) : Option (SearchHeap × FindIfResult) := do
  let rList := createResultList
  let eList := createElResultList
  let (heap, ifResult) ← findIf0 env fuel file 0 0 p heap ⟨.undefinedResult, rList, eList⟩
  match ifResult.type with
  | .elementResult =>
    let (results, list) ← destroyResultList heap.results ifResult.documentList
    return ({ heap with results := results }, { ifResult with documentList := list })
  | .documentResult =>
    let (elResults, list) ← destroyElResultList heap.elResults ifResult.elementList
    return ({ heap with elResults := elResults }, { ifResult with elementList := list })
  | .undefinedResult =>
    let (elResults, eList) ← destroyElResultList heap.elResults ifResult.elementList
    let (results, rList) ← destroyResultList heap.results ifResult.documentList
    return (⟨results, elResults⟩, { ifResult with documentList := rList, elementList := eList })

end Search

/-! ## 3. The lists and their owners

A list owns its nodes.  The nodes of different lists are different, and together they are all that
has been allocated. -/

/-- The list as the code has it. -/
def listOf {α : Type} (l : Linked α) : ResultList := ⟨l.head, l.tail, field40 l.nodes.length⟩

section Owners

variable {α : Type} {h0 h : DHeap α} {l : Linked α}

theorem listOf_empty : listOf (.empty : Linked α) = createResultList := rfl

/-- **An insertion** links a new node in at the tail. -/
theorem insertNewResult_owns (ls ls' : List (Linked α)) (ho : Owns h0 h (ls ++ l :: ls')) (a : α) :
    ∃ h', insertNewResult h (listOf l) a = some (h', listOf (l.push (h.top + 1) a)) ∧
      Owns h0 h' (ls ++ l.push (h.top + 1) a :: ls') := by
  have hfront := ho.toFront
  have hl := hfront.dlist List.mem_cons_self
  have hsize : field40 (field40 l.nodes.length + 1)
      = field40 (l.nodes ++ [(h.top + 1, a)]).length := by
    simp [field40]
  unfold insertNewResult
  by_cases hnil : l.nodes = []
  · have hhead : (listOf l).head = 0 := hl.head_eq_null.mpr hnil
    refine ⟨_, ?_, (hfront.pushFirst hnil a).toMiddle⟩
    rw [if_pos hhead, DHeap.setPrev_eq DHeap.malloc_self]
    simp only [listOf, Linked.push, if_pos hnil, ← hsize]
    rfl
  · have hhead : (listOf l).head ≠ 0 := fun h0 => hnil (hl.head_eq_null.mp h0)
    refine ⟨_, ?_, (hfront.pushBack hnil a).toMiddle⟩
    have htail : ((h.malloc a).node l.tail).isSome = true := by
      obtain ⟨xs, x, hxs⟩ := (List.eq_nil_or_concat' l.nodes).resolve_left hnil
      have hs := hl.segment.malloc a
      rw [hxs] at hs
      obtain ⟨before, -, hx, hlast⟩ := segment_concat.mp hs
      rw [hlast, hx]
      rfl
    rw [if_neg hhead, DHeap.setPrev_eq DHeap.malloc_self]
    simp only [listOf, Linked.push, if_neg hnil, ← hsize, Option.bind_eq_bind, Option.bind_some,
      DHeap.setNext, DHeap.isSome_modify, if_pos htail]
    rfl

/-- **A list that is destroyed** leaves the others; its `head` is NULL. -/
theorem destroyList_owns (ls ls' : List (Linked α)) (ho : Owns h0 h (ls ++ l :: ls')) :
    ∃ h', destroyList h (listOf l) = some (h', { listOf l with head := 0 }) ∧
      Owns h0 h' (ls ++ ls') := by
  have hfront := ho.toFront
  have hl := hfront.dlist List.mem_cons_self
  obtain ⟨h', hrun, htop, hgone, hsame⟩ :=
    hl.segment.freeAll hl.nodup (Nat.lt_succ_of_le hl.length_le_top)
  refine ⟨h', ?_, hfront.freed hgone hsame htop⟩
  unfold destroyList
  rw [show h.freeAll (h.top + 1) (listOf l).head = some h' from hrun]
  rfl

end Owners

/-! ## 4. One step

The result, the contexts of the step and those of the next one are three lists; a step adds to two
of them while it walks along the third. -/

/-- The heap has the lists of a result and the lists `ls`, and what was there before. -/
def Holds (h0 heap : SearchHeap) (ls : List (Linked Document)) (r : FindIfResult)
    (r' : Zgdb.FindIfResult) : Prop :=
  ∃ ds es, Owns h0.results heap.results (ls ++ [ds]) ∧ Owns h0.elResults heap.elResults [es] ∧
    r = ⟨r'.type, listOf ds, listOf es⟩ ∧ ds.values = r'.documentList ∧ es.values = r'.elementList

/-- A step accumulates the same, besides its own contexts. -/
def Accumulates (h0 : SearchHeap) (context : Linked Document) (st : StepState)
    (st' : Zgdb.StepState) : Prop :=
  ∃ ts, Holds h0 st.heap [ts, context] st.ifResult st'.ifResult ∧ st.tempContextList = listOf ts ∧
    ts.values = st'.tempContextList ∧ st.docNumber = st'.docNumber

section Steps

variable {A : Type} [BlockSpace A] {env : SearchEnv} {file : ZgdbFile A} {h0 : SearchHeap}
  {context : Linked Document} {st : StepState} {st' : Zgdb.StepState} {s : Step} {last : Bool}
  {temp : Document}

theorem insertContext_refines (file : ZgdbFile A) (temp : Document)
    (h : Accumulates h0 context st st') :
    ∃ st2, insertContext file temp st = some st2 ∧ Accumulates h0 context st2
      { st' with tempContextList := st'.tempContextList ++ childContext file temp } := by
  unfold insertContext childContext
  split
  · obtain ⟨ts, ⟨ds, es, hresults, helResults, heq, hds, hes⟩, htemp, hts, hnumber⟩ := h
    obtain ⟨heap, hinsert, ho⟩ := insertNewResult_owns [] [context, ds] hresults
      ⟨false, temp.header.indexAttached, getDocumentHeader file temp.header.indexSon⟩
    rw [← htemp] at hinsert
    refine ⟨⟨⟨heap, st.heap.elResults⟩, st.docNumber, listOf (ts.push _ _), st.ifResult⟩, ?_,
      ts.push _ _, ⟨ds, es, ho, helResults, heq, hds, hes⟩, rfl, ?_, hnumber⟩
    · simp only [insertResult, hinsert]
      rfl
    · rw [Linked.values_push, hts]
  · refine ⟨st, rfl, ?_⟩
    rw [List.append_nil]
    exact h

theorem insertFound_refines (temp : Document) (h : Accumulates h0 context st st') :
    ∃ st2, insertFound temp st = some st2 ∧ Accumulates h0 context st2
      { st' with ifResult := { st'.ifResult with
          type := .documentResult
          documentList := st'.ifResult.documentList ++ [temp] } } := by
  obtain ⟨ts, ⟨ds, es, hresults, helResults, heq, hds, hes⟩, htemp, hts, hnumber⟩ := h
  obtain ⟨heap, hinsert, ho⟩ := insertNewResult_owns [ts, context] [] hresults temp
  refine ⟨⟨⟨heap, st.heap.elResults⟩, st.docNumber, st.tempContextList,
    ⟨.documentResult, listOf (ds.push _ _), listOf es⟩⟩, ?_, ts,
    ⟨ds.push _ _, es, ho, helResults, rfl, ?_, hes⟩, htemp, hts, hnumber⟩
  · simp only [insertFound, insertResult, heq, hinsert]
    rfl
  · rw [Linked.values_push, hds]

theorem insertElResult_refines (s : Step) (temp : Document) (e : ElementEntry)
    (h : Accumulates h0 context st st') :
    ∃ st2, matchElement s true temp st e = some st2 ∧ Accumulates h0 context st2
      (if e.key = s.stepName then { st' with ifResult := { st'.ifResult with
          type := .elementResult
          elementList := st'.ifResult.elementList ++ [(temp, e)] } }
      else st') := by
  unfold matchElement
  by_cases hkey : e.key = s.stepName
  · obtain ⟨ts, ⟨ds, es, hresults, helResults, heq, hds, hes⟩, htemp, hts, hnumber⟩ := h
    obtain ⟨heap, hinsert, ho⟩ :=
      insertNewResult_owns [] [] helResults (temp, e)
    rw [if_pos ⟨hkey, rfl⟩, if_pos hkey]
    refine ⟨⟨⟨st.heap.results, heap⟩, st.docNumber, st.tempContextList,
      ⟨.elementResult, listOf ds, listOf (es.push _ _)⟩⟩, ?_, ts,
      ⟨ds, es.push _ _, hresults, ho, rfl, hds, ?_⟩, htemp, hts, hnumber⟩
    · simp only [insertElResult, heq, hinsert]
      rfl
    · rw [Linked.values_push, hes]
  · rw [if_neg fun hand => hkey hand.1, if_neg hkey]
    exact ⟨st, rfl, h⟩

theorem insertMatch_refines (file : ZgdbFile A) (last : Bool) (temp : Document)
    (h : Accumulates h0 context st st') :
    ∃ st2, insertMatch file last temp st = some st2 ∧ Accumulates h0 context st2
      { st' with
        tempContextList := st'.tempContextList ++ childContext file temp
        ifResult :=
          if last then
            { st'.ifResult with
              type := .documentResult
              documentList := st'.ifResult.documentList ++ [temp] }
          else st'.ifResult } := by
  obtain ⟨st2, hinsert, h2⟩ := insertContext_refines file temp h
  rw [insertMatch, hinsert]
  cases last with
  | true => exact insertFound_refines temp h2
  | false => exact ⟨st2, rfl, h2⟩

/-- **A document step.** -/
theorem matchDocument_refines (h : Accumulates h0 context st st') :
    ∃ st2, matchDocument env file s last temp st = some st2 ∧
      Accumulates h0 context st2 (Zgdb.matchDocument env file s last temp st') := by
  have hnumber : st.docNumber = st'.docNumber := by
    obtain ⟨ts, -, -, -, hnumber⟩ := h
    exact hnumber
  have hcount : ∀ {st2 : StepState} {st2' : Zgdb.StepState}, Accumulates h0 context st2 st2' →
      Accumulates h0 context { st2 with docNumber := st'.docNumber + 1 }
        { st2' with docNumber := st'.docNumber + 1 } := by
    rintro st2 st2' ⟨ts, hholds, htemp, hts, -⟩
    exact ⟨ts, hholds, htemp, hts, rfl⟩
  unfold matchDocument Zgdb.matchDocument
  split
  · rw [hnumber]
    by_cases hpred : calculatePredicate env file temp s st'.docNumber = true
    · obtain ⟨st2, hrun, h2⟩ := insertMatch_refines file last temp h
      simp only [if_pos hpred, hrun]
      exact ⟨_, rfl, hcount h2⟩
    · simp only [if_neg hpred]
      exact ⟨_, rfl, hcount h⟩
  · exact ⟨st, rfl, h⟩

/-- **An element step** that is the last one. -/
theorem foldlM_matchElement (s : Step) (temp : Document) (entries : List ElementEntry)
    (h : Accumulates h0 context st st') :
    ∃ st2, entries.foldlM (matchElement s true temp) st = some st2 ∧
      Accumulates h0 context st2
        (if entries.filter (·.key = s.stepName) ≠ [] then { st' with ifResult := { st'.ifResult with
            type := .elementResult
            elementList := st'.ifResult.elementList
              ++ (entries.filter (·.key = s.stepName)).map fun e => (temp, e) } }
        else st') := by
  induction entries generalizing st st' with
  | nil => exact ⟨st, rfl, h⟩
  | cons e entries ih =>
    obtain ⟨st2, hinsert, h2⟩ := insertElResult_refines s temp e h
    obtain ⟨st3, hrest, h3⟩ := ih h2
    refine ⟨st3, ?_, ?_⟩
    · rw [List.foldlM_cons, hinsert]
      exact hrest
    · by_cases hkey : e.key = s.stepName
      · rw [List.filter_cons_of_pos (by simpa using hkey), if_pos (List.cons_ne_nil _ _)]
        rw [if_pos hkey] at h3
        by_cases hnil : entries.filter (·.key = s.stepName) = []
        · rw [if_neg (not_not.mpr hnil)] at h3
          rw [hnil]
          exact h3
        · rw [if_pos hnil, List.append_assoc] at h3
          exact h3
      · rw [List.filter_cons_of_neg (by simpa using hkey)]
        rw [if_neg hkey] at h3
        exact h3

/-- **One match.** -/
theorem matchStep_refines (env : SearchEnv) (file : ZgdbFile A) (s : Step) (last : Bool)
    (temp : Document) (h : Accumulates h0 context st st') :
    ∃ st2, matchStep env file s last temp st = some st2 ∧
      Accumulates h0 context st2 (Zgdb.matchStep env file s last temp st') := by
  unfold matchStep Zgdb.matchStep
  cases s.sType with
  | documentStep => exact matchDocument_refines h
  | elementStep =>
    cases last with
    | true =>
      obtain ⟨st2, hrun, h2⟩ := foldlM_matchElement s temp (elementEntries file temp true) h
      refine ⟨st2, hrun, ?_⟩
      simpa only [Zgdb.matchElements, true_and] using h2
    | false =>
      have hskip : ∀ e, matchElement s false temp st e = some st := fun e => if_neg (by simp)
      have hrun : ∀ entries : List ElementEntry,
          entries.foldlM (matchElement s false temp) st = some st := by
        intro entries
        induction entries with
        | nil => rfl
        | cons e entries ih =>
          rw [List.foldlM_cons, hskip e]
          exact ih
      refine ⟨st, hrun _, ?_⟩
      simpa only [Zgdb.matchElements, Bool.false_eq_true, false_and, if_false] using h

/-- The same depth, and a step that accumulates the same. -/
def Scanned (h0 : SearchHeap) (context : Linked Document) (x : Nat × StepState)
    (y : Nat × Zgdb.StepState) : Prop :=
  x.1 = y.1 ∧ Accumulates h0 context x.2 y.2

/-- **One context.** -/
theorem scanLoop_refines {prevDepth fuel depth : Nat} {it : DocumentIterator}
    (h : Accumulates h0 context st st') :
    Option.Rel (Scanned h0 context) (scanLoop env file s last prevDepth fuel it depth st)
      (Zgdb.scanLoop env file s last prevDepth fuel it depth st') := by
  induction fuel generalizing it depth st st' with
  | zero => exact .none
  | succ fuel ih =>
    rw [scanLoop, Zgdb.scanLoop]
    split
    · obtain ⟨st2, hrun, h2⟩ := matchStep_refines env file s last _ h
      dsimp only
      rw [hrun]
      exact ih h2
    · exact .some ⟨rfl, h⟩

/-- **All contexts** of a step, from a node on. -/
theorem scanContexts_refines (env : SearchEnv) (fuel : Nat) (file : ZgdbFile A) (s : Step)
    (last : Bool) (depth : Nat) {walk : Nat} {pre rest : List (Nat × Document)}
    (h : Accumulates h0 context st st') (hnodes : context.nodes = pre ++ rest)
    (hwalk : rest.length < walk) :
    Option.Rel (Scanned h0 context)
      (scanContexts env fuel file s last walk (firstPointer rest) depth st)
      (Zgdb.scanContexts env fuel file s last (rest.map Prod.snd) depth st') := by
  induction rest generalizing pre walk depth st st' with
  | nil =>
    obtain ⟨walk, rfl⟩ : ∃ n, walk = n + 1 := ⟨walk - 1, by simp at hwalk; omega⟩
    exact .some ⟨rfl, h⟩
  | cons x rest ih =>
    obtain ⟨walk, rfl⟩ : ∃ n, walk = n + 1 := ⟨walk - 1, by omega⟩
    -- the node of the context is there, before the inner loop and behind it
    have hnode : ∀ {st st'}, Accumulates h0 context st st' →
        ∃ node, st.heap.results.node x.1 = some node ∧ node.data = x.2 ∧
          node.next = firstPointer rest := by
      rintro st st' ⟨ts, ⟨ds, es, hresults, -⟩, -⟩
      have hl := hresults.dlist (l := context) (by simp)
      rw [hnodes] at hl
      exact hl.node_at
    obtain ⟨node, hx, hdata, -⟩ := hnode h
    rw [scanContexts, if_neg (show firstPointer (x :: rest) ≠ 0 from DHeap.ne_null hx),
      List.map_cons, Zgdb.scanContexts]
    show Option.Rel _ (st.heap.results.node x.1 >>= _) _
    rw [hx]
    have hnumber : Accumulates h0 context { st with docNumber := 0 }
        { st' with docNumber := 0 } := by
      obtain ⟨ts, hholds, htemp, hts, -⟩ := h
      exact ⟨ts, hholds, htemp, hts, rfl⟩
    show Option.Rel _ (scanLoop env file s last depth fuel (createDocIterator
      node.data.header.indexAttached node.data.indexParent depth) depth _ >>= _) _
    rw [hdata]
    refine rel_bind (scanLoop_refines hnumber) ?_
    rintro ⟨depth2, st2⟩ ⟨_, st2'⟩ ⟨rfl, h2⟩
    obtain ⟨node2, hx2, -, hnext⟩ := hnode h2
    show Option.Rel _ (st2.heap.results.node x.1 >>= _) _
    rw [hx2]
    show Option.Rel _ (scanContexts env fuel file s last walk node2.next depth2 st2) _
    rw [hnext]
    have hnodes2 : context.nodes = (pre ++ [x]) ++ rest := by
      rw [hnodes, List.append_assoc, List.singleton_append]
    exact ih depth2 h2 hnodes2 (Nat.lt_of_succ_lt_succ hwalk)

end Steps

/-! ## 5. Searches

After each step the old contexts are destroyed.  At the end the lists that are not returned are. -/

section Searches

variable {A : Type} [BlockSpace A] {env : SearchEnv} {file : ZgdbFile A} {fuel : Nat}
  {h0 heap : SearchHeap}

/-- A heap and a result on it that is this one. -/
def Result (h0 : SearchHeap) (x : SearchHeap × FindIfResult) (r : Zgdb.FindIfResult) : Prop :=
  Holds h0 x.1 [] x.2 r

/-- **The steps** of a path. -/
theorem findSteps_refines {size i depth : Nat} {ss : List Step} {context : Linked Document}
    {r : FindIfResult} {r' : Zgdb.FindIfResult} (h : Holds h0 heap [context] r r') :
    Option.Rel (Result h0)
      (findSteps env fuel file size i ss (listOf context) depth heap r)
      (Zgdb.findSteps env fuel file size i ss context.values depth r') := by
  induction ss generalizing i depth context heap r r' with
  | nil =>
    rw [findSteps, Zgdb.findSteps]
    split
    · obtain ⟨ds, es, hresults, helResults, heq, hds, hes⟩ := h
      obtain ⟨results, hdestroy, ho⟩ := destroyList_owns [] [ds] hresults
      rw [destroyResultList, hdestroy]
      exact .some ⟨ds, es, ho, helResults, heq, hds, hes⟩
    · exact .none
  | cons s ss ih =>
    have hacc : Accumulates h0 context ⟨heap, 0, createResultList, r⟩ ⟨0, [], r'⟩ := by
      obtain ⟨ds, es, hresults, helResults, heq, hds, hes⟩ := h
      exact ⟨.empty, ⟨ds, es, hresults.begin, helResults, heq, hds, hes⟩, rfl, rfl, rfl⟩
    have hl : DList heap.results context.head context.tail context.nodes := by
      obtain ⟨ds, es, hresults, -⟩ := h
      exact hresults.dlist (l := context) (by simp)
    have hwalk := Nat.lt_succ_of_le hl.length_le_top
    rw [findSteps, Zgdb.findSteps]
    have hscan := scanContexts_refines env fuel file s (i + 1 = size) depth hacc
      (List.nil_append context.nodes).symm hwalk
    rw [← hl.segment.first_eq] at hscan
    refine rel_bind hscan ?_
    rintro ⟨depth2, st2⟩ ⟨depth2', st2'⟩ ⟨hdepth, ts, hholds, htemp, hts, -⟩
    obtain rfl : depth2 = depth2' := hdepth
    obtain ⟨ds, es, hresults, helResults, heq, hds, hes⟩ := hholds
    dsimp only at hts ⊢
    obtain ⟨results, hdestroy, ho⟩ := destroyList_owns [ts] [ds] hresults
    rw [destroyResultList, hdestroy, show st2.tempContextList = listOf ts from htemp, ← hts]
    exact ih ⟨ds, es, ho, helResults, heq, hds, hes⟩

/-- The loop of `join`. -/
theorem joinLoop_refines {parent : Document} {s : Step} {tempIndex docNumber : Nat}
    {h h1 : DHeap Document} {l : Linked Document} (ho : Owns h1 h [l]) :
    Option.Rel (fun x list => ∃ l', x.2 = listOf l' ∧ l'.values = l.values ++ list ∧
        Owns h1 x.1 [l'])
      (joinLoop env file parent s fuel tempIndex docNumber h (listOf l))
      (Zgdb.joinLoop env file parent s fuel tempIndex docNumber) := by
  induction fuel generalizing tempIndex docNumber h l with
  | zero => exact .none
  | succ fuel ih =>
    rw [joinLoop, Zgdb.joinLoop]
    split
    · exact .some ⟨l, rfl, (List.append_nil _).symm, ho⟩
    · dsimp only
      split
      · obtain ⟨h', hinsert, ho'⟩ := insertNewResult_owns [] [] ho
          ⟨isRootDocumentHeader (getDocumentHeader file tempIndex), parent.header.indexAttached,
            getDocumentHeader file tempIndex⟩
        rw [insertResult, hinsert]
        refine rel_map (ih ho') ?_
        rintro ⟨h2, pList⟩ list ⟨l', hlist, hvalues, ho2⟩
        refine ⟨l', hlist, ?_, ho2⟩
        rw [hvalues, Linked.values_push, List.append_assoc, List.singleton_append]
      · refine rel_map (ih ho) ?_
        intro x list hx
        exact hx

/-- **The sons** of a document, in a new list. -/
theorem join_refines {parent : Document} {p : List Predicate} {h : DHeap Document} :
    Option.Rel (fun x list => ∃ l, x.2 = listOf l ∧ l.values = list ∧ Owns h x.1 [l])
      (join env fuel file parent p h) (Zgdb.join env fuel file parent p) :=
  joinLoop_refines (l := .empty) (Owns.refl h).begin

/-- **The search** on pointers. -/
theorem findIf0_refines {order orderParent : Nat} {p : Path} :
    Option.Rel (Result h0)
      (findIf0 env fuel file order orderParent p h0
        ⟨.undefinedResult, createResultList, createElResultList⟩)
      (Zgdb.findIf0 env fuel file order orderParent p ⟨.undefinedResult, [], []⟩) := by
  have hdocs : Owns h0.results h0.results [.empty] := (Owns.refl _).begin
  have hels : Owns h0.elResults h0.elResults [.empty] := (Owns.refl _).begin
  unfold findIf0 Zgdb.findIf0
  dsimp only
  generalize nextDoc file (createDocIterator order orderParent 0) = next
  obtain ⟨root, depth, rootIterator⟩ := next
  split
  · obtain ⟨results, hinsert, ho⟩ := insertNewResult_owns [] [] hdocs root
    obtain ⟨results', hdestroy, ho'⟩ := destroyList_owns [] _ ho.begin
    rw [listOf_empty] at hinsert hdestroy
    simp only [insertResult, destroyResultList, hinsert, hdestroy, Option.bind_eq_bind,
      Option.bind_some]
    exact .some ⟨_, .empty, ho', hels, rfl, rfl, rfl⟩
  split
  · rw [Option.map_eq_bind]
    refine rel_bind join_refines ?_
    rintro ⟨results, pList⟩ list ⟨l, rfl, hvalues, ho⟩
    exact .some ⟨l, .empty, ho, hels, rfl, hvalues, rfl⟩
  split
  · obtain ⟨results, hinsert, ho⟩ := insertNewResult_owns [] [.empty] hdocs.begin _
    rw [listOf_empty] at hinsert
    rw [insertResult, hinsert]
    exact findSteps_refines ⟨.empty, .empty, ho, hels, rfl, rfl, rfl⟩
  · exact .some ⟨.empty, .empty, hdocs, hels, rfl, rfl, rfl⟩

end Searches

/-! ## 6. What is left

From the owners to the heap: a node that has no owner any more is free. -/

/-- Since `h0` there are the nodes `ps` of the list, which carry `xs`, and nothing else is changed.
The list can be followed in both directions, its nodes are new ones, and no node that was allocated
before has been freed or written. -/
structure Remains {α : Type} (h0 h : DHeap α) (list : ResultList) (ps : List Nat) (xs : List α) :
    Prop where
  next : Follows (nextOf h) list.head ps 0
  prev : xs ≠ [] → Follows (prevOf h) list.tail ps.reverse 0
  data : ps.map (dataOf h) = xs.map some
  nodup : ps.Nodup
  new : ∀ p ∈ ps, h0.node p = none
  rest : ∀ p, p ∉ ps → h.node p = h0.node p

section Remaining

variable {α : Type} {h0 h : DHeap α} {l : Linked α}

theorem remains_of_owns (ho : Owns h0 h [l]) : Remains h0 h (listOf l) l.pointers l.values := by
  have hl := ho.dlist List.mem_cons_self
  have hall : allPointers [l] = l.pointers := by simp
  refine ⟨hl.next_chain, fun _ => hl.prev_chain, hl.segment.data, hl.nodup, ?_, ?_⟩
  · intro p hp
    exact h0.fresh p (ho.fresh p (hall ▸ hp))
  · intro p hp
    exact ho.rest p (hall ▸ hp)

/-- A list that was destroyed. -/
theorem remains_of_destroyed (ho : Owns h0 h []) :
    Remains h0 h { listOf l with head := 0 } [] [] :=
  ⟨rfl, fun hne => absurd rfl hne, rfl, List.nodup_nil, fun _ hp => (by cases hp),
    fun p hp => ho.rest p hp⟩

end Remaining

/-- **A search leaves nothing behind** but its result.  On any heap, whatever the file contains, the
search on pointers comes back when the search on lists does.  The list of its result is linked both
ways and carries what that one finds, in its order; every node that was allocated for a context, or
for the list that is not returned, is freed, and no other pointer of the heap is changed. -/
theorem search_remains {A : Type} [BlockSpace A] (env : SearchEnv) (fuel : Nat) (file : ZgdbFile A)
    (p : Path) (h0 : SearchHeap) :
    Option.Rel (fun x r => x.2.type = r.type ∧
        (∃ ps, Remains h0.results x.1.results x.2.documentList ps r.documentList) ∧
        ∃ ps, Remains h0.elResults x.1.elResults x.2.elementList ps r.elementList)
      (findIfFromRoot env fuel file p h0) (Zgdb.findIfFromRoot env fuel file p) := by
  unfold findIfFromRoot Zgdb.findIfFromRoot
  rw [Option.map_eq_bind]
  refine rel_bind findIf0_refines ?_
  rintro ⟨heap, r⟩ r' ⟨ds, es, hresults, helResults, heq, hds, hes⟩
  obtain rfl : r = ⟨r'.type, listOf ds, listOf es⟩ := heq
  have hkept : ∃ ps, Remains h0.results heap.results (listOf ds) ps r'.documentList :=
    ⟨_, hds ▸ remains_of_owns hresults⟩
  have hkept' : ∃ ps, Remains h0.elResults heap.elResults (listOf es) ps r'.elementList :=
    ⟨_, hes ▸ remains_of_owns helResults⟩
  obtain ⟨results, hdestroy, ho⟩ := destroyList_owns [] [] hresults
  obtain ⟨elResults, hdestroy', ho'⟩ := destroyList_owns [] [] helResults
  cases htype : r'.type with
  | undefinedResult =>
    simp only [destroyResultList, destroyElResultList, hdestroy, hdestroy', Option.bind_eq_bind,
      Option.bind_some, Zgdb.FindIfResult.destroyLists, htype, Function.comp_apply]
    exact .some ⟨rfl, ⟨[], remains_of_destroyed ho⟩, [], remains_of_destroyed ho'⟩
  | documentResult =>
    simp only [destroyElResultList, hdestroy', Option.bind_eq_bind, Option.bind_some,
      Zgdb.FindIfResult.destroyLists, htype, Function.comp_apply]
    exact .some ⟨rfl, hkept, [], remains_of_destroyed ho'⟩
  | elementResult =>
    simp only [destroyResultList, hdestroy, Option.bind_eq_bind, Option.bind_some,
      Zgdb.FindIfResult.destroyLists, htype, Function.comp_apply]
    exact .some ⟨rfl, ⟨[], remains_of_destroyed ho⟩, hkept'⟩

/-! ## 7. Deletions

The list of sons is walked from its tail, one link.  That is where the list without pointers has its
last but one. -/

section Deletion

variable {A : Type} [BlockSpace A]

/-- The first loop of `deleteDocument`. -/
def scanSons (file : ZgdbFile A) (doc : Document) : (fuel : Nat) → (tempIndex : Nat) →
    DHeap Document → (pList : ResultList) → Option (DHeap Document × ResultList)
  | 0, _, _, _ => none
  | fuel + 1, tempIndex, heap, pList =>
    if tempIndex = 0 then some (heap, pList)
    else do
      let tempHeader := getDocumentHeader file tempIndex
      let tempD : Document :=
        ⟨isRootDocumentHeader tempHeader, doc.header.indexAttached, tempHeader⟩
      let (heap, pList) ← insertResult heap pList tempD
      if doc.header.indexAttached = tempHeader.indexAttached then some (heap, pList)
      else scanSons file doc fuel tempHeader.indexBrother heap pList

/-- The link to the document at the tail now leads to its brother. -/
def unlink (file : ZgdbFile A) (heap : DHeap Document) (pList : ResultList) :
    Option (ZgdbFile A) := do
  let forDelete ← heap.node pList.tail
  let par ← heap.node pList.head
  if par.data.header.indexSon = forDelete.data.header.indexAttached then
    some (writeHeader file
      { par.data.header with indexSon := forDelete.data.header.indexBrother })
  else do
    let prev ← heap.node forDelete.prev
    some (writeHeader file
      { prev.data.header with indexBrother := forDelete.data.header.indexBrother })

def deleteDocument (fuel : Nat) (file : ZgdbFile A) (doc : Document) (heap : DHeap Document) :
    Option (ZgdbFile A × DHeap Document) := do
  let parentHeader := getDocumentHeader file doc.indexParent
  let parent : Document := ⟨isRootDocumentHeader parentHeader, 0, parentHeader⟩
  let (heap, pList) ← insertResult heap createResultList parent
  let (heap, pList) ← scanSons file doc fuel parentHeader.indexSon heap pList
  let file ← unlink file heap pList
  let file := del doc file
  let (heap, _) ← destroyResultList heap pList
  let file ← deleteSubtree fuel file doc
  let file ← freeToasts fuel file doc.header.firstToastIndex
  return (file, heap)

variable {file : ZgdbFile A} {doc : Document} {fuel : Nat} {h0 h : DHeap Document}
  {l : Linked Document}

theorem scanSons_refines {tempIndex : Nat} (ho : Owns h0 h [l]) :
    Option.Rel (fun x sons => ∃ l', x.2 = listOf l' ∧ l'.values = l.values ++ sons ∧
        Owns h0 x.1 [l'])
      (scanSons file doc fuel tempIndex h (listOf l)) (Zgdb.scanSons file doc fuel tempIndex) := by
  induction fuel generalizing tempIndex h l with
  | zero => exact .none
  | succ fuel ih =>
    rw [scanSons, Zgdb.scanSons]
    split
    · exact .some ⟨l, rfl, (List.append_nil _).symm, ho⟩
    · obtain ⟨h', hinsert, ho'⟩ := insertNewResult_owns [] [] ho
        ⟨isRootDocumentHeader (getDocumentHeader file tempIndex), doc.header.indexAttached,
          getDocumentHeader file tempIndex⟩
      simp only [insertResult, hinsert, Option.bind_eq_bind, Option.bind_some]
      split
      · exact .some ⟨_, rfl, Linked.values_push _ _ _, ho'⟩
      · refine rel_map (ih ho') ?_
        rintro ⟨h2, pList⟩ sons ⟨l', hlist, hvalues, ho2⟩
        refine ⟨l', hlist, ?_, ho2⟩
        rw [hvalues, Linked.values_push, List.append_assoc, List.singleton_append]

/-- **The link back** from the tail leads to the document before the last one. -/
theorem unlink_eq (file : ZgdbFile A) {par : Document} {sons : List Document}
    (hl : DList h l.head l.tail l.nodes)
    (hvalues : l.values = par :: sons) :
    unlink file h (listOf l) = Zgdb.unlink file par sons := by
  rcases List.eq_nil_or_concat' l.nodes with hnil | ⟨xs, x, hxs⟩
  · simp [Linked.values, hnil] at hvalues
  have hlast : (par :: sons).getLast (List.cons_ne_nil _ _) = x.2 := by
    have hlast? : (par :: sons).getLast? = some x.2 := by
      rw [← hvalues, Linked.values, hxs]
      simp
    rw [List.getLast?_eq_some_getLast (List.cons_ne_nil _ _)] at hlast?
    exact Option.some.inj hlast?
  have hprev : (par :: sons).dropLast = xs.map Prod.snd := by
    rw [← hvalues, Linked.values, hxs]
    simp
  have hhead : ∃ node, h.node l.head = some node ∧ node.data = par := by
    cases hnodes : l.nodes with
    | nil => simp [hnodes] at hxs
    | cons z zs =>
      have hs := hl.segment
      rw [hnodes] at hs
      obtain ⟨hz, next, hnode, -⟩ := hs
      rw [Linked.values, hnodes, List.map_cons] at hvalues
      exact ⟨_, hz ▸ hnode, (List.cons.inj hvalues).1⟩
  have hs := hl.segment
  rw [hxs] at hs
  obtain ⟨before, hfront, hx, htail⟩ := segment_concat.mp hs
  obtain ⟨node, hnode, rfl⟩ := hhead
  have htailNode : h.node (listOf l).tail = some ⟨x.2, 0, before⟩ := by
    show h.node l.tail = _
    rw [htail, hx]
  have hheadNode : h.node (listOf l).head = some node := hnode
  simp only [unlink, Zgdb.unlink, htailNode, hheadNode, Option.bind_eq_bind, Option.bind_some,
    hlast, hprev]
  split
  · rfl
  rcases List.eq_nil_or_concat' xs with rfl | ⟨ys, y, rfl⟩
  · -- nothing before the parent
    rw [hfront.2, h.null]
    rfl
  · obtain ⟨_, -, hy, rfl⟩ := segment_concat.mp hfront
    rw [hy]
    simp

/-- **A deletion leaves nothing behind** on the heap, and does to the file what it does without
pointers: both come back or neither does, with the same file.  The list of sons is made, read from
its tail one link back, and destroyed. -/
theorem deletion_remains (fuel : Nat) (file : ZgdbFile A) (doc : Document) (h0 : DHeap Document) :
    Option.Rel (fun x file' => x.1 = file' ∧ ∀ p, x.2.node p = h0.node p)
      (deleteDocument fuel file doc h0) (Zgdb.deleteDocument fuel file doc) := by
  obtain ⟨h1, hinsert, ho⟩ := insertNewResult_owns [] [] (Owns.refl h0).begin
    ⟨isRootDocumentHeader (getDocumentHeader file doc.indexParent), 0,
      getDocumentHeader file doc.indexParent⟩
  rw [listOf_empty] at hinsert
  unfold deleteDocument Zgdb.deleteDocument
  simp only [insertResult, hinsert, Option.bind_eq_bind, Option.bind_some]
  refine rel_bind (scanSons_refines ho) ?_
  rintro ⟨h2, pList⟩ sons ⟨l, rfl, hvalues, ho2⟩
  have hunlink : unlink file h2 (listOf l)
      = Zgdb.unlink file ⟨isRootDocumentHeader (getDocumentHeader file doc.indexParent), 0,
        getDocumentHeader file doc.indexParent⟩ sons :=
    unlink_eq file (ho2.dlist List.mem_cons_self) hvalues
  obtain ⟨h3, hdestroy, ho3⟩ := destroyList_owns [] [] ho2
  have hsame : ∀ p, h3.node p = h0.node p := fun p => ho3.rest p List.not_mem_nil
  simp only [hunlink, destroyResultList, hdestroy, Option.bind_some]
  cases Zgdb.unlink file _ sons with
  | none => exact .none
  | some file1 =>
    simp only [Option.bind_some]
    cases deleteSubtree fuel (del doc file1) doc with
    | none => exact .none
    | some file2 =>
      simp only [Option.bind_some]
      cases freeToasts fuel file2 doc.header.firstToastIndex with
      | none => exact .none
      | some file3 => exact .some ⟨rfl, hsame⟩

end Deletion

end Zgdb.Pointers
