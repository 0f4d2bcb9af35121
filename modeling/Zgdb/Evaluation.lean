/-
# The value of a path

`findIfFromRoot` as a function of the tree.  On links that form a finite tree the result of a path
is given by the tree and by two tests on its nodes: has the document the name of a step, and does it
pass the predicates when it is the `n`-th with that name below the present parent (`StepTests`).
`evaluate` computes the matches from them; `findIfFromRoot_evaluates` says that the search returns
these, in their order and as often as they are found, whatever the steps and the predicates are.

So a predicate on the document number picks one document of each context (`numbered_path`).  In
every state of a clean run the links are such a tree, and each path and each `join` has its value
(`queries_evaluate`).
-/
import Zgdb.Duplicates
import Zgdb.Tree

namespace Zgdb

open Zgdb.Lib AddrSpace

variable {A : Type} [BlockSpace A]

/-! ## 1. Evaluation on a tree

The meaning of a path, on a tree and two tests: nothing here follows a link or takes fuel. -/

/-- How a step tests the nodes: by its name, and by its predicates for the node, its parent, and the
number the node has. -/
structure StepTests where
  named : Step → Nat → Bool
  passes : Step → Nat × Nat → Nat → Bool

/-- The nodes that a step fetches below `p`, each with its parent. -/
def reached (T : Forest Nat) (p : Nat) : PathType → List (Nat × Nat)
  | .absolutePath => (T.sonsOf p).roots.map (fun k => (k, p)) ++ (T.sonsOf p).firstBelow.toList
  | .relativePath => ((T.sonsOf p).visit p 0).map fun e => (e.1, e.2.1)

section Evaluate

variable (tests : StepTests) (T : Forest Nat)

/-- The nodes below `p` that a document step matches: those with the name are counted. -/
def matched (s : Step) (p : Nat) : List (Nat × Nat) :=
  ((((reached T p s.pType).filter fun e => tests.named s e.1).zipIdx).filter
    fun x => tests.passes s x.1 x.2).map Prod.fst

/-- The nodes whose sons the next step looks at. -/
def nextParents (s : Step) (parents : List Nat) : List Nat :=
  match s.sType with
  | .documentStep => (parents.flatMap (matched tests T s)).map Prod.fst
  | .elementStep => []

/-- The nodes whose sons are looked at behind some steps. -/
def parentsAfter : List Step → List Nat → List Nat
  | [], parents => parents
  | s :: ss, parents => parentsAfter ss (nextParents tests T s parents)

/-- What the last step matches, or reads the elements of. -/
def lastNodes (s : Step) (parents : List Nat) : List (Nat × Nat) :=
  match s.sType with
  | .documentStep => parents.flatMap (matched tests T s)
  | .elementStep => parents.flatMap fun p => reached T p s.pType

/-- The value of the path `ss ++ [s]`. -/
def evaluate (ss : List Step) (s : Step) : List (Nat × Nat) :=
  lastNodes tests T s (parentsAfter tests T ss [0])

end Evaluate

/-- The tests of a search in a file. -/
def fileTests (env : SearchEnv) (file : ZgdbFile A) : StepTests where
  named s k := (getDocumentHeader file k).name = s.stepName
  passes s e n := calculatePredicate env file (documentAt file e.1 e.2) s n

/-- The documents of nodes that are given with their parents. -/
def documentsAt (file : ZgdbFile A) (es : List (Nat × Nat)) : List Document :=
  es.map fun e => documentAt file e.1 e.2

/-- What a search returns when its last step gets to these documents. -/
def resultOf (file : ZgdbFile A) (s : Step) (docs : List Document) : FindIfResult :=
  match s.sType with
  | .documentStep => FindIfResult.empty.addDocuments docs
  | .elementStep => FindIfResult.empty.addElements (docs.flatMap (elementsNamed file s))

theorem scanned_eq (file : ZgdbFile A) (T : Forest Nat) (p : Nat) (pType : PathType) :
    scanned file T p pType = documentsAt file (reached T p pType) := by
  cases pType with
  | absolutePath =>
    simp only [scanned, reached, documentsAt, List.map_append, List.map_map, Function.comp_def]
    cases (T.sonsOf p).firstBelow <;> rfl
  | relativePath => simp only [scanned, reached, documentsAt, List.map_map, Function.comp_def]

/-! ## 2. One context

The numbers that the code gives to the matches of a context are their places among the documents of
that name. -/

section Context

variable (env : SearchEnv) (file : ZgdbFile A) (s : Step)

/-- What a step picks: the documents with the name are counted, those that pass are kept. -/
theorem pickDocuments_eq (docs : List Document) (n : Nat) : pickDocuments env file s n docs
    = (((docs.filter fun doc => doc.header.name = s.stepName).zipIdx n).filter
        fun x => calculatePredicate env file x.1 s x.2).map Prod.fst := by
  induction docs generalizing n with
  | nil => rfl
  | cons temp docs ih =>
    rw [pickDocuments, List.filter_cons]
    by_cases hname : temp.header.name = s.stepName
    · rw [if_pos hname, if_pos (decide_eq_true hname), List.zipIdx_cons, List.filter_cons, ih]
      cases calculatePredicate env file temp s n <;> rfl
    · rw [if_neg hname, if_neg (by simpa using hname), ih]

end Context

section Tree

variable {env : SearchEnv} {file : ZgdbFile A} {T : Forest Nat} {s : Step} {fuel : Nat}

/-- The picks among the documents of a context are the matches. -/
theorem pickDocuments_scanned (p : Nat) : pickDocuments env file s 0 (scanned file T p s.pType)
    = documentsAt file (matched (fileTests env file) T s p) := by
  rw [pickDocuments_eq, scanned_eq]
  unfold matched documentsAt
  rw [List.filter_map, List.zipIdx_map, List.filter_map, List.map_map, List.map_map]
  rfl

/-! ## 3. Paths

From one context to many, and from one step to the next; the order of what is found is that of the
code. -/

/-- The context below `p`, if it has sons. -/
def contextOf (file : ZgdbFile A) (p : Nat) : List Document :=
  match sonOf file p with
  | none => []
  | some x => [⟨false, p, getDocumentHeader file x⟩]

theorem childContext_documentAt {k : Nat} (hatt : (getDocumentHeader file k).indexAttached = k)
    (q : Nat) : childContext file (documentAt file k q) = contextOf file k := by
  unfold childContext contextOf sonOf link
  simp only [documentAt, hatt]
  by_cases h0 : (getDocumentHeader file k).indexSon = 0 <;> simp [h0]

theorem mem_contextOf {p : Nat} {c : Document} :
    c ∈ contextOf file p ↔ ∃ x, sonOf file p = some x ∧ c
      = ⟨false, p, getDocumentHeader file x⟩ := by
  unfold contextOf
  cases sonOf file p <;> simp

theorem DocTree.isContext_contextOf (h : DocTree file T) {p : Nat} (hp : p ∈ T.nodes) {c : Document}
    (hc : c ∈ contextOf file p) : IsContext file T c := by
  obtain ⟨x, hx, rfl⟩ := mem_contextOf.mp hc
  exact isContext_next h hp hx

/-- Without sons there is nothing to fetch. -/
theorem DocTree.reached_leaf (h : DocTree file T) {p : Nat} (hp : p ∈ T.nodes)
    (hx : sonOf file p = none) (pType : PathType) : reached T p pType = [] := by
  have hnil := (hx ▸ h.links.sonsOf hp).eq_nil
  cases pType <;> simp [reached, hnil, Forest.firstBelow, Forest.visit]

/-- A node that is fetched is in the tree. -/
theorem DocTree.mem_reached (h : DocTree file T) {p : Nat} (hp : p ∈ T.nodes) {pType : PathType}
    {e : Nat × Nat} (he : e ∈ reached T p pType) : e.1 ∈ T.nodes := by
  have hdoc : documentAt file e.1 e.2 ∈ scanned file T p pType := by
    rw [scanned_eq]
    exact List.mem_map_of_mem he
  obtain ⟨k, hk, q, hq, hson, heq⟩ := (mem_scanned h hp).mp hdoc
  cases pType with
  | absolutePath =>
    simp only [reached, List.mem_append, List.mem_map, Option.mem_toList] at he
    rcases he with ⟨k, hk, rfl⟩ | he
    · exact DocTree.mem_below (Forest.mem_nodes_of_mem_roots hk)
    · exact (h.scans_mem hp (show Scans file T .absolutePath p e.1 from Or.inr ⟨e.2, he⟩)).1
  | relativePath =>
    obtain ⟨x, hx, rfl⟩ := List.mem_map.mp he
    have hmem := (Forest.perm_map_visit (T.sonsOf p) p 0).mem_iff.mp (List.mem_map_of_mem hx)
    exact DocTree.mem_below hmem

theorem mem_of_mem_matched {tests : StepTests} {p : Nat} {e : Nat × Nat}
    (he : e ∈ matched tests T s p) : e ∈ reached T p s.pType := by
  obtain ⟨x, hx, rfl⟩ := List.mem_map.mp he
  exact (List.mem_filter.mp (List.fst_mem_of_mem_zipIdx (List.mem_filter.mp hx).1)).1

/-- What is fetched in the contexts below some nodes. -/
theorem flatMap_contexts {β : Type} (g : Nat → List β) {parents : List Nat}
    (hleaf : ∀ p ∈ parents, sonOf file p = none → g p = []) :
    (parents.flatMap (contextOf file)).flatMap (fun c => g c.indexParent) = parents.flatMap g := by
  rw [List.flatMap_assoc]
  refine List.flatMap_congr ?_
  intro p hp
  unfold contextOf
  cases hx : sonOf file p with
  | none => exact (hleaf p hp hx).symm
  | some x => simp

theorem documentsAt_flatMap (l : List Nat) (g : Nat → List (Nat × Nat)) :
    l.flatMap (fun p => documentsAt file (g p)) = documentsAt file (l.flatMap g) :=
  List.map_flatMap.symm

variable (env) in
/-- **One step over its contexts.** -/
theorem scanContexts_evaluates (h : DocTree file T) (hfuel : T.nodes.length < fuel) (last : Bool)
    {parents : List Nat} (hp : ∀ p ∈ parents, p ∈ T.nodes) (depth : Nat) (r : FindIfResult) :
    ∃ depth' st', scanContexts env fuel file s last (parents.flatMap (contextOf file)) depth
        ⟨0, [], r⟩ = some (depth', st') ∧
      st'.tempContextList
        = (nextParents (fileTests env file) T s parents).flatMap (contextOf file) ∧
      st'.ifResult = match s.sType with
        | .documentStep => if last then r.addDocuments
            (documentsAt file (parents.flatMap (matched (fileTests env file) T s))) else r
        | .elementStep => if last then r.addElements ((documentsAt file
            (parents.flatMap fun p => reached T p s.pType)).flatMap (elementsNamed file s)) else
              r := by
  have hc : ∀ c ∈ parents.flatMap (contextOf file), IsContext file T c := by
    intro c hm
    obtain ⟨p, hpm, hcp⟩ := List.mem_flatMap.mp hm
    exact h.isContext_contextOf (hp p hpm) hcp
  have hleaf : ∀ p ∈ parents, sonOf file p = none → scanned file T p s.pType = [] := by
    intro p hpm hx
    rw [scanned_eq, h.reached_leaf (hp p hpm) hx]
    rfl
  cases hs : s.sType with
  | elementStep =>
    have hv : s.ByValue := fun hd => absurd (hs.symm.trans hd) (by simp)
    obtain ⟨depth', st', hrun, h1, h2⟩ :=
      scanContexts_spec env last h hv hfuel hc depth ⟨0, [], r⟩
    refine ⟨depth', st', hrun, ?_, ?_⟩
    · simp only [h1, stepContexts, nextParents, hs]
      rfl
    · rw [h2, flatMap_contexts _ hleaf]
      simp only [stepResult, hs, scanned_eq, documentsAt_flatMap]
  | documentStep =>
    obtain ⟨depth', st', hrun, h1, h2⟩ :=
      scanContexts_picked env last h hs hfuel hc depth ⟨0, [], r⟩
    have hpicked : pickedOf env file T s (parents.flatMap (contextOf file))
        = documentsAt file (parents.flatMap (matched (fileTests env file) T s)) := by
      unfold pickedOf
      rw [flatMap_contexts (fun p => pickDocuments env file s 0 (scanned file T p s.pType))]
      · simp only [pickDocuments_scanned, documentsAt_flatMap]
      · intro p hpm hx
        rw [hleaf p hpm hx]
        rfl
    refine ⟨depth', st', hrun, ?_, by rw [h2, hpicked]⟩
    rw [h1, hpicked, List.nil_append, documentsAt, List.flatMap_map]
    simp only [nextParents, hs]
    rw [List.flatMap_map]
    refine List.flatMap_congr ?_
    intro e he
    obtain ⟨p, hpm, hep⟩ := List.mem_flatMap.mp he
    exact childContext_documentAt
      (h.attached e.1 (h.mem_reached (hp p hpm) (mem_of_mem_matched hep))) e.2

/-- The next parents are nodes. -/
theorem DocTree.nextParents_mem (h : DocTree file T) {tests : StepTests} {parents : List Nat}
    (hp : ∀ p ∈ parents, p ∈ T.nodes) : ∀ p ∈ nextParents tests T s parents, p ∈ T.nodes := by
  intro k hk
  unfold nextParents at hk
  cases hs : s.sType with
  | elementStep => simp [hs] at hk
  | documentStep =>
    simp only [hs] at hk
    obtain ⟨e, he, rfl⟩ := List.mem_map.mp hk
    obtain ⟨p, hpm, hep⟩ := List.mem_flatMap.mp he
    exact h.mem_reached (hp p hpm) (mem_of_mem_matched hep)

variable (env) in
/-- **The steps of a path**, from any parents on. -/
theorem findSteps_evaluates (h : DocTree file T) (hfuel : T.nodes.length < fuel) {size i : Nat}
    {ss : List Step} (hsize : i + ss.length + 1 = size) {parents : List Nat}
    (hp : ∀ p ∈ parents, p ∈ T.nodes) (depth : Nat) :
    findSteps env fuel file size i (ss ++ [s]) (parents.flatMap (contextOf file)) depth .empty
      = some (resultOf file s (documentsAt file (lastNodes (fileTests env file) T s
          (parentsAfter (fileTests env file) T ss parents)))) := by
  induction ss generalizing i parents depth with
  | nil =>
    have hlast : i + 1 = size := by simpa using hsize
    obtain ⟨depth', st', hrun, -, hr⟩ :=
      scanContexts_evaluates env (s := s) h hfuel true hp depth .empty
    rw [List.nil_append, findSteps, decide_eq_true hlast, hrun]
    simp only [Option.bind_eq_bind, Option.bind_some, findSteps, hr, if_pos hlast]
    unfold resultOf lastNodes parentsAfter
    cases s.sType <;> rfl
  | cons s0 ss ih =>
    have hlast : ¬ i + 1 = size := by
      rw [List.length_cons] at hsize
      omega
    obtain ⟨depth', st', hrun, hnext, hr⟩ :=
      scanContexts_evaluates env (s := s0) h hfuel false hp depth .empty
    have hkeep : st'.ifResult = .empty := by
      rw [hr]
      cases s0.sType <;> rfl
    rw [List.cons_append, findSteps, decide_eq_false hlast, hrun]
    simp only [Option.bind_eq_bind, Option.bind_some, hnext, hkeep]
    exact ih (i := i + 1) (by rw [List.length_cons] at hsize; omega) (h.nextParents_mem hp) _

/-- The lists that `findIfFromRoot` destroys hold nothing. -/
theorem destroyLists_resultOf (docs : List Document) :
    (resultOf file s docs).destroyLists = resultOf file s docs := by
  unfold resultOf
  cases s.sType with
  | documentStep => cases docs <;> rfl
  | elementStep => cases docs.flatMap (elementsNamed file s) <;> rfl

theorem matched_leaf {tests : StepTests} {p : Nat} (h : reached T p s.pType = []) :
    matched tests T s p = [] := by
  simp [matched, h]

/-- From nowhere a path leads nowhere. -/
theorem parentsAfter_nil (tests : StepTests) (ss : List Step) :
    parentsAfter tests T ss [] = [] := by
  induction ss with
  | nil => rfl
  | cons s0 ss ih =>
    have hnext : nextParents tests T s0 [] = [] := by
      unfold nextParents
      cases s0.sType <;> rfl
    rw [parentsAfter, hnext, ih]

/-- A root without sons has nothing to find. -/
theorem evaluate_leaf {tests : StepTests} {ss : List Step}
    (hroot : ∀ pType, reached T 0 pType = []) :
    evaluate tests T ss s = [] := by
  have hmatched : ∀ s' : Step, matched tests T s' 0 = [] := fun s' => matched_leaf (hroot _)
  cases ss with
  | nil => cases hs : s.sType <;> simp [evaluate, lastNodes, parentsAfter, hs, hroot, hmatched]
  | cons s0 ss =>
    have hnext : nextParents tests T s0 [0] = [] := by
      unfold nextParents
      cases s0.sType <;> simp [hmatched]
    rw [evaluate, parentsAfter, hnext, parentsAfter_nil]
    cases hs : s.sType <;> simp [lastNodes, hs]

variable (env) in
/-- **A search returns the value of its path**, whatever its steps and predicates are: the documents
it matches, or the elements it reads, in the order they are met and as often as they are. -/
theorem findIfFromRoot_evaluates (h : DocTree file T) (hfuel : T.nodes.length < fuel)
    {ss : List Step} (hbare : ∀ pType, ¬ isBarePath ⟨ss ++ [s], ss.length + 1⟩ pType) :
    findIfFromRoot env fuel file ⟨ss ++ [s], ss.length + 1⟩
      = some (resultOf file s (documentsAt file (evaluate (fileTests env file) T ss s))) := by
  simp only [findIfFromRoot, findIf0, nextDoc_root h, if_neg (hbare .absolutePath),
    if_neg (hbare .relativePath)]
  cases hx : sonOf file 0 with
  | none =>
    rw [evaluate_leaf fun pType => h.reached_leaf h.root_mem hx pType]
    unfold resultOf
    cases s.sType <;> rfl
  | some x =>
    have hxatt := h.attached x (h.links.mem_of_link h.root_mem (Or.inl hx))
    have hroot : isRootDocumentHeader (getDocumentHeader file x) = false := by
      have hx0 := (link_eq_some.mp hx).2
      simp [isRootDocumentHeader, hxatt, hx0]
    have hcontext : ([0] : List Nat).flatMap (contextOf file) = [documentAt file x 0] := by
      simp [contextOf, hx, documentAt, hroot]
    have hzero : ∀ p ∈ ([0] : List Nat), p ∈ T.nodes := by simpa using h.root_mem
    have hsteps := findSteps_evaluates env (i := 0) (s := s) h hfuel
      (Nat.zero_add (ss.length + 1)) hzero 1
    rw [hcontext] at hsteps
    have hnext : nextDoc file (createDocIterator x 0 1) = _ := nextDoc_eq (e := (x, 0, 1)) [] hxatt
    have hrun := congrArg (Option.map FindIfResult.destroyLists) hsteps
    rw [Option.map_some, destroyLists_resultOf] at hrun
    have hgo : hasNextDoc (createDocIterator x 0 1) = true := rfl
    simpa only [hgo, if_true, hnext, FindIfResult.empty, evaluate] using hrun

/-- What `findIfFromRoot` returns for the steps `ss`.  The two bare paths have values of their own;
for any other path it is what the last step finds behind the others. -/
def pathValue (env : SearchEnv) (file : ZgdbFile A) (T : Forest Nat) (ss : List Step) :
    FindIfResult :=
  if isBarePath ⟨ss, ss.length⟩ .absolutePath then ⟨.documentResult, [documentAt file 0 0], []⟩
  else if isBarePath ⟨ss, ss.length⟩ .relativePath then
    ⟨.documentResult, documentsAt file ((T.sonsOf 0).roots.map fun k => (k, 0)), []⟩
  else
    match ss.getLast? with
    | none => .empty
    | some s => resultOf file s (documentsAt file (evaluate (fileTests env file) T ss.dropLast s))

theorem isBarePath_nil (pType : PathType) : ¬ isBarePath ⟨[], 0⟩ pType := fun h => by cases h.1

variable (env) in
/-- A search returns the value of its path. -/
theorem DocTree.search_eq (h : DocTree file T) (hfuel : T.nodes.length < fuel) (ss : List Step) :
    findIfFromRoot env fuel file ⟨ss, ss.length⟩ = some (pathValue env file T ss) := by
  unfold pathValue
  split
  · rename_i habs
    simp only [findIfFromRoot, findIf0, nextDoc_root h, if_pos habs]
    rfl
  · rename_i habs
    split
    · rename_i hrel
      simp only [findIfFromRoot, findIf0, nextDoc_root h, if_neg habs, if_pos hrel,
        join_root env h hfuel, documentsAt, List.map_map, Function.comp_def]
      rfl
    · rename_i hrel
      have hbare : ∀ pType, ¬ isBarePath ⟨ss, ss.length⟩ pType := by
        rintro (_ | _)
        · exact habs
        · exact hrel
      rcases List.eq_nil_or_concat' ss with rfl | ⟨ss, s, rfl⟩
      · simp only [findIfFromRoot, findIf0, nextDoc_root h, List.length_nil,
          if_neg (isBarePath_nil _)]
        cases hx : sonOf file 0 with
        | none => rfl
        | some x => simp [hasNextDoc, createDocIterator, findSteps]; rfl
      · rw [List.length_append, List.length_singleton] at hbare ⊢
        rw [findIfFromRoot_evaluates env h hfuel hbare, List.getLast?_concat, List.dropLast_concat]

/-! ## 4. Sons

`join` tests the sons of a document in their order, as the sons of that document are numbered. -/

/-- The step that `join` hands to `calculatePredicate`. -/
def joinStep (name : Name) (p : List Predicate) : Step := ⟨.absolutePath, name, .documentStep, p⟩

/-- The sons of `p` that pass; all of them are counted. -/
def joined (tests : StepTests) (T : Forest Nat) (s : Step) (p : Nat) : List (Nat × Nat) :=
  ((((T.sonsOf p).roots.map fun k => (k, p)).zipIdx).filter
    fun x => tests.passes s x.1 x.2).map Prod.fst

variable (env) in
/-- The loop of `join` over a sibling chain. -/
theorem joinLoop_evaluates (s : Step) (parent : Document) {F : Forest Nat} {tempIndex : Nat}
    (hF : F.Represents (sonOf file) (brotherOf file) (link tempIndex))
    (hfuel : F.nodes.length < fuel)
    (docNumber : Nat) : joinLoop env file parent s fuel tempIndex docNumber
      = some (documentsAt file ((((F.roots.map fun k => (k, parent.header.indexAttached)).zipIdx
          docNumber).filter fun x => (fileTests env file).passes s x.1 x.2).map Prod.fst)) := by
  induction F generalizing tempIndex fuel docNumber with
  | nil =>
    obtain ⟨fuel, rfl⟩ : ∃ m, fuel = m + 1 := ⟨fuel - 1, by simp at hfuel; omega⟩
    rw [joinLoop, if_pos (link_eq_none.mp hF)]
    rfl
  | cons a sons brothers _ ih =>
    obtain ⟨fuel, rfl⟩ : ∃ m, fuel = m + 1 := ⟨fuel - 1, by simp at hfuel; omega⟩
    obtain ⟨ha, -, hb⟩ := hF
    obtain ⟨rfl, hne⟩ := link_eq_some.mp ha
    have hrest := ih hb (by simp at hfuel; omega : _ < fuel) (docNumber + 1)
    simp only [joinLoop, if_neg hne, hrest, Option.map_some, Forest.roots_cons, List.map_cons,
      List.zipIdx_cons, List.filter_cons, Option.some.injEq]
    by_cases hpred : calculatePredicate env file
        (documentAt file tempIndex parent.header.indexAttached) s docNumber = true
    · have hpass : (fileTests env file).passes s (tempIndex, parent.header.indexAttached) docNumber
          = true := hpred
      rw [if_pos hpass]
      exact if_pos hpred
    · have hpass : ¬ (fileTests env file).passes s (tempIndex, parent.header.indexAttached)
          docNumber = true := hpred
      rw [if_neg hpass]
      exact if_neg hpred

variable (env) in
/-- **`join` lists the sons that pass**, in sibling order. -/
theorem DocTree.join_eq (h : DocTree file T) (hfuel : T.nodes.length < fuel) {k : Nat}
    (hk : k ∈ T.nodes) (q : Nat) (p : List Predicate) :
    Zgdb.join env fuel file (documentAt file k q) p = some (documentsAt file
      (joined (fileTests env file) T (joinStep (getDocumentHeader file k).name p) k)) := by
  have hlen : (T.sonsOf k).nodes.length < fuel := Nat.lt_of_le_of_lt (h.length_sonsOf_le k) hfuel
  have hatt : (documentAt file k q).header.indexAttached = k := h.attached k hk
  refine (joinLoop_evaluates env _ _ (h.links.sonsOf hk) hlen 0).trans ?_
  rw [hatt]
  rfl

/-! ## 5. Numbered documents

A number picks the document of that place, and the next step starts at its sons.  So a path of
numbered steps is a descent without a choice. -/

/-- Of the numbered entries of a list those with one number are one entry. -/
theorem filter_zipIdx_eq {α : Type} (l : List α) (n m : Nat) :
    (((l.zipIdx m).filter fun x => decide (n + m = x.2)).map Prod.fst) = l[n]?.toList := by
  induction l generalizing n m with
  | nil => rfl
  | cons a l ih =>
    rw [List.zipIdx_cons]
    cases n with
    | zero =>
      have hrest : (l.zipIdx (m + 1)).filter (fun x => decide (0 + m = x.2)) = [] := by
        refine List.filter_eq_nil_iff.mpr ?_
        intro x hx
        have hle := List.le_snd_of_mem_zipIdx hx
        simp
        omega
      rw [List.filter_cons_of_pos (by simp), hrest]
      rfl
    | succ n =>
      have hshift : (fun x : α × Nat => decide (n + 1 + m = x.2))
          = fun x => decide (n + (m + 1) = x.2) := by
        funext x
        congr 2
        omega
      rw [List.filter_cons_of_neg (by simp), hshift, ih n (m + 1), List.getElem?_cons_succ]

/-- A document step that asks for one document by its number, and for nothing else.  The source
counts the documents with the name of the step from 0, for each context anew. -/
structure StepWith.Numbered (s : Step) (index : UInt64) : Prop where
  document : s.sType = .documentStep
  pred : s.pred = [⟨.none, false, .byDocumentNumber index⟩]

/-- The document with a number among those with the name of the step. -/
def picked (file : ZgdbFile A) (T : Forest Nat) (s : Step) (index : UInt64) (p : Nat) :
    Option (Nat × Nat) :=
  ((reached T p s.pType).filter fun e =>
    decide ((getDocumentHeader file e.1).name = s.stepName))[index.toNat]?

theorem matched_numbered {index : UInt64} (hs : s.Numbered index) (p : Nat) :
    matched (fileTests env file) T s p = (picked file T s index p).toList := by
  have hpass : ∀ (e : Nat × Nat) (n : Nat),
      (fileTests env file).passes s e n = decide (index.toNat + 0 = n) := by
    intro e n
    simp [fileTests, calculatePredicate, hs.pred, combinePredicate, predicateRes]
  unfold matched picked
  simp only [hpass]
  exact filter_zipIdx_eq _ index.toNat 0

/-- The descent that numbered steps describe: at each level the document with the number.  It ends
where a level has no document with that number. -/
def pickedPath (file : ZgdbFile A) (T : Forest Nat) : List (Step × UInt64) → Nat × Nat →
    Option (Nat × Nat)
  | [], e => some e
  | (s, index) :: ss, e => (picked file T s index e.1).bind (pickedPath file T ss)

variable (env file T) in
theorem parentsAfter_numbered {ss : List (Step × UInt64)} (hss : ∀ x ∈ ss, x.1.Numbered x.2)
    (e : Nat × Nat) : parentsAfter (fileTests env file) T (ss.map Prod.fst) [e.1]
      = ((pickedPath file T ss e).map Prod.fst).toList := by
  induction ss generalizing e with
  | nil => rfl
  | cons x ss ih =>
    obtain ⟨s, index⟩ := x
    have hs : s.Numbered index := hss (s, index) List.mem_cons_self
    have hrest : ∀ x ∈ ss, x.1.Numbered x.2 := fun x hx => hss x (List.mem_cons_of_mem _ hx)
    have hnext : nextParents (fileTests env file) T s [e.1]
        = ((picked file T s index e.1).map Prod.fst).toList := by
      simp only [nextParents, hs.document, List.flatMap_singleton, matched_numbered hs]
      cases picked file T s index e.1 <;> rfl
    rw [List.map_cons, parentsAfter, hnext, pickedPath]
    cases picked file T s index e.1 with
    | none => exact parentsAfter_nil _ _
    | some e' => exact ih hrest e'

theorem pickedPath_append (ss : List (Step × UInt64)) (x : Step × UInt64) (e : Nat × Nat) :
    pickedPath file T (ss ++ [x]) e
      = (pickedPath file T ss e).bind fun e' => picked file T x.1 x.2 e'.1 := by
  induction ss generalizing e with
  | nil =>
    rw [List.nil_append, pickedPath]
    cases picked file T x.1 x.2 e.1 <;> simp [pickedPath]
  | cons y ss ih =>
    simp only [List.cons_append, pickedPath, ih, Option.bind_assoc]

variable (env) in
/-- **Numbered steps find one document or none**: the one at the end of the descent that takes, at
each level, the document with the number of the step.  A step picks by its number among the
documents of its name in one context, and the next step has that one context; so the result is a
list of at most one document. -/
theorem numbered_path (h : DocTree file T) (hfuel : T.nodes.length < fuel)
    {ss : List (Step × UInt64)} (hne : ss ≠ []) (hss : ∀ x ∈ ss, x.1.Numbered x.2) :
    ∃ r, findIfFromRoot env fuel file ⟨ss.map Prod.fst, ss.length⟩ = some r ∧
      ((∀ pType, ¬ isBarePath ⟨ss.map Prod.fst, ss.length⟩ pType) →
        r.documentList = documentsAt file (pickedPath file T ss (0, 0)).toList) := by
  have hsearch := h.search_eq env hfuel (ss.map Prod.fst)
  rw [List.length_map] at hsearch
  refine ⟨_, hsearch, ?_⟩
  intro hbare
  obtain ⟨ss, x, rfl⟩ := (List.eq_nil_or_concat' ss).resolve_left hne
  have hx : x.1.Numbered x.2 := hss x (by simp)
  have hparents := parentsAfter_numbered env file T
    (fun y hy => hss y (List.mem_append_left _ hy)) (0, 0)
  rw [List.length_append, List.length_singleton] at hbare
  simp only [pathValue, List.length_map, List.length_append, List.length_singleton,
    if_neg (hbare .absolutePath), if_neg (hbare .relativePath)]
  simp only [List.map_append, List.map_cons, List.map_nil, List.getLast?_concat,
    List.dropLast_concat, evaluate, hparents, resultOf, lastNodes, hx.document, pickedPath_append]
  cases pickedPath file T ss (0, 0) with
  | none => rfl
  | some e =>
    simp [matched_numbered hx, documentList_addDocuments, FindIfResult.empty]

end Tree

/-- A relative step for the first document with a name. -/
def firstStep (stepName : Name) : Step :=
  ⟨.relativePath, stepName, .documentStep, [⟨.none, false, .byDocumentNumber 0⟩]⟩

theorem firstStep_numbered (stepName : Name) : (firstStep stepName).Numbered 0 := ⟨rfl, rfl⟩

/-- Two such steps in a store with one document below another. -/
theorem numbered_path_nested : ∃ (file : ZgdbFile RecordPos) (n q : Nat) (r : FindIfResult),
    findIfFromRoot sampleSearch 4 file ⟨[firstStep keyA, firstStep keyB], 2⟩ = some r ∧
      r.documentList = documentsAt file (pickedPath file (nested n q)
        [(firstStep keyA, 0), (firstStep keyB, 0)] (0, 0)).toList := by
  obtain ⟨file, n, q, es, own, -, hs, -, -⟩ := create_nested recordEnv
  have hsteps : ∀ x ∈ [(firstStep keyA, (0 : UInt64)), (firstStep keyB, 0)], x.1.Numbered x.2 := by
    simp [firstStep_numbered]
  obtain ⟨r, hrun, hr⟩ := numbered_path sampleSearch hs.docTree (show _ < 4 by simp)
    (List.cons_ne_nil _ _) hsteps
  refine ⟨file, n, q, r, hrun, hr ?_⟩
  rintro pType ⟨hsize, -⟩
  cases hsize

/-! ## 6. Queries in a run

In a clean run the links form a tree in every state, and there is as much fuel as a search needs. -/

section Run

variable {env : Env A} {file : ZgdbFile A}

theorem Store.docTree_fuel {T : Forest Nat} {es : Nat → List StoredElement} {own : Nat → List Nat}
    (hs : Store file T es own) : T.nodes.length < loopBound file :=
  Nat.lt_succ_of_le (length_le_of_lt hs.nodup fun _ hk => (hs.alive hk).1)

/-- **Queries have their values** in every state of a clean run: the documents are a tree, each path
finds what it evaluates to on this tree, and `join` lists the sons that pass. -/
theorem queries_evaluate (search : SearchEnv) (h : Reaches env (Call.Clean env) file) :
    ∃ T, Encodes file T ∧
      (∀ ss, findIfFromRoot search (loopBound file) file ⟨ss, ss.length⟩
        = some (pathValue search file T ss)) ∧
      ∀ k, Live file k → ∀ q p, join search (loopBound file) file (documentAt file k q) p
        = some (documentsAt file (joined (fileTests search file) T
            (joinStep (getDocumentHeader file k).name p) k)) := by
  obtain ⟨T, es, own, hs⟩ := h.sound fun _ _ _ hc => hc
  refine ⟨T, hs.encodes, ?_, ?_⟩
  · intro ss
    exact hs.docTree.search_eq search hs.docTree_fuel ss
  · intro k hk q p
    exact hs.docTree.join_eq search hs.docTree_fuel (hs.live_iff.mp hk) q p

end Run

/-- What the path of the root finds in a store with one document below another. -/
theorem queries_evaluate_nested : ∃ (file : ZgdbFile RecordPos) (T : Forest Nat),
    Encodes file T ∧ T.nodes.length = 3 ∧
      ∀ ss, findIfFromRoot sampleSearch (loopBound file) file ⟨ss, ss.length⟩
        = some (pathValue sampleSearch file T ss) := by
  obtain ⟨file, n, q, es, own, hreach, hs, -, -⟩ := create_nested recordEnv
  obtain ⟨T, hT, hpath, -⟩ := queries_evaluate sampleSearch hreach
  refine ⟨file, T, hT, ?_, hpath⟩
  rw [← hT.count, hs.nodes]
  rfl

end Zgdb
