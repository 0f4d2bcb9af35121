/-
# What a search finds

On links that form a finite tree (`DocTree`) a step scans, from a context below document `p`, the
documents `scanned` says: all that is below `p` for a relative step; for an absolute one the sons of
`p` and, because the depth is looked at one document too late, one document below them
(`Scans`).  A path then finds the ends of the trails of matching documents (`search_documents`,
`search_elements`).
-/
import Zgdb.Find
import Zgdb.Allocation

namespace Zgdb

open Zgdb.Lib AddrSpace

variable {A : Type} [BlockSpace A]

/-! ## 1. Links that form a tree

What a search relies on is less than a sound store: the links of the headers, and that each header
names its own index. -/

/-- The links of the headers, from the root on, form the finite tree `T`.  A search relies on this
alone: nothing is said of the blocks, of the free list or of the texts, so what is proved over a
`DocTree` holds of damaged stores, too, as long as their links are those of a tree. -/
structure DocTree (file : ZgdbFile A) (T : Forest Nat) : Prop where
  links : T.Represents (sonOf file) (brotherOf file) (some 0)
  nodup : T.nodes.Nodup
  attached : ∀ k ∈ T.nodes, (getDocumentHeader file k).indexAttached = k
  root_brother : brotherOf file 0 = none

/-- `doc` is the document of node `k`, below the parent it has in the tree: what is stored under the
index, with the index of the parent beside it. -/
def FoundAs (file : ZgdbFile A) (T : Forest Nat) (doc : Document) (k : Nat) : Prop :=
  ∃ q ∈ T.nodes, SonOf file q k ∧ doc = documentAt file k q

theorem Store.docTree {file : ZgdbFile A} {T : Forest Nat} {es : Nat → List StoredElement}
    {own : Nat → List Nat} (h : Store file T es own) : DocTree file T :=
  ⟨h.links, h.nodup, fun _ hk => h.attached hk, h.root_brother⟩

namespace DocTree

variable {file : ZgdbFile A} {T : Forest Nat}

theorem root_mem (h : DocTree file T) : 0 ∈ T.nodes := h.links.entry_mem rfl

theorem sonOf_iff (h : DocTree file T) {p k : Nat} (hp : p ∈ T.nodes) :
    SonOf file p k ↔ k ∈ (T.sonsOf p).roots := h.links.isSon_iff hp

theorem below_iff (h : DocTree file T) {p k : Nat} (hp : p ∈ T.nodes) :
    Relation.TransGen (SonOf file) p k ↔ k ∈ (T.sonsOf p).nodes := h.links.transGen_iff hp

theorem mem_below {p k : Nat} (hk : k ∈ (T.sonsOf p).nodes) : k ∈ T.nodes :=
  Forest.mem_nodes_of_mem_sonsOf hk

theorem length_sonsOf_le (h : DocTree file T) (p : Nat) :
    (T.sonsOf p).nodes.length ≤ T.nodes.length :=
  (List.subperm_of_subset (Forest.nodup_sonsOf h.nodup)
    fun k (hk : k ∈ (T.sonsOf p).nodes) => mem_below hk).length_le

theorem son_mem (h : DocTree file T) {p k : Nat} (hp : p ∈ T.nodes) (hk : SonOf file p k) :
    k ∈ T.nodes := mem_below (Forest.mem_nodes_of_mem_roots ((h.sonOf_iff hp).mp hk))

/-- Who is visited below `p` hangs below the parent it is visited with. -/
theorem parent_of_visit (h : DocTree file T) {p d : Nat} (hp : p ∈ T.nodes) {e : Nat × Nat × Nat}
    (he : e ∈ (T.sonsOf p).visit p d) : e.2.1 ∈ T.nodes ∧ SonOf file e.2.1 e.1 := by
  refine ⟨?_, (h.links.sonsOf hp).isSon_of_visit (fun _ hc => .first hc) he⟩
  rcases Forest.parent_of_visit he with heq | hmem
  · exact heq ▸ hp
  · exact mem_below hmem

theorem foundAs_unique (h : DocTree file T) {q k : Nat} {doc : Document} (hq : q ∈ T.nodes)
    (hk : SonOf file q k) (hd : FoundAs file T doc k) : doc = documentAt file k q := by
  obtain ⟨q', hq', hk', rfl⟩ := hd
  rw [h.links.isSon_unique h.nodup hq hq' hk hk']

theorem foundAs_same (h : DocTree file T) {k k' : Nat} {doc : Document}
    (hk : FoundAs file T doc k) (hk' : FoundAs file T doc k') : k = k' := by
  obtain ⟨q, hq, hson, rfl⟩ := hk
  obtain ⟨q', hq', hson', heq⟩ := hk'
  have hatt := h.attached k (h.son_mem hq hson)
  have hatt' := h.attached k' (h.son_mem hq' hson')
  rw [← hatt, ← hatt']
  exact congrArg (fun doc => doc.header.indexAttached) heq

end DocTree

/-! ## 2. The documents of one context

The iterator walks a forest of siblings; what the loop fetches of this walk depends on the depths
alone.  A relative step takes all of it.  An absolute one should take the siblings, and takes the
next entry of the walk in addition. -/

/-- The documents that a step fetches from the context below `p`. -/
def scanned (file : ZgdbFile A) (T : Forest Nat) (p : Nat) : PathType → List Document
  | .absolutePath => ((T.sonsOf p).roots.map fun k => documentAt file k p) ++
      ((T.sonsOf p).firstBelow.map fun e => documentAt file e.1 e.2).toList
  | .relativePath => ((T.sonsOf p).visit p 0).map fun e => documentAt file e.1 e.2.1

/-- What a step of the type gets to from the sons of `p`. -/
def Scans (file : ZgdbFile A) (T : Forest Nat) : PathType → Nat → Nat → Prop
  | .absolutePath, p, k => SonOf file p k ∨ ∃ a, (T.sonsOf p).firstBelow = some (k, a)
  | .relativePath, p, k => Relation.TransGen (SonOf file) p k

/-- What the inner loop fetches of a walk, when the document before had depth `depth`. -/
def fetched (pType : PathType) (prevDepth : Nat) :
    (depth : Nat) → List (Nat × Nat × Nat) → List (Nat × Nat × Nat)
  | _, [] => []
  | depth, e :: L =>
    if pType = .absolutePath → depth = prevDepth then e :: fetched pType prevDepth e.2.2 L else []

theorem fetched_relative (d depth : Nat) (L : List (Nat × Nat × Nat)) :
    fetched .relativePath d depth L = L := by
  induction L generalizing depth with
  | nil => rfl
  | cons e L ih => rw [fetched, if_pos (by simp), ih]

/-- Behind the entries of the depth the loop started with it fetches one more. -/
theorem fetched_absolute {d : Nat} {L M : List (Nat × Nat × Nat)} (hL : ∀ e ∈ L, e.2.2 = d)
    (hM : ∀ e ∈ M.head?, e.2.2 ≠ d) : fetched .absolutePath d d (L ++ M) = L ++ M.head?.toList := by
  induction L with
  | nil =>
    cases M with
    | nil => rfl
    | cons e M =>
      have he : e.2.2 ≠ d := hM e rfl
      rw [List.nil_append, fetched, if_pos (fun _ => rfl)]
      cases M with
      | nil => rfl
      | cons e' M => rw [fetched, if_neg (by simpa using he)]; rfl
  | cons e L ih =>
    have he := hL e List.mem_cons_self
    rw [List.cons_append, fetched, if_pos (fun _ => rfl), he,
      ih fun x hx => hL x (List.mem_cons_of_mem _ hx)]
    rfl

section Context

variable {env : SearchEnv} {file : ZgdbFile A} {T : Forest Nat} {s : Step} {last : Bool}

/-- **The inner loop matches what it fetches of the walk.** -/
theorem scanLoop_walk {d n : Nat} {e : Nat × Nat × Nat} {stack L : List (Nat × Nat × Nat)}
    (hw : Forest.walk (sonOf file) (brotherOf file) n e stack = some L)
    (hatt : ∀ e ∈ L, (getDocumentHeader file e.1).indexAttached = e.1) {fuel : Nat}
    (hfuel : n < fuel) (depth : Nat) (st : StepState) :
    ∃ depth', scanLoop env file s last d fuel ⟨false, nodeEntry e, stack.map nodeEntry⟩ depth st
      = some (depth', ((fetched s.pType d depth L).map fun e => documentAt file e.1 e.2.1).foldl
          (fun st temp => matchStep env file s last temp st) st) := by
  induction n generalizing e stack L fuel depth st with
  | zero => cases hw
  | succ n ih =>
    obtain ⟨fuel, rfl⟩ : ∃ m, fuel = m + 1 := ⟨fuel - 1, by omega⟩
    obtain ⟨L', rfl⟩ : ∃ L', L = e :: L' := by
      rw [Forest.walk] at hw
      split at hw
      · exact ⟨[], (Option.some.inj hw).symm⟩
      · obtain ⟨L', -, rfl⟩ := Option.map_eq_some_iff.mp hw
        exact ⟨L', rfl⟩
    rw [scanLoop, fetched]
    by_cases hgo : s.pType = .absolutePath → depth = d
    · rw [if_pos ⟨rfl, hgo⟩, if_pos hgo, nextDoc_eq stack (hatt e List.mem_cons_self)]
      rw [Forest.walk] at hw
      cases hnext : Forest.walkNext (sonOf file) (brotherOf file) e stack with
      | none =>
        rw [hnext] at hw
        obtain rfl : L' = [] := (List.cons.inj (Option.some.inj hw)).2.symm
        obtain ⟨fuel, rfl⟩ : ∃ m, fuel = m + 1 := ⟨fuel - 1, by omega⟩
        exact ⟨e.2.2, rfl⟩
      | some r =>
        obtain ⟨e', stack'⟩ := r
        rw [hnext] at hw
        obtain ⟨L'', hL, heq⟩ := Option.map_eq_some_iff.mp hw
        obtain rfl : L'' = L' := (List.cons.inj heq).2
        exact ih hL (fun x hx => hatt x (List.mem_cons_of_mem _ hx)) (by omega) e.2.2 _
    · rw [if_neg fun h => hgo h.2, if_neg hgo]
      exact ⟨depth, rfl⟩

/-- What is fetched of the walk below `p`. -/
theorem map_fetched (p d : Nat) (pType : PathType) :
    (fetched pType d d ((T.sonsOf p).visit p d)).map (fun e => documentAt file e.1 e.2.1)
      = scanned file T p pType := by
  cases pType with
  | relativePath =>
    have hmap := congrArg (List.map fun e : Nat × Nat => documentAt file e.1 e.2)
      (Forest.map_visit_depth (T.sonsOf p) p d 0)
    simpa only [fetched_relative, List.map_map, Function.comp_def, scanned] using hmap
  | absolutePath =>
    rw [Forest.visit_eq, fetched_absolute, Forest.head?_deeper, scanned]
    · cases (T.sonsOf p).firstBelow <;> simp
    · intro e he
      obtain ⟨a, -, rfl⟩ := List.mem_map.mp he
      rfl
    · intro e he
      rw [Forest.head?_deeper, Option.mem_def, Option.map_eq_some_iff] at he
      obtain ⟨x, -, rfl⟩ := he
      simp

variable (env s last) in
/-- **The scan of one context.** -/
theorem scanLoop_context (h : DocTree file T) {p x : Nat} (hp : p ∈ T.nodes)
    (hx : sonOf file p = some x) {fuel : Nat} (hfuel : T.nodes.length < fuel) (depth : Nat)
    (st : StepState) :
    ∃ depth', scanLoop env file s last depth fuel (createDocIterator x p depth) depth st
      = some (depth', (scanned file T p s.pType).foldl
          (fun st temp => matchStep env file s last temp st) st) := by
  have hsons := h.links.sonsOf hp
  rw [hx] at hsons
  have hw := hsons.walk 0 p depth []
  simp only [Forest.resume, Option.map_some, List.append_nil, Nat.add_zero] at hw
  have hlen : (T.sonsOf p).nodes.length < fuel := Nat.lt_of_le_of_lt (h.length_sonsOf_le p) hfuel
  have hatt : ∀ e ∈ (T.sonsOf p).visit p depth,
      (getDocumentHeader file e.1).indexAttached = e.1 := by
    intro e he
    have hmem := (Forest.perm_map_visit (T.sonsOf p) p depth).mem_iff.mp (List.mem_map_of_mem he)
    exact h.attached e.1 (DocTree.mem_below hmem)
  rw [← map_fetched p depth]
  exact scanLoop_walk hw hatt hlen depth st

/-- **The fetched documents** are those the step gets to. -/
theorem mem_scanned (h : DocTree file T) {p : Nat} (hp : p ∈ T.nodes) {pType : PathType}
    {doc : Document} :
    doc ∈ scanned file T p pType ↔ ∃ k, Scans file T pType p k ∧ FoundAs file T doc k := by
  cases pType with
  | absolutePath =>
    have hfirst : ∀ {k a}, (T.sonsOf p).firstBelow = some (k, a) → a ∈ T.nodes
        ∧ SonOf file a k := by
      intro k a hk
      obtain ⟨pre, post, hr, hson, -⟩ := (h.links.sonsOf hp).firstBelow_iff.mp hk
      have ha : a ∈ (T.sonsOf p).roots := by rw [hr]; simp
      exact ⟨DocTree.mem_below (Forest.mem_nodes_of_mem_roots ha), .first hson⟩
    simp only [scanned, List.mem_append, List.mem_map, Option.mem_toList, Option.map_eq_some_iff]
    constructor
    · rintro (⟨k, hk, rfl⟩ | ⟨⟨k, a⟩, hk, rfl⟩)
      · have hson := (h.sonOf_iff hp).mpr hk
        exact ⟨k, Or.inl hson, p, hp, hson, rfl⟩
      · exact ⟨k, Or.inr ⟨a, hk⟩, a, (hfirst hk).1, (hfirst hk).2, rfl⟩
    · rintro ⟨k, hson | ⟨a, hk⟩, hdoc⟩
      · exact Or.inl ⟨k, (h.sonOf_iff hp).mp hson, (h.foundAs_unique hp hson hdoc).symm⟩
      · exact Or.inr ⟨(k, a), hk, (h.foundAs_unique (hfirst hk).1 (hfirst hk).2 hdoc).symm⟩
  | relativePath =>
    simp only [scanned, List.mem_map, Scans, h.below_iff hp]
    constructor
    · rintro ⟨e, he, rfl⟩
      obtain ⟨hq, hson⟩ := h.parent_of_visit hp he
      have hmem := (Forest.perm_map_visit (T.sonsOf p) p 0).mem_iff.mp (List.mem_map_of_mem he)
      exact ⟨e.1, hmem, e.2.1, hq, hson, rfl⟩
    · rintro ⟨k, hk, hdoc⟩
      obtain ⟨e, he, rfl⟩ := Forest.exists_mem_visit (p := p) (d := 0) hk
      obtain ⟨hq, hson⟩ := h.parent_of_visit hp he
      exact ⟨e, he, (h.foundAs_unique hq hson hdoc).symm⟩

end Context

/-! ## 3. One step over its contexts

When predicates do not ask for the number of the document, what is found of a context does not
depend on the order of the contexts, and a step is a filter on what was scanned. -/

/-- A document step has predicates on element values only; an element step may have any, they are
not looked at. -/
def StepWith.ByValue (s : Step) : Prop :=
  s.sType = .documentStep →
    ∀ q ∈ s.pred, ∃ key operator input, q.value = .byElementValue key operator input

/-- The name and the predicates of a step, where the number of the document does not matter. -/
def satisfies (env : SearchEnv) (file : ZgdbFile A) (s : Step) (temp : Document) : Bool :=
  temp.header.name = s.stepName && calculatePredicate env file temp s 0

/-- The elements of a document that an element step asks for. -/
def elementsNamed (file : ZgdbFile A) (s : Step) (temp : Document) :
    List (Document × ElementEntry) :=
  ((elementEntries file temp true).filter (·.key = s.stepName)).map fun e => (temp, e)

/-- Matched documents behind those found before. -/
def FindIfResult.addDocuments (r : FindIfResult) (docs : List Document) : FindIfResult :=
  if docs = [] then r
  else { r with type := .documentResult, documentList := r.documentList ++ docs }

/-- Elements behind those found before. -/
def FindIfResult.addElements (r : FindIfResult) (els : List (Document × ElementEntry)) :
    FindIfResult :=
  if els = [] then r else { r with type := .elementResult, elementList := r.elementList ++ els }

@[simp] theorem FindIfResult.addDocuments_nil (r : FindIfResult) : r.addDocuments [] = r := rfl

@[simp] theorem FindIfResult.addElements_nil (r : FindIfResult) : r.addElements [] = r := rfl

theorem FindIfResult.addDocuments_append (r : FindIfResult) (a b : List Document) :
    r.addDocuments (a ++ b) = (r.addDocuments a).addDocuments b := by
  cases a with
  | nil => rfl
  | cons x a =>
    cases b with
    | nil => simp
    | cons y b => simp [addDocuments]

theorem FindIfResult.addElements_append (r : FindIfResult) (a b : List (Document × ElementEntry)) :
    r.addElements (a ++ b) = (r.addElements a).addElements b := by
  cases a with
  | nil => rfl
  | cons x a =>
    cases b with
    | nil => simp
    | cons y b => simp [addElements]

section Step

variable (env : SearchEnv) (file : ZgdbFile A) (s : Step)

/-- The contexts that fetched documents leave. -/
def stepContexts (docs : List Document) : List Document :=
  match s.sType with
  | .documentStep => (docs.filter (satisfies env file s)).flatMap (childContext file)
  | .elementStep => []

/-- The result after a step over fetched documents. -/
def stepResult (last : Bool) (docs : List Document) (r : FindIfResult) : FindIfResult :=
  if last then
    match s.sType with
    | .documentStep => r.addDocuments (docs.filter (satisfies env file s))
    | .elementStep => r.addElements (docs.flatMap (elementsNamed file s))
  else r

theorem stepContexts_append (a b : List Document) :
    stepContexts env file s (a ++ b) = stepContexts env file s a ++ stepContexts env file s b := by
  unfold stepContexts
  cases s.sType <;> simp

theorem stepResult_append (last : Bool) (a b : List Document) (r : FindIfResult) :
    stepResult env file s last (a ++ b) r
      = stepResult env file s last b (stepResult env file s last a r) := by
  unfold stepResult
  cases last with
  | false => rfl
  | true =>
    cases s.sType with
    | documentStep => simp [FindIfResult.addDocuments_append]
    | elementStep => simp [FindIfResult.addElements_append]

end Step

section Contexts

variable {env : SearchEnv} {file : ZgdbFile A} {T : Forest Nat} {s : Step} {last : Bool}

/-- The number of a document does not matter to predicates on element values. -/
theorem calculatePredicate_number (hv : s.ByValue) (hs : s.sType = .documentStep)
    (temp : Document) (n m : Nat) :
    calculatePredicate env file temp s n = calculatePredicate env file temp s m := by
  have h := hv hs
  unfold calculatePredicate
  refine if_congr Iff.rfl rfl ?_
  generalize env.generalRes temp = g
  generalize s.pred = chain at h ⊢
  induction chain generalizing g with
  | nil => rfl
  | cons q rest ih =>
    obtain ⟨key, operator, input, hq⟩ := h q List.mem_cons_self
    have hone : combinePredicate env.strtod file temp n g q
        = combinePredicate env.strtod file temp m g q := by
      simp only [combinePredicate, hq, predicateRes]
    rw [List.foldl_cons, List.foldl_cons, hone]
    exact ih _ fun q hq => h q (List.mem_cons_of_mem _ hq)

variable (env file last) in
/-- **The body of the inner loop.** -/
theorem matchStep_spec (h : s.ByValue) (temp : Document) (st : StepState) :
    (matchStep env file s last temp st).tempContextList
        = st.tempContextList ++ stepContexts env file s [temp] ∧
      (matchStep env file s last temp st).ifResult
        = stepResult env file s last [temp] st.ifResult := by
  unfold matchStep stepContexts stepResult
  cases hs : s.sType with
  | documentStep =>
    simp only [matchDocument, calculatePredicate_number h hs temp st.docNumber 0]
    by_cases hname : temp.header.name = s.stepName
    · cases hp : calculatePredicate env file temp s 0 <;> cases last <;>
        simp [satisfies, hname, hp, FindIfResult.addDocuments]
    · cases last <;> simp [satisfies, hname]
  | elementStep =>
    simp only [matchElements]
    cases hf : (elementEntries file temp true).filter (·.key = s.stepName) <;> cases last <;>
      simp [elementsNamed, hf, FindIfResult.addElements]

variable (env file last) in
/-- **The inner loop over fetched documents.** -/
theorem foldl_matchStep (h : s.ByValue) (docs : List Document) (st : StepState) :
    (docs.foldl (fun st temp => matchStep env file s last temp st) st).tempContextList
        = st.tempContextList ++ stepContexts env file s docs ∧
      (docs.foldl (fun st temp => matchStep env file s last temp st) st).ifResult
        = stepResult env file s last docs st.ifResult := by
  induction docs generalizing st with
  | nil => constructor <;> cases hs : s.sType <;> cases last <;> simp [stepContexts, stepResult, hs]
  | cons temp docs ih =>
    obtain ⟨h1, h2⟩ := matchStep_spec env file last h temp st
    obtain ⟨i1, i2⟩ := ih (matchStep env file s last temp st)
    rw [List.foldl_cons, i1, i2, h1, h2, List.append_assoc, ← stepContexts_append,
      ← stepResult_append]
    exact ⟨rfl, rfl⟩

/-- A context of the search: the first son of the node it has as its parent.  All contexts of a step
are of this kind, which is why a document is always found together with the parent that it has in
the tree. -/
def IsContext (file : ZgdbFile A) (T : Forest Nat) (c : Document) : Prop :=
  c.indexParent ∈ T.nodes ∧ sonOf file c.indexParent = some c.header.indexAttached

variable (env last) in
/-- **A step over all its contexts** goes through what it fetches from each of them. -/
theorem scanContexts_fold (h : DocTree file T) {fuel : Nat} (hfuel : T.nodes.length < fuel)
    {contextList : List Document} (hc : ∀ c ∈ contextList, IsContext file T c) (depth : Nat)
    (st : StepState) :
    ∃ depth', scanContexts env fuel file s last contextList depth st
      = some (depth', contextList.foldl (fun st c => (scanned file T c.indexParent s.pType).foldl
          (fun st temp => matchStep env file s last temp st) { st with docNumber := 0 }) st) := by
  induction contextList generalizing depth st with
  | nil => exact ⟨depth, rfl⟩
  | cons c contextList ih =>
    obtain ⟨hp, hx⟩ := hc c List.mem_cons_self
    obtain ⟨depth1, hscan⟩ := scanLoop_context env s last h hp hx hfuel
      depth { st with docNumber := 0 }
    obtain ⟨depth', hrun⟩ := ih (fun c hm => hc c (List.mem_cons_of_mem _ hm)) depth1 _
    refine ⟨depth', ?_⟩
    rw [scanContexts, hscan]
    exact hrun

variable (env last) in
/-- What a step with predicates on element values leaves. -/
theorem scanContexts_spec (h : DocTree file T) (hv : s.ByValue) {fuel : Nat}
    (hfuel : T.nodes.length < fuel) {contextList : List Document}
    (hc : ∀ c ∈ contextList, IsContext file T c) (depth : Nat) (st : StepState) :
    ∃ depth' st', scanContexts env fuel file s last contextList depth st = some (depth', st') ∧
      st'.tempContextList = st.tempContextList ++ stepContexts env file s
        (contextList.flatMap fun c => scanned file T c.indexParent s.pType) ∧
      st'.ifResult = stepResult env file s last
        (contextList.flatMap fun c => scanned file T c.indexParent s.pType) st.ifResult := by
  obtain ⟨depth', hrun⟩ := scanContexts_fold env last h hfuel hc depth st
  refine ⟨depth', _, hrun, ?_⟩
  clear hrun hc
  induction contextList generalizing st with
  | nil =>
    constructor <;> cases hs : s.sType <;> cases last <;> simp [stepContexts, stepResult, hs]
  | cons c contextList ih =>
    obtain ⟨h1, h2⟩ := foldl_matchStep env file last hv
      (scanned file T c.indexParent s.pType) { st with docNumber := 0 }
    obtain ⟨i1, i2⟩ := ih _
    rw [List.foldl_cons, List.flatMap_cons]
    refine ⟨?_, ?_⟩
    · rw [i1, h1, stepContexts_append, List.append_assoc]
    · rw [i2, h2, stepResult_append]

/-- The contexts of the next step are first sons of what was matched. -/
theorem mem_stepContexts {docs : List Document} {c : Document} :
    c ∈ stepContexts env file s docs ↔ s.sType = .documentStep ∧
      ∃ doc ∈ docs, satisfies env file s doc = true ∧ c ∈ childContext file doc := by
  unfold stepContexts
  cases s.sType <;> simp [and_assoc]

/-- The context below a document of the tree. -/
theorem mem_childContext (h : DocTree file T) {doc : Document} {k : Nat}
    (hd : FoundAs file T doc k) {c : Document} :
    c ∈ childContext file doc ↔ ∃ x, sonOf file k = some x ∧
      c = ⟨false, k, getDocumentHeader file x⟩ := by
  obtain ⟨q, hq, hk, rfl⟩ := hd
  have hatt := h.attached k (h.son_mem hq hk)
  simp only [childContext, documentAt, sonOf, link_eq_some, hatt]
  by_cases hz : (getDocumentHeader file k).indexSon = 0
  · rw [if_neg (not_not.mpr hz)]
    simp only [List.not_mem_nil, false_iff, not_exists, not_and, and_imp]
    rintro x rfl hx
    exact absurd hz hx
  · rw [if_pos hz, List.mem_singleton]
    constructor
    · intro hc
      exact ⟨_, ⟨rfl, hz⟩, hc⟩
    · rintro ⟨x, ⟨rfl, -⟩, hc⟩
      exact hc

end Contexts

/-! ## 4. Paths

The contexts of a step are the first sons of what the step before has found.  So what a path finds
is at the end of a trail of documents, one for each step. -/

/-- The steps lead from `p` to `k`: each of them gets, by `R`, to a node that is all right for it.
-/
def Trail (R : PathType → Nat → Nat → Prop) (ok : Step → Nat → Prop) :
    Nat → List Step → Nat → Prop
  | p, [], k => p = k
  | p, s :: ss, k => ∃ a, R s.pType p a ∧ ok s a ∧ Trail R ok a ss k

theorem Trail.append {R : PathType → Nat → Nat → Prop} {ok : Step → Nat → Prop} {p k : Nat}
    {ss : List Step} {s : Step} :
    Trail R ok p (ss ++ [s]) k ↔ ∃ a, Trail R ok p ss a ∧ R s.pType a k ∧ ok s k := by
  induction ss generalizing p with
  | nil => simp [Trail]
  | cons s0 ss ih =>
    simp only [List.cons_append, Trail, ih]
    constructor
    · rintro ⟨b, hR, hok, a, hT, h⟩
      exact ⟨a, ⟨b, hR, hok, hT⟩, h⟩
    · rintro ⟨a, ⟨b, hR, hok, hT⟩, h⟩
      exact ⟨b, hR, hok, a, hT, h⟩

/-- Trails over relations that agree on the types of the steps. -/
theorem Trail.mono {R R' : PathType → Nat → Nat → Prop} {ok ok' : Step → Nat → Prop} {p k : Nat}
    {ss : List Step} (hR : ∀ s ∈ ss, ∀ a b, R s.pType a b → R' s.pType a b)
    (hok : ∀ s ∈ ss, ∀ a, ok s a → ok' s a) (h : Trail R ok p ss k) : Trail R' ok' p ss k := by
  induction ss generalizing p with
  | nil => exact h
  | cons s ss ih =>
    obtain ⟨a, ha, hs, hrest⟩ := h
    exact ⟨a, hR s List.mem_cons_self _ _ ha, hok s List.mem_cons_self _ hs,
      ih (fun s hs => hR s (List.mem_cons_of_mem _ hs))
        (fun s hs => hok s (List.mem_cons_of_mem _ hs)) hrest⟩

/-- A document that a document step accepts. -/
def Matched (env : SearchEnv) (file : ZgdbFile A) (T : Forest Nat) (s : Step) (k : Nat) : Prop :=
  s.sType = .documentStep ∧ ∃ doc, FoundAs file T doc k ∧ satisfies env file s doc = true

section Paths

variable {env : SearchEnv} {file : ZgdbFile A} {T : Forest Nat}

/-- A step gets to nodes of the tree, and from a node with a son. -/
theorem DocTree.scans_mem (h : DocTree file T) {pType : PathType} {p k : Nat} (hp : p ∈ T.nodes)
    (hk : Scans file T pType p k) : k ∈ T.nodes ∧ ∃ x, sonOf file p = some x := by
  have hson : ∀ {k}, k ∈ (T.sonsOf p).nodes → ∃ x, sonOf file p = some x := by
    intro k hk
    cases hx : sonOf file p with
    | some x => exact ⟨x, rfl⟩
    | none =>
      have hnil := (hx ▸ h.links.sonsOf hp).eq_nil
      rw [hnil] at hk
      cases hk
  have hmem : k ∈ (T.sonsOf p).nodes := by
    cases pType with
    | absolutePath =>
      rcases hk with hk | ⟨a, hk⟩
      · exact Forest.mem_nodes_of_mem_roots ((h.sonOf_iff hp).mp hk)
      · obtain ⟨pre, post, hr, hson, -⟩ := (h.links.sonsOf hp).firstBelow_iff.mp hk
        have ha : a ∈ (T.sonsOf p).roots := by rw [hr]; simp
        exact (h.links.sonsOf hp).mem_of_link (Forest.mem_nodes_of_mem_roots ha) (Or.inl hson)
    | relativePath => exact (h.below_iff hp).mp hk
  exact ⟨DocTree.mem_below hmem, hson hmem⟩

/-- A trail that goes on leaves from a node with a son. -/
theorem DocTree.trail_son (h : DocTree file T) {ok : Step → Nat → Prop} {p k : Nat}
    (hp : p ∈ T.nodes) {ss : List Step} {s : Step}
    (ht : ∃ a, Trail (Scans file T) ok p ss a ∧ Scans file T s.pType a k) :
    ∃ x, sonOf file p = some x := by
  obtain ⟨a, ht, hk⟩ := ht
  cases ss with
  | nil =>
    obtain rfl : p = a := ht
    exact (h.scans_mem hp hk).2
  | cons s0 ss =>
    obtain ⟨b, hb, -⟩ := ht
    exact (h.scans_mem hp hb).2

variable (env) in
/-- **The contexts of the next step** are the first sons of the matched documents. -/
theorem mem_nextContexts (h : DocTree file T) {s : Step} {contextList : List Document}
    (hc : ∀ c ∈ contextList, IsContext file T c) (c' : Document) :
    c' ∈ stepContexts env file s
        (contextList.flatMap fun c => scanned file T c.indexParent s.pType) ↔
      ∃ c ∈ contextList, ∃ k x, Scans file T s.pType c.indexParent k ∧ Matched env file T s k ∧
        sonOf file k = some x ∧ c' = ⟨false, k, getDocumentHeader file x⟩ := by
  rw [mem_stepContexts]
  constructor
  · rintro ⟨hs, doc, hdoc, hok, hchild⟩
    obtain ⟨c, hm, hscan⟩ := List.mem_flatMap.mp hdoc
    obtain ⟨k, hk, hfound⟩ := (mem_scanned h (hc c hm).1).mp hscan
    obtain ⟨x, hx, rfl⟩ := (mem_childContext h hfound).mp hchild
    exact ⟨c, hm, k, x, hk, ⟨hs, doc, hfound, hok⟩, hx, rfl⟩
  · rintro ⟨c, hm, k, x, hk, ⟨hs, doc, hfound, hok⟩, hx, rfl⟩
    exact ⟨hs, doc, List.mem_flatMap.mpr ⟨c, hm, (mem_scanned h (hc c hm).1).mpr ⟨k, hk, hfound⟩⟩,
      hok, (mem_childContext h hfound).mpr ⟨x, hx, rfl⟩⟩

theorem isContext_next (h : DocTree file T) {k x : Nat} (hk : k ∈ T.nodes)
    (hx : sonOf file k = some x) : IsContext file T ⟨false, k, getDocumentHeader file x⟩ := by
  refine ⟨hk, ?_⟩
  rw [h.attached x (h.links.mem_of_link hk (Or.inl hx))]
  exact hx

variable (env) in
/-- **The steps of a path.**  The last step sees the documents it gets to from the ends of the
trails of the steps before. -/
theorem findSteps_spec (h : DocTree file T) {fuel : Nat} (hfuel : T.nodes.length < fuel)
    {size i : Nat} {ss : List Step} {s : Step} (hsize : i + ss.length + 1 = size)
    (hv : ∀ s' ∈ ss ++ [s], s'.ByValue) {contextList : List Document}
    (hc : ∀ c ∈ contextList, IsContext file T c) (depth : Nat) (r : FindIfResult) :
    ∃ docs, findSteps env fuel file size i (ss ++ [s]) contextList depth r
        = some (stepResult env file s true docs r) ∧
      ∀ doc, doc ∈ docs ↔ ∃ c ∈ contextList, ∃ a k,
        Trail (Scans file T) (Matched env file T) c.indexParent ss a ∧
          Scans file T s.pType a k ∧ FoundAs file T doc k := by
  induction ss generalizing i contextList depth r with
  | nil =>
    obtain ⟨depth', st', hrun, -, hr⟩ := scanContexts_spec env true h
      (hv s (by simp)) hfuel hc depth ⟨0, [], r⟩
    refine ⟨contextList.flatMap fun c => scanned file T c.indexParent s.pType, ?_, ?_⟩
    · have hlast : i + 1 = size := by simpa using hsize
      rw [List.nil_append, findSteps, decide_eq_true hlast, hrun]
      simp only [Option.bind_eq_bind, Option.bind_some, findSteps, hr, if_pos hlast]
    · intro doc
      simp only [List.mem_flatMap, Trail]
      refine exists_congr fun c => and_congr_right ?_
      intro hm
      rw [mem_scanned h (hc c hm).1]
      simp
  | cons s0 ss ih =>
    obtain ⟨depth', st', hrun, hnext, hr⟩ := scanContexts_spec env false h
      (hv s0 (by simp)) hfuel hc depth ⟨0, [], r⟩
    have hlast : ¬ i + 1 = size := by
      rw [List.length_cons] at hsize
      omega
    rw [List.nil_append] at hnext
    have hmem := mem_nextContexts env (s := s0) h hc
    rw [← hnext] at hmem
    have hc' : ∀ c' ∈ st'.tempContextList, IsContext file T c' := by
      intro c' hm
      obtain ⟨c, hmc, k, x, hk, -, hx, rfl⟩ := (hmem c').mp hm
      exact isContext_next h (h.scans_mem (hc c hmc).1 hk).1 hx
    obtain ⟨docs, hsteps, hdocs⟩ := ih (i := i + 1) (by rw [List.length_cons] at hsize; omega)
      (fun s' hs' => hv s' (List.mem_cons_of_mem _ hs')) hc'
      (depthAfter s0.pType depth') st'.ifResult
    have hkeep : st'.ifResult = r := by rw [hr, stepResult, if_neg (by simp)]
    refine ⟨docs, ?_, ?_⟩
    · rw [List.cons_append, findSteps, decide_eq_false hlast, hrun]
      simp only [Option.bind_eq_bind, Option.bind_some]
      rw [hsteps, hkeep]
    · intro doc
      rw [hdocs]
      constructor
      · rintro ⟨c', hm', a, k, htrail, hk⟩
        obtain ⟨c, hm, b, x, hb, hok, -, rfl⟩ := (hmem c').mp hm'
        exact ⟨c, hm, a, k, ⟨b, hb, hok, htrail⟩, hk⟩
      · rintro ⟨c, hm, a, k, ⟨b, hb, hok, htrail⟩, hk⟩
        obtain ⟨x, hx⟩ := h.trail_son (h.scans_mem (hc c hm).1 hb).1 ⟨a, htrail, hk.1⟩
        exact ⟨_, (hmem _).mpr ⟨c, hm, b, x, hb, hok, hx, rfl⟩, a, k, htrail, hk⟩

variable (env) in
/-- The loop of `join` without predicates lists a sibling chain. -/
theorem joinLoop_roots {s : Step} (hpred : s.pred = []) (parent : Document) {F : Forest Nat}
    {tempIndex : Nat} (hF : F.Represents (sonOf file) (brotherOf file) (link tempIndex))
    {fuel : Nat}
    (hfuel : F.nodes.length < fuel) (docNumber : Nat) :
    joinLoop env file parent s fuel tempIndex docNumber
      = some (F.roots.map fun k => documentAt file k parent.header.indexAttached) := by
  induction F generalizing tempIndex fuel docNumber with
  | nil =>
    obtain ⟨fuel, rfl⟩ : ∃ m, fuel = m + 1 := ⟨fuel - 1, by simp at hfuel; omega⟩
    rw [joinLoop, if_pos (link_eq_none.mp hF)]
    rfl
  | cons a sons brothers _ ih =>
    obtain ⟨fuel, rfl⟩ : ∃ m, fuel = m + 1 := ⟨fuel - 1, by simp at hfuel; omega⟩
    obtain ⟨ha, -, hb⟩ := hF
    obtain ⟨rfl, hne⟩ := link_eq_some.mp ha
    have hrest := ih hb (by simp at hfuel; omega : _ < fuel) (docNumber + 1)
    simp only [joinLoop, if_neg hne, hrest, calculatePredicate, if_pos hpred, if_true]
    rfl

variable (env) in
/-- The sons of the root. -/
theorem join_root (h : DocTree file T) {fuel : Nat} (hfuel : T.nodes.length < fuel) :
    join env fuel file (documentAt file 0 0) []
      = some ((T.sonsOf 0).roots.map fun k => documentAt file k 0) := by
  have hlen : (T.sonsOf 0).nodes.length < fuel := Nat.lt_of_le_of_lt (h.length_sonsOf_le 0) hfuel
  have hroot : (documentAt file 0 0).header.indexAttached = 0 := h.attached 0 h.root_mem
  refine (joinLoop_roots env rfl _ (h.links.sonsOf h.root_mem) hlen 0).trans ?_
  rw [hroot]

/-- The result of a search before it begins. -/
def FindIfResult.empty : FindIfResult := ⟨.undefinedResult, [], []⟩

/-- The lists that `findIfFromRoot` destroys hold nothing. -/
theorem destroyLists_stepResult (s : Step) (docs : List Document) :
    (stepResult env file s true docs .empty).destroyLists
      = stepResult env file s true docs .empty := by
  unfold stepResult
  rw [if_pos rfl]
  cases s.sType with
  | documentStep => cases docs.filter (satisfies env file s) <;> rfl
  | elementStep => cases docs.flatMap (elementsNamed file s) <;> rfl

/-- The root, and the iterator behind it. -/
theorem nextDoc_root (h : DocTree file T) :
    nextDoc file (createDocIterator 0 0 0) = (documentAt file 0 0, 0,
      match sonOf file 0 with
      | none => { createDocIterator 0 0 0 with stop := true }
      | some x => createDocIterator x 0 1) := by
  refine (nextDoc_eq (e := (0, 0, 0)) [] (h.attached 0 h.root_mem)).trans ?_
  simp only [Forest.walkNext, h.root_brother]
  cases sonOf file 0 <;> rfl

variable (env) in
/-- **What a search sees**, for a path that is not answered at once. -/
theorem findIfFromRoot_spec (h : DocTree file T) {fuel : Nat} (hfuel : T.nodes.length < fuel)
    {ss : List Step} {s : Step} (hv : ∀ s' ∈ ss ++ [s], s'.ByValue)
    (hbare : ∀ pType, ¬ isBarePath ⟨ss ++ [s], ss.length + 1⟩ pType) :
    ∃ docs, findIfFromRoot env fuel file ⟨ss ++ [s], ss.length + 1⟩
        = some (stepResult env file s true docs .empty) ∧
      ∀ doc, doc ∈ docs ↔ ∃ a k, Trail (Scans file T) (Matched env file T) 0 ss a ∧
        Scans file T s.pType a k ∧ FoundAs file T doc k := by
  simp only [findIfFromRoot, findIf0, nextDoc_root h, if_neg (hbare .absolutePath),
    if_neg (hbare .relativePath)]
  cases hx : sonOf file 0 with
  | none =>
    refine ⟨[], ?_, ?_⟩
    · cases hs : s.sType <;> simp [stepResult, hs, hasNextDoc] <;> rfl
    · intro doc
      simp only [List.not_mem_nil, false_iff]
      rintro ⟨a, k, htrail, hk, -⟩
      obtain ⟨x, hx'⟩ := h.trail_son h.root_mem ⟨a, htrail, hk⟩
      rw [hx] at hx'
      cases hx'
  | some x =>
    have hxatt := h.attached x (h.links.mem_of_link h.root_mem (Or.inl hx))
    have hc : ∀ c ∈ [documentAt file x 0], IsContext file T c := by
      intro c hm
      obtain rfl := List.mem_singleton.mp hm
      exact ⟨h.root_mem, hx.trans (congrArg some hxatt.symm)⟩
    obtain ⟨docs, hsteps, hdocs⟩ := findSteps_spec env (i := 0) h hfuel
      (Nat.zero_add (ss.length + 1)) hv hc 1 .empty
    have hnext : nextDoc file (createDocIterator x 0 1) = _ := nextDoc_eq (e := (x, 0, 1)) [] hxatt
    refine ⟨docs, ?_, ?_⟩
    · have hrun := congrArg (Option.map FindIfResult.destroyLists) hsteps
      rw [Option.map_some, destroyLists_stepResult] at hrun
      have hgo : hasNextDoc (createDocIterator x 0 1) = true := rfl
      simpa only [hgo, if_true, hnext, FindIfResult.empty] using hrun
    · intro doc
      rw [hdocs]
      simp [documentAt]

theorem documentList_addDocuments (r : FindIfResult) (docs : List Document) :
    (r.addDocuments docs).documentList = r.documentList ++ docs := by
  cases docs <;> simp [FindIfResult.addDocuments]

theorem elementList_addElements (r : FindIfResult) (els : List (Document × ElementEntry)) :
    (r.addElements els).elementList = r.elementList ++ els := by
  cases els <;> simp [FindIfResult.addElements]

section Found

variable {fuel : Nat} {ss : List Step} {s : Step}

variable (env) in
/-- **A path of document steps** finds the ends of its trails. -/
theorem search_documents (h : DocTree file T) (hfuel : T.nodes.length < fuel)
    (hv : ∀ s' ∈ ss ++ [s], s'.ByValue)
    (hbare : ∀ pType, ¬ isBarePath ⟨ss ++ [s], ss.length + 1⟩ pType)
    (hs : s.sType = .documentStep) :
    ∃ r, findIfFromRoot env fuel file ⟨ss ++ [s], ss.length + 1⟩ = some r ∧
      ∀ doc, doc ∈ r.documentList ↔ ∃ k, FoundAs file T doc k ∧
        Trail (Scans file T) (Matched env file T) 0 (ss ++ [s]) k := by
  obtain ⟨docs, hrun, hdocs⟩ := findIfFromRoot_spec env h hfuel hv hbare
  refine ⟨_, hrun, ?_⟩
  intro doc
  simp only [stepResult, if_true, hs, documentList_addDocuments, FindIfResult.empty,
    List.nil_append, List.mem_filter, hdocs, Trail.append]
  constructor
  · rintro ⟨⟨a, k, htrail, hk, hfound⟩, hok⟩
    exact ⟨k, hfound, a, htrail, hk, hs, doc, hfound, hok⟩
  · rintro ⟨k, hfound, a, htrail, hk, -, doc', hfound', hok⟩
    obtain ⟨q, hq, hson, rfl⟩ := hfound
    obtain rfl := h.foundAs_unique hq hson hfound'
    exact ⟨⟨a, k, htrail, hk, q, hq, hson, rfl⟩, hok⟩

variable (env) in
/-- **A path that ends in an element step** finds elements of the documents that this step gets
to. -/
theorem search_elements (h : DocTree file T) (hfuel : T.nodes.length < fuel)
    (hv : ∀ s' ∈ ss ++ [s], s'.ByValue) (hs : s.sType = .elementStep) :
    ∃ r, findIfFromRoot env fuel file ⟨ss ++ [s], ss.length + 1⟩ = some r ∧
      ∀ doc e, (doc, e) ∈ r.elementList ↔ ∃ a k,
        Trail (Scans file T) (Matched env file T) 0 ss a ∧ Scans file T s.pType a k ∧
          FoundAs file T doc k ∧ e ∈ elementEntries file doc true ∧ e.key = s.stepName := by
  have hbare : ∀ pType, ¬ isBarePath ⟨ss ++ [s], ss.length + 1⟩ pType := by
    rintro pType ⟨hsize, s', hs', hdoc, -⟩
    obtain rfl : ss = [] := List.length_eq_zero_iff.mp (by simpa using hsize)
    obtain rfl := List.mem_singleton.mp hs'
    rw [hs] at hdoc
    cases hdoc
  obtain ⟨docs, hrun, hdocs⟩ := findIfFromRoot_spec env h hfuel hv hbare
  refine ⟨_, hrun, ?_⟩
  intro doc e
  simp only [stepResult, if_true, hs, elementList_addElements, FindIfResult.empty,
    List.nil_append, List.mem_flatMap, elementsNamed, List.mem_map, List.mem_filter,
    Prod.mk.injEq, decide_eq_true_eq]
  constructor
  · rintro ⟨doc', hdoc, e', ⟨he, hkey⟩, rfl, rfl⟩
    obtain ⟨a, k, htrail, hk, hfound⟩ := (hdocs doc').mp hdoc
    exact ⟨a, k, htrail, hk, hfound, he, hkey⟩
  · rintro ⟨a, k, htrail, hk, hfound, he, hkey⟩
    exact ⟨doc, (hdocs doc).mpr ⟨a, k, htrail, hk, hfound⟩, e, ⟨he, hkey⟩, rfl, rfl⟩

end Found

end Paths

/-! ## 5. A sample

The nested store that the examples on searches use. -/

/-- A search whose surroundings do not matter. -/
def sampleSearch : SearchEnv := ⟨fun _ => ⟨0, true, 0, false⟩, fun _ => false⟩

/-- The links of a store with one document below another. -/
theorem nested_nodes {file : ZgdbFile A} {n q : Nat} (h : DocTree file (nested n q)) :
    SonOf file 0 n ∧ SonOf file n q := by
  have hn0 : n ≠ 0 := by
    have hnodup := h.nodup
    simp at hnodup
    omega
  refine ⟨(h.sonOf_iff h.root_mem).mpr (by simp [Forest.sonsOf]),
    (h.sonOf_iff (by simp)).mpr ?_⟩
  simp [Forest.sonsOf, Ne.symm hn0]

end Zgdb
