/-
# What the server serves

The server does to the file what the requests do to its catalog (`Keeps.execute`): it gives the same
answer or crashes alike, and what it leaves behind is the catalog that the request leaves.  A
session from a new store is therefore a session on a catalog (`server_refines_catalog`), for every
block space and every expansion of the index table.

What is assumed of a request is that its call is clean and returns, that the texts which it stores
fill no chunk, and that the chain of a JOIN begins with a test (`Servable`).
-/
import Mathlib.Data.Fintype.EquivFin
import Zgdb.Abstraction
import Zgdb.Lib.Outcome

namespace Zgdb

open Zgdb.Lib AddrSpace

variable {A : Type} [BlockSpace A]

/-! ## 1. Tests

A predicate on a stored document against the same predicate on the document of the catalog.  Both
look at the name, the id and the elements, which are the same. -/

section Tests

variable {strtod : CString → StrtodResult} {file : ZgdbFile A} {c : Catalog} {k : Nat}
  {T : Forest Nat} {es : Nat → List StoredElement} {own : Nat → List Nat}

/-- A value is compared as what it is without the bytes it takes. -/
theorem checkElementValue_plain (operator : CompOperator) (input : CString) (v : ElementValue) :
    checkElementValue strtod operator input v.plain
      = checkElementValue strtod operator input v := by
  cases v <;> rfl

variable (strtod) in
/-- The loop over the elements sees what the catalog says. -/
theorem checkElements_eq {es : List ElementEntry} {els : List Element}
    (h : List.Forall₂ ReadsAs es els) (key : Name) (operator : CompOperator) (input : CString)
    (res : Bool) :
    es.foldl (fun res e =>
        if e.key = key then (e.value.bind (checkElementValue strtod operator input)).getD res
        else res) res
      = els.foldl (fun res e =>
        if e.key = key then (checkElementValue strtod operator input e.value).getD res
        else res) res := by
  refine List.rel_foldl (P := Eq) (R := ReadsAs) ?_ rfl h
  rintro res _ rfl x y ⟨hkey, v, hv, hy⟩
  simp only [hkey, hv, hy, Option.bind_some, checkElementValue_plain]

/-- The parent that a document was found under does not matter to its elements. -/
theorem Store.entries_parent (hs : Store file T es own) (hk : k ∈ T.nodes) (q : Nat) :
    elementEntries file (documentAt file k q) true = entries file k := by
  rw [entries, (hs.local hk).elementEntries, (hs.local hk).elementEntries]

/-- **One predicate.** -/
theorem Depicts.predicateRes (h : Depicts file c k) {q : Nat}
    (hentries : elementEntries file (documentAt file k q) true = entries file k) (n : Nat)
    (v : PredicateValue) :
    Zgdb.predicateRes strtod file (documentAt file k q) n v = c.predicateRes strtod k n v := by
  cases v with
  | byDocumentNumber index => rfl
  | byElement key1 operator key2 => rfl
  | byElementValue key operator input =>
    have hid : (documentAt file k q).header.id = c.id k := h.id
    rw [Zgdb.predicateRes, Catalog.predicateRes, hid]
    split
    · rfl
    · rw [hentries, checkElements, checkElements_eq strtod h.elements]

theorem Depicts.combine (h : Depicts file c k) {q : Nat}
    (hentries : elementEntries file (documentAt file k q) true = entries file k) (n : Nat)
    (generalRes : Bool) (p : Predicate) :
    combinePredicate strtod file (documentAt file k q) n generalRes p
      = c.combine strtod k n generalRes p := by
  have hres : Zgdb.predicateRes strtod file (documentAt file k q) n p.value = _ :=
    h.predicateRes hentries n p.value
  cases hop : p.logOp <;> cases hr : c.predicateRes strtod k n p.value <;>
    simp only [combinePredicate, Catalog.combine, hres, hr, hop]

/-- The chain begins with a test of its own. -/
def Begins (chain : List Predicate) : Prop :=
  ∀ p ∈ chain.head?, p.logOp = .none ∧
    ∀ key1 operator key2, p.value ≠ .byElement key1 operator key2

/-- The first test does not look at what is there before. -/
theorem Catalog.combine_first {p : Predicate} (hop : p.logOp = .none)
    (hvalue : ∀ key1 operator key2, p.value ≠ .byElement key1 operator key2) (n : Nat)
    (generalRes generalRes' : Bool) :
    c.combine strtod k n generalRes p = c.combine strtod k n generalRes' p := by
  cases hr : c.predicateRes strtod k n p.value with
  | some res => simp only [Catalog.combine, hr, hop]
  | none =>
    cases hv : p.value with
    | byDocumentNumber index =>
      rw [hv] at hr
      cases hr
    | byElement key1 operator key2 => exact absurd hv (hvalue key1 operator key2)
    | byElementValue key operator input =>
      rw [hv, Catalog.predicateRes] at hr
      split at hr <;> cases hr

/-- **A chain of predicates.** -/
theorem Depicts.passes (h : Depicts file c k) {env : SearchEnv} {s : Step} (hs : Begins s.pred)
    {q : Nat} (hentries : elementEntries file (documentAt file k q) true = entries file k)
    (n : Nat) :
    calculatePredicate env file (documentAt file k q) s n = c.passes env.strtod s.pred k n := by
  have hstep : combinePredicate env.strtod file (documentAt file k q) n
      = c.combine env.strtod k n := by
    funext generalRes p
    exact h.combine hentries n generalRes p
  rw [calculatePredicate, Catalog.passes, hstep]
  cases hpred : s.pred with
  | nil => rfl
  | cons p chain =>
    rw [hpred] at hs
    obtain ⟨hop, hvalue⟩ := hs p rfl
    rw [if_neg (List.cons_ne_nil _ _), if_neg (List.cons_ne_nil _ _), List.foldl_cons,
      List.foldl_cons, Catalog.combine_first hop hvalue n _ false]

end Tests

/-! ## 2. Searches

The value of a path is computed from the tree and two tests, so it is the same for trees and tests
that agree. -/

section Evaluate

variable {file : ZgdbFile A} {T : Forest Nat} {tests tests' : StepTests} {s : Step}

/-- Two tests agree on a step. -/
structure TestsAgree (tests tests' : StepTests) (T : Forest Nat) (s : Step) : Prop where
  named : ∀ k ∈ T.nodes, tests.named s k = tests'.named s k
  passes : ∀ e : Nat × Nat, e.1 ∈ T.nodes → ∀ n, tests.passes s e n = tests'.passes s e n

theorem TestsAgree.filter_zipIdx (ha : TestsAgree tests tests' T s) {l : List (Nat × Nat)}
    (hl : ∀ e ∈ l, e.1 ∈ T.nodes) :
    l.zipIdx.filter (fun x => tests.passes s x.1 x.2)
      = l.zipIdx.filter fun x => tests'.passes s x.1 x.2 := by
  refine List.filter_congr ?_
  intro x hx
  exact ha.passes x.1 (hl x.1 (List.fst_mem_of_mem_zipIdx hx)) x.2

theorem DocTree.matched_congr (h : DocTree file T) (ha : TestsAgree tests tests' T s) {p : Nat}
    (hp : p ∈ T.nodes) : matched tests T s p = matched tests' T s p := by
  have hnamed : (reached T p s.pType).filter (fun e => tests.named s e.1)
      = (reached T p s.pType).filter fun e => tests'.named s e.1 := by
    refine List.filter_congr ?_
    intro e he
    exact ha.named e.1 (h.mem_reached hp he)
  rw [matched, matched, hnamed, ha.filter_zipIdx]
  intro e he
  exact h.mem_reached hp (List.mem_filter.mp he).1

theorem DocTree.flatMap_matched_congr (h : DocTree file T) (ha : TestsAgree tests tests' T s)
    {parents : List Nat} (hp : ∀ p ∈ parents, p ∈ T.nodes) :
    parents.flatMap (matched tests T s) = parents.flatMap (matched tests' T s) := by
  refine List.flatMap_congr ?_
  intro p hpm
  exact h.matched_congr ha (hp p hpm)

theorem DocTree.parentsAfter_congr (h : DocTree file T) {ss : List Step}
    (ha : ∀ s ∈ ss, TestsAgree tests tests' T s) {parents : List Nat}
    (hp : ∀ p ∈ parents, p ∈ T.nodes) :
    parentsAfter tests T ss parents = parentsAfter tests' T ss parents := by
  induction ss generalizing parents with
  | nil => rfl
  | cons s ss ih =>
    have hnext : nextParents tests T s parents = nextParents tests' T s parents := by
      unfold nextParents
      rw [h.flatMap_matched_congr (ha s List.mem_cons_self) hp]
    rw [parentsAfter, parentsAfter, hnext]
    exact ih (fun s' hs' => ha s' (List.mem_cons_of_mem _ hs')) (h.nextParents_mem hp)

/-- **Tests that agree find the same.** -/
theorem DocTree.evaluate_congr (h : DocTree file T) {ss : List Step}
    (ha : ∀ s' ∈ ss, TestsAgree tests tests' T s') (hs : TestsAgree tests tests' T s) :
    evaluate tests T ss s = evaluate tests' T ss s := by
  have hroot : ∀ p ∈ ([0] : List Nat), p ∈ T.nodes := by simpa using h.root_mem
  have hparents : ∀ p ∈ parentsAfter tests' T ss [0], p ∈ T.nodes := h.parentsAfter_mem hroot
  rw [evaluate, evaluate, h.parentsAfter_congr ha hroot]
  unfold lastNodes
  rw [h.flatMap_matched_congr hs hparents]

theorem TestsAgree.joined (ha : TestsAgree tests tests' T s) (p : Nat) :
    Zgdb.joined tests T s p = Zgdb.joined tests' T s p := by
  rw [Zgdb.joined, Zgdb.joined, ha.filter_zipIdx]
  intro e he
  obtain ⟨k, hk, rfl⟩ := List.mem_map.mp he
  exact DocTree.mem_below (Forest.mem_nodes_of_mem_roots hk)

end Evaluate

section Found

variable {env : SearchEnv} {file : ZgdbFile A} {c : Catalog} {T : Forest Nat}
  {es : Nat → List StoredElement} {own : Nat → List Nat} {s : Step}

/-- The root, or a node with its parent. -/
def UnderParent (file : ZgdbFile A) (T : Forest Nat) (e : Nat × Nat) : Prop :=
  e = (0, 0) ∨ e.1 ≠ 0 ∧ e.2 ∈ T.nodes ∧ SonOf file e.2 e.1

/-- An element that was found. -/
structure FoundElement (file : ZgdbFile A) (T : Forest Nat) (x : Document × ElementEntry)
    (y : (Nat × Nat) × Element) : Prop where
  document : x.1 = documentAt file y.1.1 y.1.2
  element : ReadsAs x.2 y.2
  mem : y.1.1 ∈ T.nodes

/-- What was found in the file is what was found in the catalog. -/
structure FindsAlike (file : ZgdbFile A) (T : Forest Nat) (r : FindIfResult) (found : Finding) :
    Prop where
  type : r.type = found.type
  documents : r.documentList = documentsAt file found.documents
  elements : List.Forall₂ (FoundElement file T) r.elementList found.elements
  placed : ∀ e ∈ found.documents, UnderParent file T e

theorem finds_empty : FindsAlike file T .empty .empty :=
  ⟨rfl, rfl, .nil, fun _ he => (by cases he)⟩

theorem finds_ofDocuments {docs : List (Nat × Nat)} (h : ∀ e ∈ docs, UnderParent file T e) :
    FindsAlike file T (FindIfResult.empty.addDocuments (documentsAt file docs))
      (.ofDocuments docs) := by
  cases docs with
  | nil => exact finds_empty
  | cons e docs => exact ⟨rfl, rfl, .nil, h⟩

theorem finds_ofElements {xs : List (Document × ElementEntry)} {ys : List ((Nat × Nat) × Element)}
    (h : List.Forall₂ (FoundElement file T) xs ys) :
    FindsAlike file T (FindIfResult.empty.addElements xs) (.ofElements ys) := by
  cases h with
  | nil => exact finds_empty
  | cons hx hxs => exact ⟨rfl, rfl, .cons hx hxs, fun _ he => (by cases he)⟩

/-- The elements of a document with the name of a step. -/
theorem Keeps.elementsNamed (h : Keeps file c) (hs : Store file c.tree es own) {e : Nat × Nat}
    (he : e.1 ∈ c.tree.nodes) : List.Forall₂ (FoundElement file c.tree)
      (Zgdb.elementsNamed file s (documentAt file e.1 e.2)) (c.elementsNamed s e) := by
  rw [Zgdb.elementsNamed, Catalog.elementsNamed, hs.entries_parent he]
  refine List.rel_map (R := ReadsAs) (fun x y hxy => ⟨rfl, hxy, he⟩) (List.rel_filter ?_ ?_)
  · intro x y hxy
    simp only [hxy.key]
  · exact (h.document e.1 he).elements

/-- The tests of the file are those of the catalog. -/
theorem Keeps.testsAgree (h : Keeps file c) (hs : Store file c.tree es own)
    (hpred : Begins s.pred) :
    TestsAgree (fileTests env file) (c.tests env.strtod) c.tree s where
  named k hk := by
    show decide ((getDocumentHeader file k).name = s.stepName) = decide (c.name k = s.stepName)
    rw [(h.document k hk).name]
  passes e he n := (h.document e.1 he).passes hpred (hs.entries_parent he e.2) n

theorem begins_nil : Begins [] := fun _ hp => (by cases hp)

/-- What a path evaluates to has its places. -/
theorem Store.placed_evaluate (hs : Store file T es own) {tests : StepTests} {ss : List Step}
    {e : Nat × Nat} (he : e ∈ evaluate tests T ss s) : UnderParent file T e ∧ e.1 ∈ T.nodes := by
  obtain ⟨q, hq, hson, heq⟩ := hs.docTree.foundAs_of_evaluate he
  have hq2 : e.2 = q := congrArg Document.indexParent heq
  subst hq2
  exact ⟨Or.inr ⟨hson.ne_zero, hq, hson⟩, hs.docTree.son_mem hq hson⟩

/-- **The value of a path** without predicates. -/
theorem Keeps.finds_pathValue (h : Keeps file c) (hs : Store file c.tree es own) {ss : List Step}
    (hpred : ∀ s ∈ ss, s.pred = []) :
    FindsAlike file c.tree (Zgdb.pathValue env file c.tree ss) (c.pathValue env.strtod ss) := by
  have hagree : ∀ s ∈ ss, TestsAgree (fileTests env file) (c.tests env.strtod) c.tree s := by
    intro s hsm
    exact h.testsAgree hs ((hpred s hsm).symm ▸ begins_nil)
  unfold Zgdb.pathValue Catalog.pathValue
  split
  · exact ⟨rfl, rfl, .nil, fun e he => Or.inl (List.mem_singleton.mp he)⟩
  split
  · refine ⟨rfl, rfl, .nil, ?_⟩
    intro e he
    obtain ⟨k, hk, rfl⟩ := List.mem_map.mp he
    have hson := (hs.docTree.sonOf_iff hs.root_mem).mpr hk
    exact Or.inr ⟨hson.ne_zero, hs.root_mem, hson⟩
  cases hlast : ss.getLast? with
  | none => exact finds_empty
  | some s =>
    have hsm : s ∈ ss := List.mem_of_getLast? hlast
    have hinit : ∀ s' ∈ ss.dropLast,
        TestsAgree (fileTests env file) (c.tests env.strtod) c.tree s' := fun s' hs' =>
      hagree s' (List.mem_of_mem_dropLast hs')
    have heval := hs.docTree.evaluate_congr hinit (hagree s hsm)
    simp only [resultOf, heval]
    cases s.sType with
    | documentStep => exact finds_ofDocuments fun e he => (hs.placed_evaluate he).1
    | elementStep =>
      refine finds_ofElements ?_
      rw [documentsAt, List.flatMap_map]
      refine List.rel_flatMap (R := fun a b => a = b ∧ a.1 ∈ c.tree.nodes) ?_ ?_
      · refine List.forall₂_same.mpr ?_
        intro e he
        exact ⟨rfl, (hs.placed_evaluate he).2⟩
      · rintro e _ ⟨rfl, he⟩
        exact h.elementsNamed hs he

/-- **A search** in the file finds what it finds in the catalog. -/
theorem Keeps.search (h : Keeps file c) (hs : Store file c.tree es own) {p : Path}
    (hle : p.steps.length ≤ p.size) (hpred : ∀ s ∈ p.steps, s.pred = []) :
    Option.Rel (FindsAlike file c.tree) (findIfFromRoot env (loopBound file) file p)
      (c.search env.strtod p) := by
  rcases Nat.lt_or_eq_of_le hle with hlt | hsize
  · rw [hs.docTree.search_short hlt, Catalog.search, if_neg (Nat.ne_of_lt hlt)]
    have hsons := hs.links.sonsOf hs.root_mem
    cases hx : sonOf file 0 with
    | none =>
      rw [hx] at hsons
      rw [hsons.eq_nil, if_pos rfl, if_pos (by rfl)]
      exact .some finds_empty
    | some x =>
      have hne : (c.tree.sonsOf 0).roots ≠ [] := by
        intro hnil
        cases hF : c.tree.sonsOf 0 with
        | nil =>
          rw [hF, hx] at hsons
          cases hsons
        | cons a sons brothers =>
          rw [hF] at hnil
          cases hnil
      rw [if_neg (by simp), if_neg hne]
      exact .none
  · have hp : p = ⟨p.steps, p.steps.length⟩ := by rw [hsize]
    rw [Catalog.search, if_pos hsize, hp, hs.docTree.search_eq env hs.docTree_fuel]
    exact .some (h.finds_pathValue hs hpred)

end Found

/-! ## 3. Requests

Each handler is followed along the text of both sides.  They fail alike, or go on with results that
are related. -/

/-- What the catalog takes from elsewhere. -/
def ServerEnv.catalog (env : ServerEnv A) : CatalogEnv := ⟨env.search.strtod, env.sprintfF, env.now⟩

/-- The texts that a call stores fill no chunk. -/
def Call.Readable : Call → Prop
  | create _ _ _ schema => ∀ e ∈ schema.elements, e.NotFull
  | _ => True

/-- What is assumed of a request where it is served.  Its call, if it makes one, is clean and
returns; a creation stores no text that fills its last chunk; and the chain of a JOIN begins with a
test of its own, so that the answer does not depend on a variable without a value. -/
structure Servable (env : ServerEnv A) (root : XmlNode) (file : ZgdbFile A) : Prop where
  clean : ∀ call, callOf env root file = some call → call.Clean env.calls file
  returns : ∀ call, callOf env root file = some call → (call.exec env.calls file).isSome
  readable : ∀ call, callOf env root file = some call → call.Readable
  begins : xmlGetProp root "type" = some (xmlChar "join") → ∀ node chain,
    findNodeByName [root] "predicate" = some node → createPredicateFromXml node = some chain →
    Begins chain

/-- The same result, and the file keeps the catalog. -/
def Mirrors {α : Type} (x : α × ZgdbFile A) (y : α × Catalog) : Prop := x.1 = y.1 ∧ Keeps x.2 y.2

/-- The path of a request that is used has no predicates. -/
theorem pred_pathFromXml {root : XmlNode} {p : Path} (hp : pathFromXml root = some p) :
    ∀ s ∈ p.steps, s.pred = [] := by
  simp only [pathFromXml, Option.bind_eq_bind, Option.bind_eq_some_iff,
    Option.ite_none_right_eq_some] at hp
  obtain ⟨-, -, -, -, -, -, -, p', -, husable⟩ := hp
  unfold PathWith.usable at husable
  split at husable
  · obtain rfl := Option.some.inj husable
    intro s hs
    obtain ⟨s', -, rfl⟩ := List.mem_map.mp hs
    rfl
  · cases husable

theorem agree_defined {α β : Type} {R : α → β → Prop} {x : Option α} {y : Option β}
    (h : Option.Rel R x y) : Agree R (defined x) (defined y) := by
  cases h with
  | some h => exact .ok h
  | none => exact .error _

section Requests

variable {env : ServerEnv A} {root : XmlNode} {file : ZgdbFile A} {c : Catalog}
  {es : Nat → List StoredElement} {own : Nat → List Nat}

/-- What the path of a request finds. -/
theorem Keeps.finds (h : Keeps file c) (hs : Store file c.tree es own) :
    Agree (FindsAlike file c.tree) (findFromXml env (loopBound file) root file)
      (c.find env.catalog root) := by
  refine .same ?_
  intro p hp
  rw [defined_ok] at hp
  exact agree_defined (h.search hs (length_pathFromXml_le hp) (pred_pathFromXml hp))

/-- The document of a node with its parent. -/
structure HeadAlike (file : ZgdbFile A) (T : Forest Nat) (doc : Document) (e : Nat × Nat) :
    Prop where
  document : doc = documentAt file e.1 e.2
  under : UnderParent file T e

theorem FindsAlike.head {T : Forest Nat} {r : FindIfResult} {found : Finding}
    (h : FindsAlike file T r found) :
    Agree (HeadAlike file T) (headDocument r.documentList) found.head := by
  have hplaced := h.placed
  rw [h.documents, Finding.head]
  cases hd : found.documents with
  | nil => exact .error _
  | cons e docs =>
    rw [hd] at hplaced
    exact .ok ⟨rfl, hplaced e List.mem_cons_self⟩

theorem UnderParent.mem {T : Forest Nat} (hs : Store file T es own) {e : Nat × Nat}
    (h : UnderParent file T e) : e.1 ∈ T.nodes ∧ e.2 ∈ T.nodes := by
  rcases h with rfl | ⟨-, hq, hson⟩
  · exact ⟨hs.root_mem, hs.root_mem⟩
  · exact ⟨hs.docTree.son_mem hq hson, hq⟩

/-- A place for the document that a request creates, if it creates one. -/
theorem Keeps.place (h : Keeps file c) (hserv : Servable env root file) : ∃ place : Place,
    place.node ∉ c.tree.nodes ∧ ∀ now p name schema file',
      callOf env root file = some (.create now p name schema) →
      (Call.create now p name schema).Legal file →
      (Call.create now p name schema).exec env.calls file = some file' →
      Keeps file' (c.create now p place name schema.elements) := by
  by_cases hcall : ∃ now p name schema, callOf env root file = some (.create now p name schema) ∧
      (Call.create now p name schema).Legal file
  · obtain ⟨now, p, name, schema, hcall, hl⟩ := hcall
    obtain ⟨file', he⟩ := Option.isSome_iff_exists.mp (hserv.returns _ hcall)
    obtain ⟨place, hfresh, hkeeps⟩ :=
      h.create hl (hserv.clean _ hcall) (hserv.readable _ hcall) he
    refine ⟨place, hfresh, ?_⟩
    intro now' p' name' schema' file'' hcall' _ he'
    cases Option.some.inj (hcall.symm.trans hcall')
    rwa [Option.some.inj (he'.symm.trans he)]
  · obtain ⟨n, hn⟩ := Infinite.exists_notMem_finset c.tree.nodes.toFinset
    refine ⟨⟨n, 0⟩, by simpa using hn, ?_⟩
    intro now p name schema file' hcall' hl _
    exact absurd ⟨now, p, name, schema, hcall', hl⟩ hcall

/-- **An ADD request.** -/
theorem Keeps.add (h : Keeps file c) (hs : Store file c.tree es own)
    (hserv : Servable env root file) (htype : xmlGetProp root "type" = some (xmlChar "add"))
    {place : Place} (hplace : ∀ now p name schema file',
      callOf env root file = some (.create now p name schema) →
      (Call.create now p name schema).Legal file →
      (Call.create now p name schema).exec env.calls file = some file' →
      Keeps file' (c.create now p place name schema.elements)) :
    Agree Mirrors (executeAddFromXml env (loopBound file) root file)
      (c.add env.catalog place root) := by
  refine .same ?_
  intro documentNode hdocument
  refine .same ?_
  intro schemaNode hschemaNode
  refine .same ?_
  intro schema hschema
  refine (h.finds hs).bind ?_
  intro r found hfind _ hfinds
  refine hfinds.head.bind ?_
  intro doc e hhead _ halike
  refine .same ?_
  intro name hname
  rw [defined_ok] at hdocument hschemaNode hschema hname
  have hmem := (halike.under.mem hs).1
  have htarget := target_eq hfind hhead
  obtain rfl := halike.document
  have hatt : (documentAt file e.1 e.2).header.indexAttached = e.1 := hs.attached hmem
  by_cases hcomplete : schema.Complete
  · have hcall : callOf env root file = some (.create env.now e.1 name schema) := by
      simp [callOf, addCall, htarget, htype, hatt, hdocument, hname, hschemaNode,
        hschema, hcomplete]
    have hl : (Call.create env.now e.1 name schema).Legal file :=
      ⟨hs.live_iff.mpr hmem, built_createSchemaFromXml hschema, hcomplete⟩
    obtain ⟨file', he⟩ := Option.isSome_iff_exists.mp (hserv.returns _ hcall)
    obtain ⟨⟨status, file1⟩, hcreate, rfl⟩ := Option.map_eq_some_iff.mp he
    obtain rfl := (createDocument_cases hcreate hcomplete).1
    have hrun : createDocument env.expandIndexes env.now file name schema
        (documentAt file e.1 e.2) = some (.createOk, file1) := hcreate
    rw [hrun, if_pos hcomplete]
    exact .ok ⟨rfl, hplace _ _ _ _ _ hcall hl he⟩
  · rw [createDocument_incomplete hcomplete, if_neg hcomplete]
    exact .ok ⟨rfl, h⟩

/-- **A DELETE request.** -/
theorem Keeps.executeDelete (h : Keeps file c) (hs : Store file c.tree es own)
    (hserv : Servable env root file) (htype : xmlGetProp root "type" = some (xmlChar "delete")) :
    Agree (fun x y => x.1.type = y.1 ∧ Keeps x.2 y.2)
      (executeDeleteFromXml env (loopBound file) root file) (c.executeDelete env.catalog root) := by
  refine (h.finds hs).bind ?_
  intro r found hfind _ hfinds
  rw [hfinds.type]
  split
  · exact .ok ⟨hfinds.type, h⟩
  refine hfinds.head.bind ?_
  intro doc e hhead _ halike
  have hmem := halike.under.mem hs
  have htarget := target_eq hfind hhead
  obtain rfl := halike.document
  have hatt : (documentAt file e.1 e.2).header.indexAttached = e.1 := hs.attached hmem.1
  have hcall : callOf env root file = some (deleteCall (documentAt file e.1 e.2)) := by
    have hne : xmlChar "delete" ≠ xmlChar "add" := by decide
    simp [callOf, htarget, htype, hne]
  have hdone : ∃ file', deleteDocument (loopBound file) file (documentAt file e.1 e.2)
      = some file' ∧
      Keeps file' (c.delete e.1) := by
    obtain ⟨k, q⟩ := e
    rcases halike.under with he | ⟨hk, hq, hson⟩
    · obtain ⟨rfl, rfl⟩ := Prod.mk.inj he
      have hclean : Call.deleteRoot.Clean env.calls file :=
        hserv.clean _ (by rw [hcall, deleteCall, if_pos hatt])
      exact h.deleteRoot hclean
    · exact h.delete env.calls ⟨hs.live_iff.mpr hmem.1, hk, hs.live_iff.mpr hq, hson⟩
  obtain ⟨file', hrun, hkeeps⟩ := hdone
  rw [hrun]
  exact .ok ⟨hfinds.type, hkeeps⟩

/-- **An UPDATE request.** -/
theorem Keeps.executeUpdate (h : Keeps file c) (hs : Store file c.tree es own)
    (hserv : Servable env root file) (htype : xmlGetProp root "type" = some (xmlChar "update")) :
    Agree Mirrors (executeUpdateFromXml env (loopBound file) root file)
      (c.executeUpdate env.catalog root) := by
  refine (h.finds hs).bind ?_
  intro r found hfind _ hfinds
  rw [hfinds.type]
  split
  · exact .ok ⟨rfl, h⟩
  refine hfinds.head.bind ?_
  intro doc e hhead _ halike
  refine .same ?_
  intro name hname
  refine .same ?_
  intro newValue hvalue
  rw [defined_ok] at hname hvalue
  have hmem := (halike.under.mem hs).1
  have htarget := target_eq hfind hhead
  obtain rfl := halike.document
  have hatt : (documentAt file e.1 e.2).header.indexAttached = e.1 := hs.attached hmem
  have hcall : callOf env root file = some (.update e.1 name newValue) := by
    have hne : xmlChar "update" ≠ xmlChar "add" ∧ xmlChar "update" ≠ xmlChar "delete" := by decide
    obtain ⟨elementNode, hnode, hname⟩ := Option.bind_eq_some_iff.mp hname
    rw [hnode, Option.bind_some] at hvalue
    simp [callOf, updateCall, htarget, htype, hatt, hne, hnode, hname, hvalue]
  obtain ⟨file', hrun, hkeeps⟩ : UpdateAgrees env.search.strtod file c e.1 e.2 name newValue :=
    h.update hmem e.2 (hserv.clean _ hcall)
  rw [hrun]
  exact .ok ⟨rfl, hkeeps⟩

/-- The names of documents. -/
theorem Keeps.documentChildren (h : Keeps file c) {es : List (Nat × Nat)}
    (hes : ∀ e ∈ es, e.1 ∈ c.tree.nodes) :
    Zgdb.documentChildren (documentsAt file es) = nameChildren (es.map fun e => c.name e.1) := by
  rw [Zgdb.documentChildren, documentsAt, nameChildren, List.map_map, List.map_map]
  refine List.map_congr_left ?_
  intro e he
  have hname : (documentAt file e.1 e.2).header.name = c.name e.1 :=
    (h.document e.1 (hes e he)).name
  show newChild "document" ⟨(documentAt file e.1 e.2).header.name.chars, _⟩ [] = _
  simp only [Function.comp_apply, hname]

/-- An element is answered by what it is. -/
theorem Keeps.elementChild (h : Keeps file c) (sprintfF : UInt64 → CString)
    {x : Document × ElementEntry} {y : (Nat × Nat) × Element}
    (hxy : FoundElement file c.tree x y) :
    Zgdb.elementChild sprintfF x = c.elementChild sprintfF y := by
  obtain ⟨v, hv, hplain⟩ := hxy.element.value
  have hname : (documentAt file y.1.1 y.1.2).header.name = c.name y.1.1 :=
    (h.document y.1.1 hxy.mem).name
  have hprops : elementProps sprintfF (some y.2.value) = elementProps sprintfF (some v) := by
    rw [hplain]
    cases v <;> rfl
  simp only [Zgdb.elementChild, Catalog.elementChild, hxy.document, hname, hv, hxy.element.key,
    hprops]

/-- **The answer of a FIND request.** -/
theorem Keeps.findAnswer (h : Keeps file c) (hs : Store file c.tree es own)
    (sprintfF : UInt64 → CString) {r : FindIfResult} {found : Finding}
    (hfinds : FindsAlike file c.tree r found) :
    Agree Eq (Zgdb.findAnswer sprintfF r) (c.findAnswer sprintfF found) := by
  rw [Zgdb.findAnswer, Catalog.findAnswer, hfinds.type]
  cases found.type with
  | undefinedResult => exact .ok rfl
  | documentResult =>
    rw [hfinds.documents, h.documentChildren fun e he => ((hfinds.placed e he).mem hs).1]
    exact .ok rfl
  | elementResult =>
    refine (Agree.mapM (S := Eq) hfinds.elements ?_).bind ?_
    · intro x y hxy
      rw [h.elementChild sprintfF hxy]
      exact .refl _
    · rintro children children' - - hchildren
      rw [List.forall₂_eq_eq_eq] at hchildren
      rw [hchildren]
      exact .ok rfl

/-- A list of documents of the tree. -/
def ListsAlike (file : ZgdbFile A) (T : Forest Nat) (list : List Document) (es : List (Nat × Nat)) :
    Prop := list = documentsAt file es ∧ ∀ e ∈ es, e.1 ∈ T.nodes

/-- The sons that pass. -/
theorem Keeps.join (h : Keeps file c) (hs : Store file c.tree es own) {r : FindIfResult}
    {found : Finding} (hfinds : FindsAlike file c.tree r found) {chain : List Predicate}
    (hchain : Begins chain) : Agree (ListsAlike file c.tree)
      (headDocument r.documentList >>= fun head =>
        defined (Zgdb.join env.search (loopBound file) file head chain))
      (found.head >>= fun head => .ok (joined (c.tests env.search.strtod) c.tree
        (joinStep (c.name head.1) chain) head.1)) := by
  refine hfinds.head.bind ?_
  rintro doc e - - ⟨rfl, hunder⟩
  have hmem := (hunder.mem hs).1
  rw [hs.docTree.join_eq env.search hs.docTree_fuel hmem, (h.document e.1 hmem).name,
    (h.testsAgree hs hchain).joined]
  refine .ok ⟨rfl, ?_⟩
  intro x hx
  obtain ⟨y, hy, rfl⟩ := List.mem_map.mp hx
  have hson := List.fst_mem_of_mem_zipIdx (List.mem_filter.mp hy).1
  obtain ⟨k, hk, hke⟩ := List.mem_map.mp hson
  rw [← hke]
  exact DocTree.mem_below (Forest.mem_nodes_of_mem_roots hk)

/-- **A JOIN request.** -/
theorem Keeps.executeJoin (h : Keeps file c) (hs : Store file c.tree es own)
    (hserv : Servable env root file) (htype : xmlGetProp root "type" = some (xmlChar "join")) :
    Agree (ListsAlike file c.tree) (executeJoinFromXml env (loopBound file) root file)
      (c.executeJoin env.catalog root) := by
  refine (h.finds hs).bind ?_
  intro r found _ _ hfinds
  refine .same ?_
  intro predicateNode hnode
  refine .same ?_
  intro st _
  rw [defined_ok] at hnode
  by_cases hst : st ≠ 0
  · rw [if_pos hst, if_pos hst]
    refine .same ?_
    intro chain hchain
    rw [defined_ok] at hchain
    exact h.join hs hfinds (hserv.begins htype _ _ hnode hchain)
  · rw [if_neg hst, if_neg hst]
    exact h.join hs hfinds begins_nil

/-- **A PARENT request.** -/
theorem Keeps.executeParent (h : Keeps file c) (hs : Store file c.tree es own) :
    Agree (fun doc e => doc.header.name = c.name e.2)
      (executeParentFromXml env (loopBound file) root file)
      (c.find env.catalog root >>= Finding.head) := by
  refine (h.finds hs).bind ?_
  intro r found _ _ hfinds
  have hhead := hfinds.head
  rw [← bind_pure found.head]
  refine hhead.bind ?_
  rintro doc e - - ⟨rfl, hunder⟩
  exact .ok (h.document e.2 (hunder.mem hs).2).name

/-- **A request** does to the file what it does to the catalog. -/
theorem Keeps.execute (h : Keeps file c) (hserv : Servable env root file) :
    ∃ place : Place, place.node ∉ c.tree.nodes ∧
      Agree Mirrors (executeZgdbFromXml env (loopBound file) root file)
        (c.execute env.catalog place root) := by
  obtain ⟨place, hfresh, hplace⟩ := h.place hserv
  obtain ⟨es, own, hs, -⟩ := id h.store
  refine ⟨place, hfresh, ?_⟩
  rw [executeZgdbFromXml, Catalog.execute]
  dsimp only
  split
  · rename_i htype
    refine (h.add hs hserv htype hplace).bind ?_
    rintro ⟨status, file'⟩ ⟨status', c'⟩ - - ⟨heq, hkeeps⟩
    obtain rfl : status = status' := heq
    exact .ok ⟨rfl, hkeeps⟩
  split
  · rename_i htype
    refine (h.executeDelete hs hserv htype).bind ?_
    rintro ⟨r, file'⟩ ⟨type, c'⟩ - - ⟨heq, hkeeps⟩
    obtain rfl : r.type = type := heq
    exact .ok ⟨rfl, hkeeps⟩
  split
  · rename_i htype
    refine (h.executeUpdate hs hserv htype).bind ?_
    rintro ⟨status, file'⟩ ⟨status', c'⟩ - - ⟨heq, hkeeps⟩
    obtain rfl : status = status' := heq
    exact .ok ⟨rfl, hkeeps⟩
  split
  · refine (h.finds hs).bind ?_
    intro r found _ _ hfinds
    refine (h.findAnswer hs env.sprintfF hfinds).bind ?_
    rintro a b - - rfl
    exact .ok ⟨rfl, h⟩
  split
  · rename_i htype
    refine (h.executeJoin hs hserv htype).bind ?_
    rintro list es - - ⟨rfl, hes⟩
    rw [h.documentChildren hes]
    exact .ok ⟨rfl, h⟩
  split
  · rw [← bind_assoc (c.find env.catalog root)]
    refine (h.executeParent hs).bind ?_
    rintro doc e - - hname
    refine .ok ⟨?_, h⟩
    simp only [Zgdb.documentChildren, nameChildren, List.map_cons, List.map_nil, hname]
  · exact .ok ⟨rfl, h⟩

end Requests

/-! ## 4. Sessions

The relation holds at the start and is kept by each request, so it holds after any number of them.
-/

/-- Every request of the session is servable where it is served.  As with clean sessions, the
condition on a request is on the file that those before it have left. -/
def ServableSession (env : ServerEnv A) : List (UInt32 × XmlNode) → ZgdbFile A → Prop
  | [], _ => True
  | (now, root) :: requests, file =>
    Servable { env with now := now } root file ∧
      ∀ answer file', executeZgdbFromXml { env with now := now } (loopBound file) root file
        = .ok (answer, file') → ServableSession env requests file'

/-- Every place of the session is free where it is taken.  The server chooses the place of a
document by the index it gets, and an index that is free is no node of the tree. -/
def FreePlaces (strtod : CString → StrtodResult) (sprintfF : UInt64 → CString) :
    List ((UInt32 × XmlNode) × Place) → Catalog → Prop
  | [], _ => True
  | ((now, root), place) :: requests, c =>
    place.node ∉ c.tree.nodes ∧
      ∀ answer c', c.execute ⟨strtod, sprintfF, now⟩ place root = .ok (answer, c') →
        FreePlaces strtod sprintfF requests c'

/-- The session in the file is a session on the catalog, with some free places for its documents.
Answers are the same, crashes are the same, and the file that is left keeps the catalog that is
left. -/
def ServesLike (env : ServerEnv A) (requests : List (UInt32 × XmlNode)) (file : ZgdbFile A)
    (c : Catalog) : Prop :=
  ∃ places : List Place, places.length = requests.length ∧
    FreePlaces env.search.strtod env.sprintfF (requests.zip places) c ∧
    Agree Mirrors (serve env requests file)
      (Catalog.serve env.search.strtod env.sprintfF (requests.zip places) c)

section Sessions

variable {env : ServerEnv A} {file : ZgdbFile A} {c : Catalog} {requests : List (UInt32 × XmlNode)}

/-- **A session from any store** that keeps a catalog. -/
theorem Keeps.serve (h : Keeps file c) (hserv : ServableSession env requests file) :
    ServesLike env requests file c := by
  induction requests generalizing file c with
  | nil => exact ⟨[], rfl, trivial, .ok ⟨rfl, h⟩⟩
  | cons x requests ih =>
    obtain ⟨now, root⟩ := x
    obtain ⟨hone, hrest⟩ := hserv
    obtain ⟨place, hfresh, hexec⟩ := h.execute hone
    have hexec' : Agree Mirrors
        (executeZgdbFromXml { env with now := now } (loopBound file) root file)
        (c.execute ⟨env.search.strtod, env.sprintfF, now⟩ place root) := hexec
    cases hrun : executeZgdbFromXml { env with now := now } (loopBound file) root file with
    | error crash =>
      rw [hrun] at hexec'
      obtain ⟨places, hlen⟩ : ∃ places : List Place, places.length = requests.length :=
        ⟨List.replicate requests.length place, List.length_replicate⟩
      refine ⟨place :: places, congrArg Nat.succ hlen, ⟨hfresh, ?_⟩, ?_⟩
      · intro answer c' hc
        rw [hc] at hexec'
        cases hexec'
      · rw [List.zip_cons_cons, Zgdb.serve, Catalog.serve, hrun]
        generalize c.execute ⟨env.search.strtod, env.sprintfF, now⟩ place root = y at hexec' ⊢
        cases hexec'
        exact .error crash
    | ok x =>
      obtain ⟨answer, file'⟩ := x
      rw [hrun] at hexec'
      obtain ⟨⟨answer', c'⟩, hc, heq, hkeeps⟩ := hexec'.of_ok
      obtain rfl : answer = answer' := heq
      obtain ⟨places, hlen, hfree, hserve⟩ := ih hkeeps (hrest answer file' hrun)
      refine ⟨place :: places, congrArg Nat.succ hlen, ⟨hfresh, ?_⟩, ?_⟩
      · intro answer' c'' hc'
        obtain ⟨-, rfl⟩ := Prod.mk.inj (Except.ok.inj (hc.symm.trans hc'))
        exact hfree
      · rw [List.zip_cons_cons, Zgdb.serve, Catalog.serve, hrun, hc]
        refine hserve.bind ?_
        rintro ⟨answers, file1⟩ ⟨answers', c1⟩ - - ⟨heq, hkeeps1⟩
        obtain rfl : answers = answers' := heq
        exact .ok ⟨rfl, hkeeps1⟩

/-- **The server refines a catalog.**  A session from a new store gives the answers of a session on
a catalog with the root alone, or crashes with it and alike, and the store that it leaves keeps the
catalog that is left. -/
theorem server_refines_catalog {now : UInt32} (hserv : ServableSession env requests (init now)) :
    ∃ id, ServesLike env requests (init now) (.new id) := by
  obtain ⟨id, hkeeps⟩ := keeps_init (A := A) now
  exact ⟨id, hkeeps.serve hserv⟩

end Sessions

/-- A request to add a document is servable in a new store. -/
theorem servable_addA (env : ServerEnv A) :
    Servable env (addA env.sprintfF) (init env.now : ZgdbFile A) := by
  obtain ⟨schema, hcall, hfull, hclean, hreturns⟩ := addA_call env
  have htype : xmlGetProp (addA env.sprintfF) "type" = some (xmlChar "add") :=
    type_prop env.sprintfF ⟨pathRoot.ast, pathRoot.ast.length⟩ (.add stringA numberA)
  refine ⟨?_, ?_, ?_, ?_⟩
  · rintro call hcall'
    rwa [← Option.some.inj (hcall.symm.trans hcall')]
  · rintro call hcall'
    rwa [← Option.some.inj (hcall.symm.trans hcall')]
  · rintro call hcall'
    rwa [← Option.some.inj (hcall.symm.trans hcall')]
  · intro hjoin
    cases Option.some.inj (htype.symm.trans hjoin)

/-- A session of one request on the catalog. -/
theorem server_refines_catalog_addA : ∃ (id : DocumentId) (place : Place) (answers : List XmlNode)
    (file : ZgdbFile RecordPos) (c : Catalog),
    serve recordServer [(0, addA recordServer.sprintfF)] (init 0) = .ok (answers, file) ∧
      Catalog.serve recordServer.search.strtod recordServer.sprintfF
        [((0, addA recordServer.sprintfF), place)] (.new id) = .ok (answers, c) ∧
      Keeps file c := by
  obtain ⟨answer, file, hexec⟩ := addA_served recordServer
  have hrun : serve recordServer [(0, addA recordServer.sprintfF)] (init 0)
      = .ok ([answer], file) := by
    have hexec' : executeZgdbFromXml { recordServer with now := 0 }
        (loopBound (init 0 : ZgdbFile RecordPos)) (addA recordServer.sprintfF) (init 0)
        = .ok (answer, file) := hexec
    rw [serve, hexec']
    rfl
  have hserv : ServableSession recordServer [(0, addA recordServer.sprintfF)] (init 0) :=
    ⟨servable_addA recordServer, fun _ _ _ => trivial⟩
  obtain ⟨id, places, hlen, -, hagree⟩ := server_refines_catalog hserv
  obtain ⟨place, rfl⟩ := List.length_eq_one_iff.mp hlen
  rw [hrun] at hagree
  obtain ⟨⟨answers, c⟩, hserve, heq, hkeeps⟩ := hagree.of_ok
  obtain rfl : [answer] = answers := heq
  exact ⟨id, place, [answer], file, c, hrun, hserve, hkeeps⟩

end Zgdb
